import Xv6Gui.FileSystem

/-!
# What the calls do to inodes and references

An inode without links is in some process's hands. Then giving back a reference just taken
changes nothing, so a path can be resolved without regard to references, and every call is
described by the inodes it writes and the references it leaves.
-/
namespace FileSystemSpecs

open GuardedRuns Directories FileSystem
open WindowManagerState (ProcId)
open FileTable (FileId FileFault filealloc fdalloc setFile setSlot oCreate oRdonly)

section Holds

variable {s t : System} {i j dp : ℕ} {v : Inode} {name : Name}

/-- No allocated inode without links is left to itself. -/
def Anchored (s : System) : Prop :=
  ∀ i, (s.inode i).type ≠ .free → (s.inode i).nlink = 0 → s.iref i ≠ 0

@[simp] theorem hold_inode (s : System) (i : ℕ) : (hold s i).inode = s.inode := rfl
@[simp] theorem hold_tables (s : System) (i : ℕ) : (hold s i).tables = s.tables := rfl
@[simp] theorem hold_cwd (s : System) (i : ℕ) : (hold s i).cwd = s.cwd := rfl
@[simp] theorem hold_ninodes (s : System) (i : ℕ) : (hold s i).ninodes = s.ninodes := rfl

@[simp] theorem hold_iref_self (s : System) (i : ℕ) : (hold s i).iref i = s.iref i + 1 :=
  Function.update_self _ _ _

theorem hold_iref_of_ne (h : j ≠ i) : (hold s i).iref j = s.iref j := Function.update_of_ne h _ _

theorem hold_comm (s : System) (i j : ℕ) : hold (hold s i) j = hold (hold s j) i := by
  by_cases h : i = j
  · rw [h]
  · simp only [hold, Function.update_of_ne h, Function.update_of_ne (Ne.symm h),
      Function.update_comm h]

@[simp] theorem setInode_inode_self (s : System) (i : ℕ) (v : Inode) :
    (setInode s i v).inode i = v := Function.update_self _ _ _

theorem setInode_inode_of_ne (h : j ≠ i) : (setInode s i v).inode j = s.inode j :=
  Function.update_of_ne h _ _

theorem setInode_hold (s : System) (i j : ℕ) (v : Inode) :
    setInode (hold s i) j v = hold (setInode s j v) i := rfl

@[simp] theorem setInode_setInode (s : System) (i : ℕ) (v w : Inode) :
    setInode (setInode s i v) i w = setInode s i w := by
  simp only [setInode, Function.update_idem]

theorem setInode_comm (h : i ≠ j) (v w : Inode) :
    setInode (setInode s i v) j w = setInode (setInode s j w) i v := by
  simp only [setInode, Function.update_comm h]

theorem iput_hold (h : Anchored s) (i : ℕ) : iput (hold s i) i = s := by
  have hkept : ¬((s.inode i).type ≠ .free ∧ (s.inode i).nlink = 0 ∧ s.iref i + 1 = 1) := by
    rintro ⟨htype, hlink, href⟩
    exact h i htype hlink (by omega)
  simp only [iput, hold_inode, hold_iref_self, if_neg hkept, Nat.add_sub_cancel]
  simp only [hold, Function.update_idem, Function.update_eq_self]

theorem anchored_hold (h : Anchored s) (i : ℕ) : Anchored (hold s i) := by
  intro j htype hlink
  by_cases hj : j = i
  · rw [hj, hold_iref_self]
    exact Nat.succ_ne_zero _
  · rw [hold_iref_of_ne hj]
    exact h j htype hlink

theorem anchored_setInode (h : Anchored s)
    (hv : v.type ≠ .free → v.nlink = 0 → s.iref i ≠ 0) : Anchored (setInode s i v) := by
  intro j htype hlink
  by_cases hj : j = i
  · subst hj
    rw [setInode_inode_self] at htype hlink
    exact hv htype hlink
  · rw [setInode_inode_of_ne hj] at htype hlink
    exact h j htype hlink

theorem anchored_iput (h : Anchored s) (i : ℕ) : Anchored (iput s i) := by
  intro j
  simp only [iput]
  split
  · next hfree =>
    by_cases hj : j = i
    · subst hj
      intro htype
      simp [ifree] at htype
    · intro htype hlink
      simp only [ifree, setInode_inode_of_ne hj] at htype hlink
      simpa [ifree, setInode, hj] using h j htype hlink
  · next hkept =>
    intro htype hlink
    by_cases hj : j = i
    · subst hj
      have href := h j htype hlink
      have hone : s.iref j ≠ 1 := fun hone => hkept ⟨htype, hlink, hone⟩
      simp only [Function.update_self]
      omega
    · simpa [hj] using h j htype hlink

theorem iget_eq_ok (h : iget s i = .ok t) : t = hold s i := by
  simp only [iget] at h
  split at h
  · exact nomatch h
  · cases h
    rfl

theorem ilock_eq_ok {u : Unit} (h : ilock s i = .ok u) : (s.inode i).type ≠ .free := by
  simp only [ilock] at h
  split at h
  · exact nomatch h
  · next hn => exact hn

theorem dirlookup_cases {r : Option (ℕ × ℕ)} (h : dirlookup s dp name = .ok (t, r)) :
    dirscan (s.inode dp).entries name = none ∧ r = none ∧ t = s ∨
      ∃ i off, dirscan (s.inode dp).entries name = some (i, off) ∧ r = some (i, off) ∧
        t = hold s i := by
  simp only [dirlookup] at h
  split at h
  · exact nomatch h
  · split at h
    · next hscan =>
      cases h
      exact Or.inl ⟨hscan, rfl, rfl⟩
    · next i off hscan =>
      obtain ⟨u, hu, hr⟩ := bind_eq_ok.mp h
      cases hr
      exact Or.inr ⟨i, off, hscan, rfl, iget_eq_ok hu⟩

def enter (s : System) (dp : ℕ) (de : Dirent) : System :=
  setInode s dp { s.inode dp with entries := putEntry de (s.inode dp).entries }

theorem dirlink_new {inum : ℕ} {ok : Bool} (hscan : dirscan (s.inode dp).entries name = none)
    (hlink : dirlink s dp name inum = .ok (t, ok)) :
    ok = true ∧ t = enter s dp ⟨ushort inum, name⟩ := by
  obtain ⟨⟨u, r⟩, hu, ht⟩ := bind_eq_ok.mp hlink
  rcases dirlookup_cases hu with ⟨-, rfl, rfl⟩ | ⟨i, off, hsome, -, -⟩
  · simp only [] at ht
    split at ht
    · exact nomatch ht
    · cases ht
      exact ⟨rfl, rfl⟩
  · rw [hscan] at hsome
    exact nomatch hsome

/-- Either the name is taken and nothing changes, or the entry is written. -/
theorem dirlink_cases {inum : ℕ} {ok : Bool} (h : Anchored s)
    (hlink : dirlink s dp name inum = .ok (t, ok)) :
    ok = false ∧ t = s ∧ dirscan (s.inode dp).entries name ≠ none ∨
      ok = true ∧ t = enter s dp ⟨ushort inum, name⟩ ∧
        dirscan (s.inode dp).entries name = none := by
  obtain ⟨⟨u, r⟩, hu, ht⟩ := bind_eq_ok.mp hlink
  rcases dirlookup_cases hu with ⟨hscan, -, -⟩ | ⟨i, off, hscan, rfl, rfl⟩
  · obtain ⟨hok, ht⟩ := dirlink_new hscan hlink
    exact Or.inr ⟨hok, ht, hscan⟩
  · left
    simp only [] at ht
    split at ht
    · exact nomatch ht
    · cases ht
      exact ⟨rfl, iput_hold h i, by rw [hscan]; nofun⟩

end Holds

section Paths

variable {s t : System} {p : ProcId} {i ip dp : ℕ} {name : Name} {names : List Name}
  {path : List UInt8} {parent : Bool} {r : Option (ℕ × Name)}

/-- Where a path leads, without regard to references. -/
def walk (inode : ℕ → Inode) (parent : Bool) (ip : ℕ) : List Name → Option (ℕ × Name)
  | [] => if parent then none else some (ip, [])
  | name :: rest =>
    if (inode ip).type ≠ .dir then none
    else if parent ∧ rest = [] then some (ip, name)
    else
      match dirscan (inode ip).entries name with
      | none => none
      | some (next, _) => walk inode parent next rest

def lookup (s : System) (p : ProcId) (path : List UInt8) (parent : Bool) : Option (ℕ × Name) :=
  walk s.inode parent (if path.head? = some slash then rootino else s.cwd p) (elems path)

theorem namexFrom_eq_ok (h : Anchored s) (ht : namexFrom parent (hold s ip) ip names = .ok (t, r)) :
    r = walk s.inode parent ip names ∧ t = r.elim s fun x => hold s x.1 := by
  induction names generalizing ip with
  | nil =>
    simp only [namexFrom] at ht
    simp only [walk]
    split at ht
    · next hp =>
      cases ht
      exact ⟨(if_pos hp).symm, iput_hold h ip⟩
    · next hp =>
      cases ht
      exact ⟨(if_neg hp).symm, rfl⟩
  | cons name rest ih =>
    simp only [namexFrom] at ht
    obtain ⟨_, -, ht⟩ := bind_eq_ok.mp ht
    simp only [walk]
    split at ht
    · next hdir =>
      rw [if_pos (by exact hdir)]
      cases ht
      exact ⟨rfl, iput_hold h ip⟩
    · next hdir =>
      rw [if_neg (by exact hdir)]
      split at ht
      · next hp =>
        rw [if_pos hp]
        cases ht
        exact ⟨rfl, rfl⟩
      · next hp =>
        rw [if_neg hp]
        obtain ⟨⟨u, x⟩, hu, ht⟩ := bind_eq_ok.mp ht
        rcases dirlookup_cases hu with ⟨hscan, rfl, rfl⟩ | ⟨i, off, hscan, rfl, rfl⟩
        · rw [hold_inode] at hscan
          rw [hscan]
          cases ht
          exact ⟨rfl, iput_hold h ip⟩
        · rw [hold_inode] at hscan
          rw [hscan]
          simp only [hold_comm s ip i, iput_hold (anchored_hold h i)] at ht
          exact ih ht

theorem namex_eq_ok (h : Anchored s) (ht : namex s p path parent = .ok (t, r)) :
    r = lookup s p path parent ∧ t = r.elim s fun x => hold s x.1 := by
  simp only [namex] at ht
  simp only [lookup]
  split at ht
  · next hroot =>
    rw [if_pos hroot]
    obtain ⟨u, hu, ht⟩ := bind_eq_ok.mp ht
    cases iget_eq_ok hu
    exact namexFrom_eq_ok h ht
  · next hroot =>
    rw [if_neg hroot]
    exact namexFrom_eq_ok h ht

theorem namex_cases (h : Anchored s) (ht : namex s p path parent = .ok (t, r)) :
    lookup s p path parent = none ∧ r = none ∧ t = s ∨
      ∃ i name, lookup s p path parent = some (i, name) ∧ r = some (i, name) ∧ t = hold s i := by
  obtain ⟨rfl, rfl⟩ := namex_eq_ok h ht
  cases lookup s p path parent with
  | none => exact Or.inl ⟨rfl, rfl, rfl⟩
  | some x => exact Or.inr ⟨x.1, x.2, rfl, rfl, rfl⟩

/-- The parent that a path leads to is a directory. -/
theorem walk_parent {inode : ℕ → Inode} (h : walk inode true ip names = some (dp, name)) :
    (inode dp).type = .dir := by
  induction names generalizing ip with
  | nil => exact nomatch h
  | cons n rest ih =>
    simp only [walk] at h
    split at h
    · exact nomatch h
    · next hdir =>
      split at h
      · cases h
        exact not_not.mp hdir
      · split at h
        · exact nomatch h
        · exact ih h

theorem lookup_parent (h : lookup s p path true = some (dp, name)) :
    (s.inode dp).type = .dir := walk_parent h

/-- Paths depend only on the types and the entries. -/
theorem walk_congr {inode inode' : ℕ → Inode} (ht : ∀ i, (inode' i).type = (inode i).type)
    (he : ∀ i, (inode' i).entries = (inode i).entries) (parent : Bool) (ip : ℕ)
    (names : List Name) : walk inode' parent ip names = walk inode parent ip names := by
  induction names generalizing ip with
  | nil => rfl
  | cons name rest ih => simp only [walk, ht, he, ih]

end Paths

section Create

variable {s t : System} {p : ProcId} {ip dp : ℕ} {name : Name} {path : List UInt8}
  {type : InodeType} {major minor : BitVec 16}

/-- The entries that `create` makes in a new directory. -/
def dots (dp ip : ℕ) : List Dirent := putEntry ⟨ushort dp, dotdot⟩ (putEntry ⟨ushort ip, dot⟩ [])

def newInode (dp ip : ℕ) (type : InodeType) (major minor : BitVec 16) : Inode where
  type := type
  major := major
  minor := minor
  nlink := 1
  entries := if type = .dir then dots dp ip else []
  data := []

/-- The parent with the new entry, and for a directory with the link of its `..`. -/
def grown (d : Inode) (type : InodeType) (de : Dirent) : Inode :=
  { d with
    nlink := if type = .dir then d.nlink + 1 else d.nlink
    entries := putEntry de d.entries }

/-- After a create that made a new inode, which carries a reference. -/
def made (s : System) (dp ip : ℕ) (name : Name) (type : InodeType) (major minor : BitVec 16) :
    System :=
  hold (setInode (setInode s ip (newInode dp ip type major minor)) dp
    (grown (s.inode dp) type ⟨ushort ip, name⟩)) ip

theorem ialloc_eq_ok (h : ialloc s type = .ok (t, ip)) :
    ip ≠ 0 ∧ ip < s.ninodes ∧ (s.inode ip).type = .free ∧
      t = hold (setInode s ip ⟨type, 0, 0, 0, [], []⟩) ip := by
  simp only [ialloc] at h
  split at h
  · exact nomatch h
  · next i hfind =>
    obtain ⟨u, hu, ht⟩ := bind_eq_ok.mp h
    cases ht
    have hmem := List.mem_range.mp (List.mem_of_find?_eq_some hfind)
    have hfree := List.find?_some hfind
    simp only [decide_eq_true_eq] at hfree
    exact ⟨hfree.1, hmem, hfree.2, iget_eq_ok hu⟩

theorem makeDots_eq_ok (hne : ip ≠ dp) (hnew : (s.inode ip).entries = [])
    (h : makeDots s dp ip = .ok t) :
    t = setInode (setNlink s dp ((s.inode dp).nlink + 1)) ip
      { s.inode ip with entries := dots dp ip } := by
  simp only [makeDots] at h
  obtain ⟨⟨u, ok⟩, hu, h⟩ := bind_eq_ok.mp h
  have hip : (setNlink s dp ((s.inode dp).nlink + 1)).inode ip = s.inode ip :=
    setInode_inode_of_ne hne
  obtain ⟨rfl, rfl⟩ := dirlink_new (by rw [hip, hnew]; rfl) hu
  simp only [if_true] at h
  obtain ⟨⟨u, ok⟩, hu, h⟩ := bind_eq_ok.mp h
  have hone : dirscan [⟨ushort ip, dot⟩] dotdot = none := by
    simp [dirscan, dot, dotdot]
  obtain ⟨rfl, rfl⟩ := dirlink_new
    (by simp only [enter, setInode_inode_self, hip, hnew, putEntry, hone]) hu
  cases h
  simp only [enter, setInode_inode_self, setInode_setInode, hip, hnew, dots]

theorem makeInode_eq_ok {r : Option ℕ} (hdir : (s.inode dp).type = .dir)
    (hscan : dirscan (s.inode dp).entries name = none)
    (h : makeInode s dp name type major minor = .ok (t, r)) :
    ∃ ip, r = some ip ∧ ip ≠ 0 ∧ ip < s.ninodes ∧ (s.inode ip).type = .free ∧
      t = iput (made s dp ip name type major minor) dp := by
  simp only [makeInode] at h
  obtain ⟨⟨u, ip⟩, hu, h⟩ := bind_eq_ok.mp h
  obtain ⟨hzero, hlt, hfree, rfl⟩ := ialloc_eq_ok hu
  have hne : ip ≠ dp := by
    rintro rfl
    rw [hdir] at hfree
    cases hfree
  have hdp : (setInode s ip ⟨type, 0, 0, 0, [], []⟩).inode dp = s.inode dp :=
    setInode_inode_of_ne (Ne.symm hne)
  obtain ⟨_, -, h⟩ := bind_eq_ok.mp h
  simp only [hold_inode, setInode_inode_self, setInode_hold, setInode_setInode] at h
  -- What is left is the entry in `dp`, whose entries are still those of the start.
  have hlast : ∀ {v w : System} {ok : Bool} {n : BitVec 16}, v = hold (setInode (setInode s ip
      (newInode dp ip type major minor)) dp { s.inode dp with nlink := n }) ip →
      (n = if type = .dir then (s.inode dp).nlink + 1 else (s.inode dp).nlink) →
      dirlink v dp name ip = .ok (w, ok) → (if ok then Except.ok (iput w dp, some ip)
        else Except.error (Fault.panic "create: dirlink")) = Except.ok (t, r) →
      r = some ip ∧ t = iput (made s dp ip name type major minor) dp := by
    rintro v w ok n rfl rfl hw h
    obtain ⟨rfl, rfl⟩ := dirlink_new (by simp only [hold_inode, setInode_inode_self, hscan]) hw
    cases h
    refine ⟨rfl, ?_⟩
    simp only [enter, hold_inode, setInode_inode_self, setInode_hold, setInode_setInode, made,
      grown]
  refine ⟨ip, ?_⟩
  suffices hend : r = some ip ∧ t = iput (made s dp ip name type major minor) dp from
    ⟨hend.1, hzero, hlt, hfree, hend.2⟩
  split at h
  · next htype =>
    obtain ⟨v, hv, h⟩ := bind_eq_ok.mp h
    obtain rfl := makeDots_eq_ok hne (by rw [hold_inode, setInode_inode_self]) hv
    obtain ⟨⟨w, ok⟩, hw, h⟩ := bind_eq_ok.mp h
    refine hlast ?_ (if_pos htype).symm hw h
    simp only [setNlink, hold_inode, setInode_hold, setInode_inode_self,
      setInode_inode_of_ne (Ne.symm hne), newInode, if_pos htype, setInode_comm (Ne.symm hne),
      setInode_setInode]
  · next htype =>
    simp only [ok_bind] at h
    obtain ⟨⟨w, ok⟩, hw, h⟩ := bind_eq_ok.mp h
    refine hlast ?_ (if_neg htype).symm hw h
    have hsame : setInode (setInode s ip (newInode dp ip type major minor)) dp (s.inode dp) =
        setInode s ip (newInode dp ip type major minor) := by
      rw [setInode_comm hne]
      congr 1
      simp only [setInode, Function.update_eq_self]
    change _ = hold (setInode _ dp (s.inode dp)) ip
    rw [hsame]
    simp only [newInode, if_neg htype]

/-- The four ways out of `create`. -/
inductive Creates (s : System) (p : ProcId) (path : List UInt8) (type : InodeType)
    (major minor : BitVec 16) : System → Option ℕ → Prop where
  | noParent : lookup s p path true = none → Creates s p path type major minor s none
  | taken {dp : ℕ} {name : Name} {i off : ℕ} : lookup s p path true = some (dp, name) →
    dirscan (s.inode dp).entries name = some (i, off) →
    ¬(type = .file ∧ (s.inode i).type = .file) → Creates s p path type major minor s none
  | found {dp : ℕ} {name : Name} {i off : ℕ} : lookup s p path true = some (dp, name) →
    dirscan (s.inode dp).entries name = some (i, off) → type = .file → (s.inode i).type = .file →
    Creates s p path type major minor (hold s i) (some i)
  | made {dp : ℕ} {name : Name} {ip : ℕ} : lookup s p path true = some (dp, name) →
    dirscan (s.inode dp).entries name = none → ip ≠ 0 → ip < s.ninodes →
    (s.inode ip).type = .free → Creates s p path type major minor
      (iput (hold (made s dp ip name type major minor) dp) dp) (some ip)

theorem create_eq_ok {r : Option ℕ} (h : Anchored s)
    (hcall : create s p path type major minor = .ok (t, r)) :
    Creates s p path type major minor t r := by
  simp only [create] at hcall
  obtain ⟨⟨u, x⟩, hu, ht⟩ := bind_eq_ok.mp hcall
  rcases namex_cases h hu with ⟨hlook, rfl, rfl⟩ | ⟨dp, name, hlook, rfl, rfl⟩
  · cases ht
    exact .noParent hlook
  · have hdir := lookup_parent hlook
    obtain ⟨_, -, ht⟩ := bind_eq_ok.mp ht
    obtain ⟨⟨v, y⟩, hv, ht⟩ := bind_eq_ok.mp ht
    rcases dirlookup_cases hv with ⟨hscan, rfl, rfl⟩ | ⟨i, off, hscan, rfl, rfl⟩
    · obtain ⟨ip, rfl, hzero, hlt, hfree, rfl⟩ :=
        makeInode_eq_ok (by exact hdir) (by exact hscan) ht
      have hmade : FileSystemSpecs.made (hold s dp) dp ip name type major minor =
          hold (FileSystemSpecs.made s dp ip name type major minor) dp := by
        simp only [FileSystemSpecs.made, hold_inode, setInode_hold]
        rw [hold_comm]
      rw [hmade]
      exact .made hlook hscan hzero hlt hfree
    · simp only [hold_comm s dp i, iput_hold (anchored_hold h i)] at ht
      obtain ⟨_, -, ht⟩ := bind_eq_ok.mp ht
      split at ht
      · next hfile =>
        cases ht
        exact .found hlook hscan hfile.1 hfile.2
      · next hfile =>
        cases ht
        rw [iput_hold h]
        exact .taken hlook hscan hfile

end Create

section Calls

variable {s t u : System} {p : ProcId} {i j ip dp : ℕ} {name : Name} {r : ℤ}

/-- A struct file that is free has no type. -/
def ClosedFiles (tables : FileTable.System) : Prop :=
  ∀ f, (tables.file f).ref = 0 → (tables.file f).type = .none

/-- No struct file is free, or no descriptor of the process. -/
def TablesFull (tables : FileTable.System) (p : ProcId) : Prop :=
  (∀ f, (tables.file f).ref ≠ 0) ∨ ∀ fd, tables.ofile (p, fd) ≠ none

/-- The struct file as `sys_open` fills it in. -/
def openedFile (v : FileTable.File) (ip : ℕ) (omode : BitVec 32) : FileTable.File :=
  { v with
    type := .inode
    ref := 1
    ip := ip
    off := 0
    readable := omode &&& FileTable.oWronly = 0
    writable := omode &&& FileTable.oWronly ≠ 0 ∨ omode &&& FileTable.oRdwr ≠ 0 }

def opened (s : System) (p : ProcId) (f : FileId) (fd : Fin FileTable.nofile) (ip : ℕ)
    (omode : BitVec 32) : System :=
  let tables := setFile s.tables f (openedFile (s.tables.file f) ip omode)
  { s with tables := setSlot tables (p, fd) (some f) }

theorem onTables_eq_ok {α : Type} {x : Except FileFault α} {a : α} (h : onTables x = .ok a) :
    x = .ok a := by
  cases x with
  | error e => exact nomatch h
  | ok b =>
    cases h
    rfl

/-- The last reference to a file on an inode gives the inode back. -/
theorem fileclose_eq_ok {f : FileId} : fileclose s f = .ok t ↔
    ∃ tables, FileTable.fileclose s.tables f = .ok tables ∧
      t = if (s.tables.file f).ref - 1 > 0 ∨ (s.tables.file f).type ≠ .inode then
        { s with tables := tables }
      else iput { s with tables := tables } (s.tables.file f).ip := by
  constructor
  · intro h
    obtain ⟨tables, htables, ht⟩ := bind_eq_ok.mp h
    refine ⟨tables, onTables_eq_ok htables, ?_⟩
    split at ht
    · next hmore =>
      cases ht
      exact (if_pos (Or.inl hmore)).symm
    · next hmore =>
      split at ht
      · next htype =>
        cases ht
        exact (if_neg (not_or.mpr ⟨hmore, not_not.mpr htype⟩)).symm
      · next htype =>
        cases ht
        exact (if_pos (Or.inr (by rw [htype]; nofun))).symm
      · next htype =>
        cases ht
        exact (if_pos (Or.inr (by rw [htype]; nofun))).symm
  · rintro ⟨tables, htables, rfl⟩
    have hok : onTables (FileTable.fileclose s.tables f) = .ok tables := by
      rw [htables]
      rfl
    simp only [fileclose, hok, ok_bind]
    by_cases hmore : (s.tables.file f).ref - 1 > 0
    · rw [if_pos hmore, if_pos (Or.inl hmore)]
      rfl
    · rw [if_neg hmore]
      cases htype : (s.tables.file f).type with
      | inode =>
        rw [if_neg (not_or.mpr ⟨hmore, not_not.mpr rfl⟩)]
        rfl
      | none | pipe =>
        rw [if_pos (Or.inr (by nofun))]
        rfl

theorem filealloc_eq_none {tables : FileTable.System} (h : filealloc tables = none) :
    ∀ f, (tables.file f).ref ≠ 0 := by
  intro f hf
  simp only [filealloc, Option.map_eq_none_iff, List.find?_eq_none] at h
  exact h f (List.mem_finRange f) (beq_iff_eq.mpr hf)

theorem filealloc_eq_some {tables tables' : FileTable.System} {f : FileId}
    (h : filealloc tables = some (f, tables')) :
    (tables.file f).ref = 0 ∧ tables' = setFile tables f { tables.file f with ref := 1 } := by
  simp only [filealloc, Option.map_eq_some_iff, Prod.mk.injEq] at h
  obtain ⟨f', hfind, rfl, rfl⟩ := h
  have hzero := List.find?_some hfind
  exact ⟨beq_iff_eq.mp hzero, rfl⟩

theorem fdalloc_eq_none {tables : FileTable.System} {f : FileId} (h : fdalloc tables p f = none)
    (fd : Fin FileTable.nofile) : tables.ofile (p, fd) ≠ none := by
  intro hfd
  simp only [fdalloc, Option.map_eq_none_iff, List.find?_eq_none] at h
  exact h fd (List.mem_finRange fd) (by rw [hfd]; rfl)

theorem fdalloc_eq_some {tables tables' : FileTable.System} {f : FileId}
    {fd : Fin FileTable.nofile} (h : fdalloc tables p f = some (fd, tables')) :
    tables.ofile (p, fd) = none ∧ tables' = setSlot tables (p, fd) (some f) := by
  simp only [fdalloc, Option.map_eq_some_iff, Prod.mk.injEq] at h
  obtain ⟨fd', hfind, rfl, rfl⟩ := h
  have hfree := List.find?_some hfind
  exact ⟨Option.isNone_iff_eq_none.mp hfree, rfl⟩

theorem fileclose_fresh {f : FileId} (href : (s.tables.file f).ref = 1)
    (htype : (s.tables.file f).type = .none) :
    fileclose s f = .ok { s with
      tables := setFile s.tables f { s.tables.file f with ref := 0, type := .none } } := by
  have hopen : ¬(s.tables.file f).ref < 1 := by omega
  have hlast : ¬(s.tables.file f).ref - 1 > 0 := by omega
  have hclose : FileTable.fileclose s.tables f =
      .ok (setFile s.tables f { s.tables.file f with ref := 0, type := .none }) := by
    simp only [FileTable.fileclose, if_neg hopen, if_neg hlast, htype]
  simp only [fileclose, hclose, htype, if_neg hlast]
  rfl

/-- Without a free struct file or descriptor the inode is given back, and with both it is
opened. -/
theorem openFile_cases {omode : BitVec 32} (hclosed : ClosedFiles s.tables)
    (h : openFile s p ip omode = .ok (t, r)) :
    TablesFull s.tables p ∧ r = -1 ∧ t = iput s ip ∨
      ¬TablesFull s.tables p ∧ ∃ f fd, (s.tables.file f).ref = 0 ∧
        s.tables.ofile (p, fd) = none ∧ r = fd ∧ t = opened s p f fd ip omode := by
  simp only [openFile] at h
  cases hf : filealloc s.tables with
  | none =>
    rw [hf] at h
    cases h
    exact Or.inl ⟨Or.inl (filealloc_eq_none hf), rfl, rfl⟩
  | some x =>
    obtain ⟨f, tables⟩ := x
    rw [hf] at h
    obtain ⟨hzero, rfl⟩ := filealloc_eq_some hf
    simp only [] at h
    cases hfd : fdalloc (setFile s.tables f { s.tables.file f with ref := 1 }) p f with
    | none =>
      rw [hfd] at h
      have hfull : ∀ fd, s.tables.ofile (p, fd) ≠ none := fun fd => fdalloc_eq_none hfd fd
      have htype : (s.tables.file f).type = .none := hclosed f hzero
      have hself : (setFile s.tables f { s.tables.file f with ref := 1 }).file f =
          { s.tables.file f with ref := 1 } := Function.update_self _ _ _
      have hback : setFile (setFile s.tables f { s.tables.file f with ref := 1 }) f
          { (setFile s.tables f { s.tables.file f with ref := 1 }).file f with
            ref := 0, type := .none } = s.tables := by
        have hold : ({ s.tables.file f with ref := 0, type := .none } : FileTable.File) =
            s.tables.file f := by
          rw [← htype, ← hzero]
        rw [hself]
        simp only [setFile, Function.update_idem, hold, Function.update_eq_self]
      obtain ⟨v, hv, h⟩ := bind_eq_ok.mp h
      cases h
      rw [fileclose_fresh (by rw [hself]) (by rw [hself]; exact htype)] at hv
      cases hv
      refine Or.inl ⟨Or.inr hfull, rfl, ?_⟩
      simp only [hback]
    | some x =>
      obtain ⟨fd, tables⟩ := x
      rw [hfd] at h
      obtain ⟨hnone, rfl⟩ := fdalloc_eq_some hfd
      cases h
      have hfree : s.tables.ofile (p, fd) = none := hnone
      refine Or.inr ⟨?_, f, fd, hzero, hfree, rfl, ?_⟩
      · rintro (hfull | hfull)
        · exact hfull f hzero
        · exact hfull fd hfree
      · simp only [opened, openedFile, setFile, setSlot, Function.update_self,
          Function.update_idem]

@[simp] theorem iput_cwd (s : System) (i : ℕ) : (iput s i).cwd = s.cwd := by
  simp only [iput]
  split <;> rfl

@[simp] theorem iput_tables (s : System) (i : ℕ) : (iput s i).tables = s.tables := by
  simp only [iput]
  split <;> rfl

@[simp] theorem iput_ninodes (s : System) (i : ℕ) : (iput s i).ninodes = s.ninodes := by
  simp only [iput]
  split <;> rfl

/-- Giving back a reference does not look at descriptors. -/
theorem iput_setTables (s : System) (tables : FileTable.System) (i : ℕ) :
    iput { s with tables := tables } i =
      { iput s i with tables := tables } := by
  simp only [iput]
  split <;> rfl

theorem iput_inode_of_ne (h : j ≠ i) : (iput s i).inode j = s.inode j := by
  simp only [iput]
  split
  · exact setInode_inode_of_ne h
  · rfl

/-- Giving back a reference leaves an inode as it is or frees it. -/
theorem iput_inode_of_allocated (h : ((iput s i).inode j).type ≠ .free) :
    (iput s i).inode j = s.inode j := by
  by_cases hj : j = i
  · subst hj
    simp only [iput] at h ⊢
    split
    · next hfree =>
      rw [if_pos hfree] at h
      simp only [ifree, setInode_inode_self] at h
      exact absurd rfl h
    · rfl
  · exact iput_inode_of_ne hj

/-- After `create` has made an inode and given back the parent. -/
def created (s : System) (dp ip : ℕ) (name : Name) (type : InodeType) (major minor : BitVec 16) :
    System := iput (hold (made s dp ip name type major minor) dp) dp

/-- `create` has made an inode for the path: the parent is there and the name was free. -/
structure MakesNew (s : System) (p : ProcId) (path : List UInt8) (dp ip : ℕ) (name : Name) :
    Prop where
  parent : lookup s p path true = some (dp, name)
  absent : dirscan (s.inode dp).entries name = none
  nonzero : ip ≠ 0
  lt : ip < s.ninodes
  free : (s.inode ip).type = .free

theorem MakesNew.ne {path : List UInt8} (h : MakesNew s p path dp ip name) : ip ≠ dp := by
  rintro rfl
  have hdir := lookup_parent h.parent
  rw [h.free] at hdir
  exact nomatch hdir

/-- The path has a parent directory in which its last name is free. -/
def NameFree (s : System) (p : ProcId) : Option (List UInt8) → Prop
  | none => False
  | some path => ∃ dp name, lookup s p path true = some (dp, name) ∧
      dirscan (s.inode dp).entries name = none

theorem not_nameFree_of_none {path : List UInt8} (h : lookup s p path true = none) :
    ¬NameFree s p (some path) := by
  rintro ⟨dp, name, hd, -⟩
  rw [h] at hd
  exact nomatch hd

theorem not_nameFree_of_taken {path : List UInt8} {x : ℕ × ℕ}
    (h : lookup s p path true = some (dp, name))
    (hscan : dirscan (s.inode dp).entries name = some x) : ¬NameFree s p (some path) := by
  rintro ⟨dp', name', hd, hn⟩
  rw [h] at hd
  cases hd
  rw [hscan] at hn
  exact nomatch hn

/-- The ways out of `sys_open`: it fails and changes nothing, it opens an inode that was there,
or it has made the inode and then either opens it or fails with the tables full. -/
theorem sysOpen_cases {path : Option (List UInt8)} {omode : BitVec 32} (h : Anchored s)
    (hclosed : ClosedFiles s.tables) (hcall : sysOpen s p path omode = .ok (t, r)) :
    (r = -1 ∧ t = s ∧ ¬(omode &&& oCreate ≠ 0 ∧ NameFree s p path)) ∨
      (∃ path' ip f fd, path = some path' ∧ (s.inode ip).type ≠ .free ∧
        (s.tables.file f).ref = 0 ∧ s.tables.ofile (p, fd) = none ∧ r = fd ∧
        t = opened (hold s ip) p f fd ip omode) ∨
      ∃ path' dp ip name, path = some path' ∧ omode &&& oCreate ≠ 0 ∧
        MakesNew s p path' dp ip name ∧
        (TablesFull s.tables p ∧ r = -1 ∧ t = iput (created s dp ip name .file 0 0) ip ∨
          ¬TablesFull s.tables p ∧ ∃ f fd, (s.tables.file f).ref = 0 ∧
            s.tables.ofile (p, fd) = none ∧ r = fd ∧
            t = opened (created s dp ip name .file 0 0) p f fd ip omode) := by
  cases path with
  | none =>
    cases hcall
    exact Or.inl ⟨rfl, rfl, And.right⟩
  | some path =>
    simp only [sysOpen] at hcall
    split at hcall
    · next hcreate =>
      obtain ⟨⟨u, x⟩, hu, ht⟩ := bind_eq_ok.mp hcall
      cases create_eq_ok h hu with
      | noParent hlook =>
        cases ht
        exact Or.inl ⟨rfl, rfl, fun hn => not_nameFree_of_none hlook hn.2⟩
      | taken hlook hscan hfile =>
        cases ht
        exact Or.inl ⟨rfl, rfl, fun hn => not_nameFree_of_taken hlook hscan hn.2⟩
      | @found dp name ip off hlook hscan hfile htype =>
        have htables : (hold s ip).tables = s.tables := rfl
        rcases openFile_cases (by rwa [htables]) ht with
          ⟨-, rfl, rfl⟩ | ⟨-, f, fd, hf, hfd, hr, rfl⟩
        · exact Or.inl ⟨rfl, iput_hold h ip, fun hn => not_nameFree_of_taken hlook hscan hn.2⟩
        · exact Or.inr (Or.inl ⟨path, ip, f, fd, rfl, by rw [htype]; nofun, hf, hfd, hr, rfl⟩)
      | @made dp name ip hlook hscan hzero hlt hfree =>
        have hnew : MakesNew s p path dp ip name := ⟨hlook, hscan, hzero, hlt, hfree⟩
        have htables : (created s dp ip name .file 0 0).tables = s.tables := iput_tables _ dp
        change openFile (created s dp ip name .file 0 0) p ip omode = _ at ht
        have hcases := openFile_cases (by rwa [htables]) ht
        rw [htables] at hcases
        exact Or.inr (Or.inr ⟨path, dp, ip, name, rfl, hcreate, hnew, hcases⟩)
    · next hcreate =>
      have hvacuous : ¬(omode &&& oCreate ≠ 0 ∧ NameFree s p (some path)) :=
        fun hn => hcreate hn.1
      obtain ⟨⟨u, x⟩, hu, ht⟩ := bind_eq_ok.mp hcall
      rcases namex_cases h hu with ⟨hlook, rfl, rfl⟩ | ⟨ip, name, hlook, rfl, rfl⟩
      · cases ht
        exact Or.inl ⟨rfl, rfl, hvacuous⟩
      · obtain ⟨_, hlock, ht⟩ := bind_eq_ok.mp ht
        split at ht
        · cases ht
          exact Or.inl ⟨rfl, iput_hold h ip, hvacuous⟩
        · have htables : (hold s ip).tables = s.tables := rfl
          rcases openFile_cases (by rwa [htables]) ht with
            ⟨-, rfl, rfl⟩ | ⟨-, f, fd, hf, hfd, hr, rfl⟩
          · exact Or.inl ⟨rfl, iput_hold h ip, hvacuous⟩
          · exact Or.inr (Or.inl ⟨path, ip, f, fd, rfl, ilock_eq_ok hlock, hf, hfd, hr, rfl⟩)

/-- The inode that mkdir and mknod make, given back after the call. -/
theorem create_call_cases {path : Option (List UInt8)} {type : InodeType}
    {major minor : BitVec 16} (h : Anchored s) (htype : type ≠ .file)
    (hcall : (match path with
      | none => .ok (s, -1)
      | some path => do
        let (s, r) ← create s p path type major minor
        match r with
        | none => return (s, -1)
        | some ip => return (iput s ip, 0)) = Except.ok (t, r)) :
    r = -1 ∧ t = s ∨ r = 0 ∧ ∃ path' dp ip name, path = some path' ∧
      MakesNew s p path' dp ip name ∧ t = iput (created s dp ip name type major minor) ip := by
  cases path with
  | none =>
    cases hcall
    exact Or.inl ⟨rfl, rfl⟩
  | some path =>
    obtain ⟨⟨u, x⟩, hu, ht⟩ := bind_eq_ok.mp hcall
    cases create_eq_ok h hu with
    | noParent | taken =>
      cases ht
      exact Or.inl ⟨rfl, rfl⟩
    | found _ _ hfile => exact absurd hfile htype
    | @made dp name ip hlook hscan hzero hlt hfree =>
      cases ht
      exact Or.inr ⟨rfl, path, dp, ip, name, rfl, ⟨hlook, hscan, hzero, hlt, hfree⟩, rfl⟩

theorem sysChdir_cases {path : Option (List UInt8)} (h : Anchored s)
    (hcall : sysChdir s p path = .ok (t, r)) :
    r = -1 ∧ t = s ∨ r = 0 ∧ ∃ ip, (s.inode ip).type = .dir ∧
      t = { iput (hold s ip) (s.cwd p) with cwd := Function.update s.cwd p ip } := by
  cases path with
  | none =>
    cases hcall
    exact Or.inl ⟨rfl, rfl⟩
  | some path =>
    simp only [sysChdir] at hcall
    obtain ⟨⟨u, x⟩, hu, ht⟩ := bind_eq_ok.mp hcall
    rcases namex_cases h hu with ⟨hlook, rfl, rfl⟩ | ⟨ip, name, hlook, rfl, rfl⟩
    · cases ht
      exact Or.inl ⟨rfl, rfl⟩
    · obtain ⟨_, -, ht⟩ := bind_eq_ok.mp ht
      split at ht
      · cases ht
        exact Or.inl ⟨rfl, iput_hold h ip⟩
      · next hdir =>
        cases ht
        refine Or.inr ⟨rfl, ip, not_not.mp hdir, ?_⟩
        simp only [iput_cwd, hold_cwd]

/-- The entry of a link is written and the count of the file raised. -/
def linked (s : System) (dp ip : ℕ) (name : Name) : System :=
  enter (setNlink s ip ((s.inode ip).nlink + 1)) dp ⟨ushort ip, name⟩

/-- `link` found the file and a directory in which the new name is free. -/
structure AddsLink (s : System) (p : ProcId) (old new : List UInt8) (dp ip : ℕ) (name : Name) :
    Prop where
  file : ∃ name', lookup s p old false = some (ip, name')
  notDir : (s.inode ip).type ≠ .dir
  allocated : (s.inode ip).type ≠ .free
  parent : lookup s p new true = some (dp, name)
  absent : dirscan (s.inode dp).entries name = none

theorem AddsLink.ne {old new : List UInt8} (h : AddsLink s p old new dp ip name) : ip ≠ dp := by
  rintro rfl
  exact h.notDir (lookup_parent h.parent)

theorem linkBad_eq_ok (h : Anchored s)
    (ht : linkBad (setNlink (hold s ip) ip ((s.inode ip).nlink + 1)) ip = .ok (t, r)) :
    r = -1 ∧ t = s := by
  obtain ⟨_, -, ht⟩ := bind_eq_ok.mp ht
  cases ht
  refine ⟨rfl, ?_⟩
  simp only [setNlink, setInode_inode_self, setInode_setInode, hold_inode, BitVec.add_sub_cancel]
  have hsame : setInode (hold s ip) ip (s.inode ip) = hold s ip := by
    simp only [setInode, hold_inode, Function.update_eq_self]
    rfl
  exact (congrArg (iput · ip) hsame).trans (iput_hold h ip)

theorem sysLink_cases {old new : Option (List UInt8)} (h : Anchored s)
    (hcall : sysLink s p old new = .ok (t, r)) :
    r = -1 ∧ t = s ∨ r = 0 ∧ ∃ old' new' dp ip name, old = some old' ∧ new = some new' ∧
      AddsLink s p old' new' dp ip name ∧ t = iput (hold (linked s dp ip name) ip) ip := by
  cases old with
  | none =>
    cases hcall
    exact Or.inl ⟨rfl, rfl⟩
  | some old =>
    cases new with
    | none =>
      cases hcall
      exact Or.inl ⟨rfl, rfl⟩
    | some new =>
      simp only [sysLink] at hcall
      obtain ⟨⟨u, x⟩, hu, ht⟩ := bind_eq_ok.mp hcall
      rcases namex_cases h hu with ⟨hlook, rfl, rfl⟩ | ⟨ip, name', hlook, rfl, rfl⟩
      · cases ht
        exact Or.inl ⟨rfl, rfl⟩
      · obtain ⟨_, hlock, ht⟩ := bind_eq_ok.mp ht
        split at ht
        · cases ht
          exact Or.inl ⟨rfl, iput_hold h ip⟩
        · next hdir =>
          -- The link is counted before the new name is looked up.
          set c := setNlink (hold s ip) ip ((s.inode ip).nlink + 1) with hc
          have hanchor : Anchored c := by
            apply anchored_setInode (anchored_hold h ip)
            intro _ _
            rw [hold_iref_self]
            exact Nat.succ_ne_zero _
          have hsame : ∀ j, (c.inode j).type = (s.inode j).type ∧
              (c.inode j).entries = (s.inode j).entries := by
            intro j
            by_cases hj : j = ip
            · rw [hj, hc, setNlink, setInode_inode_self]
              exact ⟨rfl, rfl⟩
            · rw [hc, setNlink, setInode_inode_of_ne hj]
              exact ⟨rfl, rfl⟩
          have hwalk : lookup c p new true = lookup s p new true :=
            walk_congr (fun j => (hsame j).1) (fun j => (hsame j).2) _ _ _
          obtain ⟨⟨v, y⟩, hv, ht⟩ := bind_eq_ok.mp ht
          rcases namex_cases hanchor hv with ⟨hnew, rfl, hvc⟩ | ⟨dp, name, hnew, rfl, hvc⟩
          · subst hvc
            exact Or.inl (linkBad_eq_ok h ht)
          · subst hvc
            obtain ⟨_, -, ht⟩ := bind_eq_ok.mp ht
            obtain ⟨⟨w, ok⟩, hw, ht⟩ := bind_eq_ok.mp ht
            rcases dirlink_cases (anchored_hold hanchor dp) hw with
              ⟨rfl, rfl, hscan⟩ | ⟨rfl, rfl, hscan⟩
            · rw [if_neg (by simp), iput_hold hanchor dp] at ht
              exact Or.inl (linkBad_eq_ok h ht)
            · cases ht
              rw [hwalk] at hnew
              rw [hold_inode, (hsame dp).2] at hscan
              have hadds : AddsLink s p old new dp ip name :=
                ⟨⟨name', hlook⟩, hdir, ilock_eq_ok hlock, hnew, hscan⟩
              refine Or.inr ⟨rfl, old, new, dp, ip, name, rfl, rfl, hadds, ?_⟩
              have hput : enter (hold c dp) dp ⟨ushort ip, name⟩ =
                  hold (enter c dp ⟨ushort ip, name⟩) dp := rfl
              have hentered : Anchored (enter c dp ⟨ushort ip, name⟩) := by
                apply anchored_setInode hanchor
                exact hanchor dp
              rw [hput, iput_hold hentered]
              rfl

/-- The entry is cleared, and for a directory the link of its `..` given up. -/
def cut (s : System) (dp ip off : ℕ) : System :=
  setInode s dp { s.inode dp with
    nlink := if (s.inode ip).type = .dir then (s.inode dp).nlink - 1 else (s.inode dp).nlink
    entries := clearEntry (s.inode dp).entries off }

/-- After `unlink`: the parent is given back before the inode. -/
def unlinked (s : System) (dp ip off : ℕ) : System :=
  iput (setNlink (iput (hold (hold (cut s dp ip off) dp) ip) dp) ip ((s.inode ip).nlink - 1)) ip

/-- `unlink` found an entry that it may remove. -/
structure Removes (s : System) (p : ProcId) (path : List UInt8) (dp ip off : ℕ) (name : Name) :
    Prop where
  parent : lookup s p path true = some (dp, name)
  ne_dot : name ≠ dot
  ne_dotdot : name ≠ dotdot
  entry : dirscan (s.inode dp).entries name = some (ip, off)
  ne : ip ≠ dp
  allocated : (s.inode ip).type ≠ .free
  counted : 1 ≤ (s.inode ip).nlink.toInt
  empty : (s.inode ip).type = .dir → isdirempty (s.inode ip).entries = true

theorem sysUnlink_cases {path : Option (List UInt8)} (h : Anchored s)
    (hcall : sysUnlink s p path = .ok (t, r)) :
    r = -1 ∧ t = s ∨ r = 0 ∧ ∃ path' dp ip off name, path = some path' ∧
      Removes s p path' dp ip off name ∧ t = unlinked s dp ip off := by
  cases path with
  | none =>
    cases hcall
    exact Or.inl ⟨rfl, rfl⟩
  | some path =>
    simp only [sysUnlink] at hcall
    obtain ⟨⟨u, x⟩, hu, ht⟩ := bind_eq_ok.mp hcall
    rcases namex_cases h hu with ⟨hlook, rfl, rfl⟩ | ⟨dp, name, hlook, rfl, rfl⟩
    · cases ht
      exact Or.inl ⟨rfl, rfl⟩
    · obtain ⟨_, -, ht⟩ := bind_eq_ok.mp ht
      split at ht
      · cases ht
        exact Or.inl ⟨rfl, iput_hold h dp⟩
      · next hname =>
        obtain ⟨⟨v, y⟩, hv, ht⟩ := bind_eq_ok.mp ht
        rcases dirlookup_cases hv with ⟨hscan, rfl, rfl⟩ | ⟨ip, off, hscan, rfl, rfl⟩
        · cases ht
          exact Or.inl ⟨rfl, iput_hold h dp⟩
        · simp only [] at ht
          split at ht
          · exact nomatch ht
          · next hne =>
            obtain ⟨_, hlock, ht⟩ := bind_eq_ok.mp ht
            split at ht
            · exact nomatch ht
            · next hcount =>
              split at ht
              · cases ht
                exact Or.inl ⟨rfl, by rw [iput_hold (anchored_hold h dp), iput_hold h]⟩
              · next hempty =>
                cases ht
                have hremoves : Removes s p path dp ip off name :=
                  ⟨hlook, fun hd => hname (Or.inl hd), fun hd => hname (Or.inr hd), hscan, hne,
                    ilock_eq_ok hlock, not_lt.mp hcount,
                    fun hd => (Bool.not_eq_false _).mp fun he => hempty ⟨hd, he⟩⟩
                refine Or.inr ⟨rfl, path, dp, ip, off, name, rfl, hremoves, ?_⟩
                have hcut : ∀ w : System, w = hold (hold (cut s dp ip off) dp) ip →
                    iput (setNlink (iput w dp) ip (((iput w dp).inode ip).nlink - 1)) ip =
                      unlinked s dp ip off := by
                  rintro w rfl
                  rw [iput_inode_of_ne hne, hold_inode, hold_inode, cut,
                    setInode_inode_of_ne hne]
                  rfl
                apply hcut
                simp only [setInode_inode_of_ne hne, hold_inode, setInode_hold, setNlink,
                  setInode_inode_self, setInode_setInode, cut]
                split <;> rfl

end Calls

end FileSystemSpecs
