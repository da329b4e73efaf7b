import Xv6Gui.DirectoryTree
import Xv6Gui.FileReferences

/-!
# Who holds an inode

Between two calls a cached inode is held by the processes that are in it and by the struct
files that are open on it. Inside a call further references are in hand; `held` lists them, and
`iput` settles one.
-/
namespace HeldInodes

open GuardedRuns Directories FileSystem FileSystemSpecs DirectoryTree FailedCalls
open FileReferences (uses uses_fill uses_clear uses_pos fileclose_setSlot)
open WindowManagerState (ProcId)
open FileTable (FileId nofile setFile setSlot setLife)

section Invariant

variable {s t : System} {tables : FileTable.System} {p q : ProcId} {i j ip dp off : ℕ}
  {name : Name} {held held' : List ℕ} {pending pending' : List FileId} {f : FileId}
  {fd : Fin nofile} {v : Inode} {type : InodeType} {major minor : BitVec 16}

/-- The directory that a running process is in. -/
def cwdOf (s : System) (p : ProcId) : Option ℕ :=
  if s.tables.life p = .live then some (s.cwd p) else none

/-- The inode that a struct file is open on. -/
def fileOf (tables : FileTable.System) (f : FileId) : Option ℕ :=
  if (tables.file f).type = .inode then some (tables.file f).ip else none

/-- The table of inodes is in order, and every reference to one is accounted for. -/
structure Inv (held : List ℕ) (pending : List FileId) (s : System) : Prop where
  inodes : InodesOk s.ninodes s.inode
  anchored : Anchored s
  refs : ∀ i, s.iref i = uses (cwdOf s) i + uses (fileOf s.tables) i + held.count i
  files : FileReferences.Inv pending s.tables
  idle : ∀ q fd, s.tables.life q ≠ .live → s.tables.ofile (q, fd) = none

theorem Inv.sound (h : Inv held pending s) : Sound s := ⟨h.anchored, h.files.closed⟩

theorem count_held (i j : ℕ) (held : List ℕ) :
    (i :: held).count j = held.count j + if i = j then 1 else 0 := by
  rw [List.count_cons]
  simp only [beq_iff_eq]

theorem Inv.perm (h : Inv held pending s) (hp : held.Perm held') : Inv held' pending s :=
  ⟨h.inodes, h.anchored, fun i => hp.count_eq i ▸ h.refs i, h.files, h.idle⟩

theorem Inv.hold (h : Inv held pending s) (i : ℕ) : Inv (i :: held) pending (hold s i) := by
  refine ⟨h.inodes, anchored_hold h.anchored i, ?_, h.files, h.idle⟩
  intro j
  have hrefs := h.refs j
  change _ = uses (cwdOf s) j + uses (fileOf s.tables) j + _
  rw [count_held]
  by_cases hj : j = i
  · rw [hj, hold_iref_self, if_pos rfl]
    rw [hj] at hrefs
    omega
  · rw [hold_iref_of_ne hj, if_neg (Ne.symm hj)]
    omega

/-- The last reference to an inode without links goes together with the inode. -/
theorem Inv.iput (h : Inv (i :: held) pending s) : Inv held pending (iput s i) := by
  refine ⟨?_, anchored_iput h.anchored i, ?_, ?_, ?_⟩
  · rw [iput_ninodes]
    simp only [FileSystem.iput]
    split
    · next hfree => exact h.inodes.free hfree.1 hfree.2.1
    · exact h.inodes
  · intro j
    have hrefs := h.refs j
    rw [count_held] at hrefs
    have hcwd : cwdOf (FileSystem.iput s i) = cwdOf s := by
      funext p
      simp only [cwdOf, iput_tables, iput_cwd]
    rw [hcwd, iput_tables]
    by_cases hj : j = i
    · subst hj
      rw [if_pos rfl] at hrefs
      simp only [FileSystem.iput, Function.update_self]
      omega
    · rw [if_neg (Ne.symm hj)] at hrefs
      rw [iput_iref_of_ne hj]
      exact hrefs
  · rw [iput_tables]
    exact h.files
  · rw [iput_tables]
    exact h.idle

/-- The tables of files change; what they no longer hold is in hand. -/
theorem Inv.setTables (h : Inv held pending s) (hfiles : FileReferences.Inv pending' tables)
    (hlife : tables.life = s.tables.life)
    (hidle : ∀ q fd, s.tables.life q ≠ .live → tables.ofile (q, fd) = none)
    (hrefs : ∀ i, uses (fileOf tables) i + held'.count i =
      uses (fileOf s.tables) i + held.count i) :
    Inv held' pending' { s with tables := tables } := by
  refine ⟨h.inodes, h.anchored, ?_, hfiles, ?_⟩
  · intro i
    have hold := h.refs i
    have hnew := hrefs i
    have hcwd : cwdOf { s with tables := tables } = cwdOf s := by
      funext p
      simp only [cwdOf, hlife]
    rw [hcwd]
    change s.iref i = _ + uses (fileOf tables) i + _
    omega
  · intro q fd hq
    exact hidle q fd (hlife ▸ hq)

theorem fileOf_setFile (tables : FileTable.System) (f : FileId) (w : FileTable.File) :
    fileOf (setFile tables f w) = Function.update (fileOf tables) f
      (if w.type = .inode then some w.ip else none) := by
  funext g
  by_cases hg : g = f
  · subst hg
    simp only [fileOf, setFile, Function.update_self]
  · simp only [fileOf, setFile, Function.update_of_ne hg]

/-- A struct file takes over the reference that `open` holds. -/
theorem Inv.opened {omode : BitVec 32} (h : Inv [ip] [] s) (hp : s.tables.life p = .live)
    (hf : (s.tables.file f).ref = 0) (hfd : s.tables.ofile (p, fd) = none) :
    Inv [] [] (opened s p f fd ip omode) := by
  have htype := h.files.closed f hf
  have hzero := h.files.refs f
  have hone : 1 = uses s.tables.ofile f + [f].count f := by
    rw [List.count_cons_self, ← Nat.add_assoc, ← hzero, hf]
  have htaken := FileReferences.inv_ref h.files Nat.one_pos hone
    fun g hg => List.count_cons_of_ne (Ne.symm hg)
  have hopen : FileReferences.Inv [f]
      (setFile s.tables f (openedFile (s.tables.file f) ip omode)) := by
    refine FileReferences.inv_open htaken (h.files.pipes.setFile ?_ nofun) rfl ?_ ?_
    · rw [FileReferences.pipeEnd_of_type_ne (v := s.tables.file f) (by rw [htype]; nofun)]
      rfl
    · intro g
      by_cases hg : g = f
      · rw [hg, FileReferences.file_setFile_self, FileReferences.file_setFile_self]
        rfl
      · rw [FileReferences.file_setFile_of_ne hg, FileReferences.file_setFile_of_ne hg]
    · intro g hz
      by_cases hg : g = f
      · rw [hg, FileReferences.file_setFile_self] at hz
        exact absurd hz Nat.one_ne_zero
      · rw [FileReferences.file_setFile_of_ne hg, FileReferences.file_setFile_of_ne hg]
  refine h.setTables (FileReferences.inv_fill hopen hfd) rfl ?_ ?_
  · intro q fd' hq
    have hslot : ((q, fd') : FileTable.Slot) ≠ (p, fd) := by
      rintro ⟨⟩
      exact hq hp
    exact (Function.update_of_ne hslot _ _).trans (h.idle q fd' hq)
  · intro i
    have hnone : fileOf s.tables f = none := if_neg (by rw [htype]; nofun)
    have htype' : (openedFile (s.tables.file f) ip omode).type = .inode := rfl
    change uses (fileOf (setFile s.tables f _)) i + _ = _
    rw [fileOf_setFile, if_pos htype', uses_fill hnone, count_held]
    change _ + (if ip = i then 1 else 0) + _ = _
    omega

theorem fileclose_file {tables' : FileTable.System}
    (h : FileTable.fileclose tables f = .ok tables') : tables'.file = Function.update tables.file f
      (if (tables.file f).ref - 1 > 0 then { tables.file f with ref := (tables.file f).ref - 1 }
        else { tables.file f with ref := 0, type := .none }) := by
  simp only [FileTable.fileclose] at h
  split at h
  · cases h
  · split at h
    · next hmore =>
      cases h
      rw [if_pos hmore]
      rfl
    · next hmore =>
      rw [if_neg hmore]
      split at h
      · simp only [FileTable.pipeclose] at h
        split at h
        · cases h
        · split at h <;> cases h <;> rfl
      · cases h
        rfl
      · cases h
        rfl

/-- The reference that `fileclose` is given goes, and with the last one that of the inode. -/
theorem Inv.fileclose (h : Inv held (f :: pending) s) (ht : fileclose s f = .ok t) :
    Inv held pending t ∧ t.tables.ofile = s.tables.ofile ∧ t.tables.life = s.tables.life := by
  obtain ⟨tables, hclose, rfl⟩ := fileclose_eq_ok.mp ht
  obtain ⟨tables', hclose', hfiles, hofile, hlife⟩ := FileReferences.fileclose_spec h.files
  obtain rfl : tables' = tables := Except.ok.inj (hclose'.symm.trans hclose)
  have hidle : ∀ q fd, s.tables.life q ≠ .live → tables'.ofile (q, fd) = none := by
    intro q fd hq
    rw [hofile]
    exact h.idle q fd hq
  have hfile := fileclose_file hclose
  have hnone' : FileTable.FileType.none ≠ .inode := by decide
  have hfileOf : fileOf tables' = fileOf (setFile s.tables f (tables'.file f)) := by
    funext g
    simp only [fileOf, setFile, hfile, Function.update_self]
  rw [fileOf_setFile, hfile, Function.update_self] at hfileOf
  split
  · next hkept =>
    refine ⟨h.setTables hfiles hlife hidle ?_, hofile, hlife⟩
    intro i
    have hsame : fileOf tables' = fileOf s.tables := by
      rw [hfileOf]
      by_cases hmore : (s.tables.file f).ref - 1 > 0
      · rw [if_pos hmore]
        exact Function.update_eq_self f _
      · have hnone : fileOf s.tables f = none := if_neg (hkept.resolve_left hmore)
        rw [if_neg hmore, if_neg hnone', ← hnone]
        exact Function.update_eq_self f _
    rw [hsame]
  · next hlast =>
    obtain ⟨hmore, htype⟩ := not_or.mp hlast
    have hsome : fileOf s.tables f = some (s.tables.file f).ip := if_pos (not_not.mp htype)
    rw [if_neg hmore, if_neg hnone'] at hfileOf
    have hheld : Inv ((s.tables.file f).ip :: held) pending { s with tables := tables' } := by
      refine h.setTables hfiles hlife hidle ?_
      intro i
      rw [hfileOf, uses_clear hsome i, count_held]
      omega
    rw [iput_tables]
    exact ⟨hheld.iput, hofile, hlife⟩

theorem iput_setCwd (s : System) (cwd : ProcId → ℕ) (i : ℕ) :
    FileSystem.iput { s with cwd := cwd } i = { FileSystem.iput s i with cwd := cwd } := by
  simp only [FileSystem.iput]
  split <;> rfl

theorem fileclose_clear {x : FileTable.Slot} (h : fileclose s f = .ok t) :
    fileclose { s with tables := setSlot s.tables x none } f =
      .ok { t with tables := setSlot t.tables x none } := by
  obtain ⟨tables, htables, rfl⟩ := fileclose_eq_ok.mp h
  refine fileclose_eq_ok.mpr ⟨setSlot tables x none, ?_, ?_⟩
  · rw [fileclose_setSlot, htables]
    rfl
  · have hfile : (setSlot s.tables x none).file = s.tables.file := rfl
    rw [hfile]
    split
    · rfl
    · rw [iput_tables]
      exact (iput_setTables { s with tables := tables } (setSlot tables x none) _).symm

theorem Inv.clear {x : FileTable.Slot} (h : Inv held pending s)
    (hx : s.tables.ofile x = some f) :
    Inv held (f :: pending) { s with tables := setSlot s.tables x none } := by
  refine h.setTables (FileReferences.inv_clear h.files hx) rfl ?_ fun _ => rfl
  intro q fd hq
  by_cases hslot : (q, fd) = x
  · rw [hslot]
    exact Function.update_self _ _ _
  · exact (Function.update_of_ne hslot _ _).trans (h.idle q fd hq)

theorem Inv.closeFiles {fds : List (Fin nofile)} (h : Inv held [] s)
    (ht : closeFiles s p fds = .ok t) :
    Inv held [] t ∧ t.tables.life = s.tables.life ∧
      (∀ fd ∈ fds, t.tables.ofile (p, fd) = none) ∧
      ∀ x, s.tables.ofile x = none → t.tables.ofile x = none := by
  induction fds generalizing s with
  | nil =>
    cases ht
    exact ⟨h, rfl, nofun, fun _ hx => hx⟩
  | cons fd fds ih =>
    simp only [FileSystem.closeFiles] at ht
    split at ht
    · next hnone =>
      obtain ⟨hinv, hlife, hclosed, hkept⟩ := ih h ht
      refine ⟨hinv, hlife, ?_, hkept⟩
      intro fd' hfd'
      rcases List.mem_cons.mp hfd' with rfl | hfd'
      · exact hkept _ hnone
      · exact hclosed fd' hfd'
    · next f hsome =>
      obtain ⟨u, hu, ht⟩ := bind_eq_ok.mp ht
      obtain ⟨hclear, hofile, hlife'⟩ := (h.clear hsome).fileclose (fileclose_clear hu)
      obtain ⟨hinv, hlife, hclosed, hkept⟩ := ih hclear ht
      have hself : (setSlot s.tables (p, fd) none).ofile (p, fd) = none :=
        Function.update_self _ _ _
      refine ⟨hinv, hlife.trans hlife', ?_, ?_⟩
      · intro fd' hfd'
        rcases List.mem_cons.mp hfd' with rfl | hfd'
        · apply hkept
          rw [hofile]
          exact hself
        · exact hclosed fd' hfd'
      · intro x hx
        apply hkept
        rw [hofile]
        by_cases hslot : x = (p, fd)
        · rw [hslot]
          exact hself
        · exact (Function.update_of_ne hslot _ _).trans hx

theorem uses_move {g : ProcId → Option ℕ} (h : g p = some i) (c : ℕ) :
    uses (Function.update g p (some j)) c + (if i = c then 1 else 0) =
      uses g c + if j = c then 1 else 0 := by
  have hnone : Function.update g p none p = none := Function.update_self _ _ _
  have hfill := uses_fill hnone j c
  rw [Function.update_idem] at hfill
  rw [hfill, uses_clear h c]
  omega

/-- A process enters the directory in hand and leaves its own in hand. -/
theorem Inv.enterDir (h : Inv (ip :: held) pending s) (hp : s.tables.life p = .live) :
    Inv (s.cwd p :: held) pending { s with cwd := Function.update s.cwd p ip } := by
  refine ⟨h.inodes, h.anchored, ?_, h.files, h.idle⟩
  intro i
  have hrefs := h.refs i
  have hcwd : cwdOf s p = some (s.cwd p) := if_pos hp
  have hmove : cwdOf { s with cwd := Function.update s.cwd p ip } =
      Function.update (cwdOf s) p (some ip) := by
    funext q
    by_cases hq : q = p
    · subst hq
      simp only [cwdOf, hp, if_true, Function.update_self]
    · simp only [cwdOf, Function.update_of_ne hq]
  have huses := uses_move (j := ip) hcwd i
  rw [hmove]
  rw [count_held] at hrefs ⊢
  change s.iref i = _ + uses (fileOf s.tables) i + _
  omega

/-- A process ends whose descriptors are closed; its directory is in hand. -/
theorem Inv.leave (h : Inv held [] s) (hp : s.tables.life p = .live)
    (hclosed : ∀ fd, s.tables.ofile (p, fd) = none) :
    Inv (s.cwd p :: held) [] { s with
      cwd := Function.update s.cwd p 0
      tables := setLife s.tables p .zombie } := by
  have hlife : ∀ {q}, q ≠ p → (setLife s.tables p .zombie).life q = s.tables.life q :=
    fun hq => Function.update_of_ne hq _ _
  have hself : (setLife s.tables p .zombie).life p = .zombie := Function.update_self _ _ _
  refine ⟨h.inodes, h.anchored, ?_, FileReferences.inv_setLife h.files p .zombie, ?_⟩
  · intro i
    have hrefs := h.refs i
    have hcwd : cwdOf s p = some (s.cwd p) := if_pos hp
    have hclear : cwdOf { s with
        cwd := Function.update s.cwd p 0
        tables := setLife s.tables p .zombie } = Function.update (cwdOf s) p none := by
      funext q
      by_cases hq : q = p
      · subst hq
        simp only [cwdOf, hself, Function.update_self]
        exact if_neg (by nofun)
      · simp only [cwdOf, hlife hq, Function.update_of_ne hq]
    have huses := uses_clear hcwd i
    rw [hclear, count_held]
    change s.iref i = _ + uses (fileOf s.tables) i + _
    omega
  · intro q fd hq
    by_cases hqp : q = p
    · rw [hqp]
      exact hclosed fd
    · exact h.idle q fd (hlife hqp ▸ hq)

theorem Inv.nameFree (h : Inv held pending s) (hdir : (s.inode dp).type = .dir)
    (hscan : dirscan (s.inode dp).entries name = none) : name ≠ dot ∧ name ≠ dotdot := by
  have hzero := (h.inodes.allocated dp (by rw [hdir]; nofun)).1
  exact (h.inodes.shaped dp hdir).ne_dots hzero hscan

/-- A new inode is made in a directory that has not been removed. -/
theorem Inv.made {path : List UInt8} (h : Inv held [] s) (hnew : MakesNew s p path dp ip name)
    (htype : type ≠ .free) (hlink : (s.inode dp).nlink ≠ 0)
    (hmax : type = .dir → (s.inode dp).nlink ≠ 32767) :
    Inv (dp :: ip :: held) []
      (FileSystem.hold (FileSystemSpecs.made s dp ip name type major minor) dp) := by
  have hdir := lookup_parent hnew.parent
  obtain ⟨hname, hname'⟩ := h.nameFree hdir hnew.absent
  have hushort : ushort ip = ip := ushort_eq h.inodes.bound hnew.lt
  set inode := (FileSystemSpecs.made s dp ip name type major minor).inode with hinode
  have hip : inode ip = newInode dp ip type major minor := by
    rw [hinode, FileSystemSpecs.made, hold_inode, setInode_inode_of_ne hnew.ne,
      setInode_inode_self]
  have hdp : inode dp = grown (s.inode dp) type ⟨ip, name⟩ := by
    rw [hinode, FileSystemSpecs.made, hold_inode, setInode_inode_self, hushort]
  have hother : ∀ j, j ≠ ip → j ≠ dp → inode j = s.inode j := by
    intro j hji hjd
    rw [hinode, FileSystemSpecs.made, hold_inode, setInode_inode_of_ne hjd,
      setInode_inode_of_ne hji]
  have hok : InodesOk s.ninodes inode := by
    by_cases hd : type = .dir
    · subst hd
      exact h.inodes.addDirectory ⟨hdir, hlink⟩ hnew.ne hother hnew.nonzero hnew.lt hnew.free
        (hmax rfl) hname hname' hip hdp
    · have hcount : (newInode dp ip type major minor).nlink.toInt =
          (treeOf s.ninodes s.inode).links ip + 1 := by
        rw [h.inodes.links_free hnew.free]
        rfl
      rw [grown, if_neg hd] at hdp
      exact h.inodes.addName ⟨hdir, hlink⟩ hnew.ne hother hnew.nonzero hnew.lt
        (by rw [hnew.free]; decide) hd htype hcount hname hname' hip hdp
  have hheld := (h.hold ip).hold dp
  exact ⟨hok, anchored_made h.anchored, hheld.refs, h.files, h.idle⟩

/-- A link is made in a directory that has not been removed. -/
theorem Inv.linked {old new : List UInt8} (h : Inv held [] s)
    (hadds : AddsLink s p old new dp ip name) (hlink : (s.inode dp).nlink ≠ 0)
    (hmax : (s.inode ip).nlink ≠ 32767) :
    Inv (ip :: held) [] (FileSystem.hold (FileSystemSpecs.linked s dp ip name) ip) := by
  have hdir := lookup_parent hadds.parent
  obtain ⟨hname, hname'⟩ := h.nameFree hdir hadds.absent
  obtain ⟨hzero, hlt⟩ := h.inodes.allocated ip hadds.allocated
  have hne := hadds.ne
  set inode := (FileSystemSpecs.linked s dp ip name).inode with hinode
  have hip : inode ip = { s.inode ip with nlink := (s.inode ip).nlink + 1 } := by
    rw [hinode, FileSystemSpecs.linked, enter, setInode_inode_of_ne hne, setNlink,
      setInode_inode_self]
  have hdp : inode dp =
      { s.inode dp with entries := putEntry ⟨ip, name⟩ (s.inode dp).entries } := by
    rw [hinode, FileSystemSpecs.linked, enter, setInode_inode_self, setNlink,
      setInode_inode_of_ne (Ne.symm hne), ushort_eq h.inodes.bound hlt]
  have hother : ∀ j, j ≠ ip → j ≠ dp → inode j = s.inode j := by
    intro j hji hjd
    rw [hinode, FileSystemSpecs.linked, enter, setInode_inode_of_ne hjd, setNlink,
      setInode_inode_of_ne hji]
  have hcount : ((s.inode ip).nlink + 1).toInt = (treeOf s.ninodes s.inode).links ip + 1 := by
    rw [toInt_succ hmax, h.inodes.count ip hadds.allocated]
  have hok : InodesOk s.ninodes inode :=
    h.inodes.addName (v := { s.inode ip with nlink := (s.inode ip).nlink + 1 }) ⟨hdir, hlink⟩ hne
      hother hzero hlt hadds.notDir hadds.notDir hadds.allocated hcount hname hname' hip hdp
  have hheld := h.hold ip
  exact ⟨hok, anchored_linked h.anchored hne, hheld.refs, h.files, h.idle⟩

theorem setInode_iput (hne : i ≠ j) (v : Inode) :
    setInode (FileSystem.iput s j) i v = FileSystem.iput (setInode s i v) j := by
  have hread : (setInode s i v).inode j = s.inode j := setInode_inode_of_ne (Ne.symm hne)
  have href : (setInode s i v).iref = s.iref := rfl
  simp only [FileSystem.iput, hread, href, ifree]
  split
  · exact congrArg (fun u => { u with iref := Function.update s.iref j (s.iref j - 1) })
      (setInode_comm (Ne.symm hne) _ v)
  · rfl

/-- The state in which `unlink` gives back the parent and the inode. -/
def cutBoth (s : System) (dp ip off : ℕ) : System :=
  setNlink (cut s dp ip off) ip ((s.inode ip).nlink - 1)

theorem unlinked_eq (hne : ip ≠ dp) : unlinked s dp ip off =
    FileSystem.iput (FileSystem.iput (FileSystem.hold (FileSystem.hold
      (cutBoth s dp ip off) dp) ip) dp) ip := by
  simp only [unlinked, setNlink, iput_inode_of_ne hne, hold_inode]
  rw [setInode_iput hne]
  rfl

theorem Inv.unlinked {path : List UInt8} (h : Inv held [] s)
    (hrem : Removes s p path dp ip off name) :
    Inv held [] (FileSystemSpecs.unlinked s dp ip off) := by
  have hdir := lookup_parent hrem.parent
  have hne := hrem.ne
  have hlive : Live (s.inode dp) := by
    refine ⟨hdir, ?_⟩
    intro hz
    obtain ⟨-, -, hkids⟩ := (h.inodes.shaped dp hdir).clearEntry hrem.ne_dot hrem.ne_dotdot
      hrem.entry
    rw [h.inodes.removed dp hdir hz] at hkids
    exact Multiset.zero_ne_cons hkids
  set inode := (cutBoth s dp ip off).inode with hinode
  have hip : inode ip = { s.inode ip with nlink := (s.inode ip).nlink - 1 } := by
    rw [hinode, cutBoth, setNlink, setInode_inode_self, cut, setInode_inode_of_ne hne]
  have hdp : inode dp = { s.inode dp with
      nlink := if (s.inode ip).type = .dir then (s.inode dp).nlink - 1 else (s.inode dp).nlink
      entries := clearEntry (s.inode dp).entries off } := by
    rw [hinode, cutBoth, setNlink, setInode_inode_of_ne (Ne.symm hne), cut, setInode_inode_self]
  have hother : ∀ j, j ≠ ip → j ≠ dp → inode j = s.inode j := by
    intro j hji hjd
    rw [hinode, cutBoth, setNlink, setInode_inode_of_ne hji, cut, setInode_inode_of_ne hjd]
  have hok : InodesOk s.ninodes inode := by
    by_cases hd : (s.inode ip).type = .dir
    · rw [if_pos hd] at hdp
      exact h.inodes.removeDirectory hlive hne hother hd hrem.counted (hrem.empty hd) hrem.ne_dot
        hrem.ne_dotdot hrem.entry hip hdp
    · rw [if_neg hd] at hdp
      exact h.inodes.removeName hlive hne hother hd hrem.counted hrem.ne_dot hrem.ne_dotdot
        hrem.entry hip hdp
  have hanchored : Anchored (FileSystem.hold (FileSystem.hold (cutBoth s dp ip off) dp) ip) := by
    intro i htype hlink
    by_cases hi : i = ip
    · rw [hi, hold_iref_self]
      exact Nat.succ_ne_zero _
    · rw [hold_iref_of_ne hi]
      by_cases hd : i = dp
      · rw [hd, hold_iref_self]
        exact Nat.succ_ne_zero _
      · rw [hold_iref_of_ne hd]
        change (inode i).type ≠ _ at htype
        change (inode i).nlink = _ at hlink
        rw [hother i hi hd] at htype hlink
        exact h.anchored i htype hlink
  have hheld := (h.hold dp).hold ip
  have hcut : Inv (ip :: dp :: held) []
      (FileSystem.hold (FileSystem.hold (cutBoth s dp ip off) dp) ip) :=
    ⟨hok, hanchored, hheld.refs, h.files, h.idle⟩
  rw [unlinked_eq hne]
  exact (hcut.perm (List.Perm.swap dp ip held)).iput.iput

end Invariant

end HeldInodes
