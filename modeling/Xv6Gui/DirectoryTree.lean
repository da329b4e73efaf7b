import Xv6Gui.CountedTrees
import Xv6Gui.FailedCalls

/-!
# The directory tree of an inode table

The inner nodes are the directories that have links; the entry `..` names the parent and the
entries behind it the children. The table agrees with itself when the tree hangs together and
every link count is the number of names.
-/
namespace DirectoryTree

open Directories FileSystem FileSystemSpecs CountedTrees
open WindowManagerState (ProcId)

section Entries

variable {l : List Dirent} {de a b : Dirent} {name : Name} {i off : ℕ}

/-- The inode numbers of the entries in use. -/
def named (l : List Dirent) : Multiset ℕ :=
  ((l.filter fun de => de.inum ≠ 0).map Dirent.inum : List ℕ)

/-- The inode of the entry `..`, which is the second. -/
def upOf : List Dirent → ℕ
  | _ :: de :: _ => de.inum
  | _ => 0

def kidsOf (l : List Dirent) : Multiset ℕ := named (l.drop 2)

theorem mem_named : i ∈ named l ↔ ∃ de ∈ l, de.inum ≠ 0 ∧ de.inum = i := by
  simp [named, and_assoc]

theorem named_cons_of_zero (h : de.inum = 0) : named (de :: l) = named l := by
  simp [named, h]

theorem named_cons (h : de.inum ≠ 0) : named (de :: l) = de.inum ::ₘ named l := by
  simp [named, h]

theorem named_putEntry (h : de.inum ≠ 0) : named (putEntry de l) = de.inum ::ₘ named l := by
  induction l with
  | nil => exact named_cons h
  | cons e rest ih =>
    simp only [putEntry]
    split
    · next he => rw [named_cons h, named_cons_of_zero he]
    · next he => rw [named_cons he, named_cons he, ih, Multiset.cons_swap]

theorem mem_putEntry {e : Dirent} (h : e ∈ putEntry de l) : e = de ∨ e ∈ l := by
  induction l with
  | nil => exact Or.inl (List.mem_singleton.mp h)
  | cons x rest ih =>
    simp only [putEntry] at h
    split at h
    · rcases List.mem_cons.mp h with he | he
      · exact Or.inl he
      · exact Or.inr (List.mem_cons_of_mem _ he)
    · rcases List.mem_cons.mp h with he | he
      · exact Or.inr (he ▸ List.mem_cons_self)
      · exact (ih he).imp_right (List.mem_cons_of_mem _)

theorem named_clearEntry (h : dirscan l name = some (i, off)) :
    named l = i ::ₘ named (clearEntry l off) := by
  induction l generalizing off with
  | nil => exact nomatch h
  | cons e rest ih =>
    simp only [dirscan] at h
    split at h
    · next he =>
      cases h
      change _ = e.inum ::ₘ named (zeroDirent :: rest)
      rw [named_cons he.1, named_cons_of_zero rfl]
    · obtain ⟨r, hr, hi⟩ := Option.map_eq_some_iff.mp h
      cases hi
      have hrest : named rest = r.1 ::ₘ named (clearEntry rest r.2) := ih hr
      change named (e :: rest) = r.1 ::ₘ named (e :: clearEntry rest r.2)
      by_cases he : e.inum = 0
      · rw [named_cons_of_zero he, named_cons_of_zero he, hrest]
      · rw [named_cons he, named_cons he, hrest, Multiset.cons_swap]

theorem mem_clearEntry {e : Dirent} (h : e ∈ clearEntry l off) : e = zeroDirent ∨ e ∈ l :=
  (List.mem_or_eq_of_mem_set h).symm

/-- A name that the first two entries do not carry is found behind them. -/
theorem dirscan_behind (ha : a.name ≠ name) (hb : b.name ≠ name)
    (h : dirscan (a :: b :: l) name = some (i, off)) :
    ∃ off', off = off' + 2 ∧ dirscan l name = some (i, off') := by
  have ha' : ¬(a.inum ≠ 0 ∧ a.name = name) := fun hn => ha hn.2
  have hb' : ¬(b.inum ≠ 0 ∧ b.name = name) := fun hn => hb hn.2
  simp only [dirscan, if_neg ha', if_neg hb'] at h
  obtain ⟨r, hr, hi⟩ := Option.map_eq_some_iff.mp h
  obtain ⟨q, hq, rfl⟩ := Option.map_eq_some_iff.mp hr
  cases hi
  exact ⟨q.2, rfl, hq⟩

theorem isdirempty_iff : isdirempty l = true ↔ kidsOf l = 0 := by
  simp only [isdirempty, kidsOf, List.all_eq_true, beq_iff_eq, Multiset.eq_zero_iff_forall_notMem,
    mem_named]
  constructor
  · rintro h i ⟨de, hde, hne, -⟩
    exact hne (h de hde)
  · intro h de hde
    by_contra hne
    exact h de.inum ⟨de, hde, hne, rfl⟩

/-- A directory starts with `.` and `..`, and no other entry in use carries these names. -/
structure Shaped (d : ℕ) (l : List Dirent) : Prop where
  dots : ∃ rest, l = ⟨d, dot⟩ :: ⟨upOf l, dotdot⟩ :: rest
  up_ne : upOf l ≠ 0
  names : ∀ e ∈ l.drop 2, e.inum ≠ 0 → e.name ≠ dot ∧ e.name ≠ dotdot

theorem Shaped.eq {d : ℕ} (h : Shaped d l) : l = ⟨d, dot⟩ :: ⟨upOf l, dotdot⟩ :: l.drop 2 := by
  obtain ⟨rest, hrest⟩ := h.dots
  rw [hrest]
  rfl

/-- A name that is free in a directory is not one of the two. -/
theorem Shaped.ne_dots {d : ℕ} (h : Shaped d l) (hd : d ≠ 0) (hscan : dirscan l name = none) :
    name ≠ dot ∧ name ≠ dotdot := by
  rw [h.eq] at hscan
  constructor
  · rintro rfl
    simp [dirscan, hd] at hscan
  · rintro rfl
    have hne : dot ≠ dotdot := by decide
    simp [dirscan, hne, h.up_ne] at hscan

theorem putEntry_behind (ha : a.inum ≠ 0) (hb : b.inum ≠ 0) :
    putEntry de (a :: b :: l) = a :: b :: putEntry de l := by
  simp only [putEntry, if_neg ha, if_neg hb]

theorem Shaped.putEntry {d : ℕ} (h : Shaped d l) (hd : d ≠ 0) (hne : name ≠ dot)
    (hne' : name ≠ dotdot) (hi : i ≠ 0) :
    Shaped d (putEntry ⟨i, name⟩ l) ∧ upOf (putEntry ⟨i, name⟩ l) = upOf l ∧
      kidsOf (putEntry ⟨i, name⟩ l) = i ::ₘ kidsOf l := by
  have heq : Directories.putEntry ⟨i, name⟩ l =
      ⟨d, dot⟩ :: ⟨upOf l, dotdot⟩ :: Directories.putEntry ⟨i, name⟩ (l.drop 2) := by
    conv_lhs => rw [h.eq]
    exact putEntry_behind hd h.up_ne
  have hup : upOf (Directories.putEntry ⟨i, name⟩ l) = upOf l := by
    rw [heq]
    rfl
  refine ⟨⟨⟨Directories.putEntry ⟨i, name⟩ (l.drop 2), ?_⟩, ?_, ?_⟩, hup, ?_⟩
  · rw [hup, heq]
  · rw [hup]
    exact h.up_ne
  · intro e he hz
    rw [heq] at he
    rcases mem_putEntry he with rfl | he
    · exact ⟨hne, hne'⟩
    · exact h.names e he hz
  · rw [heq]
    exact named_putEntry hi

theorem Shaped.clearEntry {d : ℕ} (h : Shaped d l) (hne : name ≠ dot) (hne' : name ≠ dotdot)
    (hscan : dirscan l name = some (i, off)) :
    Shaped d (clearEntry l off) ∧ upOf (clearEntry l off) = upOf l ∧
      kidsOf l = i ::ₘ kidsOf (clearEntry l off) := by
  have hscan' := hscan
  rw [h.eq] at hscan'
  obtain ⟨off', rfl, hrest⟩ := dirscan_behind (Ne.symm hne) (Ne.symm hne') hscan'
  have heq : Directories.clearEntry l (off' + 2) =
      ⟨d, dot⟩ :: ⟨upOf l, dotdot⟩ :: Directories.clearEntry (l.drop 2) off' := by
    conv_lhs => rw [h.eq]
    rfl
  have hup : upOf (Directories.clearEntry l (off' + 2)) = upOf l := by
    rw [heq]
    rfl
  refine ⟨⟨⟨Directories.clearEntry (l.drop 2) off', ?_⟩, ?_, ?_⟩, hup, ?_⟩
  · rw [hup, heq]
  · rw [hup]
    exact h.up_ne
  · intro e he hz
    rw [heq] at he
    rcases mem_clearEntry he with rfl | he
    · exact absurd rfl hz
    · exact h.names e he hz
  · rw [heq]
    exact named_clearEntry hrest

end Entries

section Table

variable {n : ℕ} {inode inode' : ℕ → Inode} {i j d dp ip off : ℕ} {v : Inode} {name : Name}

/-- A directory that has not been removed. -/
def Live (v : Inode) : Prop := v.type = .dir ∧ v.nlink ≠ 0

instance (v : Inode) : Decidable (Live v) := inferInstanceAs (Decidable (_ ∧ _))

def treeOf (n : ℕ) (inode : ℕ → Inode) : CountedTrees.Tree ℕ where
  live := (Finset.range n).filter fun d => Live (inode d)
  up d := upOf (inode d).entries
  kids d := kidsOf (inode d).entries

/-- The inodes of a file system in order: inode numbers fit an entry, directories have their
shape and lose their entries before they are removed, and every link is counted. -/
structure InodesOk (n : ℕ) (inode : ℕ → Inode) : Prop where
  bound : n ≤ 65536
  allocated : ∀ i, (inode i).type ≠ .free → i ≠ 0 ∧ i < n
  shaped : ∀ d, (inode d).type = .dir → Shaped d (inode d).entries
  removed : ∀ d, (inode d).type = .dir → (inode d).nlink = 0 → kidsOf (inode d).entries = 0
  rooted : Rooted (treeOf n inode) rootino
  named : ∀ d, Live (inode d) → ∀ c ∈ kidsOf (inode d).entries, (inode c).type ≠ .free
  count : ∀ i, (inode i).type ≠ .free → (inode i).nlink.toInt = (treeOf n inode).links i

/-- What the table asks of each inode for itself. -/
structure InodeOk (n i : ℕ) (v : Inode) : Prop where
  allocated : v.type ≠ .free → i ≠ 0 ∧ i < n
  shaped : v.type = .dir → Shaped i v.entries
  removed : v.type = .dir → v.nlink = 0 → kidsOf v.entries = 0

theorem InodesOk.each (h : InodesOk n inode) (i : ℕ) : InodeOk n i (inode i) :=
  ⟨h.allocated i, h.shaped i, h.removed i⟩

/-- The table is in order if each inode and the tree are, and the names and links fit. -/
theorem InodesOk.of_each (hn : n ≤ 65536) (heach : ∀ i, InodeOk n i (inode i))
    (hrooted : Rooted (treeOf n inode) rootino)
    (hnamed : ∀ d, Live (inode d) → ∀ c ∈ kidsOf (inode d).entries, (inode c).type ≠ .free)
    (hcount : ∀ i, (inode i).type ≠ .free →
      (inode i).nlink.toInt = (treeOf n inode).links i) : InodesOk n inode :=
  ⟨hn, fun i => (heach i).allocated, fun i => (heach i).shaped, fun i => (heach i).removed,
    hrooted, hnamed, hcount⟩

/-- The inodes but for two of them are as before. -/
theorem InodesOk.each_of_two (h : InodesOk n inode)
    (hother : ∀ j, j ≠ ip → j ≠ dp → inode' j = inode j) (hip : InodeOk n ip (inode' ip))
    (hdp : InodeOk n dp (inode' dp)) (i : ℕ) : InodeOk n i (inode' i) := by
  by_cases hi : i = ip
  · exact hi ▸ hip
  · by_cases hd : i = dp
    · exact hd ▸ hdp
    · exact hother i hi hd ▸ h.each i

theorem InodesOk.live_iff (h : InodesOk n inode) : d ∈ (treeOf n inode).live ↔ Live (inode d) := by
  simp only [treeOf, Finset.mem_filter, Finset.mem_range]
  constructor
  · exact And.right
  · intro hd
    exact ⟨(h.allocated d (by rw [hd.1]; nofun)).2, hd⟩

/-- Nothing names an inode that is free. -/
theorem InodesOk.links_free (h : InodesOk n inode) (hi : (inode i).type = .free) :
    (treeOf n inode).links i = 0 := by
  apply Nat.eq_zero_of_not_pos
  intro hpos
  obtain ⟨d, hd, hup | hk⟩ := named_of_links hpos
  · have hlive := h.live_iff.mp (h.rooted.up_live d hd)
    rw [hup, Live, hi] at hlive
    exact nomatch hlive.1
  · exact h.named d (h.live_iff.mp hd) i hk hi

theorem toInt_ne_zero {b : BitVec 16} (h : b ≠ 0) : b.toInt ≠ 0 := by
  intro hz
  apply h
  apply BitVec.eq_of_toInt_eq
  rw [hz]
  rfl

theorem toInt_succ {b : BitVec 16} (h : b ≠ 32767) : (b + 1).toInt = b.toInt + 1 := by
  have hb : b.toNat ≠ 32767 := fun hn => h (BitVec.eq_of_toNat_eq hn)
  have hone : BitVec.toNat (1 : BitVec 16) = 1 := rfl
  have hlt := b.isLt
  simp only [BitVec.toInt_eq_toNat_cond, BitVec.toNat_add, hone]
  split <;> split <;> omega

theorem toInt_pred {b : BitVec 16} (h : 1 ≤ b.toInt) : (b - 1).toInt = b.toInt - 1 := by
  have hone : BitVec.toNat (1 : BitVec 16) = 1 := rfl
  have hlt := b.isLt
  simp only [BitVec.toInt_eq_toNat_cond, BitVec.toNat_sub, hone] at h ⊢
  split at h <;> split <;> omega

theorem ushort_eq (hn : n ≤ 65536) (hi : i < n) : ushort i = i :=
  Nat.mod_eq_of_lt (hi.trans_le hn)

/-- The parts of a table that decide the tree: an inode that is free, or has no links, may
change in any way that keeps it out of the tree. -/
theorem treeOf_agrees (hlive : ∀ d, Live (inode' d) ↔ Live (inode d))
    (hentries : ∀ d, Live (inode d) → (inode' d).entries = (inode d).entries) :
    Agrees (treeOf n inode) (treeOf n inode') := by
  have hmem : ∀ {d}, d ∈ (treeOf n inode).live → Live (inode d) :=
    fun hd => (Finset.mem_filter.mp hd).2
  refine ⟨?_, ?_, ?_⟩
  · ext d
    simp only [treeOf, Finset.mem_filter, hlive]
  · intro d hd
    simp only [treeOf, hentries d (hmem hd)]
  · intro d hd
    simp only [treeOf, hentries d (hmem hd)]

section Others

variable {e : ℕ} (hother : ∀ j, j ≠ ip → j ≠ dp → inode' j = inode j) (he : e ≠ ip)

include hother he

/-- An entry in `dp` that is not its `..` leaves the parents of the directories. -/
theorem up_of_other (hup : upOf (inode' dp).entries = upOf (inode dp).entries) :
    (treeOf n inode').up e = (treeOf n inode).up e := by
  simp only [treeOf]
  by_cases hed : e = dp
  · rw [hed, hup]
  · rw [hother e he hed]

/-- It is one more name in `dp` alone. -/
theorem kids_of_other (hkids : kidsOf (inode' dp).entries = ip ::ₘ kidsOf (inode dp).entries) :
    (treeOf n inode').kids e =
      if e = dp then ip ::ₘ (treeOf n inode).kids e else (treeOf n inode).kids e := by
  simp only [treeOf]
  split
  · next hed => rw [hed, hkids]
  · next hed => rw [hother e he hed]

end Others

/-- An inode without links is freed. -/
theorem InodesOk.free (h : InodesOk n inode) (hi : (inode i).type ≠ .free)
    (hlink : (inode i).nlink = 0) : InodesOk n (Function.update inode i
      { inode i with type := .free, entries := [], data := [] }) := by
  set inode' := Function.update inode i
    { inode i with type := .free, entries := [], data := [] } with hdef
  have hself : (inode' i).type = .free := by rw [hdef, Function.update_self]
  have hother : ∀ {j}, j ≠ i → inode' j = inode j := fun hj => Function.update_of_ne hj _ _
  have hnot : ¬Live (inode i) := fun hl => hl.2 hlink
  have hlive : ∀ d, Live (inode' d) ↔ Live (inode d) := by
    intro d
    by_cases hd : d = i
    · subst hd
      refine iff_of_false ?_ hnot
      rintro ⟨hdir, -⟩
      rw [hself] at hdir
      exact nomatch hdir
    · rw [hother hd]
  have hne : ∀ {d}, Live (inode d) → d ≠ i := by
    rintro d hd rfl
    exact hnot hd
  have hzero : (treeOf n inode).links i = 0 := by
    have hcount := h.count i hi
    rw [hlink] at hcount
    exact Int.ofNat_eq_zero.mp hcount.symm
  have hagrees : Agrees (treeOf n inode) (treeOf n inode') :=
    treeOf_agrees hlive fun d hd => by rw [hother (hne hd)]
  have hkeep : ∀ {j}, (inode' j).type ≠ .free → j ≠ i := by
    rintro j hj rfl
    exact hj hself
  have hfree : InodeOk n i (inode' i) := by
    refine ⟨fun hne => absurd hself hne, ?_, ?_⟩ <;>
      intro hdir <;> rw [hself] at hdir <;> cases hdir
  refine .of_each h.bound (h.each_of_two (fun j hj _ => hother hj) hfree hfree)
    (hagrees.rooted h.rooted) ?_ ?_
  · intro d hd c hc
    have hd' := (hlive d).mp hd
    rw [hother (hne hd')] at hc
    have hci : c ≠ i := by
      rintro rfl
      have hpos := links_of_kid (h.live_iff.mpr hd') hc
      omega
    rw [hother hci]
    exact h.named d hd' c hc
  · intro j hj
    have hji := hkeep hj
    rw [hother hji] at hj ⊢
    rw [hagrees.links]
    exact h.count j hj

section Names

variable (h : InodesOk n inode) (hd : Live (inode dp)) (hne : ip ≠ dp)
  (hother : ∀ j, j ≠ ip → j ≠ dp → inode' j = inode j)
include h hd hne hother

/-- A new name for a file or device, which has been counted. -/
theorem InodesOk.addName (hzero : ip ≠ 0) (hlt : ip < n) (htype : (inode ip).type ≠ .dir)
    (hdir : v.type ≠ .dir) (hfree : v.type ≠ .free)
    (hcount : v.nlink.toInt = (treeOf n inode).links ip + 1)
    (hname : name ≠ dot) (hname' : name ≠ dotdot) (hip : inode' ip = v)
    (hdp : inode' dp =
      { inode dp with entries := putEntry ⟨ip, name⟩ (inode dp).entries }) :
    InodesOk n inode' := by
  have hd0 : dp ≠ 0 := (h.allocated dp (by rw [hd.1]; nofun)).1
  obtain ⟨hshape, hup, hkids⟩ := (h.shaped dp hd.1).putEntry hd0 hname hname' hzero
  have hlive : ∀ d, Live (inode' d) ↔ Live (inode d) := by
    intro d
    by_cases hdi : d = ip
    · subst hdi
      rw [hip]
      exact iff_of_false (fun hl => hdir hl.1) (fun hl => htype hl.1)
    · by_cases hdd : d = dp
      · rw [hdd, hdp]
        rfl
      · rw [hother d hdi hdd]
  have hmem : ∀ {d}, d ∈ (treeOf n inode).live → d ≠ ip := by
    rintro d hdl rfl
    exact htype (h.live_iff.mp hdl).1
  have hadd : AddsLeaf (treeOf n inode) (treeOf n inode') dp ip := by
    refine ⟨?_, h.live_iff.mpr hd, ?_, ?_⟩
    · ext d
      simp only [treeOf, Finset.mem_filter, hlive]
    · exact fun e he => up_of_other hother (hmem he) (by rw [hdp, hup])
    · exact fun e he => kids_of_other hother (hmem he) (by rw [hdp, hkids])
  have hnot : ip ∉ (treeOf n inode).live := fun hl => hmem hl rfl
  have hsame : ∀ {j}, j ≠ ip → (inode' j).type = (inode j).type ∧
      (inode' j).nlink = (inode j).nlink := by
    intro j hj
    by_cases hjd : j = dp
    · rw [hjd, hdp]
      exact ⟨rfl, rfl⟩
    · rw [hother j hj hjd]
      exact ⟨rfl, rfl⟩
  have hnew : InodeOk n ip (inode' ip) := by
    rw [hip]
    exact ⟨fun _ => ⟨hzero, hlt⟩, fun hdt => absurd hdt hdir, fun hdt => absurd hdt hdir⟩
  have hparent : InodeOk n dp (inode' dp) := by
    rw [hdp]
    exact ⟨(h.each dp).allocated, fun _ => hshape, fun _ hlink => absurd hlink hd.2⟩
  refine .of_each h.bound (h.each_of_two hother hnew hparent)
    ((hadd.rooted_iff hnot).mpr h.rooted) ?_ ?_
  · intro d hdl c hc
    have hdl' := (hlive d).mp hdl
    have hold : c = ip ∨ c ∈ kidsOf (inode d).entries := by
      by_cases hdd : d = dp
      · rw [hdd, hdp, hkids] at hc
        rw [hdd]
        exact Multiset.mem_cons.mp hc
      · rw [hother d (hmem (h.live_iff.mpr hdl')) hdd] at hc
        exact Or.inr hc
    by_cases hci : c = ip
    · rw [hci, hip]
      exact hfree
    · rw [(hsame hci).1]
      exact h.named d hdl' c (hold.resolve_left hci)
  · intro j hj
    rw [hadd.links j]
    by_cases hji : j = ip
    · rw [hji, hip, if_pos rfl, hcount]
      rfl
    · rw [(hsame hji).1] at hj
      rw [(hsame hji).2, if_neg (Ne.symm hji), Nat.add_zero]
      exact h.count j hj

/-- A name of a file or device is cleared and its link given up. -/
theorem InodesOk.removeName (htype : (inode ip).type ≠ .dir) (hcount : 1 ≤ (inode ip).nlink.toInt)
    (hname : name ≠ dot) (hname' : name ≠ dotdot)
    (hscan : dirscan (inode dp).entries name = some (ip, off))
    (hip : inode' ip = { inode ip with nlink := (inode ip).nlink - 1 })
    (hdp : inode' dp =
      { inode dp with entries := clearEntry (inode dp).entries off }) :
    InodesOk n inode' := by
  obtain ⟨hshape, hup, hkids⟩ := (h.shaped dp hd.1).clearEntry hname hname' hscan
  have hback : ∀ j, j ≠ ip → j ≠ dp → inode j = inode' j := fun j hi hd => (hother j hi hd).symm
  have hsame : ∀ j, (inode' j).type = (inode j).type ∧
      (j ≠ ip → (inode' j).nlink = (inode j).nlink) := by
    intro j
    by_cases hji : j = ip
    · rw [hji, hip]
      exact ⟨rfl, fun hn => absurd rfl hn⟩
    · by_cases hjd : j = dp
      · rw [hjd, hdp]
        exact ⟨rfl, fun _ => rfl⟩
      · rw [hother j hji hjd]
        exact ⟨rfl, fun _ => rfl⟩
  have hdirs : ∀ {d}, (inode d).type = .dir → d ≠ ip := by
    rintro d hdt rfl
    exact htype hdt
  have hlive : ∀ d, Live (inode' d) ↔ Live (inode d) := by
    intro d
    simp only [Live, (hsame d).1]
    constructor
    · rintro ⟨hdt, hl⟩
      exact ⟨hdt, (hsame d).2 (hdirs hdt) ▸ hl⟩
    · rintro ⟨hdt, hl⟩
      exact ⟨hdt, ((hsame d).2 (hdirs hdt)).symm ▸ hl⟩
  have hmem : ∀ {d}, d ∈ (treeOf n inode').live → Live (inode d) :=
    fun hdl => (hlive _).mp (Finset.mem_filter.mp hdl).2
  have hadd : AddsLeaf (treeOf n inode') (treeOf n inode) dp ip := by
    refine ⟨?_, ?_, ?_, ?_⟩
    · ext d
      simp only [treeOf, Finset.mem_filter, hlive]
    · have hdl := h.live_iff.mpr hd
      simp only [treeOf, Finset.mem_filter] at hdl ⊢
      exact ⟨hdl.1, (hlive dp).mpr hd⟩
    · exact fun e he => up_of_other hback (hdirs (hmem he).1) (by rw [hdp, hup])
    · exact fun e he => kids_of_other hback (hdirs (hmem he).1) (by rw [hdp, hkids])
  have hnot : ip ∉ (treeOf n inode').live := fun hl => htype (hmem hl).1
  have hnamed : InodeOk n ip (inode' ip) := by
    rw [hip]
    exact ⟨(h.each ip).allocated, fun hdt => absurd hdt htype, fun hdt => absurd hdt htype⟩
  have hparent : InodeOk n dp (inode' dp) := by
    rw [hdp]
    exact ⟨(h.each dp).allocated, fun _ => hshape, fun _ hlink => absurd hlink hd.2⟩
  refine .of_each h.bound (h.each_of_two hother hnamed hparent)
    ((hadd.rooted_iff hnot).mp h.rooted) ?_ ?_
  · intro d hdl c hc
    have hdl' := (hlive d).mp hdl
    rw [(hsame c).1]
    apply h.named d hdl' c
    by_cases hdd : d = dp
    · rw [hdd, hdp] at hc
      rw [hdd, hkids]
      exact Multiset.mem_cons_of_mem hc
    · rwa [hother d (hdirs hdl'.1) hdd] at hc
  · intro j hj
    rw [(hsame j).1] at hj
    have hlinks := hadd.links j
    have hold := h.count j hj
    by_cases hji : j = ip
    · subst hji
      rw [if_pos rfl] at hlinks
      rw [hip, toInt_pred hcount, hold, hlinks]
      simp
    · rw [if_neg (Ne.symm hji), Nat.add_zero] at hlinks
      rw [(hsame j).2 hji, hold, hlinks]

/-- A new directory, with the link that its `..` is to the parent. -/
theorem InodesOk.addDirectory {major minor : BitVec 16} (hzero : ip ≠ 0) (hlt : ip < n)
    (hfree : (inode ip).type = .free) (hmax : (inode dp).nlink ≠ 32767)
    (hname : name ≠ dot) (hname' : name ≠ dotdot)
    (hip : inode' ip = newInode dp ip .dir major minor)
    (hdp : inode' dp = grown (inode dp) .dir ⟨ip, name⟩) : InodesOk n inode' := by
  have hdtype : (inode dp).type ≠ .free := by
    rw [hd.1]
    decide
  obtain ⟨hd0, hdn⟩ := h.allocated dp hdtype
  obtain ⟨hshape, hup, hkids⟩ := (h.shaped dp hd.1).putEntry hd0 hname hname' hzero
  have hentries : (inode' ip).entries = [⟨ip, dot⟩, ⟨dp, dotdot⟩] := by
    rw [hip]
    change putEntry ⟨ushort dp, dotdot⟩ [⟨ushort ip, dot⟩] = _
    rw [ushort_eq h.bound hdn, ushort_eq h.bound hlt]
    simp only [putEntry, if_neg hzero]
  have hnlink : (inode' dp).nlink.toInt = (inode dp).nlink.toInt + 1 := by
    rw [hdp]
    exact toInt_succ hmax
  have hlive' : Live (inode' ip) ∧ Live (inode' dp) := by
    have hone : (1 : BitVec 16) ≠ 0 := by decide
    refine ⟨?_, ?_, ?_⟩
    · rw [hip]
      exact ⟨rfl, hone⟩
    · rw [hdp]
      exact hd.1
    · intro hz
      have hcount := h.count dp hdtype
      rw [hz, hcount] at hnlink
      exact absurd hnlink (by change (0 : ℤ) ≠ _; omega)
  have hlive : ∀ d, Live (inode' d) ↔ d = ip ∨ Live (inode d) := by
    intro d
    by_cases hdi : d = ip
    · rw [hdi]
      exact iff_of_true hlive'.1 (Or.inl rfl)
    · by_cases hdd : d = dp
      · rw [hdd]
        exact iff_of_true hlive'.2 (Or.inr hd)
      · rw [hother d hdi hdd]
        exact ⟨Or.inr, fun hl => hl.resolve_left hdi⟩
  have hmem : ∀ {d}, d ∈ (treeOf n inode).live → d ≠ ip := by
    rintro d hdl rfl
    have hdir := (h.live_iff.mp hdl).1
    rw [hfree] at hdir
    cases hdir
  have hadd : AddsNode (treeOf n inode) (treeOf n inode') dp ip := by
    refine ⟨?_, fun hl => hmem hl rfl, h.live_iff.mpr hd, ?_, ?_, ?_, ?_⟩
    · ext d
      simp only [treeOf, Finset.mem_insert, Finset.mem_filter, Finset.mem_range, hlive]
      constructor
      · rintro ⟨hdn, hd⟩
        exact hd.imp_right fun hl => ⟨hdn, hl⟩
      · rintro (rfl | hl)
        · exact ⟨hlt, Or.inl rfl⟩
        · exact ⟨hl.1, Or.inr hl.2⟩
    · exact fun e he => up_of_other hother (hmem he) (hdp ▸ hup)
    · simp only [treeOf, hentries, upOf]
    · exact fun e he => kids_of_other hother (hmem he) (hdp ▸ hkids)
    · simp only [treeOf, hentries]
      rfl
  have hzeroLinks := h.links_free hfree
  have hnot : ∀ e ∈ (treeOf n inode).live, ip ∉ (treeOf n inode).kids e := by
    intro e he hk
    have hpos := links_of_kid he hk
    omega
  have hnew : InodeOk n ip (inode' ip) := by
    refine ⟨fun _ => ⟨hzero, hlt⟩, ?_, fun _ hlink => absurd hlink hlive'.1.2⟩
    intro _
    rw [hentries]
    exact ⟨⟨[], rfl⟩, hd0, fun _ he => absurd he List.not_mem_nil⟩
  have hparent : InodeOk n dp (inode' dp) := by
    refine ⟨fun _ => ⟨hd0, hdn⟩, ?_, fun _ hlink => absurd hlink hlive'.2.2⟩
    intro _
    rw [hdp]
    exact hshape
  refine .of_each h.bound (h.each_of_two hother hnew hparent) (hadd.rooted h.rooted hnot) ?_ ?_
  · intro d hdl c hc
    by_cases hci : c = ip
    · rw [hci, hlive'.1.1]
      decide
    · have hold : Live (inode d) ∧ c ∈ kidsOf (inode d).entries := by
        by_cases hdi : d = ip
        · rw [hdi, hentries] at hc
          exact absurd hc (Multiset.notMem_zero c)
        · refine ⟨((hlive d).mp hdl).resolve_left hdi, ?_⟩
          by_cases hdd : d = dp
          · rw [hdd, hdp] at hc
            rw [hdd]
            exact (Multiset.mem_cons.mp (hkids ▸ hc)).resolve_left hci
          · rwa [hother d hdi hdd] at hc
      have htype := h.named d hold.1 c hold.2
      by_cases hcd : c = dp
      · rw [hcd, hlive'.2.1]
        decide
      · rwa [hother c hci hcd]
  · intro j hj
    rw [hadd.links j]
    by_cases hji : j = ip
    · rw [hji, hip, hzeroLinks, if_pos rfl, if_neg (Ne.symm hne)]
      rfl
    · rw [if_neg (Ne.symm hji)]
      by_cases hjd : j = dp
      · rw [hjd, hnlink, h.count dp hdtype, if_pos rfl]
        rfl
      · rw [hother j hji hjd] at hj ⊢
        rw [if_neg (Ne.symm hjd)]
        exact h.count j hj

/-- An empty directory is removed: its own link and the link of its `..` are given up. -/
theorem InodesOk.removeDirectory (htype : (inode ip).type = .dir)
    (hcount : 1 ≤ (inode ip).nlink.toInt) (hempty : isdirempty (inode ip).entries = true)
    (hname : name ≠ dot) (hname' : name ≠ dotdot)
    (hscan : dirscan (inode dp).entries name = some (ip, off))
    (hip : inode' ip = { inode ip with nlink := (inode ip).nlink - 1 })
    (hdp : inode' dp = { inode dp with
      nlink := (inode dp).nlink - 1
      entries := clearEntry (inode dp).entries off }) : InodesOk n inode' := by
  obtain ⟨hshape, hup, hkids⟩ := (h.shaped dp hd.1).clearEntry hname hname' hscan
  have hback : ∀ j, j ≠ ip → j ≠ dp → inode j = inode' j := fun j hi hd => (hother j hi hd).symm
  have hallocated : ∀ {d}, (inode d).type = .dir → (inode d).type ≠ .free := by
    intro d hdt
    rw [hdt]
    nofun
  have hipLive : Live (inode ip) := by
    refine ⟨htype, ?_⟩
    intro hz
    rw [hz] at hcount
    exact absurd hcount (by decide)
  have hipMem := h.live_iff.mpr hipLive
  have hdpMem := h.live_iff.mpr hd
  have hkid : ip ∈ (treeOf n inode).kids dp := by
    simp only [treeOf, hkids]
    exact Multiset.mem_cons_self ip _
  have hnone : (treeOf n inode).kids ip = 0 := isdirempty_iff.mp hempty
  -- The removed directory has one name, and the parent keeps a name besides its `..`.
  have hone := h.rooted.links_empty hdpMem hipMem hkid hnone
  have htwo := h.rooted.links_parent hdpMem hipMem hkid hnone
  obtain ⟨hroot, hup'⟩ := h.rooted.kid dp hdpMem ip hipMem hkid
  have hdcount := h.count dp (hallocated hd.1)
  have hnlink : (inode' dp).nlink.toInt = (inode dp).nlink.toInt - 1 := by
    rw [hdp]
    exact toInt_pred (by omega)
  have hgone : (inode' ip).nlink = 0 := by
    apply BitVec.eq_of_toInt_eq
    rw [hip]
    change ((inode ip).nlink - 1).toInt = 0
    rw [toInt_pred hcount, h.count ip (hallocated htype), hone]
    rfl
  have hsame : ∀ j, (inode' j).type = (inode j).type := by
    intro j
    by_cases hji : j = ip
    · rw [hji, hip]
    · by_cases hjd : j = dp
      · rw [hjd, hdp]
      · rw [hother j hji hjd]
  have hlive : ∀ d, Live (inode' d) ↔ d ≠ ip ∧ Live (inode d) := by
    intro d
    by_cases hdi : d = ip
    · rw [hdi]
      exact iff_of_false (fun hl => hl.2 hgone) (fun hl => hl.1 rfl)
    · by_cases hdd : d = dp
      · rw [hdd]
        refine iff_of_true ⟨(hsame dp).trans hd.1, ?_⟩ ⟨Ne.symm hne, hd⟩
        intro hz
        rw [hz, hdcount] at hnlink
        exact absurd hnlink (by change (0 : ℤ) ≠ _; omega)
      · rw [hother d hdi hdd]
        exact ⟨fun hl => ⟨hdi, hl⟩, And.right⟩
  have hmem : ∀ {d}, d ∈ (treeOf n inode').live ↔ d ≠ ip ∧ d ∈ (treeOf n inode).live := by
    intro d
    simp only [treeOf, Finset.mem_filter, hlive]
    exact and_left_comm
  have hadd : AddsNode (treeOf n inode') (treeOf n inode) dp ip := by
    refine ⟨?_, fun hl => (hmem.mp hl).1 rfl, hmem.mpr ⟨Ne.symm hne, hdpMem⟩, ?_, ?_, ?_, hnone⟩
    · ext d
      rw [Finset.mem_insert, hmem]
      by_cases hdi : d = ip
      · rw [hdi]
        exact iff_of_true hipMem (Or.inl rfl)
      · exact ⟨fun hl => Or.inr ⟨hdi, hl⟩, fun hl => (hl.resolve_left hdi).2⟩
    · exact fun e he => up_of_other hback (hmem.mp he).1 (by rw [hdp, hup])
    · exact hup'
    · exact fun e he => kids_of_other hback (hmem.mp he).1 (by rw [hdp, hkids])
  have hremoved : InodeOk n ip (inode' ip) := by
    rw [hip]
    exact ⟨(h.each ip).allocated, (h.each ip).shaped, fun _ _ => hnone⟩
  have hparent : InodeOk n dp (inode' dp) := by
    refine ⟨?_, ?_, ?_⟩
    · rw [hsame dp]
      exact (h.each dp).allocated
    · intro _
      rw [hdp]
      exact hshape
    · exact fun _ hlink => absurd hlink ((hlive dp).mpr ⟨Ne.symm hne, hd⟩).2
  refine .of_each h.bound (h.each_of_two hother hremoved hparent)
    (hadd.rooted_drop h.rooted hroot) ?_ ?_
  · intro d hdl c hc
    obtain ⟨hdi, hold⟩ := (hlive d).mp hdl
    rw [hsame c]
    apply h.named d hold c
    by_cases hdd : d = dp
    · rw [hdd, hdp] at hc
      rw [hdd, hkids]
      exact Multiset.mem_cons_of_mem hc
    · rwa [hother d hdi hdd] at hc
  · intro j hj
    rw [hsame j] at hj
    have hcountj := h.count j hj
    have hlinksj := hadd.links j
    by_cases hji : j = ip
    · subst hji
      rw [hone, if_pos rfl] at hlinksj
      rw [hgone]
      change (0 : ℤ) = _
      omega
    · rw [if_neg (Ne.symm hji)] at hlinksj
      by_cases hjd : j = dp
      · subst hjd
        rw [if_pos rfl] at hlinksj
        omega
      · rw [if_neg (Ne.symm hjd)] at hlinksj
        rw [hother j hji hjd, hcountj]
        omega

end Names

end Table

end DirectoryTree
