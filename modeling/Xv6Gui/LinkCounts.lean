import Xv6Gui.HeldInodes

/-!
# Link counts over sequences of calls

An inode that nobody has in memory is named in a directory that the root leads to, and its link
count is the number of its names. Every call keeps this, except that a removed directory can
still be written by a process that is in it, and that a count can run over.
-/
namespace LinkCounts

open GuardedRuns Directories FileSystem FileSystemSpecs DirectoryTree CountedTrees HeldInodes
open FileReferences (uses uses_fill exists_of_uses)
open WindowManagerState (ProcId)
open FileTable (nofile oCreate setLife)

/-- The directory in which the path has a last name that is free. -/
def newParent (s : System) (p : ProcId) (path : Option (List UInt8)) : Option ℕ := do
  let path ← path
  let (dp, name) ← lookup s p path true
  if dirscan (s.inode dp).entries name = none then some dp else none

def linkSource (s : System) (p : ProcId) (old : Option (List UInt8)) : Option ℕ := do
  let old ← old
  let (ip, _) ← lookup s p old false
  return ip

/-- No name is put into a directory that has been removed, and no count goes beyond a short. -/
def KeepsCounts (s : System) : Event → Prop
  | .open p path omode =>
    omode &&& oCreate ≠ 0 → ∀ dp ∈ newParent s p path, (s.inode dp).nlink ≠ 0
  | .mkdir p path =>
    ∀ dp ∈ newParent s p path, (s.inode dp).nlink ≠ 0 ∧ (s.inode dp).nlink ≠ 32767
  | .mknod p path _ _ => ∀ dp ∈ newParent s p path, (s.inode dp).nlink ≠ 0
  | .link p old new => ∀ dp ∈ newParent s p new, ∀ ip ∈ linkSource s p old,
    (s.inode ip).type ≠ .dir → (s.inode dp).nlink ≠ 0 ∧ (s.inode ip).nlink ≠ 32767
  | .unlink _ _ | .chdir _ _ | .close _ _ | .exit _ => True

instance (s : System) : (e : Event) → Decidable (KeepsCounts s e)
  | .open _ _ _ => inferInstanceAs (Decidable (_ → _))
  | .mkdir _ _ | .mknod _ _ _ _ | .link _ _ _ => inferInstanceAs (Decidable (∀ dp ∈ _, _))
  | .unlink _ _ | .chdir _ _ | .close _ _ | .exit _ => .isTrue trivial

/-- The root, and every directory that an entry of one of these directories names. -/
inductive ReachableDir (s : System) : ℕ → Prop where
  | root : ReachableDir s rootino
  | entry {d : ℕ} {de : Dirent} : ReachableDir s d → de ∈ (s.inode d).entries → de.inum ≠ 0 →
    (s.inode de.inum).type = .dir → ReachableDir s de.inum

/-- A running process is in the directory or has a descriptor for the inode. -/
def Referenced (s : System) (i : ℕ) : Prop :=
  ∃ p, s.tables.life p = .live ∧ (s.cwd p = i ∨ ∃ fd f, s.tables.ofile (p, fd) = some f ∧
    (s.tables.file f).type = .inode ∧ (s.tables.file f).ip = i)

/-- The entries other than `.` that name the inode. -/
def namesOf (l : List Dirent) (i : ℕ) : ℕ := l.countP fun de => de.name ≠ dot ∧ de.inum = i

/-- Every inode that is allocated and not in use is named in a directory that can be reached,
and its count is that of its names. -/
def Consistent (s : System) : Prop :=
  ∃ dirs : Finset ℕ, (∀ d, d ∈ dirs ↔ ReachableDir s d) ∧
    ∀ i, (s.inode i).type ≠ .free → ¬Referenced s i →
      (∃ d ∈ dirs, ∃ de ∈ (s.inode d).entries, de.inum = i) ∧
        (s.inode i).nlink.toInt = ∑ d ∈ dirs, namesOf (s.inode d).entries i

section Calls

variable {s t : System} {p : ProcId} {ip dp : ℕ} {name : Name} {path : List UInt8} {e : Event}

theorem MakesNew.newParent (h : MakesNew s p path dp ip name) :
    dp ∈ newParent s p (some path) := by
  simp [LinkCounts.newParent, h.parent, h.absent]

theorem AddsLink.newParent {old new : List UInt8} (h : AddsLink s p old new dp ip name) :
    dp ∈ newParent s p (some new) := by
  simp [LinkCounts.newParent, h.parent, h.absent]

theorem AddsLink.linkSource {old new : List UInt8} (h : AddsLink s p old new dp ip name) :
    ip ∈ linkSource s p (some old) := by
  obtain ⟨name', hfile⟩ := h.file
  simp [LinkCounts.linkSource, hfile]

theorem created_tables {type : InodeType} {major minor : BitVec 16} :
    (created s dp ip name type major minor).tables = s.tables := iput_tables _ dp

/-- Every call leaves the references accounted for and the inodes in order. -/
theorem step_inv (h : Inv [] [] s) (he : Enabled s e) (hk : KeepsCounts s e)
    (ht : step s e = .ok t) : Inv [] [] t := by
  obtain ⟨⟨t', r⟩, hcall, rfl⟩ := map_eq_ok.mp ht
  cases e with
  | «open» p path omode =>
    rcases sysOpen_cases h.anchored h.files.closed hcall with ⟨-, rfl, -⟩ |
      ⟨_, ip, f, fd, -, -, hf, hfd, -, rfl⟩ | ⟨path, dp, ip, name, rfl, hcreate, hnew, hend⟩
    · exact h
    · exact (h.hold ip).opened he hf hfd
    · have hlink := hk hcreate dp (MakesNew.newParent hnew)
      have hmade : Inv [ip] [] (created s dp ip name .file 0 0) :=
        (h.made hnew (by decide) hlink fun hd => absurd hd (by decide)).iput
      rcases hend with ⟨-, -, rfl⟩ | ⟨-, f, fd, hf, hfd, -, rfl⟩
      · exact hmade.iput
      · apply hmade.opened
        · rw [created_tables]
          exact he
        · rw [created_tables]
          exact hf
        · rw [created_tables]
          exact hfd
  | mkdir p path =>
    rcases create_call_cases h.anchored (by decide) hcall with
      ⟨-, rfl⟩ | ⟨-, path, dp, ip, name, rfl, hnew, rfl⟩
    · exact h
    · obtain ⟨hlink, hmax⟩ := hk dp (MakesNew.newParent hnew)
      exact (h.made hnew (by decide) hlink fun _ => hmax).iput.iput
  | mknod p path major minor =>
    rcases create_call_cases h.anchored (by decide) hcall with
      ⟨-, rfl⟩ | ⟨-, path, dp, ip, name, rfl, hnew, rfl⟩
    · exact h
    · have hlink := hk dp (MakesNew.newParent hnew)
      exact (h.made hnew (by decide) hlink fun hd => absurd hd (by decide)).iput.iput
  | link p old new =>
    rcases sysLink_cases h.anchored hcall with
      ⟨-, rfl⟩ | ⟨-, old, new, dp, ip, name, rfl, rfl, hadds, rfl⟩
    · exact h
    · obtain ⟨hlink, hmax⟩ :=
        hk dp (AddsLink.newParent hadds) ip (AddsLink.linkSource hadds) hadds.notDir
      exact (h.linked hadds hlink hmax).iput
  | unlink p path =>
    rcases sysUnlink_cases h.anchored hcall with
      ⟨-, rfl⟩ | ⟨-, path, dp, ip, off, name, -, hrem, rfl⟩
    · exact h
    · exact h.unlinked hrem
  | chdir p path =>
    rcases sysChdir_cases h.anchored hcall with ⟨-, rfl⟩ | ⟨-, ip, -, rfl⟩
    · exact h
    · have hput := ((h.hold ip).enterDir he).iput
      rw [iput_setCwd] at hput
      exact hput
  | close p fd =>
    simp only [call, sysClose] at hcall
    split at hcall
    · cases hcall
      exact h
    · next fd' f harg =>
      obtain ⟨u, hu, hcall⟩ := bind_eq_ok.mp hcall
      cases hcall
      exact ((h.clear (FileReferences.argfd_spec harg)).fileclose hu).1
  | exit p =>
    obtain ⟨u, hu, hcall⟩ := bind_eq_ok.mp hcall
    cases hcall
    simp only [FileSystem.exit] at hu
    split at hu
    · cases hu
    · obtain ⟨v, hv, hu⟩ := bind_eq_ok.mp hu
      cases hu
      obtain ⟨hinv, hlife, hclosed, -⟩ := h.closeFiles hv
      have hp : v.tables.life p = .live := by
        rw [hlife]
        exact he
      have hleft := (hinv.leave hp fun fd => hclosed fd (List.mem_finRange fd)).iput
      have hframe := iput_setCwd { v with tables := setLife v.tables p .zombie }
        (Function.update v.cwd p 0) (v.cwd p)
      rw [iput_setTables] at hframe
      change FileSystem.iput _ (v.cwd p) = _ at hframe
      rw [hframe] at hleft
      simpa only [iput_cwd, iput_tables] using hleft

end Calls

section Consistency

variable {s : System} {n : ℕ} {inode : ℕ → Inode} {l : List Dirent} {de : Dirent} {d i : ℕ}

theorem count_named (hi : i ≠ 0) : (named l).count i = l.countP fun de => de.inum = i := by
  induction l with
  | nil => rfl
  | cons e rest ih =>
    rw [List.countP_cons]
    by_cases he : e.inum = 0
    · rw [named_cons_of_zero he, ih, if_neg (by simpa [he] using Ne.symm hi), Nat.add_zero]
    · rw [named_cons he, Multiset.count_cons, ih]
      simp only [decide_eq_true_eq, eq_comm (a := i)]

/-- The names of an inode in a directory, counted in the tree and in the entries. -/
theorem namesOf_eq (h : InodesOk n inode) (hd : Live (inode d)) (hi : i ≠ 0) :
    namesOf (inode d).entries i = (treeOf n inode).names d i := by
  have hshape := h.shaped d hd.1
  have hbehind : namesOf ((inode d).entries.drop 2) i = (kidsOf (inode d).entries).count i := by
    rw [kidsOf, count_named hi]
    apply List.countP_congr
    intro de hde
    simp only [decide_eq_true_eq]
    constructor
    · exact And.right
    · intro hi'
      refine ⟨(hshape.names de hde ?_).1, hi'⟩
      rw [hi']
      exact hi
  have hnames : namesOf (inode d).entries i =
      namesOf ((inode d).entries.drop 2) i + if upOf (inode d).entries = i then 1 else 0 := by
    have hne : dotdot ≠ dot := by decide
    conv_lhs => rw [hshape.eq]
    simp [namesOf, List.countP_cons, hne]
  rw [hnames, hbehind, Tree.names, Nat.add_comm]
  rfl

theorem mem_entries (h : Shaped d l) (hde : de ∈ l) (hne : de.inum ≠ 0) :
    de.inum = d ∨ de.inum = upOf l ∨ de.inum ∈ kidsOf l := by
  rw [h.eq] at hde
  rcases List.mem_cons.mp hde with rfl | hde
  · exact Or.inl rfl
  · rcases List.mem_cons.mp hde with rfl | hde
    · exact Or.inr (Or.inl rfl)
    · exact Or.inr (Or.inr (mem_named.mpr ⟨de, hde, hne, rfl⟩))

theorem entry_of_kid (h : i ∈ kidsOf l) : ∃ de ∈ l, de.inum ≠ 0 ∧ de.inum = i := by
  obtain ⟨de, hde, hne⟩ := mem_named.mp h
  exact ⟨de, List.mem_of_mem_drop hde, hne⟩

/-- The directories that can be reached are those that have not been removed. -/
theorem reachableDir_iff (h : InodesOk s.ninodes s.inode) :
    d ∈ (treeOf s.ninodes s.inode).live ↔ ReachableDir s d := by
  constructor
  · intro hd
    have hreach : ∀ c, Reaches (treeOf s.ninodes s.inode) rootino c →
        (s.inode c).type = .dir → ReachableDir s c := by
      intro c hc
      induction hc with
      | root => exact fun _ => .root
      | @kid e c _ he hk ih =>
        intro htype
        obtain ⟨de, hde, hne, rfl⟩ := entry_of_kid hk
        exact .entry (ih (h.live_iff.mp he).1) hde hne htype
    exact hreach d (h.rooted.reach d hd) (h.live_iff.mp hd).1
  · intro hd
    induction hd with
    | root => exact h.rooted.root_live
    | @entry d de _ hde hne htype ih =>
      have hlive := h.live_iff.mp ih
      rcases mem_entries (h.shaped d hlive.1) hde hne with heq | heq | hk
      · rw [heq]
        exact ih
      · rw [heq]
        exact h.rooted.up_live d ih
      · -- A directory with a name has a link.
        refine h.live_iff.mpr ⟨htype, ?_⟩
        intro hz
        have hpos := links_of_kid ih hk
        have hcount := h.count de.inum (by rw [htype]; nofun)
        rw [hz] at hcount
        change (0 : ℤ) = _ at hcount
        omega

theorem not_held (h : Inv [] [] s) (hi : ¬Referenced s i) : s.iref i = 0 := by
  have hcwd : uses (cwdOf s) i = 0 := by
    by_contra hne
    obtain ⟨p, hp⟩ := exists_of_uses hne
    simp only [cwdOf] at hp
    split at hp
    · next hlive => exact hi ⟨p, hlive, Or.inl (Option.some.inj hp)⟩
    · cases hp
  have hfile : uses (fileOf s.tables) i = 0 := by
    by_contra hne
    obtain ⟨f, hf⟩ := exists_of_uses hne
    simp only [fileOf] at hf
    split at hf
    · next htype =>
      -- A file with a type is in the descriptor table of a process that runs.
      have hused : uses s.tables.ofile f ≠ 0 := by
        intro hz
        have href := h.files.refs f
        rw [hz] at href
        rw [h.files.closed f href] at htype
        cases htype
      obtain ⟨⟨p, fd⟩, hslot⟩ := exists_of_uses hused
      have hlive : s.tables.life p = .live := by
        by_contra hp
        rw [h.idle p fd hp] at hslot
        cases hslot
      exact hi ⟨p, hlive, Or.inr ⟨fd, f, hslot, htype, Option.some.inj hf⟩⟩
    · cases hf
  have hrefs := h.refs i
  rw [List.count_nil] at hrefs
  omega

theorem consistent (h : Inv [] [] s) : Consistent s := by
  refine ⟨(treeOf s.ninodes s.inode).live, fun d => reachableDir_iff h.inodes, ?_⟩
  intro i htype hfree
  have hzero := (h.inodes.allocated i htype).1
  have hcount := h.inodes.count i htype
  constructor
  · have hlink : (s.inode i).nlink ≠ 0 := fun hz => h.anchored i htype hz (not_held h hfree)
    have hpos : 0 < (treeOf s.ninodes s.inode).links i := by
      have hne := toInt_ne_zero hlink
      omega
    obtain ⟨d, hd, hup | hk⟩ := named_of_links hpos
    · have hshape := h.inodes.shaped d (h.inodes.live_iff.mp hd).1
      refine ⟨d, hd, ⟨upOf (s.inode d).entries, dotdot⟩, ?_, hup⟩
      rw [hshape.eq]
      exact List.mem_cons_of_mem _ List.mem_cons_self
    · obtain ⟨de, hde, -, hi⟩ := entry_of_kid hk
      exact ⟨d, hd, de, hde, hi⟩
  · rw [hcount, Tree.links]
    congr 1
    apply Finset.sum_congr rfl
    intro d hd
    exact (namesOf_eq h.inodes (h.inodes.live_iff.mp hd) hzero).symm

/-- In every sequence of calls that puts no name into a removed directory and lets no count run
over, all inodes stay named and counted. -/
theorem links_consistent {s : System} {es : List Event} (h : Inv [] [] s)
    (ha : Along step (fun s e => Enabled s e ∧ KeepsCounts s e) s es) :
    Visits step Consistent s es :=
  visits_of_invariant (fun _ hs => consistent hs)
    (fun _ _ _ hs he ht => step_inv hs he.1 he.2 ht) h ha

end Consistency

section Boot

variable {n : ℕ} {inode : ℕ → Inode}

/-- The machine after boot: init is in the root directory and no file is open. -/
def boot (n : ℕ) (inode : ℕ → Inode) : System where
  ninodes := n
  inode := inode
  iref i := if i = rootino then 1 else 0
  cwd p := if p = ProcessTable.initproc then rootino else 0
  tables := FileTable.initial

/-- Calls may start on any image whose inodes are in order and all have links. -/
theorem inv_boot (h : InodesOk n inode)
    (hlinked : ∀ i, (inode i).type ≠ .free → (inode i).nlink ≠ 0) : Inv [] [] (boot n inode) := by
  refine ⟨h, fun i htype hz => absurd hz (hlinked i htype), ?_,
    FileReferences.settled_initial.inv, FileReferences.settled_initial.idle⟩
  intro i
  have hfile : uses (fileOf (boot n inode).tables) i = 0 := by
    by_contra hne
    obtain ⟨f, hf⟩ := exists_of_uses hne
    cases hf
  have hcwd : cwdOf (boot n inode) =
      Function.update (fun _ => none) ProcessTable.initproc (some rootino) := by
    funext p
    by_cases hp : p = ProcessTable.initproc
    · subst hp
      rw [Function.update_self]
      rfl
    · rw [Function.update_of_ne hp]
      simp only [cwdOf, boot, FileTable.initial, if_neg hp]
      exact if_neg (by decide)
  have hnone : uses (fun _ : ProcId => (none : Option ℕ)) i = 0 := by
    by_contra hne
    obtain ⟨p, hp⟩ := exists_of_uses hne
    cases hp
  rw [hfile, hcwd, uses_fill rfl, hnone, List.count_nil]
  simp only [boot, eq_comm (a := i)]
  omega

theorem inodesOk_emptyDisk (hlt : 1 < n) (hn : n ≤ 65536) : InodesOk n (emptyDisk n).inode := by
  have hroot : (emptyDisk n).inode rootino =
      ⟨.dir, 0, 0, 1, [⟨rootino, dot⟩, ⟨rootino, dotdot⟩], []⟩ := rfl
  have hother : ∀ {i}, ((emptyDisk n).inode i).type ≠ .free → i = rootino := by
    intro i hi
    by_contra hne
    exact hi (congrArg Inode.type (if_neg hne))
  have hdirs : ∀ {d}, ((emptyDisk n).inode d).type = .dir → d = rootino :=
    fun hd => hother (by rw [hd]; decide)
  have hlive : (treeOf n (emptyDisk n).inode).live = {rootino} := by
    ext d
    simp only [treeOf, Finset.mem_filter, Finset.mem_range, Finset.mem_singleton]
    constructor
    · rintro ⟨-, hd⟩
      exact hdirs hd.1
    · rintro rfl
      have hone : (1 : BitVec 16) ≠ 0 := by decide
      exact ⟨hlt, rfl, hone⟩
  have hkids : kidsOf ((emptyDisk n).inode rootino).entries = 0 := rfl
  refine ⟨hn, ?_, ?_, ?_, ⟨?_, rfl, ?_, ?_, ?_, ?_⟩, ?_, ?_⟩
  · intro i hi
    rw [hother hi]
    exact ⟨Nat.one_ne_zero, hlt⟩
  · intro d hd
    rw [hdirs hd, hroot]
    exact ⟨⟨[], rfl⟩, Nat.one_ne_zero, fun _ he => absurd he List.not_mem_nil⟩
  · intro d hd _
    rw [hdirs hd, hkids]
  · rw [hlive]
    exact Finset.mem_singleton_self rootino
  · intro d hd
    rw [hlive, Finset.mem_singleton] at hd
    rw [hlive, hd]
    exact Finset.mem_singleton_self rootino
  · intro d hd c _ hk
    rw [hlive, Finset.mem_singleton] at hd
    rw [hd] at hk
    exact absurd hk (Multiset.notMem_zero c)
  · intro c hc hne
    rw [hlive, Finset.mem_singleton] at hc
    exact absurd hc hne
  · intro d hd
    rw [hlive, Finset.mem_singleton] at hd
    rw [hd]
    exact .root
  · intro d hd c hk
    rw [hdirs hd.1, hkids] at hk
    exact absurd hk (Multiset.notMem_zero c)
  · intro i hi
    rw [hother hi, Tree.links, hlive, Finset.sum_singleton]
    rfl

theorem inv_emptyDisk : Inv [] [] (emptyDisk 8) := by
  refine inv_boot (inodesOk_emptyDisk (by decide) (by decide)) ?_
  intro i hi
  by_cases hr : i = rootino
  · rw [hr]
    decide
  · exact absurd (congrArg Inode.type (if_neg hr)) hi

/-- A directory with a file that gets a second name, and one of the names goes. -/
theorem links_consistent_second_name : Visits step Consistent (emptyDisk 8)
    [.mkdir 0 (some [47, 97]), .open 0 (some [47, 97, 47, 98]) oCreate,
      .link 0 (some [47, 97, 47, 98]) (some [99]), .chdir 0 (some [97]), .unlink 0 (some [98]),
      .close 0 0] :=
  links_consistent inv_emptyDisk (by decide +kernel)

/-- init removes the directory that it is in, and then makes and closes a file there. -/
def writeRemoved : List Event :=
  [.mkdir 0 (some [47, 97]), .chdir 0 (some [47, 97]), .unlink 0 (some [47, 97]),
    .open 0 (some [98]) oCreate, .close 0 0]

theorem file_without_name : ¬∀ s es, Inv [] [] s → Along step Enabled s es →
    Visits step Consistent s es := by
  intro h
  have hvisits := h (emptyDisk 8) writeRemoved inv_emptyDisk (by decide +kernel)
  obtain ⟨t, ht, hf⟩ := execution_of_map step (emptyDisk 8) writeRemoved
    (fun t => ((t.inode 1).entries, (t.inode 3).type, t.cwd 0,
      decide (∀ p, t.tables.life p = .live → p = 0),
      decide (∀ fd : Fin nofile, t.tables.ofile (0, fd) = none)))
    (b := ([⟨1, dot⟩, ⟨1, dotdot⟩, zeroDirent], .file, 2, true, true)) (by decide +kernel)
  simp only [Prod.mk.injEq, decide_eq_true_eq] at hf
  obtain ⟨hroot, htype, hcwd, hlive, hslots⟩ := hf
  have hreach : ∀ d, ReachableDir t d → d = 1 := by
    intro d hd
    induction hd with
    | root => rfl
    | @entry d de _ hde hne _ ih =>
      rw [ih, hroot] at hde
      simp only [List.mem_cons, List.not_mem_nil, or_false] at hde
      rcases hde with rfl | rfl | rfl
      · rfl
      · rfl
      · exact absurd rfl hne
  have hfree : ¬Referenced t 3 := by
    rintro ⟨p, hp, hheld⟩
    rw [hlive p hp] at hheld
    rcases hheld with hc | ⟨fd, f, hslot, -⟩
    · rw [hcwd] at hc
      exact absurd hc (by decide)
    · rw [hslots fd] at hslot
      exact nomatch hslot
  obtain ⟨dirs, hdirs, hnamed⟩ := hvisits.last ht
  obtain ⟨⟨d, hd, de, hde, hi⟩, -⟩ := hnamed 3 (by rw [htype]; nofun) hfree
  rw [hreach d ((hdirs d).mp hd), hroot] at hde
  simp only [List.mem_cons, List.not_mem_nil, or_false] at hde
  rcases hde with rfl | rfl | rfl
  · exact absurd hi (by decide)
  · exact absurd hi (by decide)
  · exact absurd hi (by decide)

end Boot

end LinkCounts
