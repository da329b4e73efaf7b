import Xv6Gui.FileSystemSpecs

/-!
# Calls that fail

A call that returns -1 has left the inodes as they were, on every exit but one: `sys_open` has
called `create` before it turns to the file table.
-/
namespace FailedCalls

open GuardedRuns Directories FileSystem FileSystemSpecs
open WindowManagerState (ProcId)
open FileTable (FileId FileFault nofile setFile setSlot setLife oCreate)

section Soundness

variable {s t : System} {p : ProcId} {ip dp off : ℕ} {name : Name} {f : FileId}

/-- What every call may rely on and every call keeps. -/
structure Sound (s : System) : Prop where
  anchored : Anchored s
  closed : ClosedFiles s.tables

theorem iput_inode_of_linked {i : ℕ} (h : (s.inode i).nlink ≠ 0) :
    (iput s i).inode = s.inode := by
  have hkept : ¬((s.inode i).type ≠ .free ∧ (s.inode i).nlink = 0 ∧ s.iref i = 1) :=
    fun hn => h hn.2.1
  simp only [iput, if_neg hkept]

theorem anchored_made {type : InodeType} {major minor : BitVec 16} (h : Anchored s) :
    Anchored (hold (made s dp ip name type major minor) dp) := by
  intro i htype hlink
  by_cases hd : i = dp
  · rw [hd, hold_iref_self]
    exact Nat.succ_ne_zero _
  · rw [hold_iref_of_ne hd]
    by_cases hi : i = ip
    · rw [hi, made, hold_iref_self]
      exact Nat.succ_ne_zero _
    · rw [made, hold_iref_of_ne hi]
      simp only [made, hold_inode, setInode_inode_of_ne hd, setInode_inode_of_ne hi]
        at htype hlink
      exact h i htype hlink

theorem anchored_created {type : InodeType} {major minor : BitVec 16} (h : Anchored s) :
    Anchored (created s dp ip name type major minor) := anchored_iput (anchored_made h) dp

theorem anchored_linked (h : Anchored s) (hne : ip ≠ dp) :
    Anchored (hold (linked s dp ip name) ip) := by
  intro i htype hlink
  by_cases hi : i = ip
  · rw [hi, hold_iref_self]
    exact Nat.succ_ne_zero _
  · rw [hold_iref_of_ne hi]
    by_cases hd : i = dp
    · subst hd
      simp only [linked, enter, setNlink, hold_inode, setInode_inode_self,
        setInode_inode_of_ne hi] at htype hlink
      exact h i htype hlink
    · simp only [linked, enter, setNlink, hold_inode, setInode_inode_of_ne hd,
        setInode_inode_of_ne hi] at htype hlink
      exact h i htype hlink

theorem iput_iref_of_ne {i j : ℕ} (h : j ≠ i) : (iput s i).iref j = s.iref j :=
  Function.update_of_ne h _ _

theorem anchored_unlinked (h : Anchored s) (hne : ip ≠ dp) : Anchored (unlinked s dp ip off) := by
  have hcut : Anchored (hold (hold (cut s dp ip off) dp) ip) := by
    apply anchored_hold
    intro i htype hlink
    by_cases hd : i = dp
    · rw [hd, hold_iref_self]
      exact Nat.succ_ne_zero _
    · rw [hold_iref_of_ne hd]
      simp only [cut, hold_inode, setInode_inode_of_ne hd] at htype hlink
      exact h i htype hlink
  apply anchored_iput
  apply anchored_setInode (anchored_iput hcut dp)
  intro _ _
  rw [iput_iref_of_ne hne, hold_iref_self]
  exact Nat.succ_ne_zero _

theorem closed_setFile {tables : FileTable.System} {v : FileTable.File} (h : ClosedFiles tables)
    (hv : v.ref = 0 → v.type = .none) : ClosedFiles (setFile tables f v) := by
  intro g hg
  by_cases hgf : g = f
  · subst hgf
    simp only [setFile, Function.update_self] at hg ⊢
    exact hv hg
  · simp only [setFile, Function.update_of_ne hgf] at hg ⊢
    exact h g hg

theorem closed_fileclose {tables tables' : FileTable.System} (h : ClosedFiles tables)
    (ht : FileTable.fileclose tables f = .ok tables') : ClosedFiles tables' := by
  simp only [FileTable.fileclose] at ht
  split at ht
  · cases ht
  · split at ht
    · next hmore =>
      cases ht
      exact closed_setFile h fun hz => absurd hz (Nat.pos_iff_ne_zero.mp hmore)
    · have hclosed := closed_setFile (f := f)
        (v := { tables.file f with ref := 0, type := .none }) h fun _ => rfl
      split at ht
      · simp only [FileTable.pipeclose] at ht
        split at ht
        · cases ht
        · split at ht <;> cases ht <;> exact hclosed
      · cases ht
        exact hclosed
      · cases ht
        exact hclosed

theorem sound_opened {fd : Fin nofile} {omode : BitVec 32} (h : Sound s) :
    Sound (opened s p f fd ip omode) :=
  ⟨h.anchored, closed_setFile h.closed fun hz => absurd hz Nat.one_ne_zero⟩

theorem sound_iput (h : Sound s) (i : ℕ) : Sound (iput s i) :=
  ⟨anchored_iput h.anchored i, by rw [iput_tables]; exact h.closed⟩

theorem sound_fileclose (h : Sound s) (ht : fileclose s f = .ok t) : Sound t := by
  obtain ⟨tables, htables, rfl⟩ := fileclose_eq_ok.mp ht
  have hsound : Sound { s with tables := tables } :=
    ⟨h.anchored, closed_fileclose h.closed htables⟩
  split
  · exact hsound
  · exact sound_iput hsound _

theorem sound_closeFiles {fds : List (Fin nofile)} (h : Sound s)
    (ht : closeFiles s p fds = .ok t) : Sound t := by
  induction fds generalizing s with
  | nil =>
    cases ht
    exact h
  | cons fd fds ih =>
    simp only [closeFiles] at ht
    split at ht
    · exact ih h ht
    · obtain ⟨u, hu, ht⟩ := bind_eq_ok.mp ht
      have hsound := sound_fileclose h hu
      have hslot : Sound { u with tables := setSlot u.tables (p, fd) none } :=
        ⟨hsound.anchored, hsound.closed⟩
      exact ih hslot ht

/-- Every call keeps what the calls rely on. -/
theorem call_sound {e : Event} {r : ℤ} (h : Sound s) (ht : call s e = .ok (t, r)) : Sound t := by
  have htables : ∀ {u : System}, Anchored u → u.tables = s.tables → Sound u :=
    fun ha htab => ⟨ha, htab ▸ h.closed⟩
  cases e with
  | «open» p path omode =>
    rcases sysOpen_cases h.anchored h.closed ht with ⟨-, rfl, -⟩ |
      ⟨_, ip, f, fd, -, -, -, -, -, rfl⟩ | ⟨_, dp, ip, name, -, -, -, hend⟩
    · exact h
    · have hheld : Sound (hold s ip) := ⟨anchored_hold h.anchored ip, h.closed⟩
      exact sound_opened hheld
    · have hmade : Sound (created s dp ip name .file 0 0) :=
        htables (anchored_created h.anchored) (iput_tables _ dp)
      rcases hend with ⟨-, -, rfl⟩ | ⟨-, f, fd, -, -, -, rfl⟩
      · exact sound_iput hmade ip
      · exact sound_opened hmade
  | mkdir p path =>
    rcases create_call_cases h.anchored (by nofun) ht with
      ⟨-, rfl⟩ | ⟨-, _, dp, ip, name, -, -, rfl⟩
    · exact h
    · exact sound_iput (htables (anchored_created h.anchored) (iput_tables _ dp)) ip
  | mknod p path major minor =>
    rcases create_call_cases h.anchored (by nofun) ht with
      ⟨-, rfl⟩ | ⟨-, _, dp, ip, name, -, -, rfl⟩
    · exact h
    · exact sound_iput (htables (anchored_created h.anchored) (iput_tables _ dp)) ip
  | link p old new =>
    rcases sysLink_cases h.anchored ht with ⟨-, rfl⟩ | ⟨-, _, _, dp, ip, name, -, -, hadds, rfl⟩
    · exact h
    · exact sound_iput (htables (anchored_linked h.anchored hadds.ne) rfl) ip
  | unlink p path =>
    rcases sysUnlink_cases h.anchored ht with ⟨-, rfl⟩ | ⟨-, _, dp, ip, off, name, -, hrem, rfl⟩
    · exact h
    · refine htables (anchored_unlinked h.anchored hrem.ne) ?_
      exact (iput_tables _ ip).trans (iput_tables _ dp)
  | chdir p path =>
    rcases sysChdir_cases h.anchored ht with ⟨-, rfl⟩ | ⟨-, ip, -, rfl⟩
    · exact h
    · have hput := sound_iput ⟨anchored_hold h.anchored ip, h.closed⟩ (s.cwd p)
      exact ⟨hput.anchored, hput.closed⟩
  | close p fd =>
    simp only [call, sysClose] at ht
    split at ht
    · cases ht
      exact h
    · obtain ⟨u, hu, ht⟩ := bind_eq_ok.mp ht
      cases ht
      have hslot : ∀ x, Sound { s with tables := setSlot s.tables x none } :=
        fun _ => ⟨h.anchored, h.closed⟩
      exact sound_fileclose (hslot _) hu
  | exit p =>
    obtain ⟨u, hu, ht⟩ := bind_eq_ok.mp ht
    cases ht
    simp only [exit] at hu
    split at hu
    · exact nomatch hu
    · obtain ⟨v, hv, hu⟩ := bind_eq_ok.mp hu
      cases hu
      have hput := sound_iput (sound_closeFiles h hv) (v.cwd p)
      exact ⟨hput.anchored, hput.closed⟩

theorem step_sound {e : Event} (h : Sound s) (ht : step s e = .ok t) : Sound t := by
  obtain ⟨⟨u, r⟩, hu, rfl⟩ := map_eq_ok.mp ht
  exact call_sound h hu

/-- `open` makes a file and then finds no struct file or no descriptor for it. -/
def CreatesThenFails (s : System) : Event → Prop
  | .open p path omode => (omode &&& oCreate ≠ 0 ∧ NameFree s p path) ∧ TablesFull s.tables p
  | _ => False

theorem created_inode {path : List UInt8} (hnew : MakesNew s p path dp ip name) :
    ((iput (created s dp ip name .file 0 0) ip).inode ip).type = .file := by
  have hself : (created s dp ip name .file 0 0).inode ip = newInode dp ip .file 0 0 := by
    simp only [created, iput_inode_of_ne hnew.ne, made, hold_inode, setInode_inode_of_ne hnew.ne,
      setInode_inode_self]
  have hlinked : ((created s dp ip name .file 0 0).inode ip).nlink ≠ 0 := by
    have hone : (1 : BitVec 16) ≠ 0 := by decide
    rw [hself]
    exact hone
  rw [iput_inode_of_linked hlinked, hself]
  rfl

theorem fd_ne_neg (fd : Fin nofile) : ((fd : ℕ) : ℤ) ≠ -1 := by omega

/-- From every state that calls can reach, a call that returns -1 leaves the directory tree, all
contents and all link counts as they were exactly when it is not an open that has already made
the file. -/
theorem failed_call_unchanged_iff {e : Event} {r : ℤ} (h : Sound s)
    (ht : call s e = .ok (t, r)) :
    Sound t ∧ (r = -1 → (t.inode = s.inode ↔ ¬CreatesThenFails s e)) := by
  refine ⟨call_sound h ht, ?_⟩
  rintro rfl
  cases e with
  | «open» p path omode =>
    rcases sysOpen_cases h.anchored h.closed ht with ⟨-, rfl, hnot⟩ |
      ⟨_, ip, f, fd, -, -, -, -, hr, -⟩ | ⟨path', dp, ip, name, rfl, hcreate, hnew, hend⟩
    · exact iff_of_true rfl fun hc => hnot hc.1
    · exact absurd hr.symm (fd_ne_neg fd)
    · rcases hend with ⟨hfull, -, rfl⟩ | ⟨-, f, fd, -, -, hr, -⟩
      · refine iff_of_false ?_ (not_not.mpr ⟨⟨hcreate, dp, name, hnew.parent, hnew.absent⟩, hfull⟩)
        intro heq
        have htype := created_inode hnew
        rw [heq, hnew.free] at htype
        exact nomatch htype
      · exact absurd hr.symm (fd_ne_neg fd)
  | mkdir p path =>
    rcases create_call_cases h.anchored (by nofun) ht with ⟨-, rfl⟩ | ⟨hr, -⟩
    · exact iff_of_true rfl not_false
    · exact nomatch hr
  | mknod p path major minor =>
    rcases create_call_cases h.anchored (by nofun) ht with ⟨-, rfl⟩ | ⟨hr, -⟩
    · exact iff_of_true rfl not_false
    · exact nomatch hr
  | link p old new =>
    rcases sysLink_cases h.anchored ht with ⟨-, rfl⟩ | ⟨hr, -⟩
    · exact iff_of_true rfl not_false
    · exact nomatch hr
  | unlink p path =>
    rcases sysUnlink_cases h.anchored ht with ⟨-, rfl⟩ | ⟨hr, -⟩
    · exact iff_of_true rfl not_false
    · exact nomatch hr
  | chdir p path =>
    rcases sysChdir_cases h.anchored ht with ⟨-, rfl⟩ | ⟨hr, -⟩
    · exact iff_of_true rfl not_false
    · exact nomatch hr
  | close p fd =>
    simp only [call, sysClose] at ht
    split at ht
    · cases ht
      exact iff_of_true rfl not_false
    · obtain ⟨u, hu, ht⟩ := bind_eq_ok.mp ht
      cases ht
  | exit p =>
    obtain ⟨u, hu, ht⟩ := bind_eq_ok.mp ht
    cases ht

end Soundness

section Boot

theorem sound_emptyDisk (ninodes : ℕ) : Sound (emptyDisk ninodes) := by
  refine ⟨?_, fun _ _ => rfl⟩
  intro i htype _
  by_cases hi : i = rootino
  · rw [hi]
    exact Nat.one_ne_zero
  · exact absurd (congrArg Inode.type (if_neg hi)) htype

/-- A directory cannot be linked, and nothing is left of the attempt. -/
theorem failed_call_unchanged_iff_directory :
    ∃ t, call (emptyDisk 8) (.link 0 (some [slash]) (some [slash, 97])) = .ok (t, -1) ∧
      Sound t ∧ t.inode = (emptyDisk 8).inode := by
  obtain ⟨t, ht⟩ : ∃ t, call (emptyDisk 8) (.link 0 (some [slash]) (some [slash, 97])) =
      .ok (t, -1) := ⟨_, rfl⟩
  obtain ⟨hsound, hsame⟩ := failed_call_unchanged_iff (sound_emptyDisk 8) ht
  exact ⟨t, ht, hsound, (hsame rfl).mpr fun hcreates => hcreates⟩

/-- init opens the root directory on all its descriptors. -/
def openAll : List Event := List.replicate 16 (.open 0 (some [slash]) 0)

theorem open_leaves_file : ¬∀ s, Sound s → ∀ e t, call s e = .ok (t, -1) →
    t.inode = s.inode := by
  intro h
  obtain ⟨s, hs, hf⟩ := execution_of_map step (emptyDisk 8) openAll
    (fun s => ((s.inode 2).type, (call s (.open 0 (some [slash, 97]) oCreate)).map
      fun x => ((x.1.inode 2).type, x.2)))
    (b := (.free, .ok (.file, -1))) (by decide +kernel)
  obtain ⟨hfree, hcall⟩ := Prod.mk.inj hf
  cases hc : call s (.open 0 (some [slash, 97]) oCreate) with
  | error e =>
    rw [hc] at hcall
    exact nomatch hcall
  | ok x =>
    obtain ⟨t, r⟩ := x
    rw [hc] at hcall
    obtain ⟨hfile, rfl⟩ := Prod.mk.inj (Except.ok.inj hcall)
    have hsound := execution_invariant (fun _ _ _ => step_sound) hs (sound_emptyDisk 8)
    have hsame := h s hsound _ t hc
    have htype : (t.inode 2).type = .file := hfile
    rw [hsame, hfree] at htype
    exact nomatch htype

end Boot

end FailedCalls
