import Xv6Gui.LogGroupCommit
import Mathlib.Data.Fintype.Fin

/-!
# Room in the log

begin_op admits operations as long as their full reservations fit into `LOGSIZE` blocks.
With the `LOGSIZE` log blocks of mkfs, one of which is the header, log_write refuses the
last of them, and it asks before it looks whether the block is logged already.
-/
namespace LogCapacity

open DiskLog LogGroupCommit GuardedRuns

variable {P : Type} [DecidableEq P]

/-- The blocks logged since the last commit. -/
def loggedSince (s : Journal P) : Finset ℤ :=
  ((s.entries.filter fun e => decide (e.commit = s.commits)).map Entry.block).toFinset

/-- The blocks that the present operation of a process has logged. -/
def opBlocks (s : Journal P) (p : P) : Finset ℤ :=
  ((s.entries.filter fun e => decide (e.op = s.op p)).map Entry.block).toFinset

/-- An operation logs at most `MAXOPBLOCKS` distinct blocks. -/
def WithinBound (s : Journal P) : Event P → Prop
  | .logWrite p b _ => (insert b (opBlocks s p)).card ≤ maxOpBlocks
  | _ => True

instance (s : Journal P) : (e : Event P) → Decidable (WithinBound s e)
  | .logWrite _ _ _ => inferInstanceAs (Decidable (_ ≤ _))
  | .beginOp _ | .logRecord _ | .endOp _ | .commit _ => inferInstanceAs (Decidable True)

/-- The log of `nlog` blocks has room for one block besides the header and those logged. -/
def RoomLeft (s : Journal P) : Event P → Prop
  | .logWrite _ _ _ => (loggedSince s).card + 1 < logSize
  | _ => True

instance (s : Journal P) : (e : Event P) → Decidable (RoomLeft s e)
  | .logWrite _ _ _ => inferInstanceAs (Decidable (_ < _))
  | .beginOp _ | .logRecord _ | .endOp _ | .commit _ => inferInstanceAs (Decidable True)

def NotTooBig (area : LogArea) (s : Journal P) (e : Event P) : Prop :=
  step area s e ≠ .error (.panic "too big a transaction")

theorem length_blocks {lh : LogHeader} (h : HeaderOk lh) : (lh.blocks.length : ℤ) = lh.n := by
  have hcard := Fin.card_filter_val_lt (n := logSize) (m := lh.n.toNat)
  have hlt : ∀ i : Fin logSize, (i.val : ℤ) < lh.n ↔ i.val < lh.n.toNat := fun i => by omega
  have hlength : lh.blocks.length =
      (Finset.univ.filter fun i : Fin logSize => i.val < lh.n.toNat).card := by
    simp only [LogHeader.blocks, List.length_map, hlt]
    rfl
  have := h.nonneg
  have := h.le
  rw [hlength, hcard]
  omega

omit [DecidableEq P] in
/-- The count in the header is the number of blocks logged since the last commit. -/
theorem card_loggedSince {s : Journal P} (h : Invariant s)
    (hopen : ∀ p, s.state.proc p ≠ .committing .returned) :
    ((loggedSince s).card : ℤ) = s.state.store.lh.n := by
  have hset : loggedSince s = s.state.store.lh.blocks.toFinset := by
    ext b
    rw [List.mem_toFinset, h.listed hopen b]
    simp [loggedSince, and_assoc]
  rw [hset, List.toFinset_card_of_nodup h.header.nodup, length_blocks h.header]

theorem notTooBig_iff {start : ℤ} {s : Journal P} {e : Event P} (h : Invariant s)
    (he : Enabled s e) : NotTooBig ⟨start, nlog⟩ s e ↔ RoomLeft s e := by
  have hnlog : nlog = (logSize : ℤ) := rfl
  constructor
  · intro hbig
    cases e with
    | logWrite p b data =>
      have hinside : (s.state.proc p).InOp := by
        rw [show s.state.proc p = .inOp from he]
        trivial
      have hcard := card_loggedSince h fun q => (h.mode.of_inOp hinside).2 q _
      by_contra hroom
      apply hbig
      simp only [RoomLeft] at hroom
      simp only [step, logWrite]
      rw [if_pos (Or.inr (by omega))]
      rfl
    | _ => trivial
  · intro hroom hp
    obtain ⟨-, p, b, data, rfl, hfull⟩ := panic_cases h he hp
    have hinside : (s.state.proc p).InOp := by
      rw [show s.state.proc p = .inOp from he]
      trivial
    have hcard := card_loggedSince h fun q => (h.mode.of_inOp hinside).2 q _
    simp only [RoomLeft] at hroom
    dsimp only at hfull
    omega

/-- log_write does not panic for want of room as long as each call finds at most
`LOGSIZE - 2` distinct blocks logged since the last commit. -/
theorem not_too_big_iff (start : ℤ) (disk cache : ℤ → Block) (block : Fin logSize → ℤ)
    (events : List (Event P))
    (he : Along (step ⟨start, nlog⟩) Enabled (LogGroupCommit.start P disk cache block) events) :
    Along (step ⟨start, nlog⟩) (NotTooBig ⟨start, nlog⟩)
        (LogGroupCommit.start P disk cache block) events ↔
      Along (step ⟨start, nlog⟩) RoomLeft (LogGroupCommit.start P disk cache block) events :=
  along_iff (fun _ _ => notTooBig_iff) (fun _ _ _ h he _ => step_invariant h he)
    (start_invariant disk cache block) he

def blank : Journal (Fin 3) :=
  LogGroupCommit.start (Fin 3) (fun _ _ => 0) (fun _ _ => 0) fun _ => 0

def logTen (p : Fin 3) (first : ℤ) : List (Event (Fin 3)) :=
  (List.range 10).flatMap fun k => [.logWrite p (first + k) fun _ => 0, .logRecord p]

/-- Three operations, each of which logs ten blocks of its own. -/
def threeOperations : List (Event (Fin 3)) :=
  [.beginOp 0, .beginOp 1, .beginOp 2] ++ logTen 0 100 ++ logTen 1 200 ++ logTen 2 300

/-- Two operations that have a block in common share a commit, and a third one follows it. -/
def sharedCommit : List (Event (Fin 3)) :=
  [.beginOp 0, .logWrite 0 100 fun _ => 1, .beginOp 1, .logRecord 0, .logWrite 1 100 fun _ => 2,
    .logWrite 0 200 fun _ => 3, .logRecord 1, .logRecord 0, .endOp 0, .endOp 1] ++
    List.replicate 10 (.commit 1) ++ .beginOp 2 :: logTen 2 300 ++ [.endOp 2]

theorem not_too_big_shared_commit :
    Along (step ⟨2, nlog⟩) (NotTooBig ⟨2, nlog⟩) blank sharedCommit :=
  (not_too_big_iff 2 _ _ _ _ (by decide +kernel)).mpr (by decide +kernel)

theorem three_operations_too_big :
    ¬∀ (P : Type) [DecidableEq P] (start : ℤ) (disk cache : ℤ → Block) (block : Fin logSize → ℤ)
      (events : List (Event P)),
      Along (step ⟨start, nlog⟩) Enabled (LogGroupCommit.start P disk cache block) events →
      Along (step ⟨start, nlog⟩) WithinBound (LogGroupCommit.start P disk cache block) events →
      Along (step ⟨start, nlog⟩) (NotTooBig ⟨start, nlog⟩)
        (LogGroupCommit.start P disk cache block) events := by
  intro h
  obtain ⟨henabled, hbound, hroom⟩ : Along (step ⟨2, nlog⟩) Enabled blank threeOperations ∧
      Along (step ⟨2, nlog⟩) WithinBound blank threeOperations ∧
        ¬Along (step ⟨2, nlog⟩) RoomLeft blank threeOperations := by
    decide +kernel
  have hbig := h (Fin 3) 2 _ _ _ threeOperations henabled hbound
  exact hroom ((along_iff (fun _ _ => notTooBig_iff) (fun _ _ _ h he _ => step_invariant h he)
    (start_invariant _ _ _) henabled).mp hbig)

end LogCapacity
