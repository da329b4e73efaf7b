import Xv6Gui.LogGroupCommit

/-!
# Commits and operations exclude each other

The two counters keep every operation out of a running commit, so that a group of
operations is committed as a whole and nothing else is.
-/
namespace CommitIsolation

open DiskLog LogGroupCommit GuardedRuns

variable {P : Type} [DecidableEq P] {area : LogArea} {s : Journal P} {e : Event P} {p : P}

/-- Of a running commit: no operation is in progress, and the header lists without
duplicates what has been logged since the last one. The blocks of an operation go together. -/
structure CommitLaw (s : Journal P) : Prop where
  alone : ∀ p pc, s.state.proc p = .committing pc →
    s.state.outstanding = 0 ∧ ∀ q, q ≠ p → s.state.proc q = .outside
  header : ∀ p pc, s.state.proc p = .committing pc → pc ≠ .returned →
    s.state.store.lh.blocks.Nodup ∧ Listed s
  together : ∀ e ∈ s.entries, ∀ f ∈ s.entries, e.op = f.op → e.commit = f.commit

/-- The panic of `end_op` does not happen, and while a commit runs nobody else changes
anything. -/
structure CommitStepLaw (area : LogArea) (s : Journal P) (e : Event P) : Prop where
  no_panic : step area s e ≠ .error (.panic "log.committing")
  still : ∀ p pc, s.state.proc p = .committing pc → e ≠ .commit p → step area s e = .ok s

theorem commitLaw_of (h : Invariant s) : CommitLaw s where
  alone _ _ hp := (h.mode.of_commit hp).2
  header p pc hp hpc := by
    refine ⟨h.header.nodup, h.listed ?_⟩
    intro q hq
    by_cases hqp : q = p
    · rw [hqp, hp] at hq
      cases hq
      exact hpc rfl
    · rw [(h.mode.of_commit hp).2.2 q hqp] at hq
      cases hq
  together := h.together

theorem commit_still (h : Invariant s) (he : Enabled s e) {pc : CommitPc}
    (hp : s.state.proc p = .committing pc) (hne : e ≠ .commit p) : step area s e = .ok s := by
  obtain ⟨hc, -, hothers⟩ := h.mode.of_commit hp
  have hidle : ∀ q, s.state.proc q ≠ .inOp ∧ (s.state.proc q).logged = none := by
    intro q
    by_cases hq : q = p
    · simp [hq, hp, ProcPc.logged]
    · simp [hothers q hq, ProcPc.logged]
  cases e with
  | beginOp q => simp [step, beginOp, hc]
  | logWrite q b data => exact absurd he (hidle q).1
  | logRecord q => simp [Enabled, (hidle q).2] at he
  | endOp q => exact absurd he (hidle q).1
  | commit q =>
    have hq : q ≠ p := fun hq => hne (by rw [hq])
    simp [Enabled, hothers q hq, ProcPc.commitPc] at he

theorem group_commit (area : LogArea) (disk cache : ℤ → Block) (block : Fin logSize → ℤ)
    (events : List (Event P))
    (he : Along (step area) Enabled (start P disk cache block) events) :
    Visits (step area) CommitLaw (start P disk cache block) events ∧
      Along (step area) (CommitStepLaw area) (start P disk cache block) events := by
  have hstep : ∀ (s : Journal P) e t, Invariant s → Enabled s e → step area s e = .ok t →
      Invariant t :=
    fun _ _ _ => step_invariant
  have hstart := start_invariant (P := P) disk cache block
  refine ⟨visits_of_invariant (fun _ => commitLaw_of) hstep hstart he,
    along_of_invariant (fun s e h he => ⟨?_, fun _ _ => commit_still h he⟩) hstep hstart
      he⟩
  intro hp
  exact absurd (panic_cases h he hp).1 (by decide)

/-- Two operations log a block in common; the one that ends last commits for both. -/
theorem group_commit_two_operations :
    let events : List (Event (Fin 2)) :=
      [.beginOp 0, .beginOp 1, .logWrite 0 100 fun _ => 1, .logWrite 1 100 fun _ => 2,
        .logRecord 1, .logRecord 0, .endOp 0, .endOp 1, .beginOp 0, .commit 1, .commit 1]
    let s := start (Fin 2) (fun _ _ => 0) (fun _ _ => 0) fun _ => 0
    Visits (step ⟨2, nlog⟩) CommitLaw s events ∧
      Along (step ⟨2, nlog⟩) (CommitStepLaw ⟨2, nlog⟩) s events :=
  group_commit ⟨2, nlog⟩ _ _ _ _ (by decide +kernel)

end CommitIsolation
