import Xv6Gui.Pipes

/-!
# Bytes through a pipe

What piperead returns is what pipewrite stored, in the order of the stores. The bytes in
between are the contents of the buffer from nread to nwrite, however often the counters
have wrapped, and every section adds at one end and takes from the other.
-/
namespace PipeBytes

open Pipes GuardedRuns

variable {P : Type}

/-- The bytes stored and not yet returned are at most a buffer full, and still in it. -/
structure Delivered (s : System P) : Prop where
  inOrder : s.returned <+: s.stored
  lag : s.stored.length ≤ s.returned.length + pipeSize
  kept : s.stored = s.returned ++ s.pipe.contents

structure Invariant (s : System P) : Prop where
  account : s.stored = s.returned ++ s.pipe.contents
  fill : s.pipe.fill ≤ pipeSize

theorem start_invariant (data : Fin pipeSize → UInt8) : Invariant (start P data) where
  account := by simp [start, Pipe.contents, Pipe.fill]
  fill := by
    simp only [start, Pipe.fill]
    decide

theorem pipeclose_invariant {s : System P} (h : Invariant s) (writable : Bool) :
    Invariant (pipeclose s writable) := by
  cases writable <;> exact ⟨h.account, h.fill⟩

variable [DecidableEq P] {s t : System P} {p : P} {n : ℕ} {rest : List UInt8} {e : Event P}

theorem writeSection_invariant (h : Invariant s) : Invariant (writeSection s p n rest) := by
  have hw := pipewrite_spec (s.proc p).killed n h.fill rest
  have hstored : (writeSection s p n rest).stored =
      s.stored ++ (pipewrite (s.proc p).killed n s.pipe rest).stored := by
    simp only [writeSection]
    split <;> split <;> rfl
  have hreturned : (writeSection s p n rest).returned = s.returned := by
    simp only [writeSection]
    split <;> split <;> rfl
  refine ⟨?_, ?_⟩
  · rw [hstored, hreturned, writeSection_pipe, hw.contents, h.account, List.append_assoc]
  · rw [writeSection_pipe]
    exact hw.fill

theorem readSection_invariant (h : Invariant s) : Invariant (readSection s p n) := by
  have hr := piperead_contents (s.proc p).killed n s.pipe
  have hstored : (readSection s p n).stored = s.stored := by
    simp only [readSection]
    split <;> split <;> rfl
  have hreturned : (readSection s p n).returned =
      s.returned ++ (piperead (s.proc p).killed n s.pipe).bytes := by
    simp only [readSection]
    split <;> split <;> rfl
  refine ⟨?_, ?_⟩
  · rw [hstored, hreturned, readSection_pipe, List.append_assoc, hr, h.account]
  · have hlen := congrArg List.length hr
    simp only [List.length_append, length_contents] at hlen
    rw [readSection_pipe]
    have := h.fill
    omega

theorem step_invariant (h : Invariant s) (ht : step s e = .ok t) : Invariant t := by
  cases e with
  | write p bytes =>
    cases onPage_eq_ok ht
    exact writeSection_invariant h
  | read p n =>
    cases onPage_eq_ok ht
    exact readSection_invariant h
  | resume p =>
    simp only [step] at ht
    split at ht
    · cases ht
      exact h
    · cases onPage_eq_ok ht
      exact readSection_invariant h
    · cases onPage_eq_ok ht
      exact writeSection_invariant h
  | close writable =>
    cases onPage_eq_ok ht
    exact pipeclose_invariant h writable
  | kill p =>
    cases ht
    exact ⟨h.account, h.fill⟩

end PipeBytes
