import Mathlib.Data.Nat.Notation
import Mathlib.Data.Int.Notation

/-!
# Loops with break and continue

A counting loop whose body leaves the loop, goes on with the next round, or emits something. The
body depends on the counter alone.
-/
namespace BreakLoops

/-- What one round of a loop does. -/
inductive Round (α : Type) where
  | stop
  | next
  | emit (items : List α)

def Round.items {α : Type} : Round α → List α
  | .stop => []
  | .next => []
  | .emit items => items

def rounds {α : Type} (body : ℕ → Round α) : List ℕ → List α
  | [] => []
  | i :: is =>
    match body i with
    | .stop => []
    | .next => rounds body is
    | .emit items => items ++ rounds body is

/-- `for (i = 0; i < n; i++)` -/
def forLoop {α : Type} (n : ℤ) (body : ℕ → Round α) : List α := rounds body (List.range n.toNat)

/-- The rounds after one that stops would have emitted nothing. -/
def StopsLate {α : Type} (body : ℕ → Round α) (n : ℤ) : Prop :=
  ∀ i k : ℕ, i < k → (k : ℤ) < n → body i = .stop → (body k).items = []

section Rounds

variable {α : Type} {body : ℕ → Round α}

theorem rounds_eq_flatMap {l : List ℕ}
    (h : l.Pairwise fun i k => body i = .stop → (body k).items = []) :
    rounds body l = l.flatMap fun i => (body i).items := by
  induction l with
  | nil => rfl
  | cons i is ih =>
    obtain ⟨hi, his⟩ := List.pairwise_cons.mp h
    rw [rounds, List.flatMap_cons, ← ih his]
    cases hb : body i with
    | stop =>
      rw [ih his]
      exact (List.flatMap_eq_nil_iff.mpr fun k hk => hi k hk hb).symm
    | next => rfl
    | emit items => rfl

theorem mem_rounds {l : List ℕ} {a : α} (h : a ∈ rounds body l) :
    ∃ i ∈ l, a ∈ (body i).items := by
  induction l with
  | nil => cases h
  | cons i is ih =>
    rw [rounds] at h
    cases hb : body i with
    | stop =>
      rw [hb] at h
      cases h
    | next =>
      rw [hb] at h
      obtain ⟨k, hk, ha⟩ := ih h
      exact ⟨k, List.mem_cons_of_mem i hk, ha⟩
    | emit items =>
      rw [hb] at h
      rcases List.mem_append.mp h with ha | ha
      · exact ⟨i, List.mem_cons_self, hb ▸ ha⟩
      · obtain ⟨k, hk, ha⟩ := ih ha
        exact ⟨k, List.mem_cons_of_mem i hk, ha⟩

end Rounds

section ForLoops

variable {α : Type} {body : ℕ → Round α} {n : ℤ}

theorem forLoop_eq_flatMap (h : StopsLate body n) :
    forLoop n body = (List.range n.toNat).flatMap fun i => (body i).items := by
  apply rounds_eq_flatMap
  refine List.Pairwise.imp_of_mem ?_ List.pairwise_lt_range
  intro i k _ hk hik hs
  exact h i k hik (by rw [List.mem_range] at hk; omega) hs

theorem mem_forLoop (h : StopsLate body n) {a : α} :
    a ∈ forLoop n body ↔ ∃ i : ℕ, (i : ℤ) < n ∧ a ∈ (body i).items := by
  rw [forLoop_eq_flatMap h, List.mem_flatMap]
  refine exists_congr fun i => and_congr_left fun _ => ?_
  rw [List.mem_range]
  omega

end ForLoops

end BreakLoops
