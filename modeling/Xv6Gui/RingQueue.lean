import Mathlib.Algebra.GroupWithZero.Nat
import Mathlib.Data.Fin.Basic
import Mathlib.Data.List.Nodup
import Mathlib.Logic.Function.Basic

/-!
# Queues in a circular array

A queue of `k` elements lies in the cells `start`, `start + 1` and so on of an array of `n`
cells, counted modulo `n`. Writing the cell behind the last element appends to the queue,
and moving `start` on by one drops its first element.
-/
namespace RingQueue

variable {α : Type*} {n : ℕ} [NeZero n] {data : Fin n → α} {start k : ℕ}

/-- The cell at a position that may exceed the array. -/
def cell (n : ℕ) [NeZero n] (i : ℕ) : Fin n := Fin.ofNat n i

@[simp] theorem cell_val (i : ℕ) : (cell n i).val = i % n := rfl

@[simp] theorem cell_fin (i : Fin n) : cell n i.val = i := Fin.ext (Nat.mod_eq_of_lt i.isLt)

/-- The `k` elements from position `start` on. -/
def segment (data : Fin n → α) (start k : ℕ) : List α :=
  (List.range' start k).map fun i => data (cell n i)

@[simp] theorem segment_zero (data : Fin n → α) (start : ℕ) : segment data start 0 = [] := rfl

@[simp] theorem length_segment (data : Fin n → α) (start k : ℕ) :
    (segment data start k).length = k := by
  simp [segment]

theorem segment_cons (data : Fin n → α) (start k : ℕ) :
    segment data start (k + 1) = data (cell n start) :: segment data (start + 1) k := by
  simp [segment, List.range'_succ]

theorem segment_append (data : Fin n → α) (start k m : ℕ) :
    segment data start (k + m) = segment data start k ++ segment data (start + k) m := by
  simp [segment, ← List.range'_append_1]

theorem segment_concat (data : Fin n → α) (start k : ℕ) :
    segment data start (k + 1) = segment data start k ++ [data (cell n (start + k))] :=
  segment_append data start k 1

/-- Positions that agree modulo the array's length hold the same queue. -/
theorem segment_mod (data : Fin n → α) {i j : ℕ} (h : i % n = j % n) (k : ℕ) :
    segment data i k = segment data j k := by
  induction k generalizing i j with
  | zero => rfl
  | succ k ih =>
    have hcell : cell n i = cell n j := Fin.ext h
    have hnext : (i + 1) % n = (j + 1) % n := by rw [Nat.add_mod, h, ← Nat.add_mod]
    rw [segment_cons, segment_cons, hcell, ih hnext]

theorem cell_ne {i j : ℕ} (h : i < j) (hn : j < i + n) : cell n i ≠ cell n j := by
  intro he
  have hmod : (j - i) % n = 0 := Nat.sub_mod_eq_zero_of_mod_eq (congrArg Fin.val he).symm
  have := Nat.le_of_dvd (Nat.sub_pos_of_lt h) (Nat.dvd_of_mod_eq_zero hmod)
  omega

/-- A write outside of a segment leaves it alone. -/
theorem segment_update {i : ℕ} (hi : start + k ≤ i) (hn : i < start + n) (x : α) :
    segment (Function.update data (cell n i) x) start k = segment data start k := by
  refine List.map_congr_left ?_
  intro j hj
  obtain ⟨m, hm, rfl⟩ := List.mem_range'.mp hj
  exact Function.update_of_ne (cell_ne (by omega) (by omega)) _ _

theorem segment_push (hk : k < n) (x : α) :
    segment (Function.update data (cell n (start + k)) x) start (k + 1) =
      segment data start k ++ [x] := by
  rw [segment_concat, segment_update (Nat.le_refl _) (by omega), Function.update_self]

end RingQueue
