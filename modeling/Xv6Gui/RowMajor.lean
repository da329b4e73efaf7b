import Mathlib.Algebra.Order.Ring.Int

/-!
# Tables stored row by row

The index of a cell in a table of rows of one length, and the cell of an index.
-/
namespace RowMajor

variable {w h r c r' c' k : ℤ}

theorem index_nonneg (hw : 0 ≤ w) (hr : 0 ≤ r) (hc : 0 ≤ c) : 0 ≤ r * w + c :=
  Int.add_nonneg (Int.mul_nonneg hr hw) hc

theorem index_lt (hw : 0 ≤ w) (hr : r < h) (hc : c < w) : r * w + c < w * h := by
  calc r * w + c < r * w + w := Int.add_lt_add_left hc _
    _ = (r + 1) * w := by rw [Int.add_mul, Int.one_mul]
    _ ≤ h * w := Int.mul_le_mul_of_nonneg_right hr hw
    _ = w * h := Int.mul_comm _ _

theorem row_of_index (h0 : 0 ≤ c) (hc : c < w) : (r * w + c) / w = r := by
  have hpos : 0 < w := Int.lt_of_le_of_lt h0 hc
  rw [Int.add_comm, Int.add_mul_ediv_right _ _ hpos.ne', Int.ediv_eq_zero_of_lt h0 hc,
    Int.zero_add]

theorem col_of_index (h0 : 0 ≤ c) (hc : c < w) : (r * w + c) % w = c := by
  rw [Int.add_comm, Int.add_mul_emod_self_right, Int.emod_eq_of_lt h0 hc]

/-- Two cells with one index are one cell. -/
theorem index_unique (h0 : 0 ≤ c) (hc : c < w) (h0' : 0 ≤ c') (hc' : c' < w)
    (he : r * w + c = r' * w + c') : r = r' ∧ c = c' := by
  constructor
  · rw [← row_of_index (r := r) h0 hc, he, row_of_index h0' hc']
  · rw [← col_of_index (r := r) h0 hc, he, col_of_index h0' hc']

/-- An index below the size of the table is that of a cell. -/
theorem cell_of_index (hw : 0 ≤ w) (h0 : 0 ≤ k) (hk : k < w * h) :
    (0 ≤ k / w ∧ k / w < h) ∧ 0 ≤ k % w ∧ k % w < w := by
  have hpos : 0 < w := by
    obtain hpos | hz := Int.lt_or_eq_of_le hw
    · exact hpos
    · rw [← hz, Int.zero_mul] at hk
      omega
  rw [Int.mul_comm] at hk
  exact ⟨⟨Int.ediv_nonneg h0 hw, Int.ediv_lt_of_lt_mul hpos hk⟩, Int.emod_nonneg k hpos.ne',
    Int.emod_lt_of_pos k hpos⟩

end RowMajor
