import Mathlib.Data.List.Basic

/-!
# Wrapped text

Characters fill cells from left to right. A line ends at a line break and in front of the
first column that `wide` puts beyond it, so a layout is known from that predicate alone.
-/
namespace WrappedText

variable {α : Type*} {wide : ℕ → Prop} [DecidablePred wide]
  {breaks : α → Prop} [DecidablePred breaks]

/-- The column and the row behind a character at `p`. -/
def next (wide : ℕ → Prop) [DecidablePred wide] (breaks : α → Prop) [DecidablePred breaks]
    (p : ℕ × ℕ) (c : α) : ℕ × ℕ :=
  if ¬breaks c then if wide (p.1 + 1) then (0, p.2 + 1) else (p.1 + 1, p.2) else (0, p.2 + 1)

/-- The column and the row behind the characters of `s`. -/
def place (wide : ℕ → Prop) [DecidablePred wide] (breaks : α → Prop) [DecidablePred breaks]
    (s : List α) : ℕ × ℕ :=
  s.foldl (next wide breaks) (0, 0)

theorem place_concat (s : List α) (c : α) :
    place wide breaks (s ++ [c]) = next wide breaks (place wide breaks s) c := by
  rw [place, List.foldl_append]
  rfl

theorem place_take_succ {s : List α} {k : ℕ} {c : α} (h : s[k]? = some c) :
    place wide breaks (s.take (k + 1)) = next wide breaks (place wide breaks (s.take k)) c := by
  rw [List.take_add_one, h, Option.toList_some, place_concat]

theorem next_of_breaks {p : ℕ × ℕ} {c : α} (h : breaks c) :
    next wide breaks p c = (0, p.2 + 1) :=
  if_neg (not_not_intro h)

theorem next_of_wide {p : ℕ × ℕ} {c : α} (h : ¬breaks c) (ho : wide (p.1 + 1)) :
    next wide breaks p c = (0, p.2 + 1) := by
  rw [next, if_pos h, if_pos ho]

theorem next_of_fits {p : ℕ × ℕ} {c : α} (h : ¬breaks c) (ho : ¬wide (p.1 + 1)) :
    next wide breaks p c = (p.1 + 1, p.2) := by
  rw [next, if_pos h, if_neg ho]

section Offsets

variable {s : List α} {j k : ℕ}

variable (wide breaks) in
theorem place_step (h : k < s.length) :
    place wide breaks (s.take (k + 1)) = (0, (place wide breaks (s.take k)).2 + 1) ∨
      place wide breaks (s.take (k + 1)) =
        ((place wide breaks (s.take k)).1 + 1, (place wide breaks (s.take k)).2) := by
  rw [place_take_succ (List.getElem?_eq_getElem h), next]
  split
  · split
    · exact .inl rfl
    · exact .inr rfl
  · exact .inl rfl

variable (wide breaks) in
theorem row_le (hjk : j ≤ k) (hk : k ≤ s.length) :
    (place wide breaks (s.take j)).2 ≤ (place wide breaks (s.take k)).2 := by
  induction hjk with
  | refl => exact Nat.le_refl _
  | @step k hjk ih =>
    have hle := ih (by omega)
    rcases place_step wide breaks hk with hs | hs
    · rw [hs]
      omega
    · rw [hs]
      exact hle

variable (wide breaks) in
/-- Each row has a character in front of it. -/
theorem row_le_offset (hk : k ≤ s.length) : (place wide breaks (s.take k)).2 ≤ k := by
  induction k with
  | zero => exact Nat.le_refl 0
  | succ k ih =>
    have hle := ih (by omega)
    rcases place_step wide breaks hk with hs | hs
    · rw [hs]
      exact Nat.succ_le_succ hle
    · rw [hs]
      exact Nat.le_succ_of_le hle

/-- Along a row the columns are counted. -/
theorem col_of_same_row (hjk : j ≤ k) (hk : k ≤ s.length)
    (h : (place wide breaks (s.take j)).2 = (place wide breaks (s.take k)).2) :
    (place wide breaks (s.take k)).1 = (place wide breaks (s.take j)).1 + (k - j) := by
  induction hjk with
  | refl => omega
  | @step k hjk ih =>
    have hjk : j ≤ k := hjk
    have hle := row_le wide breaks hjk (show k ≤ s.length by omega)
    rcases place_step wide breaks hk with hs | hs
    · rw [hs] at h
      dsimp only at h
      omega
    · rw [hs] at h ⊢
      have := ih (by omega) h
      dsimp only
      omega

/-- Going back along a row. -/
theorem place_back (hk : k ≤ s.length) (hj : j ≤ (place wide breaks (s.take k)).1) :
    j ≤ k ∧ place wide breaks (s.take (k - j)) =
      ((place wide breaks (s.take k)).1 - j, (place wide breaks (s.take k)).2) := by
  induction j with
  | zero => exact ⟨Nat.zero_le k, rfl⟩
  | succ j ih =>
    obtain ⟨hjk, hback⟩ := ih (by omega)
    obtain ⟨m, hm⟩ : ∃ m, k - j = m + 1 := by
      refine Nat.exists_eq_succ_of_ne_zero fun h0 => ?_
      rw [h0] at hback
      have h1 : 0 = (place wide breaks (s.take k)).1 - j := congrArg Prod.fst hback
      omega
    rw [hm] at hback
    rw [show k - (j + 1) = m by omega]
    refine ⟨by omega, ?_⟩
    rcases place_step wide breaks (show m < s.length by omega) with hs | hs
    · have h1 : 0 = (place wide breaks (s.take k)).1 - j := congrArg Prod.fst (hs.symm.trans hback)
      omega
    · obtain ⟨h1, h2⟩ := Prod.mk.inj (hs.symm.trans hback)
      exact Prod.ext (by dsimp only; omega) h2

/-- Two offsets with one place are one offset. -/
theorem place_inj (hj : j ≤ s.length) (hk : k ≤ s.length)
    (h : place wide breaks (s.take j) = place wide breaks (s.take k)) : j = k := by
  rcases Nat.le_total j k with hjk | hkj
  · have := col_of_same_row hjk hk (congrArg Prod.snd h)
    rw [h] at this
    omega
  · have := col_of_same_row hkj hj (congrArg Prod.snd h).symm
    rw [h] at this
    omega

end Offsets

end WrappedText
