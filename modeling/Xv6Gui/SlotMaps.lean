import Mathlib.Logic.Function.Basic

/-!
# Maps kept in slots

A slot is empty or holds a key with its value. Slots represent a map when the map has what they
hold and no key is in two of them; filling an empty slot with a new key and emptying a slot are
an insertion and a removal.
-/
namespace SlotMaps

variable {ι κ ν : Type*} {f : ι → Option (κ × ν)} {m : κ → Option ν} {i : ι} {k : κ} {x : ν}

structure Represents (f : ι → Option (κ × ν)) (m : κ → Option ν) : Prop where
  holds : ∀ k x, m k = some x ↔ ∃ i, f i = some (k, x)
  once : ∀ i j k x y, f i = some (k, x) → f j = some (k, y) → i = j

theorem Represents.empty : Represents (fun _ : ι => none) (fun _ : κ => (none : Option ν)) := by
  constructor
  case holds =>
    intro k x
    constructor
    · intro h
      cases h
    · rintro ⟨i, h⟩
      cases h
  case once =>
    intro i j k x y h
    cases h

theorem Represents.lookup (h : Represents f m) (hi : f i = some (k, x)) : m k = some x :=
  (h.holds k x).mpr ⟨i, hi⟩

theorem Represents.absent (h : Represents f m) (hk : ∀ i x, f i ≠ some (k, x)) : m k = none := by
  cases hm : m k with
  | none => rfl
  | some x =>
    obtain ⟨i, hi⟩ := (h.holds k x).mp hm
    exact absurd hi (hk i x)

variable [DecidableEq ι] [DecidableEq κ]

theorem Represents.put (h : Represents f m) (hk : m k = none) (hi : f i = none) (x : ν) :
    Represents (Function.update f i (some (k, x))) (Function.update m k (some x)) := by
  have hother : ∀ j l y, j ≠ i → f j = some (l, y) → l ≠ k := by
    rintro j l y - hj rfl
    rw [h.lookup hj] at hk
    cases hk
  constructor
  case holds =>
    intro l y
    by_cases hl : l = k
    · subst hl
      rw [Function.update_self]
      constructor
      · intro hy
        exact ⟨i, by rw [Function.update_self, Option.some.inj hy]⟩
      · rintro ⟨j, hj⟩
        by_cases hji : j = i
        · subst hji
          rw [Function.update_self] at hj
          rw [(Prod.mk.inj (Option.some.inj hj)).2]
        · rw [Function.update_of_ne hji] at hj
          exact absurd rfl (hother j l y hji hj)
    · rw [Function.update_of_ne hl, h.holds]
      constructor
      · rintro ⟨j, hj⟩
        have hji : j ≠ i := by
          rintro rfl
          rw [hi] at hj
          cases hj
        exact ⟨j, by rw [Function.update_of_ne hji, hj]⟩
      · rintro ⟨j, hj⟩
        by_cases hji : j = i
        · subst hji
          rw [Function.update_self] at hj
          exact absurd (Prod.mk.inj (Option.some.inj hj)).1.symm hl
        · rw [Function.update_of_ne hji] at hj
          exact ⟨j, hj⟩
  case once =>
    intro a b l y z ha hb
    by_cases hai : a = i
    · subst hai
      by_cases hba : b = a
      · exact hba.symm
      · rw [Function.update_self] at ha
        rw [Function.update_of_ne hba] at hb
        exact absurd (Prod.mk.inj (Option.some.inj ha)).1.symm (hother b l z hba hb)
    · rw [Function.update_of_ne hai] at ha
      by_cases hbi : b = i
      · subst hbi
        rw [Function.update_self] at hb
        exact absurd (Prod.mk.inj (Option.some.inj hb)).1.symm (hother a l y hai ha)
      · rw [Function.update_of_ne hbi] at hb
        exact h.once a b l y z ha hb

theorem Represents.clear (h : Represents f m) (hi : f i = some (k, x)) :
    Represents (Function.update f i none) (Function.update m k none) := by
  have hkept : ∀ j l y, Function.update f i none j = some (l, y) →
      j ≠ i ∧ f j = some (l, y) := by
    intro j l y hj
    by_cases hji : j = i
    · subst hji
      rw [Function.update_self] at hj
      cases hj
    · rw [Function.update_of_ne hji] at hj
      exact ⟨hji, hj⟩
  constructor
  case holds =>
    intro l y
    by_cases hl : l = k
    · subst hl
      rw [Function.update_self]
      constructor
      · intro hy
        cases hy
      · rintro ⟨j, hj⟩
        obtain ⟨hji, hj⟩ := hkept j l y hj
        exact absurd (h.once j i l y x hj hi) hji
    · rw [Function.update_of_ne hl, h.holds]
      constructor
      · rintro ⟨j, hj⟩
        have hji : j ≠ i := by
          rintro rfl
          rw [hi] at hj
          exact hl (Prod.mk.inj (Option.some.inj hj)).1.symm
        exact ⟨j, by rw [Function.update_of_ne hji, hj]⟩
      · rintro ⟨j, hj⟩
        exact ⟨j, (hkept j l y hj).2⟩
  case once =>
    intro a b l y z ha hb
    exact h.once a b l y z (hkept a l y ha).2 (hkept b l z hb).2

end SlotMaps
