import Xv6Gui.WordMemory
import Mathlib.Data.Int.Basic

/-!
# Strings in fields of a fixed length

strncmp and strncpy of string.c. A field of `n` bytes holds the string that ends before its
first zero byte or at its end, and these two functions see nothing else of it.
-/
namespace BoundedStrings

open WordMemory

/-- The pointer moved on by a byte. -/
def tail (p : Memory) : Memory := fun i => p (i + 1)

/-- A byte stored before the rest. -/
def cons (b : Byte) (p : Memory) : Memory
  | 0 => b
  | i + 1 => p i

def strncmp : Memory → Memory → ℕ → ℤ
  | _, _, 0 => 0
  | p, q, n + 1 =>
    if p 0 ≠ 0 ∧ p 0 = q 0 then strncmp (tail p) (tail q) n
    else (p 0).toNat - (q 0).toNat

/-- The second loop of `strncpy`. -/
def zeros (s : Memory) : ℕ → Memory
  | 0 => s
  | n + 1 => cons 0 (zeros (tail s) n)

def strncpy : Memory → Memory → ℕ → Memory
  | s, _, 0 => s
  | s, t, n + 1 =>
    cons (t 0) (if t 0 ≠ 0 then strncpy (tail s) (tail t) n else zeros (tail s) n)

/-- The string in a field of `n` bytes. -/
def cut : Memory → ℕ → List Byte
  | _, 0 => []
  | p, n + 1 => if p 0 = 0 then [] else p 0 :: cut (tail p) n

variable {p q : Memory} {n : ℕ}

theorem tail_cons (b : Byte) (p : Memory) : tail (cons b p) = p := rfl

theorem strncmp_eq_zero : strncmp p q n = 0 ↔ cut p n = cut q n := by
  induction n generalizing p q with
  | zero => exact ⟨fun _ => rfl, fun _ => rfl⟩
  | succ n ih =>
    rw [strncmp, cut, cut]
    by_cases hsame : p 0 = q 0
    · by_cases hzero : p 0 = 0
      · rw [if_neg (fun h => h.1 hzero), if_pos hzero, if_pos (hsame ▸ hzero), hsame, Int.sub_self]
        exact ⟨fun _ => rfl, fun _ => rfl⟩
      · rw [if_pos ⟨hzero, hsame⟩, if_neg hzero, if_neg (hsame ▸ hzero), ih, hsame]
        exact ⟨congrArg (q 0 :: ·), fun h => (List.cons.inj h).2⟩
    · have hdiff : ((p 0).toNat : ℤ) - (q 0).toNat ≠ 0 := by
        intro h
        apply hsame
        apply BitVec.eq_of_toNat_eq
        omega
      rw [if_neg (fun h => hsame h.2)]
      constructor
      · exact fun h => absurd h hdiff
      · intro h
        split at h
        · next hp =>
          split at h
          · next hq => exact absurd (hp.trans hq.symm) hsame
          · cases h
        · split at h
          · cases h
          · exact absurd (List.cons.inj h).1 hsame

/-- A copied string is the string, cut to the length of the field. -/
theorem cut_strncpy (s t : Memory) (n : ℕ) : cut (strncpy s t n) n = cut t n := by
  induction n generalizing s t with
  | zero => rfl
  | succ n ih =>
    rw [strncpy, cut, cut, tail_cons]
    by_cases hzero : t 0 = 0
    · rw [if_pos hzero]
      exact if_pos hzero
    · rw [if_pos hzero, ih, if_neg hzero]
      exact if_neg hzero

end BoundedStrings
