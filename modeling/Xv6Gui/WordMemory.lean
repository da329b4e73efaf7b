import Mathlib.Data.List.Basic

/-!
# Bytes, words and strings in memory

Memory maps an address to a byte. A word is four bytes, the lowest one first, and a string
ends before its first zero byte.
-/
namespace WordMemory

abbrev Byte := BitVec 8
abbrev Word := BitVec 32
abbrev Memory := ℕ → Byte

variable {mem mem' : Memory} {a b : ℕ}

def word (mem : Memory) (a : ℕ) : Word := mem (a + 3) ++ mem (a + 2) ++ mem (a + 1) ++ mem a

/-- Byte `k` of a word. -/
def byteOf (v : Word) (k : ℕ) : Byte := v.extractLsb' (8 * k) 8

def storeWord (mem : Memory) (a : ℕ) (v : Word) : Memory :=
  fun b => if a ≤ b ∧ b < a + 4 then byteOf v (b - a) else mem b

/-- Consecutive words from `a` upwards. -/
def storeWords (mem : Memory) (a : ℕ) : List Word → Memory
  | [] => mem
  | v :: vs => storeWords (storeWord mem a v) (a + 4) vs

def writeBytes (mem : Memory) (a : ℕ) (bytes : List Byte) : Memory :=
  fun b => if a ≤ b then (bytes[b - a]?).getD (mem b) else mem b

/-- The string at `a`, if it ends within the next `n` bytes. -/
def cstring (mem : Memory) (a : ℕ) : ℕ → Option (List Byte)
  | 0 => none
  | n + 1 => if mem a = 0 then some [] else (cstring mem (a + 1) n).map (mem a :: ·)

theorem word_bytes (v : Word) : byteOf v 3 ++ byteOf v 2 ++ byteOf v 1 ++ byteOf v 0 = v := by
  simp only [byteOf]
  rw [BitVec.extractLsb'_append_extractLsb'_eq_extractLsb' (by rfl),
    BitVec.extractLsb'_append_extractLsb'_eq_extractLsb' (by rfl),
    BitVec.extractLsb'_append_extractLsb'_eq_extractLsb' (by rfl)]
  simp

theorem word_congr (h : ∀ b, a ≤ b → b < a + 4 → mem' b = mem b) : word mem' a = word mem a := by
  have h₀ := h a (by omega) (by omega)
  have h₁ := h (a + 1) (by omega) (by omega)
  have h₂ := h (a + 2) (by omega) (by omega)
  have h₃ := h (a + 3) (by omega) (by omega)
  rw [word, word, h₀, h₁, h₂, h₃]

theorem storeWord_inside (mem : Memory) (v : Word) {k : ℕ} (hk : k < 4) :
    storeWord mem a v (a + k) = byteOf v k := by
  have hin : a ≤ a + k ∧ a + k < a + 4 := by omega
  rw [storeWord, if_pos hin, Nat.add_sub_cancel_left]

theorem storeWord_outside (mem : Memory) (v : Word) (h : b < a ∨ a + 4 ≤ b) :
    storeWord mem a v b = mem b := by
  have hout : ¬ (a ≤ b ∧ b < a + 4) := by omega
  rw [storeWord, if_neg hout]

theorem word_storeWord (mem : Memory) (a : ℕ) (v : Word) : word (storeWord mem a v) a = v := by
  have h₀ := storeWord_inside (a := a) mem v (k := 0) (by decide)
  have h₁ := storeWord_inside (a := a) mem v (k := 1) (by decide)
  have h₂ := storeWord_inside (a := a) mem v (k := 2) (by decide)
  have h₃ := storeWord_inside (a := a) mem v (k := 3) (by decide)
  rw [Nat.add_zero] at h₀
  rw [word, h₀, h₁, h₂, h₃, word_bytes]

theorem storeWords_outside (mem : Memory) (vs : List Word)
    (h : b < a ∨ a + 4 * vs.length ≤ b) : storeWords mem a vs b = mem b := by
  induction vs generalizing mem a with
  | nil => rfl
  | cons v vs ih =>
    rw [List.length_cons] at h
    rw [storeWords, ih _ (by omega), storeWord_outside _ _ (by omega)]

/-- Each word of the list is read back at its place. -/
theorem word_storeWords (mem : Memory) (a : ℕ) (vs : List Word) {i : ℕ}
    (hi : i < vs.length) : word (storeWords mem a vs) (a + 4 * i) = vs[i] := by
  induction vs generalizing mem a i with
  | nil => cases hi
  | cons v vs ih =>
    rw [storeWords]
    cases i with
    | zero =>
      have hkept : word (storeWords (storeWord mem a v) (a + 4) vs) a =
          word (storeWord mem a v) a := by
        apply word_congr
        intro b _ hb
        exact storeWords_outside _ _ (.inl hb)
      calc word (storeWords (storeWord mem a v) (a + 4) vs) (a + 4 * 0)
          = word (storeWord mem a v) a := hkept
        _ = v := word_storeWord mem a v
    | succ i =>
      have hplace : a + 4 * (i + 1) = a + 4 + 4 * i := by omega
      rw [List.length_cons, Nat.add_lt_add_iff_right] at hi
      rw [hplace, ih _ _ hi]
      rfl

/-- A string is read back from every memory that agrees with its bytes and its end. -/
theorem cstring_congr {n : ℕ} {s : List Byte} (hs : cstring mem a n = some s)
    (h : ∀ b, a ≤ b → b ≤ a + s.length → mem' b = mem b) : cstring mem' a n = some s := by
  induction n generalizing a s with
  | zero => cases hs
  | succ n ih =>
    have ha := h a (by omega) (by omega)
    rw [cstring] at hs ⊢
    by_cases hend : mem a = 0
    · rw [if_pos hend] at hs
      rw [ha, if_pos hend, hs]
    · rw [if_neg hend] at hs
      obtain ⟨t, ht, rfl⟩ := Option.map_eq_some_iff.mp hs
      have htail : cstring mem' (a + 1) n = some t := by
        apply ih ht
        intro b hb hb'
        apply h b (by omega)
        rw [List.length_cons]
        omega
      rw [ha, if_neg hend, htail, Option.map_some]

end WordMemory
