import Xv6Gui.WordMemory
import Mathlib.Data.Int.Basic
import Mathlib.Logic.Function.Basic

/-!
# The two memmove functions

memmove of string.c copies from the end where the destination begins inside the source, and from
the beginning elsewhere. memmove of ulib.c always copies from the beginning.
-/
namespace MemoryMoves

open WordMemory

/-- `*d++ = *s++`, as often as the numeral says. -/
def copyUp : ℕ → ℕ → ℕ → Memory → Memory
  | 0, _, _, mem => mem
  | n + 1, d, s, mem =>
    copyUp n ((d + 1) % 4294967296) ((s + 1) % 4294967296) (Function.update mem d (mem s))

/-- `*--d = *--s`, as often as the numeral says. -/
def copyDown : ℕ → ℕ → ℕ → Memory → Memory
  | 0, _, _, mem => mem
  | n + 1, d, s, mem =>
    let d := (d + 4294967295) % 4294967296
    let s := (s + 4294967295) % 4294967296
    copyDown n d s (Function.update mem d (mem s))

def User.memmove (vdst vsrc : ℕ) (n : ℤ) (mem : Memory) : ℕ × Memory :=
  (vdst, copyUp n.toNat vdst vsrc mem)

def Kernel.memmove (dst src n : ℕ) (mem : Memory) : ℕ × Memory :=
  if src < dst ∧ (src + n) % 4294967296 > dst then
    (dst, copyDown n ((dst + n) % 4294967296) ((src + n) % 4294967296) mem)
  else (dst, copyUp n dst src mem)

structure Moved (mem : Memory) (dst src n : ℕ) (mem' : Memory) : Prop where
  bytes : ∀ i < n, mem' (dst + i) = mem (src + i)
  others : ∀ a, a < dst ∨ dst + n ≤ a → mem' a = mem a

/-- The source is its first `dst - src` bytes over and over, if `dst` is behind its beginning. -/
def Repeats (mem : Memory) (dst src n : ℕ) : Prop :=
  ∀ i < n, mem (src + i) = mem (src + i % (dst - src))

variable {mem mem₁ mem₂ : Memory} {a d s n dst src : ℕ}

theorem Moved.unique (h₁ : Moved mem dst src n mem₁) (h₂ : Moved mem dst src n mem₂) :
    mem₁ = mem₂ := by
  funext a
  by_cases hin : dst ≤ a ∧ a < dst + n
  case pos =>
    obtain ⟨i, rfl⟩ := Nat.exists_eq_add_of_le hin.1
    have hi : i < n := by omega
    rw [h₁.bytes i hi, h₂.bytes i hi]
  case neg =>
    have hout : a < dst ∨ dst + n ≤ a := by omega
    rw [h₁.others a hout, h₂.others a hout]

/-- The period does not matter where the destination does not begin inside the source. -/
theorem repeats_apart (h : dst ≤ src ∨ src + n ≤ dst) : Repeats mem dst src n := by
  intro i hi
  obtain hle | hge := h
  · rw [Nat.sub_eq_zero_of_le hle, Nat.mod_zero]
  · rw [Nat.mod_eq_of_lt (by omega)]

section Loops

theorem copyUp_succ (hd : d + (n + 1) ≤ 4294967296) (hs : s + (n + 1) ≤ 4294967296) :
    copyUp (n + 1) d s mem =
      Function.update (copyUp n d s mem) (d + n) (copyUp n d s mem (s + n)) := by
  induction n generalizing d s mem with
  | zero => rfl
  | succ n ih =>
    have hd' : (d + 1) % 4294967296 = d + 1 := Nat.mod_eq_of_lt (by omega)
    have hs' : (s + 1) % 4294967296 = s + 1 := Nat.mod_eq_of_lt (by omega)
    rw [copyUp, hd', hs', ih (by omega) (by omega)]
    have hfirst : copyUp (n + 1) d s mem =
        copyUp n (d + 1) (s + 1) (Function.update mem d (mem s)) := by
      rw [copyUp, hd', hs']
    rw [hfirst, Nat.add_right_comm d, Nat.add_right_comm s]
    rfl

/-- What has been copied into the rest of the source is copied again. -/
theorem copyUp_spec (hd : d + n ≤ 4294967296) (hs : s + n ≤ 4294967296) :
    (∀ i < n, copyUp n d s mem (d + i) = mem (s + i % (d - s))) ∧
      ∀ a, a < d ∨ d + n ≤ a → copyUp n d s mem a = mem a := by
  induction n with
  | zero => exact ⟨fun i hi => absurd hi (Nat.not_lt_zero i), fun _ _ => rfl⟩
  | succ n ih =>
    obtain ⟨hcopied, hothers⟩ := ih (by omega) (by omega)
    rw [copyUp_succ hd hs]
    -- the byte that is read next
    have hnext : copyUp n d s mem (s + n) = mem (s + n % (d - s)) := by
      by_cases hfresh : d ≤ s ∨ s + n < d
      case pos =>
        have hmod : n % (d - s) = n := by
          obtain hle | hlt := hfresh
          · rw [Nat.sub_eq_zero_of_le hle, Nat.mod_zero]
          · exact Nat.mod_eq_of_lt (by omega)
        rw [hmod, hothers (s + n) (by omega)]
      case neg =>
        have hold := hcopied (n - (d - s)) (by omega)
        have hplace : d + (n - (d - s)) = s + n := by omega
        rwa [hplace, ← Nat.mod_eq_sub_mod (by omega)] at hold
    constructor
    · intro i hi
      by_cases hin : i = n
      · rw [hin, Function.update_self, hnext]
      · rw [Function.update_of_ne (by omega), hcopied i (by omega)]
    · intro a ha
      rw [Function.update_of_ne (by omega), hothers a (by omega)]

/-- From the end no byte is overwritten before it is read. -/
theorem copyDown_moves (hd : d + n ≤ 4294967296) (hlt : s < d) :
    Moved mem d s n (copyDown n ((d + n) % 4294967296) ((s + n) % 4294967296) mem) := by
  induction n generalizing mem with
  | zero => exact ⟨fun i hi => absurd hi (Nat.not_lt_zero i), fun _ _ => rfl⟩
  | succ n ih =>
    have hd' : ((d + (n + 1)) % 4294967296 + 4294967295) % 4294967296 = d + n := by omega
    have hs' : ((s + (n + 1)) % 4294967296 + 4294967295) % 4294967296 = s + n := by omega
    have hmod : (d + n) % 4294967296 = d + n := Nat.mod_eq_of_lt (by omega)
    have hmod' : (s + n) % 4294967296 = s + n := Nat.mod_eq_of_lt (by omega)
    have hrest := @ih (Function.update mem (d + n) (mem (s + n))) (by omega)
    rw [hmod, hmod'] at hrest
    simp only [copyDown, hd', hs']
    constructor
    · intro i hi
      by_cases hin : i = n
      · rw [hin, hrest.others (d + n) (by omega), Function.update_self]
      · rw [hrest.bytes i (by omega), Function.update_of_ne (by omega)]
    · intro a ha
      rw [hrest.others a (by omega), Function.update_of_ne (by omega)]

end Loops

theorem copyUp_iff (hd : dst + n ≤ 4294967296) (hs : src + n ≤ 4294967296) :
    Moved mem dst src n (copyUp n dst src mem) ↔ Repeats mem dst src n := by
  obtain ⟨hcopied, hothers⟩ := @copyUp_spec mem dst src n hd hs
  constructor
  · intro h i hi
    rw [← h.bytes i hi, hcopied i hi]
  · intro h
    refine ⟨?_, hothers⟩
    intro i hi
    rw [hcopied i hi, h i hi]

theorem kernel_moves (hd : dst + n ≤ 4294967296) (hs : src + n ≤ 4294967296) :
    Moved mem dst src n (Kernel.memmove dst src n mem).2 := by
  rw [Kernel.memmove]
  by_cases hover : src < dst ∧ (src + n) % 4294967296 > dst
  case pos =>
    rw [if_pos hover]
    exact copyDown_moves hd hover.1
  case neg =>
    rw [if_neg hover]
    refine (copyUp_iff hd hs).mpr (repeats_apart ?_)
    omega

theorem memmove_iff (mem : Memory) (dst src n : ℕ) (hd : dst + n ≤ 4294967296)
    (hs : src + n ≤ 4294967296) :
    (User.memmove dst src n mem = Kernel.memmove dst src n mem ∧
      Moved mem dst src n (User.memmove dst src n mem).2) ↔ Repeats mem dst src n := by
  have hkernel : Moved mem dst src n (Kernel.memmove dst src n mem).2 := kernel_moves hd hs
  rw [← copyUp_iff hd hs]
  constructor
  · exact fun h => h.2
  · intro hmoved
    refine ⟨Prod.ext ?_ (hmoved.unique hkernel), hmoved⟩
    rw [Kernel.memmove]
    split <;> rfl

theorem memmove_up_one : ¬∀ (mem : Memory) (dst src n : ℕ),
    dst + n ≤ 4294967296 → src + n ≤ 4294967296 →
    User.memmove dst src n mem = Kernel.memmove dst src n mem ∧
      Moved mem dst src n (User.memmove dst src n mem).2 := by
  intro h
  have hmoved := (h (BitVec.ofNat 8) 101 100 2 (by decide) (by decide)).2.bytes 1 (by decide)
  revert hmoved
  decide

theorem memmove_from_above :
    User.memmove 100 101 2 (BitVec.ofNat 8) = Kernel.memmove 100 101 2 (BitVec.ofNat 8) ∧
      Moved (BitVec.ofNat 8) 100 101 2 (User.memmove 100 101 2 (BitVec.ofNat 8)).2 :=
  (memmove_iff (BitVec.ofNat 8) 100 101 2 (by decide) (by decide)).mpr
    (repeats_apart (.inl (by decide)))

end MemoryMoves
