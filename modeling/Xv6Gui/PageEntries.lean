import Xv6Gui.WordMemory
import Mathlib.Data.Nat.Bitwise
import Mathlib.Tactic.IntervalCases

/-!
# Page directory and page table entries

The formats of mmu.h and the constants of memlayout.h. An entry holds the address of a physical
page above its twelve flag bits. A page of physical memory is named by its number, so V2P and P2V
go between page numbers and addresses.
-/
namespace PageEntries

open WordMemory

abbrev pgsize : ℕ := 4096
abbrev kernbase : ℕ := 0x80000000
abbrev extmem : ℕ := 0x100000
abbrev kernlink : ℕ := kernbase + extmem
abbrev phystop : ℕ := 0xE000000
abbrev devspace : ℕ := 0xFC000000
abbrev npdentries : ℕ := 1024

abbrev pteP : Word := 1
abbrev pteW : Word := 2
abbrev pteU : Word := 4

def pteAddr (e : Word) : Word := e &&& ~~~0xFFF

def pteFlags (e : Word) : Word := e &&& 0xFFF

/-- The address of page `f`. -/
def v2p (f : ℕ) : Word := BitVec.ofNat 32 f <<< 12

/-- The page at the address. -/
def p2v (pa : Word) : ℕ := (pa >>> 12).toNat

/-- The page that an entry points to. -/
def frame (e : Word) : ℕ := p2v (pteAddr e)

def Present (e : Word) : Prop := e &&& pteP ≠ 0

def User (e : Word) : Prop := e &&& pteU ≠ 0

instance (e : Word) : Decidable (Present e) := inferInstanceAs (Decidable (_ ≠ _))
instance (e : Word) : Decidable (User e) := inferInstanceAs (Decidable (_ ≠ _))

def pdx (va : ℕ) : ℕ := va / 4194304 % 1024
def ptx (va : ℕ) : ℕ := va / 4096 % 1024

/-- PGADDR(d, 0, 0) -/
def pgaddr (d : ℕ) : ℕ := d * 4194304 % 4294967296

def pgroundup (sz : ℕ) : ℕ := (sz + (pgsize - 1)) % 4294967296 / pgsize * pgsize
def pgrounddown (a : ℕ) : ℕ := a / pgsize * pgsize

/-- An address without flag bits. -/
def Aligned (pa : Word) : Prop := ∀ i < 12, pa.getLsbD i = false

/-- Flag bits only. -/
def Perm (perm : Word) : Prop := ∀ i, 12 ≤ i → perm.getLsbD i = false

section Bits

variable {e pa perm : Word} {f : ℕ}

theorem getLsbD_mask (i : ℕ) : (0xFFF : Word).getLsbD i = decide (i < 12) := by
  by_cases hi : i < 32
  · interval_cases i <;> rfl
  · rw [BitVec.getLsbD_of_ge _ _ (by omega)]
    exact (decide_eq_false (by omega)).symm

theorem getLsbD_one (i : ℕ) : (1 : Word).getLsbD i = decide (i = 0) := by
  by_cases hi : i < 32
  · interval_cases i <;> rfl
  · rw [BitVec.getLsbD_of_ge _ _ (by omega)]
    exact (decide_eq_false (by omega)).symm

theorem getLsbD_four (i : ℕ) : (4 : Word).getLsbD i = decide (i = 2) := by
  by_cases hi : i < 32
  · interval_cases i <;> rfl
  · rw [BitVec.getLsbD_of_ge _ _ (by omega)]
    exact (decide_eq_false (by omega)).symm

/-- The test of a single bit. -/
theorem and_ne_zero {m : Word} {k : ℕ} (hm : ∀ i, m.getLsbD i = decide (i = k)) :
    e &&& m ≠ 0 ↔ e.getLsbD k = true := by
  constructor
  case mp =>
    intro h
    by_contra hbit
    apply h
    apply BitVec.eq_of_getLsbD_eq
    intro i _
    have hzero : (0 : Word).getLsbD i = false := BitVec.getLsbD_zero
    rw [BitVec.getLsbD_and, hm, hzero]
    by_cases hi : i = k
    · rw [hi, Bool.eq_false_of_not_eq_true hbit, Bool.false_and]
    · rw [decide_eq_false hi, Bool.and_false]
  case mpr =>
    intro hbit h0
    have hzero : (0 : Word).getLsbD k = false := BitVec.getLsbD_zero
    have h := congrArg (BitVec.getLsbD · k) h0
    simp only [BitVec.getLsbD_and, hbit, hm, hzero, decide_true, Bool.and_self] at h
    cases h

theorem present_iff : Present e ↔ e.getLsbD 0 = true := and_ne_zero getLsbD_one

theorem user_iff : User e ↔ e.getLsbD 2 = true := and_ne_zero getLsbD_four

theorem not_present_zero : ¬Present 0 := by decide

theorem getLsbD_pteAddr (e : Word) (i : ℕ) :
    (pteAddr e).getLsbD i = (e.getLsbD i && decide (12 ≤ i)) := by
  rw [pteAddr, BitVec.getLsbD_and, BitVec.getLsbD_not, getLsbD_mask]
  by_cases hi : i < 32
  · by_cases hlow : i < 12
    · rw [decide_eq_true hlow, decide_eq_false (Nat.not_le.mpr hlow)]
      simp
    · rw [decide_eq_false hlow, decide_eq_true (Nat.le_of_not_lt hlow), decide_eq_true hi]
      simp
  · rw [BitVec.getLsbD_of_ge e i (Nat.le_of_not_lt hi)]
    simp

theorem pteAddr_congr {e' : Word} (h : ∀ i, 12 ≤ i → e'.getLsbD i = e.getLsbD i) :
    pteAddr e' = pteAddr e := by
  apply BitVec.eq_of_getLsbD_eq
  intro i _
  rw [getLsbD_pteAddr, getLsbD_pteAddr]
  by_cases hi : 12 ≤ i
  · rw [h i hi]
  · rw [decide_eq_false hi, Bool.and_false, Bool.and_false]

theorem p2v_pteAddr (e : Word) : p2v (pteAddr e) = frame e := rfl

theorem aligned_v2p (f : ℕ) : Aligned (v2p f) := by
  intro i hi
  rw [v2p, BitVec.getLsbD_shiftLeft, decide_eq_true hi]
  simp

theorem aligned_of_mod (h : pa.toNat % 4096 = 0) : Aligned pa := by
  intro i hi
  have hbit := Nat.testBit_mod_two_pow pa.toNat 12 i
  rw [show (2 : ℕ) ^ 12 = 4096 from rfl, h, Nat.zero_testBit, decide_eq_true hi,
    Bool.true_and] at hbit
  exact hbit.symm

theorem perm_pteP : Perm pteP := by
  intro i hi
  rw [getLsbD_one]
  exact decide_eq_false (by omega)

theorem perm_user : Perm (pteW ||| pteU) := by
  intro i hi
  by_cases hlt : i < 32
  · interval_cases i <;> rfl
  · exact BitVec.getLsbD_of_ge _ _ (Nat.le_of_not_lt hlt)

theorem perm_flags (e : Word) : Perm (pteFlags e) := by
  intro i hi
  rw [pteFlags, BitVec.getLsbD_and, getLsbD_mask, decide_eq_false (Nat.not_lt.mpr hi),
    Bool.and_false]

theorem present_entry (pa perm : Word) : Present (pa ||| perm ||| pteP) := by
  rw [present_iff, BitVec.getLsbD_or, getLsbD_one]
  exact Bool.or_true _

theorem user_entry (hpa : Aligned pa) : User (pa ||| perm ||| pteP) ↔ User perm := by
  rw [user_iff, user_iff, BitVec.getLsbD_or, BitVec.getLsbD_or, hpa 2 (by decide), getLsbD_one]
  simp

theorem p2v_v2p (hf : f < 1048576) : p2v (v2p f) = f := by
  have hf' : f < 2 ^ 32 := by omega
  have hshift : f <<< 12 < 2 ^ 32 := by
    rw [Nat.shiftLeft_eq]
    omega
  rw [p2v, v2p, BitVec.toNat_ushiftRight, BitVec.toNat_shiftLeft, BitVec.toNat_ofNat,
    Nat.mod_eq_of_lt hf', Nat.mod_eq_of_lt hshift, Nat.shiftLeft_shiftRight]

theorem pteAddr_v2p (f : ℕ) : pteAddr (v2p f) = v2p f := by
  apply BitVec.eq_of_getLsbD_eq
  intro i _
  rw [getLsbD_pteAddr]
  by_cases hi : 12 ≤ i
  · rw [decide_eq_true hi, Bool.and_true]
  · rw [decide_eq_false hi, Bool.and_false, aligned_v2p f i (Nat.lt_of_not_le hi)]

/-- Flag bits leave the page of an entry as it is. -/
theorem frame_entry (hperm : Perm perm) (hf : f < 1048576) :
    frame (v2p f ||| perm ||| pteP) = f := by
  have haddr : pteAddr (v2p f ||| perm ||| pteP) = pteAddr (v2p f) := by
    apply pteAddr_congr
    intro i hi
    rw [BitVec.getLsbD_or, BitVec.getLsbD_or, hperm i hi, perm_pteP i hi, Bool.or_false,
      Bool.or_false]
  rw [frame, haddr, pteAddr_v2p, p2v_v2p hf]

/-- The flags of a present page are those it was mapped with. -/
theorem flags_entry (h : Present e) : pteFlags (v2p f ||| pteFlags e ||| pteP) = pteFlags e := by
  apply BitVec.eq_of_getLsbD_eq
  intro i _
  rw [pteFlags, pteFlags, BitVec.getLsbD_and, BitVec.getLsbD_or, BitVec.getLsbD_or,
    BitVec.getLsbD_and, getLsbD_mask, getLsbD_one]
  by_cases hi : i < 12
  · rw [aligned_v2p f i hi]
    by_cases h0 : i = 0
    · rw [h0, present_iff.mp h]
      rfl
    · rw [decide_eq_true hi, decide_eq_false h0]
      simp
  · rw [decide_eq_false hi]
    simp

theorem getLsbD_clear (e : Word) (i : ℕ) :
    (e &&& ~~~pteU).getLsbD i = (e.getLsbD i && !decide (i = 2)) := by
  rw [BitVec.getLsbD_and, BitVec.getLsbD_not, getLsbD_four]
  by_cases hi : i < 32
  · rw [decide_eq_true hi, Bool.true_and]
  · rw [BitVec.getLsbD_of_ge e i (Nat.le_of_not_lt hi)]
    simp

theorem frame_clear (e : Word) : frame (e &&& ~~~pteU) = frame e := by
  have haddr : pteAddr (e &&& ~~~pteU) = pteAddr e := by
    apply pteAddr_congr
    intro i hi
    rw [getLsbD_clear, decide_eq_false (by omega)]
    simp
  rw [frame, haddr, frame]

theorem present_clear : Present (e &&& ~~~pteU) ↔ Present e := by
  rw [present_iff, present_iff, getLsbD_clear]
  simp

theorem not_user_clear (e : Word) : ¬User (e &&& ~~~pteU) := by
  rw [user_iff, getLsbD_clear]
  simp

end Bits

end PageEntries
