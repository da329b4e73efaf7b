import Xv6Gui.BreakLoops
import Xv6Gui.ByteCopies
import Xv6Gui.RectOutlines

/-!
# Pixel buffers

A buffer of RGB pixels, row by row, in an address space of 32 bits, the memory that holds it, and
the loops over its rows and columns, which leave behind a limit and skip what is before zero.
-/
namespace PixelBuffers

open WindowManagerState RectOutlines BreakLoops ByteCopies

/-- What i32 is, for linear arithmetic. -/
theorem i32_spec (z : ℤ) :
    ∃ q, i32 z = z + 4294967296 * q ∧ -2147483648 ≤ i32 z ∧ i32 z < 2147483648 := by
  have hm := i32_mod z
  refine ⟨i32 z / 4294967296 - z / 4294967296, ?_, Int.le_bmod (by decide), Int.bmod_lt (by decide)⟩
  omega

/-- Row numbers that differ by a wrap around lead to the same row. -/
theorem advance_row {p w a b : ℤ} (h : a % 4294967296 = b % 4294967296) :
    advance p (i32 (a * w)) = advance p (b * w) := by
  rw [advance_i32]
  apply advance_congr
  rw [Int.mul_emod, h, ← Int.mul_emod]

/-- Rows of pixels of three bytes each. The sizes are ints, and the buffer ends in the address
space. -/
structure Raster where
  base : ℤ
  width : ℤ
  height : ℤ
  base_nonneg : 0 ≤ base
  width_nonneg : 0 ≤ width
  width_int : IsInt width
  height_nonneg : 0 ≤ height
  height_int : IsInt height
  fits : base + 3 * (width * height) ≤ 4294967296

/-- The sizes are those of a buffer in the address space. -/
def Sized (base width height : ℤ) : Prop :=
  0 ≤ base ∧ 0 ≤ width ∧ IsInt width ∧ 0 ≤ height ∧ IsInt height ∧
    base + 3 * (width * height) ≤ 4294967296

instance (base width height : ℤ) : Decidable (Sized base width height) :=
  inferInstanceAs (Decidable (_ ∧ _ ∧ _ ∧ _ ∧ _ ∧ _))

namespace Raster

def ofSizes (base width height : ℤ) (h : Sized base width height) : Raster where
  base := base
  width := width
  height := height
  base_nonneg := h.1
  width_nonneg := h.2.1
  width_int := h.2.2.1
  height_nonneg := h.2.2.2.1
  height_int := h.2.2.2.2.1
  fits := h.2.2.2.2.2

def Contains (b : Raster) (r c : ℤ) : Prop := (0 ≤ r ∧ r < b.height) ∧ 0 ≤ c ∧ c < b.width

instance (b : Raster) (r c : ℤ) : Decidable (b.Contains r c) :=
  inferInstanceAs (Decidable (_ ∧ _))

/-- `&buf[r * width + c]` -/
def address (b : Raster) (r c : ℤ) : ℤ := advance b.base (r * b.width + c)

/-- `buf + r * width + c`, with the product of type int. -/
def pointer (b : Raster) (r c : ℤ) : ℤ := advance (advance b.base (i32 (r * b.width))) c

theorem pointer_eq (b : Raster) (r c : ℤ) : b.pointer r c = b.address r c := by
  rw [pointer, address, advance_i32, advance_advance]

/-- A row number that has wrapped around leads to the same place. -/
theorem pointer_i32 (b : Raster) (r c : ℤ) : b.pointer (i32 r) c = b.address r c := by
  rw [← pointer_eq, pointer, pointer, advance_row (i32_mod r), advance_row rfl]

theorem advance_address (b : Raster) (r c n : ℤ) :
    advance (b.address r c) n = b.address r (c + n) := by
  rw [address, address, advance_advance, Int.add_assoc]

/-- Whole rows further. -/
theorem advance_rows (b : Raster) (r c n : ℤ) :
    advance (b.address r c) (n * b.width) = b.address (r + n) c := by
  rw [address, address, advance_advance, Int.add_mul]
  apply advance_congr
  omega

section Addresses

variable {b : Raster} {r c r' c' : ℤ}

theorem Contains.index_nonneg (h : b.Contains r c) : 0 ≤ r * b.width + c :=
  RowMajor.index_nonneg b.width_nonneg h.1.1 h.2.1

theorem Contains.index_lt (h : b.Contains r c) : r * b.width + c < b.width * b.height :=
  RowMajor.index_lt b.width_nonneg h.1.2 h.2.2

/-- The address of a pixel of the buffer does not wrap around. -/
theorem Contains.address_eq (h : b.Contains r c) :
    b.address r c = b.base + 3 * (r * b.width + c) := by
  have h0 := h.index_nonneg
  have hlt := h.index_lt
  have hb := b.base_nonneg
  have hf := b.fits
  exact Int.emod_eq_of_lt (by omega) (by omega)

/-- A buffer with a row is at least as large as its first one. -/
theorem width_le_size (h : 0 < b.height) : b.width ≤ b.width * b.height :=
  le_mul_of_one_le_right b.width_nonneg h

end Addresses

/-- The bytes of the buffer. -/
def Holds (b : Raster) (a : ℤ) : Prop := b.base ≤ a ∧ a < b.base + 3 * (b.width * b.height)

/-- Two buffers without a common byte. -/
def Disjoint (b d : Raster) : Prop := ∀ a, b.Holds a → ¬ d.Holds a

section Bytes

variable {b : Raster} {r c r' c' k k' : ℤ}

theorem Contains.holds (h : b.Contains r c) (h0 : 0 ≤ k) (hk : k < 3) :
    b.Holds (b.address r c + k) := by
  have hi := h.index_nonneg
  have hlt := h.index_lt
  rw [h.address_eq]
  unfold Holds
  omega

/-- Every byte of the buffer belongs to a pixel. -/
theorem Holds.pixel {a : ℤ} (h : b.Holds a) :
    ∃ r c k, b.Contains r c ∧ (0 ≤ k ∧ k < 3) ∧ a = b.address r c + k := by
  obtain ⟨h0, hlt⟩ := h
  have hc : b.Contains ((a - b.base) / 3 / b.width) ((a - b.base) / 3 % b.width) :=
    RowMajor.cell_of_index b.width_nonneg (by omega) (by omega)
  refine ⟨_, _, (a - b.base) % 3, hc, by omega, ?_⟩
  rw [hc.address_eq, Int.mul_comm ((a - b.base) / 3 / b.width), Int.mul_ediv_add_emod]
  omega

/-- A byte of the buffer belongs to one pixel. -/
theorem Contains.byte_unique (h : b.Contains r c) (h' : b.Contains r' c') (h0 : 0 ≤ k) (hk : k < 3)
    (h0' : 0 ≤ k') (hk' : k' < 3) (he : b.address r c + k = b.address r' c' + k') :
    (r = r' ∧ c = c') ∧ k = k' := by
  rw [h.address_eq, h'.address_eq] at he
  exact ⟨RowMajor.index_unique h.2.1 h.2.2 h'.2.1 h'.2.2 (by omega), by omega⟩

end Bytes

end Raster

/-- The sizes of the screen are unsigned shorts. -/
structure ScreenBuffer extends Raster where
  width_ushort : width < 65536
  height_ushort : height < 65536

/-- The pixel at an address, in the order of the fields of `RGB`. -/
def pixel (mem : Bytes) (a : ℤ) : RGB := ⟨mem a, mem (a + 1), mem (a + 2)⟩

theorem pixel_congr {mem mem' : Bytes} {a a' : ℤ}
    (h : ∀ k, 0 ≤ k → k < 3 → mem (a + k) = mem' (a' + k)) : pixel mem a = pixel mem' a' := by
  have h0 := h 0 (by decide) (by decide)
  rw [Int.add_zero, Int.add_zero] at h0
  rw [pixel, pixel, h0, h 1 (by decide) (by decide), h 2 (by decide) (by decide)]

theorem pixel_byte {mem mem' : Bytes} {a a' k : ℤ} (h : pixel mem a = pixel mem' a') (h0 : 0 ≤ k)
    (hk : k < 3) : mem (a + k) = mem' (a' + k) := by
  obtain ⟨hB, hG, hR⟩ := RGB.mk.inj h
  obtain rfl | rfl | rfl : k = 0 ∨ k = 1 ∨ k = 2 := by omega
  · rw [Int.add_zero, Int.add_zero]
    exact hB
  · exact hG
  · exact hR

/-- The two tests of such a loop. -/
def clip {α : Type} (place limit : ℤ) (round : Round α) : Round α :=
  if place > limit then .stop
  else if place < 0 then .next
  else round

/-- A sum of ints that is not below zero after it wrapped has not wrapped. -/
theorem clip_iff {z k limit : ℤ} (hz : IsInt z) (hk : IsInt k) (h0 : 0 ≤ k) (hl : IsInt limit) :
    (0 ≤ i32 (z + k) ∧ i32 (z + k) ≤ limit) ↔ 0 ≤ z + k ∧ z + k ≤ limit := by
  constructor
  · intro h
    rw [i32_of_isInt (isInt_add hz hk h0 h.1)] at h
    exact h
  · intro h
    have hs : IsInt (z + k) := by
      unfold IsInt at *
      omega
    rw [i32_of_isInt hs]
    exact h

theorem isInt_counter {n : ℤ} {i : ℕ} (hn : IsInt n) (hi : (i : ℤ) < n) : IsInt (i : ℤ) := by
  unfold IsInt at *
  omega

section Clipping

variable {α : Type} {place limit : ℤ} {round : Round α}

theorem mem_clip {a : α} :
    a ∈ (clip place limit round).items ↔ (0 ≤ place ∧ place ≤ limit) ∧ a ∈ round.items := by
  unfold clip
  split
  case isTrue h => exact iff_of_false List.not_mem_nil fun ha => by omega
  case isFalse h =>
    split
    case isTrue h0 => exact iff_of_false List.not_mem_nil fun ha => by omega
    case isFalse h0 => exact (and_iff_right ⟨by omega, by omega⟩).symm

theorem lt_of_clip_stop (hr : round ≠ .stop) (h : clip place limit round = .stop) :
    limit < place := by
  by_contra hle
  rw [clip, if_neg hle] at h
  split at h
  · cases h
  · exact hr h

/-- The test against the first place that is too far. -/
theorem ge_clip {size : ℤ} :
    (if place ≥ size then .stop else if place < 0 then .next else round) =
      clip place (size - 1) round :=
  if_congr (by omega) rfl rfl

/-- The tests in the other order. -/
theorem lt_clip {size : ℤ} (h : 0 ≤ size) :
    (if place < 0 then .next else if place ≥ size then .stop else round) =
      clip place (size - 1) round := by
  unfold clip
  split
  case isTrue h0 => rw [if_neg (by omega)]
  case isFalse h0 => exact if_congr (by omega) rfl rfl

end Clipping

/-- The first round of a loop whose place is between the limits. -/
theorem exists_first_place {z n limit : ℤ} (h : max 0 z < min limit (z + n)) :
    ∃ i : ℕ, (i : ℤ) < n ∧ z + i = max 0 z ∧ z + i ≤ limit - 1 := by
  obtain ⟨i, hi⟩ := Int.eq_ofNat_of_zero_le (show 0 ≤ max 0 z - z by omega)
  exact ⟨i, by omega, by omega, by omega⟩

section ClippedLoops

variable {α : Type} {z n limit : ℤ} {place : ℕ → ℤ} {f : ℕ → List α}

/-- The places where a loop is do not come back inside the limit behind which it was left. -/
def Leaves (place : ℕ → ℤ) (n limit : ℤ) : Prop :=
  ∀ i k : ℕ, i < k → (k : ℤ) < n → limit < place i → ¬ (0 ≤ place k ∧ place k ≤ limit)

theorem leaves_exact : Leaves (fun i => z + i) n limit := by
  intro i k hik _ hi hk
  dsimp only at hi hk
  omega

theorem leaves_i32 (hz : IsInt z) (hn : IsInt n) (hl : IsInt limit) :
    Leaves (fun i => i32 (z + i)) n limit := by
  intro i k hik hk hi h
  have hkz := (clip_iff hz (isInt_counter hn hk) (by omega) hl).mp h
  have hzi : IsInt (z + i) := by
    unfold IsInt at *
    omega
  dsimp only at hi
  rw [i32_of_isInt hzi] at hi
  omega

theorem stopsLate_of_clip {round : ℕ → Round α} (hp : Leaves place n limit)
    (hs : ∀ i, round i = .stop → limit < place i)
    (hc : ∀ k, ∀ a ∈ (round k).items, 0 ≤ place k ∧ place k ≤ limit) : StopsLate round n := by
  intro i k hik hk hi
  rw [List.eq_nil_iff_forall_not_mem]
  intro a ha
  exact hp i k hik hk (hs i hi) (hc k a ha)

theorem clip_stopsLate (hp : Leaves place n limit) :
    StopsLate (fun i => clip (place i) limit (.emit (f i))) n := by
  refine stopsLate_of_clip hp ?_ ?_
  · intro i hi
    exact lt_of_clip_stop (by simp) hi
  · intro i a ha
    exact (mem_clip.mp ha).1

/-- What a clipped loop emits. -/
theorem mem_clippedLoop (hp : Leaves place n limit) {a : α} :
    (a ∈ forLoop n fun i => clip (place i) limit (.emit (f i))) ↔
      ∃ i : ℕ, (i : ℤ) < n ∧ (0 ≤ place i ∧ place i ≤ limit) ∧ a ∈ f i := by
  rw [mem_forLoop (clip_stopsLate hp)]
  refine exists_congr fun i => and_congr_right fun hi => ?_
  rw [mem_clip]
  rfl

/-- The same with sums that may wrap around, as if they did not. -/
theorem mem_clippedLoop_i32 (hz : IsInt z) (hn : IsInt n) (hl : IsInt limit) {a : α} :
    (a ∈ forLoop n fun i => clip (i32 (z + i)) limit (.emit (f i))) ↔
      ∃ i : ℕ, (i : ℤ) < n ∧ (0 ≤ z + i ∧ z + i ≤ limit) ∧ a ∈ f i := by
  rw [mem_clippedLoop (leaves_i32 hz hn hl)]
  refine exists_congr fun i => and_congr_right fun hi => ?_
  rw [clip_iff hz (isInt_counter hn hi) (by omega) hl]

end ClippedLoops

end PixelBuffers
