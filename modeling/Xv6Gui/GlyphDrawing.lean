import Xv6Gui.Bitmaps
import Xv6Gui.PixelBuffers

/-!
# Characters and icons

drawCharacter and drawIcon of gui.c and of user_gui.c: the same two loops over a bitmap, on the
screen or on the buffer of a window.
-/
namespace GlyphDrawing

open WindowManagerState RectOutlines PixelBuffers BreakLoops Bitmaps

structure RGBA where
  A : UInt8
  B : UInt8
  G : UInt8
  R : UInt8
  deriving DecidableEq, Repr

/-- One call of `drawPointAlpha`, with the row and the column that the loops are at. -/
structure AlphaPoint where
  row : ℤ
  col : ℤ
  address : ℤ
  color : RGBA
  deriving DecidableEq, Repr

/-- `drawPointAlpha` returns before it stores anything when the colour is transparent. -/
def AlphaPoint.Writes (p : AlphaPoint) : Prop := p.color.A ≠ 0

instance (p : AlphaPoint) : Decidable p.Writes := inferInstanceAs (Decidable (_ ≠ _))

def drawBits (b : Raster) (bits : ℕ → ℕ → Bool) (n m x y : ℤ) (color : RGBA) : List AlphaPoint :=
  forLoop n fun i =>
    clip (i32 (y + i)) b.height <| .emit <| forLoop m fun j =>
      if bits i j then
        clip (i32 (x + j)) b.width <|
          .emit [⟨y + i, x + j, advance (b.pointer (i32 (y + i)) x) j, color⟩]
      else .next

namespace Kernel

/-- The points and the value returned. -/
def drawCharacter (screen : Raster) (x y ch : ℤ) (color : RGBA) : List AlphaPoint × ℤ :=
  let ord := ch - 0x20
  if ord < 0 ∨ ord ≥ characterNumber - 1 then ([], -1)
  else (drawBits screen (character ord.toNat) characterHeight characterWidth x y color,
    characterWidth)

def drawIcon (screen : Raster) (x y icon : ℤ) (color : RGBA) : List AlphaPoint × ℤ :=
  if icon < 0 ∨ icon ≥ iconNumber - 1 then ([], -1)
  else (drawBits screen (icons icon.toNat) iconSize iconSize x y color, characterWidth)

end Kernel

namespace User

def drawCharacter (win : Raster) (x y ch : ℤ) (color : RGBA) : List AlphaPoint × ℤ :=
  let ord := ch - 0x20
  if ord < 0 ∨ ord ≥ characterNumber - 1 then ([], -1)
  else (drawBits win (character ord.toNat) characterHeight characterWidth x y color,
    characterWidth)

/-- Both loops end at the width that is given. -/
def drawIcon (win : Raster) (icon : ℤ) (color : RGBA) (x y width _height : ℤ) : List AlphaPoint :=
  if icon < 0 ∨ icon ≥ iconNumber - 1 then []
  else drawBits win (icons icon.toNat) (min iconSize width) (min iconSize width) x y color

end User

def Inside (b : Raster) (p : AlphaPoint) : Prop :=
  b.Contains p.row p.col ∧ p.address = b.address p.row p.col

instance (b : Raster) (p : AlphaPoint) : Decidable (Inside b p) :=
  inferInstanceAs (Decidable (_ ∧ _))

/-- A visible bit of the bitmap falls on the row below the buffer or on the column to its
right. -/
def PastEdge (b : Raster) (bits : ℕ → ℕ → Bool) (n m x y : ℤ) : Prop :=
  ∃ i j : ℕ, ((i : ℤ) < n ∧ (j : ℤ) < m ∧ bits i j = true) ∧ (0 ≤ y + i ∧ y + i ≤ b.height) ∧
    (0 ≤ x + j ∧ x + j ≤ b.width) ∧ (y + i = b.height ∨ x + j = b.width)

section Bits

variable {b : Raster} {bits : ℕ → ℕ → Bool} {n m x y : ℤ} {color : RGBA}

theorem mem_bit {test : Bool} {place limit : ℤ} {p q : AlphaPoint} :
    p ∈ (if test then clip place limit (.emit [q]) else .next : Round AlphaPoint).items ↔
      test = true ∧ (0 ≤ place ∧ place ≤ limit) ∧ p = q := by
  cases test with
  | true => rw [if_pos rfl, mem_clip, and_iff_right rfl, Round.items, List.mem_singleton]
  | false => exact iff_of_false List.not_mem_nil fun h => Bool.false_ne_true h.1

theorem mem_columns {i : ℕ} (hx : IsInt x) (hm : IsInt m) {p : AlphaPoint} :
    (p ∈ forLoop m fun j =>
      if bits i j then
        clip (i32 (x + j)) b.width <|
          .emit [⟨y + i, x + j, advance (b.pointer (i32 (y + i)) x) j, color⟩]
      else .next) ↔
    ∃ j : ℕ, (j : ℤ) < m ∧ bits i j = true ∧ (0 ≤ x + j ∧ x + j ≤ b.width) ∧
      p = ⟨y + i, x + j, b.address (y + i) (x + j), color⟩ := by
  rw [mem_forLoop]
  case h =>
    refine stopsLate_of_clip (leaves_i32 hx hm b.width_int) ?_ ?_
    · intro j hj
      split at hj
      · exact lt_of_clip_stop (by simp) hj
      · cases hj
    · intro j q hq
      exact (mem_bit.mp hq).2.1
  refine exists_congr fun j => and_congr_right fun hj => ?_
  rw [mem_bit, clip_iff hx (isInt_counter hm hj) (by omega) b.width_int, Raster.pointer_i32,
    Raster.advance_address]

theorem mem_drawBits (hx : IsInt x) (hy : IsInt y) (hn : IsInt n) (hm : IsInt m) {p : AlphaPoint} :
    p ∈ drawBits b bits n m x y color ↔
      ∃ i j : ℕ, ((i : ℤ) < n ∧ (j : ℤ) < m ∧ bits i j = true) ∧
        (0 ≤ y + i ∧ y + i ≤ b.height) ∧ (0 ≤ x + j ∧ x + j ≤ b.width) ∧
        p = ⟨y + i, x + j, b.address (y + i) (x + j), color⟩ := by
  rw [drawBits, mem_clippedLoop_i32 hy hn b.height_int]
  constructor
  · rintro ⟨i, hi, hyi, hp⟩
    obtain ⟨j, hj, hb, hxj, rfl⟩ := (mem_columns hx hm).mp hp
    exact ⟨i, j, ⟨hi, hj, hb⟩, hyi, hxj, rfl⟩
  · rintro ⟨i, j, ⟨hi, hj, hb⟩, hyi, hxj, rfl⟩
    exact ⟨i, hi, hyi, (mem_columns hx hm).mpr ⟨j, hj, hb, hxj, rfl⟩⟩

/-- A glyph stays in its buffer when it is transparent or has no bit behind an edge, and only
then. -/
theorem drawBits_inside_iff (hx : IsInt x) (hy : IsInt y) (hn : IsInt n) (hm : IsInt m) :
    (∀ p ∈ drawBits b bits n m x y color, p.Writes → Inside b p) ↔
      ¬ (color.A ≠ 0 ∧ PastEdge b bits n m x y) := by
  constructor
  · rintro hall ⟨hA, i, j, hij, hyi, hxj, he⟩
    have hin := (hall _ ((mem_drawBits hx hy hn hm).mpr ⟨i, j, hij, hyi, hxj, rfl⟩) hA).1
    unfold Raster.Contains at hin
    dsimp only at hin
    omega
  · intro hno p hp hA
    obtain ⟨i, j, hij, hyi, hxj, rfl⟩ := (mem_drawBits hx hy hn hm).mp hp
    have hne : ¬ (y + i = b.height ∨ x + j = b.width) := fun he =>
      hno ⟨hA, i, j, hij, hyi, hxj, he⟩
    refine ⟨?_, rfl⟩
    unfold Raster.Contains
    dsimp only
    omega

/-- Out of the range of its table a glyph is not drawn. -/
theorem inside_iff_of_guard {number limit : ℤ} {past : Prop} {l : List AlphaPoint}
    (hl : (∀ p ∈ l, p.Writes → Inside b p) ↔ ¬ past) :
    (∀ p ∈ if number < 0 ∨ number ≥ limit then [] else l, p.Writes → Inside b p) ↔
      ¬ ((0 ≤ number ∧ number < limit) ∧ past) := by
  split
  case isTrue h =>
    refine iff_of_true ?_ ?_
    · intro p hp
      cases hp
    · rintro ⟨hr, -⟩
      omega
  case isFalse h => rw [hl, and_iff_right (by omega)]

end Bits

/-- A character of the table has a bit behind an edge of the buffer, and its colour is seen. -/
def CharacterPastEdge (b : Raster) (x y ch : ℤ) (color : RGBA) : Prop :=
  (0 ≤ ch - 0x20 ∧ ch - 0x20 < characterNumber - 1) ∧ color.A ≠ 0 ∧
    PastEdge b (character (ch - 0x20).toNat) characterHeight characterWidth x y

def IconPastEdge (b : Raster) (n x y icon : ℤ) (color : RGBA) : Prop :=
  (0 ≤ icon ∧ icon < iconNumber - 1) ∧ color.A ≠ 0 ∧ PastEdge b (icons icon.toNat) n n x y

/-- All four functions write to the row below the buffer and to the column to its right where a
glyph has a bit, and nowhere else outside. -/
theorem glyphs_inside_iff (b : Raster) (x y ch icon width height : ℤ) (color : RGBA)
    (hx : IsInt x) (hy : IsInt y) (hw : IsInt width) :
    ((∀ p ∈ (Kernel.drawCharacter b x y ch color).1, p.Writes → Inside b p) ↔
      ¬ CharacterPastEdge b x y ch color) ∧
    ((∀ p ∈ (Kernel.drawIcon b x y icon color).1, p.Writes → Inside b p) ↔
      ¬ IconPastEdge b iconSize x y icon color) ∧
    ((∀ p ∈ (User.drawCharacter b x y ch color).1, p.Writes → Inside b p) ↔
      ¬ CharacterPastEdge b x y ch color) ∧
    ((∀ p ∈ User.drawIcon b icon color x y width height, p.Writes → Inside b p) ↔
      ¬ IconPastEdge b (min iconSize width) x y icon color) := by
  have hn : IsInt (min (iconSize : ℤ) width) := by
    unfold IsInt at *
    omega
  refine ⟨?_, ?_, ?_, ?_⟩
  · rw [Kernel.drawCharacter, apply_ite Prod.fst]
    exact inside_iff_of_guard (drawBits_inside_iff hx hy (by decide) (by decide))
  · rw [Kernel.drawIcon, apply_ite Prod.fst]
    exact inside_iff_of_guard (drawBits_inside_iff hx hy (by decide) (by decide))
  · rw [User.drawCharacter, apply_ite Prod.fst]
    exact inside_iff_of_guard (drawBits_inside_iff hx hy (by decide) (by decide))
  · rw [User.drawIcon]
    exact inside_iff_of_guard (drawBits_inside_iff hx hy hn hn)

theorem screen_sized : Sized 65536 800 600 := by decide

def screen : Raster := .ofSizes 65536 800 600 screen_sized

/-- The title of a window at the top left of the screen. -/
theorem glyphs_inside_title :
    IsInt 6 ∧ IsInt 4 ∧
      ∀ p ∈ (Kernel.drawCharacter screen 6 4 33 ⟨255, 0, 0, 0⟩).1, p.Writes → Inside screen p := by
  refine ⟨by decide, by decide, ?_⟩
  refine (glyphs_inside_iff screen 6 4 33 0 0 0 ⟨255, 0, 0, 0⟩ (by decide) (by decide)
    (by decide)).1.mpr ?_
  rintro ⟨-, -, i, j, ⟨hi, hj, -⟩, -, -, h⟩
  change (i : ℤ) < 18 at hi
  change (j : ℤ) < 9 at hj
  change (4 : ℤ) + i = 600 ∨ (6 : ℤ) + j = 800 at h
  omega

/-- An exclamation mark one column before the right side of the screen is drawn into the column
behind it, which is the first one of the next row. -/
theorem glyph_past_right_edge :
    ¬ ∀ (b : Raster) (x y ch : ℤ) (color : RGBA), IsInt x → IsInt y → 0x20 ≤ ch → ch < 0x7f →
      ∀ p ∈ (Kernel.drawCharacter b x y ch color).1, p.Writes → Inside b p := by
  intro hall
  have h : ∃ p ∈ (Kernel.drawCharacter screen 799 0 33 ⟨255, 0, 0, 0⟩).1,
      p.Writes ∧ ¬ Inside screen p := by decide +kernel
  obtain ⟨p, hp, hw, hi⟩ := h
  exact hi (hall screen 799 0 33 ⟨255, 0, 0, 0⟩ (by decide) (by decide) (by decide) (by decide)
    p hp hw)

end GlyphDrawing
