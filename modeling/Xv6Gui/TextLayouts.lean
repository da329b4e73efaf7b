import Xv6Gui.WidgetList
import Xv6Gui.WrappedText

/-!
# Text in a window

drawString of user_gui.c, the cursor of drawInputFieldWidget of user_window.c and the offset
functions of user_handler.c. Each lays the text out in its own loop, in pixels or in cells.
A string is the list of its characters. Offsets are exact integers: those of the loops stay in
the range of an int (`layout_in_range`), and a sum of one of them and a corner is not wrapped.
-/
namespace TextLayouts

open WindowManagerState UserWidgets WrappedText

abbrev characterWidth : ℤ := 9
abbrev characterHeight : ℤ := 18

/-- `\n` -/
def newline : UInt8 := 10

/-- A call of `drawCharacter`, with the offset of its character in the string. -/
structure Glyph where
  offset : ℕ
  x : ℤ
  y : ℤ
  c : UInt8
  deriving DecidableEq, Repr

/-- The loop of `drawString`, at the character with the given offset. -/
def drawStringFrom (win : UserWindow) (x y width height offsetX offsetY : ℤ) (offset : ℕ) :
    List UInt8 → List Glyph
  | [] => []
  | c :: str =>
    if offsetY > height then []
    else if c ≠ newline then
      let glyph := if x + offsetX ≥ 0 ∧ x + offsetX ≤ win.window.width ∧ y + offsetY ≥ 0 ∧
          y + offsetY ≤ win.window.height then [⟨offset, x + offsetX, y + offsetY, c⟩] else []
      glyph ++
        if offsetX + characterWidth > width then
          drawStringFrom win x y width height 0 (offsetY + characterHeight) (offset + 1) str
        else
          drawStringFrom win x y width height (offsetX + characterWidth) offsetY (offset + 1) str
    else drawStringFrom win x y width height 0 (offsetY + characterHeight) (offset + 1) str

def drawString (win : UserWindow) (str : List UInt8) (x y width height : ℤ) : List Glyph :=
  drawStringFrom win x y width height 0 0 0 str

/-- The character at an offset, and the terminator behind the last one. -/
def charAt (str : List UInt8) (i : ℕ) : UInt8 := str.getD i 0

/-- The loop of `getMouseXFromOffset` and `getMouseYFromOffset`, with `n` rounds to go. -/
def mouseOffsets (str : List UInt8) (charPerLine offsetX offsetY : ℤ) (iter : ℕ) : ℕ → ℤ × ℤ
  | 0 => (offsetX, offsetY)
  | n + 1 =>
    if charAt str iter ≠ newline then
      if offsetX + 1 > charPerLine then mouseOffsets str charPerLine 0 (offsetY + 1) (iter + 1) n
      else mouseOffsets str charPerLine (offsetX + 1) offsetY (iter + 1) n
    else mouseOffsets str charPerLine 0 (offsetY + 1) (iter + 1) n

def getMouseXFromOffset (str : List UInt8) (width offset : ℤ) : ℤ :=
  (mouseOffsets str (width.tdiv characterWidth) 0 0 0 offset.toNat).1

def getMouseYFromOffset (str : List UInt8) (width offset : ℤ) : ℤ :=
  (mouseOffsets str (width.tdiv characterWidth) 0 0 0 offset.toNat).2

/-- The loop that finds the text cursor, with `n` rounds to go. -/
def cursorOffsets (str : List UInt8) (width height offsetX offsetY : ℤ) (iter : ℕ) : ℕ → ℤ × ℤ
  | 0 => (offsetX, offsetY)
  | n + 1 =>
    if offsetY > height then (offsetX, offsetY)
    else if charAt str iter ≠ newline then
      if offsetX + characterWidth > width then
        cursorOffsets str width height 0 (offsetY + characterHeight) (iter + 1) n
      else cursorOffsets str width height (offsetX + characterWidth) offsetY (iter + 1) n
    else cursorOffsets str width height 0 (offsetY + characterHeight) (iter + 1) n

/-- A call of `drawFillRect`. -/
structure FillRect where
  x : ℤ
  y : ℤ
  width : ℤ
  height : ℤ
  deriving DecidableEq, Repr

/-- Where the painters put a widget: shifted by the scroll offsets when it is scrollable. -/
def paintedAt (win : UserWindow) (w : Widget) : Point :=
  if w.scrollable ≠ 0 then
    ⟨i32 (w.position.xmin - win.scrollOffsetX), i32 (w.position.ymin - win.scrollOffsetY)⟩
  else ⟨w.position.xmin, w.position.ymin⟩

def widgetWidth (w : Widget) : ℤ := i32 (w.position.xmax - w.position.xmin)

def widgetHeight (w : Widget) : ℤ := i32 (w.position.ymax - w.position.ymin)

/-- The glyphs of the text, and the cursor where it is drawn. -/
def drawInputFieldWidget (win : UserWindow) (w : Widget) (t : InputField) :
    List Glyph × Option FillRect :=
  let p := paintedAt win w
  let o := cursorOffsets t.text (widgetWidth w) (widgetHeight w) 0 0 0 t.currentPos.toNat
  (drawString win t.text p.x p.y (widgetWidth w) (widgetHeight w),
    if o.2 < widgetHeight w then some ⟨p.x + o.1, p.y + o.2 + 1, 1, characterHeight - 4⟩ else none)

/-- The column and the row of a character, in a text that is `width` pixels wide. -/
def layout (width : ℤ) (str : List UInt8) : ℕ × ℕ :=
  place (fun x => characterWidth * x > width) (· = newline) str

section Loops

variable {str : List UInt8} {width height : ℤ}

theorem charAt_of_lt {k : ℕ} (h : k < str.length) : str[k]? = some (charAt str k) := by
  rw [charAt, List.getD_eq_getElem?_getD, List.getElem?_eq_getElem h, Option.getD_some]

theorem layout_break {k : ℕ} (h : k < str.length) (hc : charAt str k = newline) :
    layout width (str.take (k + 1)) = (0, (layout width (str.take k)).2 + 1) :=
  (place_take_succ (charAt_of_lt h)).trans (next_of_breaks hc)

theorem width_succ (x : ℕ) :
    characterWidth * (x + 1 : ℕ) = characterWidth * x + characterWidth := by
  rw [Int.natCast_add, Int.mul_add]
  rfl

theorem height_succ (y : ℕ) :
    characterHeight * (y + 1 : ℕ) = characterHeight * y + characterHeight := by
  rw [Int.natCast_add, Int.mul_add]
  rfl

theorem over_succ (x : ℕ) :
    characterWidth * (x + 1 : ℕ) > width ↔ characterWidth * x + characterWidth > width := by
  rw [width_succ]

theorem layout_wrap {k : ℕ} (h : k < str.length) (hc : charAt str k ≠ newline)
    (ho : characterWidth * (layout width (str.take k)).1 + characterWidth > width) :
    layout width (str.take (k + 1)) = (0, (layout width (str.take k)).2 + 1) :=
  (place_take_succ (charAt_of_lt h)).trans (next_of_wide hc ((over_succ _).mpr ho))

theorem layout_fit {k : ℕ} (h : k < str.length) (hc : charAt str k ≠ newline)
    (ho : ¬characterWidth * (layout width (str.take k)).1 + characterWidth > width) :
    layout width (str.take (k + 1)) =
      ((layout width (str.take k)).1 + 1, (layout width (str.take k)).2) :=
  (place_take_succ (charAt_of_lt h)).trans (next_of_fits hc (mt (over_succ _).mp ho))

/-- The width in cells wraps where the width in pixels does. -/
theorem over_cells (hw : 0 ≤ width) (x : ℤ) : x + 1 > width.tdiv characterWidth ↔
    characterWidth * x + characterWidth > width := by
  rw [Int.tdiv_eq_ediv_of_nonneg hw, gt_iff_lt, Int.ediv_lt_iff_lt_mul (by decide)]
  simp only [characterWidth]
  omega

theorem mouseOffsets_eq (hw : 0 ≤ width) (iter n : ℕ) (h : iter + n ≤ str.length) :
    mouseOffsets str (width.tdiv characterWidth) (layout width (str.take iter)).1
        (layout width (str.take iter)).2 iter n =
      (((layout width (str.take (iter + n))).1 : ℤ),
        ((layout width (str.take (iter + n))).2 : ℤ)) := by
  induction n generalizing iter with
  | zero => rfl
  | succ n ih =>
    have hlt : iter < str.length := by omega
    have ih := ih (iter + 1) (by omega)
    rw [Nat.add_right_comm] at ih
    rw [← Nat.add_assoc, ← ih]
    simp only [mouseOffsets]
    split
    · next hc =>
      split
      · next ho =>
        rw [layout_wrap hlt hc ((over_cells hw _).mp ho)]
        simp
      · next ho =>
        rw [layout_fit hlt hc (mt (over_cells hw _).mpr ho)]
        simp
    · next hc =>
      rw [layout_break hlt (not_not.mp hc)]
      simp

/-- The loop of the cursor comes to its offset unless it has left the widget before. -/
theorem cursorOffsets_eq (iter n : ℕ) (h : iter + n ≤ str.length) {x y : ℤ}
    (hx : x = characterWidth * (layout width (str.take iter)).1)
    (hy : y = characterHeight * (layout width (str.take iter)).2)
    (hin : (cursorOffsets str width height x y iter n).2 ≤ height) :
    cursorOffsets str width height x y iter n =
      (characterWidth * (layout width (str.take (iter + n))).1,
        characterHeight * (layout width (str.take (iter + n))).2) := by
  induction n generalizing iter x y with
  | zero => rw [cursorOffsets, hx, hy, Nat.add_zero]
  | succ n ih =>
    have hlt : iter < str.length := by omega
    have ih := fun x y => ih (iter + 1) (by omega) (x := x) (y := y)
    rw [Nat.add_right_comm iter 1 n] at ih
    simp only [cursorOffsets] at hin ⊢
    split
    · next hbelow =>
      rw [if_pos hbelow] at hin
      exact absurd hin (by omega)
    · next hbelow =>
      rw [if_neg hbelow] at hin
      split
      · next hc =>
        rw [if_pos hc] at hin
        split
        · next ho =>
          rw [if_pos ho] at hin
          rw [layout_wrap hlt hc (hx ▸ ho)] at ih
          exact ih _ _ rfl (by rw [hy, height_succ]) hin
        · next ho =>
          rw [if_neg ho] at hin
          rw [layout_fit hlt hc (hx ▸ ho)] at ih
          exact ih _ _ (by rw [hx, width_succ]) hy hin
      · next hc =>
        rw [if_neg hc] at hin
        rw [layout_break hlt (not_not.mp hc)] at ih
        exact ih _ _ rfl (by rw [hy, height_succ]) hin

/-- Every glyph is drawn in the cell of its character. -/
theorem drawStringFrom_at {win : UserWindow} {x y : ℤ} {k : ℕ} {rest : List UInt8} {g : Glyph}
    (offsetX offsetY : ℤ) (hrest : str.drop k = rest)
    (hx : offsetX = characterWidth * (layout width (str.take k)).1)
    (hy : offsetY = characterHeight * (layout width (str.take k)).2)
    (hg : g ∈ drawStringFrom win x y width height offsetX offsetY k rest) :
    g.x = x + characterWidth * (layout width (str.take g.offset)).1 ∧
      g.y = y + characterHeight * (layout width (str.take g.offset)).2 := by
  induction rest generalizing k offsetX offsetY with
  | nil => cases hg
  | cons c rest ih =>
    have hget : str[k]? = some c := by
      rw [← List.head?_drop, hrest]
      rfl
    have hlt : k < str.length := (List.getElem?_eq_some_iff.mp hget).1
    have hchar : charAt str k = c := by
      rw [charAt_of_lt hlt] at hget
      exact Option.some.inj hget
    have htail : str.drop (k + 1) = rest := by rw [← List.tail_drop, hrest, List.tail_cons]
    have ih := fun x y => ih x y htail
    simp only [drawStringFrom] at hg
    split at hg
    · cases hg
    · split at hg
      · next hc =>
        rw [← hchar] at hc
        obtain hg | hg := List.mem_append.mp hg
        · split at hg
          · obtain rfl := List.mem_singleton.mp hg
            exact ⟨by rw [← hx], by rw [← hy]⟩
          · cases hg
        · split at hg
          · next ho =>
            rw [layout_wrap hlt hc (hx ▸ ho)] at ih
            exact ih _ _ rfl (by rw [hy, height_succ]) hg
          · next ho =>
            rw [layout_fit hlt hc (hx ▸ ho)] at ih
            exact ih _ _ (by rw [hx, width_succ]) hy hg
      · next hc =>
        rw [layout_break hlt (hchar.trans (not_not.mp hc))] at ih
        exact ih _ _ rfl (by rw [hy, height_succ]) hg

/-- The sums that the loops form are at most 18 for each character and 18 more. -/
theorem layout_in_range (hs : str.length < 119304646) {k : ℕ} (hk : k ≤ str.length) :
    characterWidth * (layout width (str.take k)).1 + characterWidth < 2147483648 ∧
      characterHeight * (layout width (str.take k)).2 + characterHeight < 2147483648 := by
  have hcolumn : (layout width (str.take k)).1 ≤ k := (place_back hk (Nat.le_refl _)).1
  have hrow : (layout width (str.take k)).2 ≤ k := row_le_offset _ _ hk
  dsimp only [characterWidth, characterHeight]
  omega

theorem getMouse_eq (hw : 0 ≤ width) {k : ℕ} (hk : k ≤ str.length) :
    getMouseXFromOffset str width k = (layout width (str.take k)).1 ∧
      getMouseYFromOffset str width k = (layout width (str.take k)).2 := by
  have h := mouseOffsets_eq hw 0 k ((Nat.zero_add k).trans_le hk)
  rw [Nat.zero_add] at h
  exact ⟨congrArg Prod.fst h, congrArg Prod.snd h⟩

end Loops

/-- Glyphs and cursor are drawn where the offset functions say, for every text and width. -/
theorem layouts_agree (win : UserWindow) (s : List UInt8) (width height : ℤ) (hw : 0 ≤ width)
    (k : ℕ) (hk : k ≤ s.length) :
    (∀ x y g, g ∈ drawString win s x y width height → g.offset = k →
      g.x = x + characterWidth * getMouseXFromOffset s width k ∧
        g.y = y + characterHeight * getMouseYFromOffset s width k) ∧
    ∀ (w : Widget) (t : InputField) (r : FillRect), widgetWidth w = width →
      widgetHeight w = height → t.text = s → t.currentPos = k →
      (drawInputFieldWidget win w t).2 = some r →
      r.x = (paintedAt win w).x + characterWidth * getMouseXFromOffset s width k ∧
        r.y = (paintedAt win w).y + (characterHeight * getMouseYFromOffset s width k + 1) := by
  obtain ⟨hX, hY⟩ := getMouse_eq hw hk
  rw [hX, hY]
  constructor
  · rintro x y g hg rfl
    exact drawStringFrom_at (k := 0) 0 0 rfl rfl rfl hg
  · rintro w t r rfl rfl rfl hpos hr
    simp only [drawInputFieldWidget, hpos, Int.toNat_natCast] at hr
    split at hr
    · next hin =>
      have h := cursorOffsets_eq 0 k (by omega) (x := 0) (y := 0) rfl rfl hin.le
      rw [Nat.zero_add] at h
      rw [h] at hr
      cases hr
      exact ⟨rfl, Int.add_assoc _ _ _⟩
    · cases hr

/-- The text `abc`, a line break and `d` in a field two characters wide, with the cursor in front
of the `d`. -/
theorem layouts_agree_wrapped :
    (∀ g ∈ drawString WidgetList.emptyWindow [97, 98, 99, 10, 100] 5 7 18 100, g.offset = 4 →
      g.x = 5 ∧ g.y = 43) ∧
    ∀ r, (drawInputFieldWidget WidgetList.emptyWindow
      ⟨none, .inputfield, ⟨5, 23, 7, 107⟩, 0, 0⟩
      ⟨WidgetList.black, [97, 98, 99, 10, 100], 4⟩).2 = some r → r.x = 5 ∧ r.y = 44 :=
  have h := layouts_agree WidgetList.emptyWindow [97, 98, 99, 10, 100] 18 100 (by decide) 4
    (by decide)
  ⟨fun g => h.1 5 7 g, fun r => h.2 _ _ r (by decide) (by decide) rfl rfl⟩

end TextLayouts
