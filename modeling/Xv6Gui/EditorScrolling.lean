import Xv6Gui.TextPositions

/-!
# Scrolling in the editor

inputHandler of editor.c. The field grows with the text, the scroll offset jumps to a new maximum
and otherwise follows the cursor by whole rows. The first maximum is less than a row, and from
there the step back leads below zero.
-/
namespace EditorScrolling

open WindowManagerState UserWidgets TextLayouts InputFields TextPositions GuardedRuns

/-- The globals of the editor, and the input field that the widget's context points to. -/
structure Editor where
  programWindow : UserWindow
  lastMaximumOffset : ℤ
  inputfield : Field

def totalHeightFrom (win : UserWindow) : ℕ → ℤ → ℤ → Except Fault ℤ
  | fuel, totalHeight, p =>
    if p = -1 then .ok totalHeight
    else widgetIndex p >>= fun p =>
      match fuel with
      | 0 => .error .diverges
      | fuel + 1 => totalHeightFrom win fuel
          (if (win.widgets p).scrollable ≠ 0 ∧ (win.widgets p).position.ymax > totalHeight
            then (win.widgets p).position.ymax else totalHeight) (win.next p)

def getScrollableTotalHeight (win : UserWindow) : Except Fault ℤ :=
  totalHeightFrom win maxWidgetSize 0 win.widgetlisthead

def growField (win : UserWindow) (w newHeight : ℤ) : UserWindow :=
  if newHeight > widgetHeight (win.widgets w) then
    setWidget win w { win.widgets w with
      position.ymax := (win.widgets w).position.ymin + newHeight }
  else win

def followMaximum (s : Editor) (maximumOffset : ℤ) : Editor :=
  if maximumOffset > 0 ∧ s.lastMaximumOffset ≠ maximumOffset then
    { s with
      programWindow.scrollOffsetY := maximumOffset
      lastMaximumOffset := maximumOffset }
  else s

def scrollBy (win : UserWindow) (dy : ℤ) : UserWindow :=
  { win with scrollOffsetY := win.scrollOffsetY + dy }

def followCursor (win : UserWindow) (ymin currentHeight maximumOffset : ℤ) : UserWindow :=
  let win := if currentHeight ≤ ymin ∧ win.scrollOffsetY > 0 then scrollBy win (-characterHeight)
    else win
  if currentHeight ≥ win.window.height - 1 ∧ win.scrollOffsetY ≤ maximumOffset then
    scrollBy win characterHeight
  else win

/-- What inputHandler does behind a key, when the text has `charCount` characters. -/
def adjustWindow (w : ℤ) (s : Editor) (charCount : ℕ) : Except Fault Editor :=
  let widget := s.programWindow.widgets w
  let str := s.inputfield.text.bytes
  let newHeight := characterHeight * (getMouseYFromOffset str (widgetWidth widget) charCount + 1)
  let win := growField s.programWindow w newHeight
  getScrollableTotalHeight win >>= fun totalHeight =>
    let maximumOffset := totalHeight - win.window.height
    let s := followMaximum { s with programWindow := win } maximumOffset
    let currentHeight :=
      getMouseYFromOffset str (widgetWidth widget) s.inputfield.currentPos * characterHeight +
        widget.position.ymin - s.programWindow.scrollOffsetY
    .ok { s with
      programWindow :=
        followCursor s.programWindow widget.position.ymin currentHeight maximumOffset }

def inputHandler (w : ℤ) (s : Editor) (msg : Message) : Except Fault Editor :=
  let position := (s.programWindow.widgets w).position
  if msg.msgType = .mouseLeftClick then
    inputMouseLeftClickHandler position s.inputfield msg >>= fun f =>
      .ok { s with inputfield := f }
  else if msg.msgType = .keyDown then
    inputFieldKeyHandler position s.inputfield msg >>= fun f =>
      f.text.string 0 >>= fun str => adjustWindow w { s with inputfield := f } str.length
  else .ok s

/-- The global before `main`. -/
def programWindow : UserWindow where
  window := ⟨⟨0, 0, 0, 0⟩, 1, 0, 400, 300, 0⟩
  scrollOffsetX := 0
  scrollOffsetY := 0
  widgets _ := ⟨none, .text, ⟨0, 0, 0, 0⟩, 0, 0⟩
  next _ := 0
  prev _ := 0
  widgetlisthead := 0
  widgetlisttail := 0
  keyfocus := 0
  needsRepaint := 0

def textColor : Rgba := ⟨255, 5, 6, 2⟩

/-- The window with its background, the input field in slot 1 and the button "save". The handlers
are numbered: 0 is buttonHandler and 1 inputHandler. -/
def editorWindow (handler : ℤ) (windowBuf : ℕ) (initial : List UInt8) : Except Fault UserWindow :=
  let win := createWindow (fun w => { w with handler := handler }) programWindow windowBuf
  addColorFillWidget win ⟨250, 255, 255, 255⟩ 0 0 400 300 0 0 >>= fun r =>
    addInputFieldWidget r.2 textColor initial 10 50 (400 - 10) (300 - 50) 1 1 >>= fun r =>
      addButtonWidget r.2 textColor ⟨255, 0, 180, 244⟩ [115, 97, 118, 101] 10 10 50 30 0 0 >>=
        fun r => .ok r.2

/-- The part of `main` in front of its loop, with the text of the file or the default one. -/
def main (handler : ℤ) (windowBuf : ℕ) (memory : TextArray) (initial : List UInt8) :
    Except Fault Editor :=
  editorWindow handler windowBuf initial >>= fun win =>
    addInputField memory initial >>= fun f => .ok ⟨win, 0, f⟩

/-- The scroll offset is between zero and the largest one. -/
def ScrollInBounds (s : Editor) : Prop :=
  ∃ totalHeight, getScrollableTotalHeight s.programWindow = .ok totalHeight ∧
    0 ≤ s.programWindow.scrollOffsetY ∧
    s.programWindow.scrollOffsetY ≤ max 0 (totalHeight - s.programWindow.window.height)

/-- The rows of the text in a field at the position. -/
def textRows (position : WinRect) (f : Field) : ℤ :=
  getMouseYFromOffset f.text.bytes (i32 (position.xmax - position.xmin)) (strlen f.text) + 1

def cursorRow (position : WinRect) (f : Field) : ℤ :=
  getMouseYFromOffset f.text.bytes (i32 (position.xmax - position.xmin)) f.currentPos

/-- The offset is 2 and the text stays in the field, or the text gets 14 rows for the first
time. -/
def ScrolledByLessThanRow (s : Editor) (rows : ℤ) : Prop :=
  let height := widgetHeight (s.programWindow.widgets 1)
  s.programWindow.scrollOffsetY = 2 ∧ characterHeight * rows ≤ height ∨
    height < characterHeight * 14 ∧ rows = 14

/-- The text has room in its array, and the key does not put the cursor into the first row while
the window is scrolled by less than a row. -/
def KeepsScroll (s : Editor) (msg : Message) : Prop :=
  let position := (s.programWindow.widgets 1).position
  HasRoom s.inputfield (.inputFieldKeyHandler msg) ∧
    ∀ f, msg.msgType = .keyDown → inputFieldKeyHandler position s.inputfield msg = .ok f →
      cursorRow position f = 0 → ¬ScrolledByLessThanRow s (textRows position f)

instance (s : Editor) (rows : ℤ) : Decidable (ScrolledByLessThanRow s rows) :=
  inferInstanceAs (Decidable (_ ∧ _ ∨ _))

instance (s : Editor) (msg : Message) : Decidable (KeepsScroll s msg) :=
  have : Decidable (HasRoom s.inputfield (.inputFieldKeyHandler msg)) :=
    inferInstanceAs (Decidable (_ → _ → _))
  match h : inputFieldKeyHandler (s.programWindow.widgets 1).position s.inputfield msg with
  | .error _ => decidable_of_iff (HasRoom s.inputfield (.inputFieldKeyHandler msg))
      (by simp [KeepsScroll, h])
  | .ok f => decidable_of_iff (HasRoom s.inputfield (.inputFieldKeyHandler msg) ∧
      (msg.msgType = .keyDown → cursorRow (s.programWindow.widgets 1).position f = 0 →
        ¬ScrolledByLessThanRow s (textRows (s.programWindow.widgets 1).position f)))
      (by simp [KeepsScroll, h])

def IsKey (msg : Message) : Prop := msg.msgType = .keyDown ∨ msg.msgType = .keyUp

/-- The window of the editor, with a field that ends at `ymax`. -/
structure Laid (win : UserWindow) (ymax : ℤ) : Prop where
  height : win.window.height = 300
  head : win.widgetlisthead = 0
  field : win.next 0 = 1
  button : win.next 1 = 2
  last : win.next 2 = -1
  background_fixed : (win.widgets 0).scrollable = 0
  field_scrolls : (win.widgets 1).scrollable = 1
  button_fixed : (win.widgets 2).scrollable = 0
  position : (win.widgets 1).position = ⟨10, 400, 50, ymax⟩

section Window

variable {win : UserWindow} {ymax : ℤ}

theorem editorWindow_laid (handler : ℤ) {windowBuf : ℕ} (hb : windowBuf ≠ 0)
    (initial : List UInt8) :
    ∃ win, editorWindow handler windowBuf initial = .ok win ∧ Laid win 300 ∧
      win.scrollOffsetY = 0 := by
  obtain ⟨b, rfl⟩ := Nat.exists_eq_succ_of_ne_zero hb
  exact ⟨_, rfl, ⟨rfl, rfl, rfl, rfl, rfl, rfl, rfl, rfl, rfl⟩, rfl⟩

theorem totalHeightFrom_succ {p : ℤ} (hp : InWidgets p) (fuel : ℕ) (totalHeight : ℤ) :
    totalHeightFrom win (fuel + 1) totalHeight p =
      totalHeightFrom win fuel
        (if (win.widgets p).scrollable ≠ 0 ∧ (win.widgets p).position.ymax > totalHeight
          then (win.widgets p).position.ymax else totalHeight) (win.next p) := by
  rw [totalHeightFrom, if_neg hp.ne_neg, widgetIndex_ok hp, ok_bind]

/-- The field is the only widget that scrolls. -/
theorem Laid.totalHeight (h : Laid win ymax) (hpos : 0 < ymax) :
    getScrollableTotalHeight win = .ok ymax := by
  have hwalk : ∀ fuel, totalHeightFrom win (fuel + 1 + 1 + 1) 0 0 = .ok ymax := by
    intro fuel
    rw [totalHeightFrom_succ (by decide), if_neg fun hs => hs.1 h.background_fixed, h.field,
      totalHeightFrom_succ (by decide), h.position,
      if_pos ⟨by rw [h.field_scrolls]; decide, hpos⟩, h.button,
      totalHeightFrom_succ (by decide), if_neg fun hs => hs.1 h.button_fixed, h.last,
      totalHeightFrom, if_pos rfl]
  rw [getScrollableTotalHeight, h.head]
  exact hwalk 47

theorem Laid.widgetHeight (h : Laid win ymax) (h0 : 50 ≤ ymax) (h1 : ymax ≤ 18050) :
    widgetHeight (win.widgets 1) = ymax - 50 := by
  rw [TextLayouts.widgetHeight, h.position]
  exact Int.bmod_eq_of_le (by dsimp only; omega) (by dsimp only; omega)

theorem Laid.grow (h : Laid win ymax) (h0 : 50 ≤ ymax) (h1 : ymax ≤ 18050) (newHeight : ℤ) :
    Laid (growField win 1 newHeight)
      (if newHeight > ymax - 50 then 50 + newHeight else ymax) := by
  rw [growField, h.widgetHeight h0 h1]
  split
  · obtain ⟨hheight, hhead, hfield, hbutton, hlast, hb, hf, hs, hpos⟩ := h
    refine ⟨hheight, hhead, hfield, hbutton, hlast, ?_, ?_, ?_, ?_⟩
    · exact hb
    · exact hf
    · exact hs
    · simp only [setWidget, Function.update_self, hpos]
  · exact h

theorem Laid.scrolled (h : Laid win ymax) (y : ℤ) : Laid { win with scrollOffsetY := y } ymax :=
  ⟨h.height, h.head, h.field, h.button, h.last, h.background_fixed, h.field_scrolls,
    h.button_fixed, h.position⟩

/-- Where the cursor's row takes the offset. -/
def nextOffset (maximumOffset row offset : ℤ) : ℤ :=
  let offset' := if 18 * row ≤ offset ∧ offset > 0 then offset - 18 else offset
  if 249 + offset ≤ 18 * row ∧ offset' ≤ maximumOffset then offset' + 18 else offset'

theorem followCursor_eq (h : Laid win ymax) (maximumOffset row : ℤ) :
    followCursor win 50 (row * characterHeight + 50 - win.scrollOffsetY) maximumOffset =
      { win with scrollOffsetY := nextOffset maximumOffset row win.scrollOffsetY } := by
  have hup : row * characterHeight + 50 - win.scrollOffsetY ≤ 50 ↔
      18 * row ≤ win.scrollOffsetY := by
    simp only [characterHeight]
    omega
  have hdown : row * characterHeight + 50 - win.scrollOffsetY ≥ 300 - 1 ↔
      249 + win.scrollOffsetY ≤ 18 * row := by
    simp only [characterHeight]
    omega
  simp only [followCursor, nextOffset, hup]
  by_cases hu : 18 * row ≤ win.scrollOffsetY ∧ win.scrollOffsetY > 0
  · simp only [if_pos hu, scrollBy, h.height, hdown, ← Int.sub_eq_add_neg]
    split
    · rfl
    · rfl
  · simp only [if_neg hu, scrollBy, h.height, hdown]
    split
    · rfl
    · rfl

end Window

section Keys

variable {s : Editor} {msg : Message} {ymax rows row offset : ℤ}

/-- Where the field ends when its text has so many rows. -/
def nextEnd (ymax rows : ℤ) : ℤ := if 18 * rows > ymax - 50 then 50 + 18 * rows else ymax

/-- The offset behind the jump to a new maximum. -/
def jump (ymax rows offset : ℤ) : ℤ :=
  if nextEnd ymax rows > ymax then nextEnd ymax rows - 300 else offset

/-- The field ends where the window does or at the end of some row below. -/
def FieldEnd (ymax : ℤ) : Prop := ymax = 300 ∨ 302 ≤ ymax ∧ ymax ≤ 18050 ∧ ymax % 18 = 14

/-- The offset is some rows behind the largest one. -/
def Offset (ymax offset : ℤ) : Prop :=
  offset = 0 ∧ ymax = 300 ∨ 2 ≤ offset ∧ offset ≤ ymax - 300 ∧ offset % 18 = 2

theorem nextEnd_fieldEnd (h : FieldEnd ymax) (h1 : rows ≤ 1000) : FieldEnd (nextEnd ymax rows) := by
  unfold FieldEnd nextEnd at *
  split
  · omega
  · exact h

theorem jump_offset (ho : Offset ymax offset) :
    Offset (nextEnd ymax rows) (jump ymax rows offset) := by
  unfold Offset jump nextEnd at *
  split
  · split <;> omega
  · rw [if_neg (by omega)]
    exact ho

/-- A step down stays below the largest offset, and a step up above zero unless less than a row is
left. -/
theorem nextOffset_iff (ho : Offset ymax offset) (h0 : 0 ≤ row)
    (hrow : 18 * (row + 1) ≤ ymax - 50) :
    (0 ≤ nextOffset (ymax - 300) row offset ∧
        nextOffset (ymax - 300) row offset ≤ max 0 (ymax - 300)) ↔
      ¬(row = 0 ∧ offset = 2) := by
  unfold Offset at ho
  rw [nextOffset]
  split <;> split <;> omega

theorem nextOffset_offset (ho : Offset ymax offset) (h0 : 0 ≤ row)
    (hrow : 18 * (row + 1) ≤ ymax - 50) (hkeep : ¬(row = 0 ∧ offset = 2)) :
    Offset ymax (nextOffset (ymax - 300) row offset) := by
  unfold Offset at *
  rw [nextOffset]
  split <;> split <;> omega

theorem growField_offset (win : UserWindow) (w newHeight : ℤ) :
    (growField win w newHeight).scrollOffsetY = win.scrollOffsetY := by
  rw [growField]
  split
  · rfl
  · rfl

variable (rows) in
theorem followMaximum_eq (h : FieldEnd ymax) (hlast : s.lastMaximumOffset = ymax - 300) :
    followMaximum s (nextEnd ymax rows - 300) =
      { s with
        programWindow.scrollOffsetY := jump ymax rows s.programWindow.scrollOffsetY
        lastMaximumOffset := nextEnd ymax rows - 300 } := by
  have hle : ymax ≤ nextEnd ymax rows := by
    rw [nextEnd]
    split <;> omega
  unfold FieldEnd at h
  rw [followMaximum, jump]
  by_cases hgrown : nextEnd ymax rows > ymax
  · rw [if_pos hgrown, if_pos ⟨by omega, by omega⟩]
  · rw [if_neg hgrown, if_neg fun hc => hc.2 (by omega),
      show nextEnd ymax rows - 300 = s.lastMaximumOffset by omega]

/-- What the adjustment makes of the window, by the rows of the text and the row of the cursor. -/
theorem adjustWindow_eq (h : Laid s.programWindow ymax) (hend : FieldEnd ymax)
    (hlast : s.lastMaximumOffset = ymax - 300) (n : ℕ)
    (hrows : getMouseYFromOffset s.inputfield.text.bytes 390 n + 1 = rows)
    (hrow : getMouseYFromOffset s.inputfield.text.bytes 390 s.inputfield.currentPos = row) :
    ∃ t, adjustWindow 1 s n = .ok t ∧ t.inputfield = s.inputfield ∧
      Laid t.programWindow (nextEnd ymax rows) ∧
      t.lastMaximumOffset = nextEnd ymax rows - 300 ∧
      t.programWindow.scrollOffsetY = nextOffset (nextEnd ymax rows - 300) row
        (jump ymax rows s.programWindow.scrollOffsetY) := by
  have hbounds : 300 ≤ ymax ∧ ymax ≤ 18050 := by
    unfold FieldEnd at hend
    omega
  have hwidth : widgetWidth (s.programWindow.widgets 1) = 390 := by
    rw [widgetWidth, h.position]
    rfl
  have hgrow : Laid (growField s.programWindow 1 (characterHeight * rows)) (nextEnd ymax rows) :=
    h.grow (by omega) hbounds.2 _
  have hpos : 0 < nextEnd ymax rows := by
    rw [nextEnd]
    split <;> omega
  rw [adjustWindow]
  dsimp only
  have hmax := followMaximum_eq rows (s := { s with
    programWindow := growField s.programWindow 1 (characterHeight * rows) }) hend hlast
  rw [hwidth, hrows, hgrow.totalHeight hpos, ok_bind, hgrow.height, hmax, growField_offset]
  dsimp only
  have hcursor := followCursor_eq
    (hgrow.scrolled (jump ymax rows s.programWindow.scrollOffsetY)) (nextEnd ymax rows - 300) row
  dsimp only at hcursor
  rw [hrow, h.position, hcursor]
  exact ⟨_, rfl, rfl, hgrow.scrolled _, rfl, rfl⟩

structure Invariant (s : Editor) (ymax : ℤ) : Prop where
  good : Good s.inputfield
  laid : Laid s.programWindow ymax
  fieldEnd : FieldEnd ymax
  last : s.lastMaximumOffset = ymax - 300
  offset : Offset ymax s.programWindow.scrollOffsetY

theorem FieldEnd.le (h : FieldEnd ymax) : 300 ≤ ymax := by
  unfold FieldEnd at h
  omega

theorem Laid.scrollInBounds_iff (h : Laid s.programWindow ymax) (hend : FieldEnd ymax) :
    ScrollInBounds s ↔ 0 ≤ s.programWindow.scrollOffsetY ∧
      s.programWindow.scrollOffsetY ≤ max 0 (ymax - 300) := by
  have htotal := h.totalHeight (Int.lt_of_lt_of_le (by decide) hend.le)
  rw [ScrollInBounds, h.height]
  constructor
  · rintro ⟨total, ht, hb⟩
    cases htotal.symm.trans ht
    exact hb
  · intro hb
    exact ⟨ymax, htotal, hb⟩

theorem Invariant.scrollInBounds (h : Invariant s ymax) : ScrollInBounds s := by
  have ho := h.offset
  unfold Offset at ho
  exact (h.laid.scrollInBounds_iff h.fieldEnd).mpr ⟨by omega, by omega⟩

/-- The row of the cursor is a row of the text, and the text has at most as many rows as its array
has bytes. -/
theorem rows_bounds {f : Field} (h : Good f) (width : ℤ) (hw : 0 ≤ width) :
    0 ≤ getMouseYFromOffset f.text.bytes width f.currentPos ∧
      getMouseYFromOffset f.text.bytes width f.currentPos ≤
        getMouseYFromOffset f.text.bytes width (strlen f.text) ∧
      getMouseYFromOffset f.text.bytes width (strlen f.text) + 1 ≤ 1000 := by
  obtain ⟨k, hk⟩ := Int.eq_ofNat_of_zero_le h.nonneg
  have hin := h.inside
  have hlen : f.text.bytes.length = 1000 := f.text.length_bytes
  have hfit : strlen f.text < 1000 := h.terminated
  rw [hk] at hin ⊢
  rw [getMouseY_eq hw (by omega), getMouseY_eq hw (by omega)]
  have hrow : (cell f.text.bytes width k).2 ≤ (cell f.text.bytes width (strlen f.text)).2 :=
    cell_row_le (Int.ofNat_le.mp hin) (by omega)
  have hcount : (cell f.text.bytes width (strlen f.text)).2 ≤ strlen f.text :=
    WrappedText.row_le_offset _ _ (by omega)
  exact ⟨Int.natCast_nonneg _, Int.ofNat_le.mpr hrow, by omega⟩

theorem jump_eq_two : jump ymax rows offset = 2 ↔
    offset = 2 ∧ 18 * rows ≤ ymax - 50 ∨ ymax - 50 < 18 * 14 ∧ rows = 14 := by
  rw [jump, nextEnd]
  split
  · rw [if_pos (by omega)]
    omega
  · rw [if_neg (by omega)]
    omega

theorem le_nextEnd (ymax rows : ℤ) : 18 * rows ≤ nextEnd ymax rows - 50 := by
  rw [nextEnd]
  split <;> omega

theorem scrolledByLessThanRow_iff (h : Laid s.programWindow ymax) (hend : FieldEnd ymax) :
    ScrolledByLessThanRow s rows ↔ jump ymax rows s.programWindow.scrollOffsetY = 2 := by
  unfold FieldEnd at hend
  rw [ScrolledByLessThanRow, h.widgetHeight (by omega) (by omega), jump_eq_two]

/-- A key keeps the offset in its bounds unless it leaves the cursor in the first row while less
than a row is scrolled. -/
theorem key_spec (h : Invariant s ymax) (hm : msg.msgType = .keyDown) {position : WinRect}
    (hp : (s.programWindow.widgets 1).position = position) {f : Field}
    (hf : inputFieldKeyHandler position s.inputfield msg = .ok f) (hg : Good f) :
    ∃ t, inputHandler 1 s msg = .ok t ∧
      (ScrollInBounds t ↔
        ¬(cursorRow position f = 0 ∧ ScrolledByLessThanRow s (textRows position f))) ∧
      (ScrollInBounds t → ∃ ymax', Invariant t ymax') := by
  obtain ⟨str, k, hs, -, -⟩ := hg.holds
  obtain rfl : ⟨10, 400, 50, ymax⟩ = position := h.laid.position.symm.trans hp
  obtain ⟨h0, hle, hmany⟩ := rows_bounds hg 390 (by decide)
  have hlen : strlen f.text = str.length := hs.strlen_eq
  have hrow : cursorRow ⟨10, 400, 50, ymax⟩ f =
      getMouseYFromOffset f.text.bytes 390 f.currentPos := rfl
  have hrows : textRows ⟨10, 400, 50, ymax⟩ f =
      getMouseYFromOffset f.text.bytes 390 (strlen f.text) + 1 := rfl
  rw [hlen] at hle hmany hrows
  obtain ⟨t, ht, hfield, hlaid, hlast, hoffset⟩ :=
    adjustWindow_eq (s := { s with inputfield := f }) h.laid h.fieldEnd h.last str.length
      hrows.symm hrow.symm
  generalize cursorRow ⟨10, 400, 50, ymax⟩ f = row at *
  generalize textRows ⟨10, 400, 50, ymax⟩ f = rows at *
  have hend : FieldEnd (nextEnd ymax rows) := nextEnd_fieldEnd h.fieldEnd (by omega)
  have hjump : Offset (nextEnd ymax rows) (jump ymax rows s.programWindow.scrollOffsetY) :=
    jump_offset h.offset
  have hfits := le_nextEnd ymax rows
  have hbounds : ScrollInBounds t ↔ ¬(row = 0 ∧ ScrolledByLessThanRow s rows) := by
    rw [hlaid.scrollInBounds_iff hend, hoffset, nextOffset_iff hjump (by omega) (by omega),
      scrolledByLessThanRow_iff h.laid h.fieldEnd]
  refine ⟨t, ?_, hbounds, ?_⟩
  · rw [inputHandler, hm, if_neg (by decide), if_pos rfl, h.laid.position]
    rw [hf, ok_bind, hs.string_zero, ok_bind, ht]
  · intro hin
    refine ⟨nextEnd ymax rows, ⟨hfield ▸ hg, hlaid, hend, hlast, ?_⟩⟩
    rw [hoffset]
    refine nextOffset_offset hjump (by omega) (by omega) ?_
    rw [← scrolledByLessThanRow_iff h.laid h.fieldEnd]
    exact hbounds.mp hin

/-- A key that keeps the scroll is one that leaves the offset in its bounds. -/
theorem key_stays_iff (h : Invariant s ymax) (hk : IsKey msg) :
    (∃ t, inputHandler 1 s msg = .ok t ∧ ScrollInBounds t) ↔ KeepsScroll s msg := by
  rcases hk with hm | hm
  case inr =>
    have hup : inputHandler 1 s msg = .ok s := by
      rw [inputHandler, hm, if_neg (by decide), if_neg (by decide)]
    refine iff_of_true ⟨s, hup, h.scrollInBounds⟩ ⟨?_, ?_⟩
    · intro hd
      rw [hm] at hd
      cases hd
    · intro f hd
      rw [hm] at hd
      cases hd
  case inl =>
    by_cases hr : HasRoom s.inputfield (.inputFieldKeyHandler msg)
    case neg =>
      obtain ⟨i, hi⟩ : ∃ i, inputFieldKeyHandler (s.programWindow.widgets 1).position s.inputfield
          msg = .error (.outOfBounds i) := key_full h.good hr
      refine iff_of_false ?_ fun hk => hr hk.1
      rintro ⟨t, ht, -⟩
      rw [inputHandler, hm, if_neg (by decide), if_pos rfl, hi, error_bind] at ht
      cases ht
    case pos =>
      obtain ⟨f, hf, hg⟩ := (key_good_iff h.good).mpr hr
      obtain ⟨t, ht, hbounds, -⟩ := key_spec h hm rfl hf hg
      constructor
      · rintro ⟨u, hu, hin⟩
        cases ht.symm.trans hu
        refine ⟨hr, ?_⟩
        intro f' _ hf' hc hless
        cases hf.symm.trans hf'
        exact hbounds.mp hin ⟨hc, hless⟩
      · rintro ⟨-, hkeep⟩
        exact ⟨t, ht, hbounds.mpr fun hc => hkeep f hm hf hc.1 hc.2⟩

theorem key_keeps_invariant {t : Editor} (h : Invariant s ymax) (hk : IsKey msg)
    (hkeep : KeepsScroll s msg) (ht : inputHandler 1 s msg = .ok t) :
    ∃ ymax', Invariant t ymax' := by
  obtain ⟨u, hu, hin⟩ := (key_stays_iff h hk).mpr hkeep
  cases hu.symm.trans ht
  rcases hk with hm | hm
  · obtain ⟨f, hf, hg⟩ := (key_good_iff h.good).mpr hkeep.1
    obtain ⟨v, hv, -, hnext⟩ := key_spec h hm rfl hf hg
    cases hv.symm.trans ht
    exact hnext hin
  · rw [inputHandler, hm, if_neg (by decide), if_neg (by decide)] at ht
    cases ht
    exact ⟨ymax, h⟩

theorem main_invariant {handler : ℤ} {windowBuf : ℕ} (hb : windowBuf ≠ 0) {memory : TextArray}
    {initial : List UInt8} (h0 : 0 ∉ initial) (hs : main handler windowBuf memory initial = .ok s) :
    Invariant s 300 := by
  obtain ⟨win, hw, hlaid, hoffset⟩ := editorWindow_laid handler hb initial
  rw [main, hw, ok_bind] at hs
  obtain ⟨f, hf, hs⟩ := bind_eq_ok.mp hs
  cases hs
  have hlen : initial.length < maxLongStrlen := by
    by_contra hfull
    obtain ⟨i, hi⟩ := strcpy_full (t := memory) (k := 0) (s := initial) (by omega)
    rw [addInputField, ← Int.natCast_zero, hi, error_bind] at hf
    cases hf
  obtain ⟨f', hf', hholds, hpos⟩ := addInputField_eq memory initial h0 hlen
  cases hf'.symm.trans hf
  have hgood : Good f := Good.of_holds hholds (by omega) (by omega)
  exact ⟨hgood, hlaid, .inl rfl, rfl, .inl ⟨hoffset, rfl⟩⟩

end Keys

/-- Over any run of keys the offset stays in its bounds exactly as long as no key finds the
text array full or leaves the cursor in the first row while less than a row is scrolled. -/
theorem scroll_stays_iff (handler : ℤ) (windowBuf : ℕ) (hb : windowBuf ≠ 0) (memory : TextArray)
    (initial : List UInt8) (h0 : 0 ∉ initial) (s : Editor)
    (hs : main handler windowBuf memory initial = .ok s) (msgs : List Message)
    (hm : ∀ msg ∈ msgs, IsKey msg) :
    Stays (inputHandler 1) ScrollInBounds s msgs ↔ Along (inputHandler 1) KeepsScroll s msgs := by
  have hgood : ∀ s, (∃ ymax, Invariant s ymax) → ScrollInBounds s := by
    rintro s ⟨ymax, h⟩
    exact h.scrollInBounds
  refine stays_iff hgood ?_ ?_ ⟨300, main_invariant hb h0 hs⟩ (along_of_mem s hm)
  · rintro s msg ⟨ymax, h⟩ hk
    exact key_stays_iff h hk
  · rintro s msg t ⟨ymax, h⟩ hk hkeep ht
    exact key_keeps_invariant h hk hkeep ht

/-- One more line than fits, and the cursor up and down again. -/
def linesAndBack : List Message :=
  [keyDownMsg 10, keyDownMsg 10, keyDownMsg keyUp, keyDownMsg keyDn]

theorem scroll_stays_two_lines : ∃ s, main 1 4096 zeroedArray (List.replicate 12 10) = .ok s ∧
    Stays (inputHandler 1) ScrollInBounds s linesAndBack := by
  obtain ⟨s, hs, hkeep⟩ := map_eq_ok.mp
    (show (fun s => decide (Along (inputHandler 1) KeepsScroll s linesAndBack)) <$>
      main 1 4096 zeroedArray (List.replicate 12 10) = .ok true by decide +kernel)
  refine ⟨s, hs, (scroll_stays_iff 1 4096 (by decide) zeroedArray _ ?_ s hs _ ?_).mpr
    (of_decide_eq_true hkeep)⟩
  · decide
  · intro msg hm
    simp only [linesAndBack, List.mem_cons, List.not_mem_nil, or_false] at hm
    rcases hm with rfl | rfl | rfl | rfl <;> exact .inl rfl

/-- The cursor goes up through a text of 14 lines, and into the first one at the offset 2. -/
theorem first_line_scrolls_below_zero : ¬∀ (handler : ℤ) (windowBuf : ℕ), windowBuf ≠ 0 →
    ∀ (memory : TextArray) (initial : List UInt8), 0 ∉ initial →
      ∀ s, main handler windowBuf memory initial = .ok s → ∀ msgs : List Message,
        (∀ msg ∈ msgs, IsKey msg) → ∀ t, Execution (inputHandler 1) s msgs t →
          ScrollInBounds t := by
  intro h
  obtain ⟨t, ht, hoffset⟩ := map_eq_ok.mp
    (show (fun t : Editor => t.programWindow.scrollOffsetY) <$>
      (main 1 4096 zeroedArray (List.replicate 13 10) >>= fun s =>
        run (inputHandler 1) s (List.replicate 13 (keyDownMsg keyUp))) = .ok (-16)
      by decide +kernel)
  obtain ⟨s, hs, hrun⟩ := bind_eq_ok.mp ht
  have hkeys : ∀ msg ∈ List.replicate 13 (keyDownMsg keyUp), IsKey msg := by
    intro msg hm
    rw [List.eq_of_mem_replicate hm]
    exact .inl rfl
  obtain ⟨total, -, hneg, -⟩ := h 1 4096 (by decide) zeroedArray (List.replicate 13 10) (by decide)
    s hs _ hkeys t (execution_of_run hrun)
  rw [hoffset] at hneg
  exact absurd hneg (by decide)

end EditorScrolling
