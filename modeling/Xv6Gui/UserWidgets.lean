import Xv6Gui.WindowManagerState
import Xv6Gui.GuardedRuns

/-!
# The widgets of a window

The widget part of user_window.c, in the order of the file. As in the kernel the array is
one function for each linked field over the C index, and an index outside it is a fault.
Allocation succeeds, what a pointer of the context points to is kept with the widget, and a
text is kept whole. Drawing is not part of this state.
-/
namespace UserWidgets

open WindowManagerState GuardedRuns

abbrev maxWidgetSize : ℕ := 50

structure Rgba where
  a : UInt8
  b : UInt8
  g : UInt8
  r : UInt8
  deriving DecidableEq, Repr

inductive WidgetType where
  | text | inputfield | button | icon | colorfill | shape | image
  deriving DecidableEq, Repr

inductive ShapeKind where
  | rectangle | line | circle
  deriving DecidableEq, Repr

structure Shape where
  shape : ShapeKind
  params : List ℤ
  filled : ℤ
  color : Rgba
  filledColor : Rgba
  deriving DecidableEq, Repr

/-- A buffer of `w * h` pixels of one colour. -/
structure ColorFill where
  color : Rgba
  w : ℤ
  h : ℤ
  deriving DecidableEq, Repr

structure Button where
  color : Rgba
  bgColor : Rgba
  text : List UInt8
  deriving DecidableEq, Repr

structure Text where
  color : Rgba
  text : List UInt8
  deriving DecidableEq, Repr

structure InputField where
  color : Rgba
  text : List UInt8
  currentPos : ℤ
  deriving DecidableEq, Repr

inductive WidgetBase where
  | colorfill (b : ColorFill)
  | button (b : Button)
  | text (t : Text)
  | inputfield (t : InputField)
  | shape (s : Shape)
  deriving DecidableEq, Repr

/-- A handler is known by the address of its code. -/
abbrev Handler := ℕ

/-- The context is `none` before the first use of the slot and once it has been freed. -/
structure Widget where
  context : Option WidgetBase
  type : WidgetType
  position : WinRect
  scrollable : ℤ
  handler : Handler
  deriving DecidableEq, Repr

/-- The user-level `struct window`; `window` holds the fields the kernel knows too. -/
structure UserWindow where
  window : Window
  scrollOffsetX : ℤ
  scrollOffsetY : ℤ
  widgets : ℤ → Widget
  next : ℤ → ℤ
  prev : ℤ → ℤ
  widgetlisthead : ℤ
  widgetlisttail : ℤ
  keyfocus : ℤ
  needsRepaint : ℤ

def InWidgets (i : ℤ) : Prop := 0 ≤ i ∧ i < maxWidgetSize

instance (i : ℤ) : Decidable (InWidgets i) := inferInstanceAs (Decidable (_ ∧ _))

/-- An access to `win->widgets[i]`. -/
def widgetIndex (i : ℤ) : Except Fault ℤ :=
  if InWidgets i then .ok i else .error (.outOfBounds i)

theorem widgetIndex_ok {i : ℤ} (h : InWidgets i) : widgetIndex i = .ok i := if_pos h

theorem InWidgets.ne_neg {i : ℤ} (h : InWidgets i) : i ≠ -1 := by
  rintro rfl
  exact absurd h.1 (by decide)

/-- The slot numbers in the order in which `findNextAvailable` visits them. -/
def widgetSlots : List ℤ := (List.range maxWidgetSize).map fun i : ℕ => (i : ℤ)

theorem mem_widgetSlots {i : ℤ} : i ∈ widgetSlots ↔ InWidgets i := by
  simp only [widgetSlots, List.mem_map, List.mem_range, InWidgets]
  constructor
  · rintro ⟨n, hn, rfl⟩
    omega
  · rintro ⟨h0, h1⟩
    exact ⟨i.toNat, by omega, Int.toNat_of_nonneg h0⟩

/-- The call returns early when there is no memory for the pixels; `sysCreateWindow` is what
the system call does to the fields of the kernel. -/
def createWindow (sysCreateWindow : Window → Window) (win : UserWindow) (windowBuf : ℕ) :
    UserWindow :=
  if windowBuf = 0 then { win with window.windowBuf := 0 }
  else { win with
    window := sysCreateWindow { win.window with
      windowBuf := windowBuf
      hasTitleBar := if win.window.hasTitleBar ≠ 0 then 1 else win.window.hasTitleBar }
    keyfocus := -1
    scrollOffsetX := 0
    scrollOffsetY := 0
    widgetlisthead := -1
    widgetlisttail := -1
    next := fun i => if InWidgets i then i else win.next i
    prev := fun i => if InWidgets i then i else win.prev i
    needsRepaint := 1 }

def setWidgetSize (widget : Widget) (x y w h : ℤ) : Widget :=
  { widget with position := ⟨x, i32 (x + w), y, i32 (y + h)⟩ }

/-- A slot is free when both its links are its own number. -/
def Free (win : UserWindow) (i : ℤ) : Prop := win.prev i = i ∧ win.next i = i

instance (win : UserWindow) (i : ℤ) : Decidable (Free win i) :=
  inferInstanceAs (Decidable (_ ∧ _))

def findNextAvailable (win : UserWindow) : ℤ :=
  (widgetSlots.find? fun i => decide (Free win i)).getD (-1)

theorem findNextAvailable_cases (win : UserWindow) :
    (findNextAvailable win = -1 ∧ ∀ i, InWidgets i → ¬Free win i) ∨
      (InWidgets (findNextAvailable win) ∧ Free win (findNextAvailable win)) := by
  simp only [findNextAvailable]
  cases h : widgetSlots.find? fun i => decide (Free win i) with
  | none =>
    refine Or.inl ⟨rfl, ?_⟩
    intro i hi
    simpa using List.find?_eq_none.mp h i (mem_widgetSlots.mpr hi)
  | some x =>
    have hmem := mem_widgetSlots.mp (List.mem_of_find?_eq_some h)
    exact Or.inr ⟨hmem, by simpa using List.find?_some h⟩

def setNext (win : UserWindow) (i v : ℤ) : Except Fault UserWindow := do
  let i ← widgetIndex i
  return { win with next := Function.update win.next i v }

def setPrev (win : UserWindow) (i v : ℤ) : Except Fault UserWindow := do
  let i ← widgetIndex i
  return { win with prev := Function.update win.prev i v }

theorem setNext_eq {win : UserWindow} {i v : ℤ} (h : InWidgets i) : setNext win i v =
    .ok { win with next := Function.update win.next i v } := by
  rw [setNext, widgetIndex_ok h, ok_bind, pure_eq_ok]

theorem setPrev_eq {win : UserWindow} {i v : ℤ} (h : InWidgets i) : setPrev win i v =
    .ok { win with prev := Function.update win.prev i v } := by
  rw [setPrev, widgetIndex_ok h, ok_bind, pure_eq_ok]

def addToWidgetListTail (win : UserWindow) (idx : ℤ) : Except Fault UserWindow := do
  let win ← setPrev win idx win.widgetlisttail
  let win ← setNext win idx (-1)
  let win ← if win.widgetlisttail ≠ -1 then setNext win win.widgetlisttail idx else pure win
  return { win with widgetlisttail := idx }

/-- The new head is the successor of the tail, not that of the old head. -/
def repairHead (win : UserWindow) (idx : ℤ) : Except Fault UserWindow :=
  if win.widgetlisthead = idx then do
    let tail ← widgetIndex win.widgetlisttail
    return { win with widgetlisthead := win.next tail }
  else pure win

def repairTail (win : UserWindow) (idx : ℤ) : Except Fault UserWindow :=
  if win.widgetlisttail = idx then do
    let tail ← widgetIndex win.widgetlisttail
    return { win with widgetlisttail := win.prev tail }
  else pure win

def joinNeighbours (win : UserWindow) (idx : ℤ) : Except Fault UserWindow := do
  let idx ← widgetIndex idx
  let win ← if win.prev idx ≠ -1
    then setNext win (win.prev idx) (win.next idx) else pure win
  if win.next idx ≠ -1
    then setPrev win (win.next idx) (win.prev idx) else pure win

def removeFromWidgetList (win : UserWindow) (idx : ℤ) : Except Fault UserWindow := do
  let win ← repairHead win idx
  let win ← repairTail win idx
  let win ← joinNeighbours win idx
  let win ← setPrev win idx idx
  setNext win idx idx

def addWidget (win : UserWindow) : Except Fault (ℤ × UserWindow) :=
  let widgetId := findNextAvailable win
  if widgetId = -1 then .ok (-1, win)
  else do
    let win := if win.widgetlisthead = -1 then { win with widgetlisthead := widgetId } else win
    let win ← addToWidgetListTail win widgetId
    return (widgetId, win)

def setWidget (win : UserWindow) (i : ℤ) (widget : Widget) : UserWindow :=
  { win with widgets := Function.update win.widgets i widget }

/-- The context of a shape is not freed. -/
def freeWidget (win : UserWindow) (index : ℤ) : Except Fault UserWindow := do
  let index ← widgetIndex index
  match (win.widgets index).type with
  | .colorfill | .button | .text | .inputfield =>
    return setWidget win index { win.widgets index with context := none }
  | _ => return win

def removeWidget (win : UserWindow) (index : ℤ) : Except Fault (ℤ × UserWindow) := do
  let index ← widgetIndex index
  if win.prev index = index ∧ win.next index = index then return (-1, win)
  else do
    let win ← freeWidget win index
    let win ← removeFromWidgetList win index
    return (0, win)

/-- The common body of the functions that add a widget. -/
def addTypedWidget (win : UserWindow) (context : WidgetBase) (type : WidgetType)
    (x y w h scrollable : ℤ) (handler : Handler) : Except Fault (ℤ × UserWindow) := do
  let (widgetId, win) ← addWidget win
  if widgetId = -1 then return (-1, win)
  else
    let widget := { win.widgets widgetId with
      context := some context
      type := type
      handler := handler
      scrollable := scrollable }
    return (widgetId, setWidget win widgetId (setWidgetSize widget x y w h))

def addRectangleWidget (win : UserWindow) (c filledColor : Rgba) (filled x y w h scrollable : ℤ)
    (handler : Handler) : Except Fault (ℤ × UserWindow) :=
  addTypedWidget win (.shape ⟨.rectangle, [x, y, w, h], filled, c, filledColor⟩) .shape
    x y w h scrollable handler

def addColorFillWidget (win : UserWindow) (c : Rgba) (x y w h scrollable : ℤ)
    (handler : Handler) : Except Fault (ℤ × UserWindow) :=
  addTypedWidget win (.colorfill ⟨c, w, h⟩) .colorfill x y w h scrollable handler

def addButtonWidget (win : UserWindow) (c bc : Rgba) (text : List UInt8)
    (x y w h scrollable : ℤ) (handler : Handler) : Except Fault (ℤ × UserWindow) :=
  addTypedWidget win (.button ⟨c, bc, text⟩) .button x y w h scrollable handler

def addTextWidget (win : UserWindow) (c : Rgba) (text : List UInt8) (x y w h scrollable : ℤ)
    (handler : Handler) : Except Fault (ℤ × UserWindow) :=
  addTypedWidget win (.text ⟨c, text⟩) .text x y w h scrollable handler

/-- An input field takes the key focus as well. -/
def addInputFieldWidget (win : UserWindow) (c : Rgba) (text : List UInt8)
    (x y w h scrollable : ℤ) (handler : Handler) : Except Fault (ℤ × UserWindow) := do
  let (widgetId, win) ←
    addTypedWidget win (.inputfield ⟨c, text, text.length⟩) .inputfield x y w h scrollable handler
  if widgetId = -1 then return (-1, win)
  else return (widgetId, { win with keyfocus := widgetId })

end UserWidgets
