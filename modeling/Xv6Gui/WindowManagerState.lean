import Mathlib.Algebra.GroupWithZero.Nat
import Mathlib.Data.Int.Basic
import Mathlib.Logic.Function.Basic
import Mathlib.Data.Fintype.Basic

/-!
# The state of the window manager

The globals of window_manager.c and the structures they hold. The array of slots is kept as
one function for each field, over the C index; `index` is the only way to an element, and an
index outside the array is a fault. A traversal that can never end is a fault of its own.
The colours and the pixels belong to the drawing code and are not part of this state.
-/
namespace WindowManagerState

abbrev maxWindowCnt : ℕ := 50
abbrev msgBufSize : ℕ := 50
abbrev maxTitleLen : ℕ := 50
abbrev titleHeight : ℤ := 28
abbrev dockHeight : ℤ := 36
abbrev dockProgramNormalWidth : ℤ := 160
abbrev startIconWidth : ℤ := 72
abbrev showDesktopIconWidth : ℤ := 10
abbrev nproc : ℕ := 64

@[instance] theorem neZero_msgBufSize : NeZero msgBufSize := ⟨by decide⟩

/-- The ten parameters of a message. -/
@[instance] theorem neZero_params : NeZero 10 := ⟨by decide⟩

@[instance] theorem neZero_nproc : NeZero nproc := ⟨by decide⟩

/-- A `struct proc *`, as the position in the process table. -/
abbrev ProcId := Fin nproc

inductive Fault where
  | outOfBounds (i : ℤ)
  | diverges
  | panic (text : String)
  deriving DecidableEq, Repr

/-- The value an `int` holds after an arithmetic operation on caller-supplied values. -/
def i32 (z : ℤ) : ℤ := z.bmod 4294967296

theorem i32_mod (z : ℤ) : i32 z % 4294967296 = z % 4294967296 := Int.bmod_emod

theorem i32_congr {a b : ℤ} : i32 a = i32 b ↔ a % 4294967296 = b % 4294967296 := by
  constructor
  · intro h
    rw [← i32_mod a, h, i32_mod]
  · intro h
    rw [i32, i32, ← Int.emod_bmod a, ← Int.emod_bmod b]
    exact congrArg (Int.bmod · 4294967296) h

/-- A translation wraps both ends of a distance alike. -/
theorem i32_translate (a b d : ℤ) : i32 (i32 (a + d) - i32 (b + d)) = i32 (a - b) := by
  have := i32_mod (a + d)
  have := i32_mod (b + d)
  rw [i32_congr]
  omega

/-- The message codes of msg.h; `other` is any code the header does not define. -/
inductive MsgType where
  | keyUp | keyDown
  | mouseMove | mouseDown | mouseUp | mouseLeftClick | mouseRightClick | mouseDblclick
  | windowClose | windowMinimize | windowMaximize
  | popupWindowOpen | popupWindowClose
  | other (code : ℤ)
  deriving DecidableEq, Repr

/-- A parameter is `none` while the local that holds the message has not assigned it. -/
structure Message where
  msgType : MsgType
  params : Fin 10 → Option ℤ
  deriving DecidableEq

/-- The drivers assign both parameters that a move carries. -/
def Message.param (m : Message) (i : Fin 10) : ℤ := (m.params i).getD 0

structure WinRect where
  xmin : ℤ
  xmax : ℤ
  ymin : ℤ
  ymax : ℤ
  deriving DecidableEq, Repr

structure MsgBuf where
  data : Fin msgBufSize → Message
  front : Fin msgBufSize
  rear : Fin msgBufSize
  cnt : ℤ

structure KernelWindow where
  position : WinRect
  windowBuf : ℕ
  msgBuf : MsgBuf
  title : Fin maxTitleLen → UInt8
  minimized : ℤ
  hasTitleBar : ℤ

structure WindowList where
  proc : ℤ → Option ProcId
  wnd : ℤ → KernelWindow
  next : ℤ → ℤ
  prev : ℤ → ℤ

structure PopupWindow where
  proc : Option ProcId
  wnd : KernelWindow
  caller : ℤ

structure Point where
  x : ℤ
  y : ℤ
  deriving DecidableEq, Repr

structure Wm where
  windowlist : WindowList
  windowlisthead : ℤ
  windowlisttail : ℤ
  desktopId : ℤ
  popupwindow : PopupWindow
  mouseShape : ℤ
  clickedOnTitle : Bool
  clickedOnContent : Bool
  clickedOnPopup : Bool
  wmMousePos : Point
  wmLastMousePos : Point

/-- The screen size read once at boot, two `ushort`s. -/
structure Screen where
  screenWidth : ℕ
  screenHeight : ℕ
  width_lt : screenWidth < 65536
  height_lt : screenHeight < 65536

/-- The fields of a user-level `struct window` that the kernel reads or writes. -/
structure Window where
  initialPosition : WinRect
  hasTitleBar : ℤ
  windowBuf : ℕ
  width : ℤ
  height : ℤ
  handler : ℤ
  deriving DecidableEq, Repr

def zeroMessage : Message := ⟨.other 0, fun _ => some 0⟩

def zeroWindow : KernelWindow :=
  ⟨⟨0, 0, 0, 0⟩, 0, ⟨fun _ => zeroMessage, 0, 0, 0⟩, fun _ => 0, 0, 0⟩

/-- The globals before `wmInit`: zeroed, except the initialised `desktopId`. -/
def boot : Wm where
  windowlist := ⟨fun _ => none, fun _ => zeroWindow, fun _ => 0, fun _ => 0⟩
  windowlisthead := 0
  windowlisttail := 0
  desktopId := -1
  popupwindow := ⟨none, zeroWindow, 0⟩
  mouseShape := 0
  clickedOnTitle := false
  clickedOnContent := false
  clickedOnPopup := false
  wmMousePos := ⟨0, 0⟩
  wmLastMousePos := ⟨0, 0⟩

def InBounds (i : ℤ) : Prop := 0 ≤ i ∧ i < maxWindowCnt

instance (i : ℤ) : Decidable (InBounds i) :=
  inferInstanceAs (Decidable (_ ∧ _))

/-- An access to `windowlist[i]`. -/
def index (i : ℤ) : Except Fault ℤ :=
  if InBounds i then .ok i else .error (.outOfBounds i)

theorem index_ok {i : ℤ} (h : InBounds i) : index i = .ok i := if_pos h

theorem index_eq_ok {i j : ℤ} : index i = .ok j ↔ InBounds i ∧ j = i := by
  simp only [index]
  split <;> simp_all [eq_comm]

theorem not_inBounds_neg : ¬InBounds (-1) := by decide

theorem InBounds.ne_neg {i : ℤ} (h : InBounds i) : i ≠ -1 := by
  rintro rfl; exact not_inBounds_neg h

/-- The slot numbers in the order in which the code's loops visit them. -/
def slots : List ℤ := (List.range maxWindowCnt).map fun i : ℕ => (i : ℤ)

theorem mem_slots {i : ℤ} : i ∈ slots ↔ InBounds i := by
  simp only [slots, List.mem_map, List.mem_range, InBounds]
  constructor
  · rintro ⟨n, hn, rfl⟩; omega
  · rintro ⟨h0, h1⟩; exact ⟨i.toNat, by omega, Int.toNat_of_nonneg h0⟩

/-- The step faults on an index outside the array. -/
def OutOfBounds {β : Type*} : Except Fault β → Prop
  | .error (.outOfBounds _) => True
  | _ => False

end WindowManagerState
