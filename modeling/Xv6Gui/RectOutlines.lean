import Xv6Gui.RowMajor
import Xv6Gui.WindowManagerState

/-!
# The outline of a rectangle

drawRect of user_gui.c: four loops that store a colour through a pointer into the buffer of the
window, each behind its own clipping tests. The indices and sums are ints and wrap around.
-/
namespace RectOutlines

open WindowManagerState

/-- gui.h: 24 bit RGB. -/
structure RGB where
  B : UInt8
  G : UInt8
  R : UInt8
  deriving DecidableEq, Repr

/-- A pointer to `RGB`, moved by a number of pixels. -/
def advance (p n : ℤ) : ℤ := (p + 3 * n) % 4294967296

/-- One store of `drawRect`, with the row and the column that the loop is at. -/
structure Store where
  row : ℤ
  col : ℤ
  address : ℤ
  color : RGB
  deriving DecidableEq, Repr

/-- The loop over one edge, which skips the places that fail its test. -/
def drawEdge (n : ℤ) (test : ℤ → Prop) [DecidablePred test] (store : ℤ → Store) : List Store :=
  ((List.range n.toNat).filter fun i : ℕ => test i).map fun i : ℕ => store i

/-- `&win->window_buf[y * screen_width + x]` -/
def corner (win : Window) (x y : ℤ) : ℤ := advance (advance win.windowBuf (i32 (y * win.width))) x

def topEdge (win : Window) (color : RGB) (x y width : ℤ) : List Store :=
  if y ≥ 0 then
    drawEdge width (fun i => i32 (x + i) ≥ 0 ∧ i32 (x + i) < win.width) fun i =>
      ⟨y, x + i, advance (corner win x y) i, color⟩
  else []

def bottomEdge (win : Window) (color : RGB) (x y width height : ℤ) : List Store :=
  if i32 (y + height) ≤ win.height then
    let o := advance (corner win x y) (i32 (height * win.width))
    drawEdge width (fun i => y ≥ 0 ∧ i32 (x + i) > 0 ∧ i32 (x + i) < win.width) fun i =>
      ⟨y + height, x + i, advance o i, color⟩
  else []

def leftEdge (win : Window) (color : RGB) (x y height : ℤ) : List Store :=
  if x ≥ 0 then
    drawEdge height (fun i => i32 (y + i) ≥ 0 ∧ i32 (y + i) < win.height) fun i =>
      ⟨y + i, x, advance (corner win x y) (i32 (i * win.width)), color⟩
  else []

def rightEdge (win : Window) (color : RGB) (x y width height : ℤ) : List Store :=
  if i32 (x + width) ≤ win.width then
    let o := advance (corner win x y) width
    drawEdge height (fun i => i32 (y + i) ≥ 0 ∧ i32 (y + i) < win.height) fun i =>
      ⟨y + i, x + width, advance o (i32 (i * win.width)), color⟩
  else []

/-- The test at the head of `drawRect`, under which it draws nothing. -/
def Outside (win : Window) (x y width height : ℤ) : Prop :=
  x ≥ win.width ∨ i32 (x + width) < 0 ∨ y ≥ win.height ∨ i32 (y + height) < 0 ∨ width < 0 ∨
    height < 0

instance (win : Window) (x y width height : ℤ) : Decidable (Outside win x y width height) :=
  inferInstanceAs (Decidable (_ ∨ _))

/-- The stores of `drawRect`, in order. -/
def drawRect (win : Window) (color : RGB) (x y width height : ℤ) : List Store :=
  if Outside win x y width height then []
  else topEdge win color x y width ++ bottomEdge win color x y width height ++
    leftEdge win color x y height ++ rightEdge win color x y width height

/-- The store goes to a pixel of the window's buffer, in the row and the column it is for. -/
def InPlace (win : Window) (s : Store) : Prop :=
  ∃ k : ℤ, 0 ≤ k ∧ k < win.width * win.height ∧ s.address = advance win.windowBuf k ∧
    k / win.width = s.row ∧ k % win.width = s.col

/-- A value of type int. -/
def IsInt (z : ℤ) : Prop := -2147483648 ≤ z ∧ z < 2147483648

instance (z : ℤ) : Decidable (IsInt z) := inferInstanceAs (Decidable (_ ∧ _))

structure AreInts (win : Window) (x y width height : ℤ) : Prop where
  window_width : IsInt win.width
  window_height : IsInt win.height
  x : IsInt x
  y : IsInt y
  width : IsInt width
  height : IsInt height

/-- The rectangle ends at the bottom of the window, with a column of the edge inside. -/
def EndsAtBottom (win : Window) (x y width height : ℤ) : Prop :=
  0 ≤ y ∧ y + height = win.height ∧ ∃ i, 0 ≤ i ∧ i < width ∧ 0 < x + i ∧ x + i < win.width

/-- The rectangle ends at the right side of the window, with a row of the edge inside. -/
def EndsAtRight (win : Window) (x y width height : ℤ) : Prop :=
  x + width = win.width ∧ ∃ i, 0 ≤ i ∧ i < height ∧ 0 ≤ y + i ∧ y + i < win.height

section Pointers

theorem advance_congr {p a b : ℤ} (h : a % 4294967296 = b % 4294967296) :
    advance p a = advance p b := by
  unfold advance
  omega

theorem advance_advance (p a b : ℤ) : advance (advance p a) b = advance p (a + b) := by
  unfold advance
  omega

/-- A product that wraps around moves the pointer to the same place. -/
theorem advance_i32 (p a : ℤ) : advance p (i32 a) = advance p a := advance_congr (i32_mod a)

theorem corner_eq (win : Window) (x y : ℤ) :
    corner win x y = advance win.windowBuf (y * win.width + x) := by
  rw [corner, advance_i32, advance_advance]

end Pointers

theorem mem_drawEdge {n : ℤ} {test : ℤ → Prop} [DecidablePred test] {store : ℤ → Store}
    {s : Store} : s ∈ drawEdge n test store ↔ ∃ i, 0 ≤ i ∧ i < n ∧ test i ∧ s = store i := by
  simp only [drawEdge, List.mem_map, List.mem_filter, List.mem_range, decide_eq_true_eq]
  constructor
  · rintro ⟨i, ⟨hi, ht⟩, rfl⟩
    exact ⟨i, by omega, by omega, ht, rfl⟩
  · rintro ⟨i, h0, hi, ht, rfl⟩
    obtain ⟨k, rfl⟩ := Int.eq_ofNat_of_zero_le h0
    exact ⟨k, ⟨by omega, ht⟩, rfl⟩

/-- The store is addressed at its own row and column, inside the window or not. -/
def Addressed (win : Window) (s : Store) : Prop :=
  s.address = advance win.windowBuf (s.row * win.width + s.col)

theorem inPlace_iff {win : Window} {s : Store} (hw : 0 ≤ win.width) (h : Addressed win s) :
    InPlace win s ↔ 0 ≤ s.row ∧ s.row < win.height ∧ 0 ≤ s.col ∧ s.col < win.width := by
  constructor
  · rintro ⟨k, h0, hk, -, hr, hc⟩
    obtain ⟨hrow, hcol⟩ := RowMajor.cell_of_index hw h0 hk
    rw [hr] at hrow
    rw [hc] at hcol
    exact ⟨hrow.1, hrow.2, hcol⟩
  · rintro ⟨hr0, hr, hc0, hc⟩
    exact ⟨s.row * win.width + s.col, RowMajor.index_nonneg hw hr0 hc0, RowMajor.index_lt hw hr hc,
      h, RowMajor.row_of_index hc0 hc, RowMajor.col_of_index hc0 hc⟩

theorem i32_of_isInt {z : ℤ} (h : IsInt z) : i32 z = z :=
  Int.bmod_eq_of_le h.1 h.2

/-- A sum of ints whose wrapped value is not negative has not wrapped. -/
theorem isInt_add {a b : ℤ} (ha : IsInt a) (hb : IsInt b) (h0 : 0 ≤ b) (h : 0 ≤ i32 (a + b)) :
    IsInt (a + b) := by
  have hlt : i32 (a + b) < 2147483648 := Int.bmod_lt (by decide)
  have hmod := i32_mod (a + b)
  unfold IsInt at *
  omega

theorem isInt_between {a b i : ℤ} (ha : IsInt a) (hb : IsInt (a + b)) (h0 : 0 ≤ i) (h : i < b) :
    IsInt (a + i) := by
  unfold IsInt at *
  omega

/-- What the test at the head leaves to draw. -/
structure Drawn (win : Window) (x y width height : ℤ) : Prop where
  x_lt : x < win.width
  y_lt : y < win.height
  right_nonneg : 0 ≤ x + width
  bottom_nonneg : 0 ≤ y + height
  right : IsInt (x + width)
  bottom : IsInt (y + height)
  column {i : ℤ} : 0 ≤ i → i < width → i32 (x + i) = x + i
  row {i : ℤ} : 0 ≤ i → i < height → i32 (y + i) = y + i

section Edges

variable {win : Window} {color : RGB} {x y width height : ℤ} {s : Store}

theorem drawn (h : AreInts win x y width height) (ho : ¬ Outside win x y width height) :
    Drawn win x y width height := by
  simp only [Outside, not_or, not_lt, ge_iff_le, not_le] at ho
  obtain ⟨hx, hxw, hy, hyh, hw, hh⟩ := ho
  have hr := isInt_add h.x h.width hw hxw
  have hb := isInt_add h.y h.height hh hyh
  rw [i32_of_isInt hr] at hxw
  rw [i32_of_isInt hb] at hyh
  exact ⟨hx, hy, hxw, hyh, hr, hb, fun h0 hi => i32_of_isInt (isInt_between h.x hr h0 hi),
    fun h0 hi => i32_of_isInt (isInt_between h.y hb h0 hi)⟩

theorem mem_edge {p : Prop} [Decidable p] {n : ℤ} {test good : ℤ → Prop} [DecidablePred test]
    {store : ℤ → Store} (htest : ∀ i, 0 ≤ i → i < n → (test i ↔ good i)) :
    s ∈ (if p then drawEdge n test store else []) ↔
      p ∧ ∃ i, 0 ≤ i ∧ i < n ∧ good i ∧ s = store i := by
  split
  case isTrue hp =>
    rw [mem_drawEdge, and_iff_right hp]
    exact exists_congr fun i => and_congr_right fun h0 => and_congr_right fun hi =>
      and_congr_left' (htest i h0 hi)
  case isFalse hp => exact iff_of_false List.not_mem_nil fun hs => hp hs.1

theorem mem_topEdge (h : Drawn win x y width height) : s ∈ topEdge win color x y width ↔
    0 ≤ y ∧ ∃ i, 0 ≤ i ∧ i < width ∧ (0 ≤ x + i ∧ x + i < win.width) ∧
      s = ⟨y, x + i, advance (corner win x y) i, color⟩ :=
  mem_edge fun i h0 hi => by rw [h.column h0 hi]

theorem mem_bottomEdge (h : Drawn win x y width height) :
    s ∈ bottomEdge win color x y width height ↔
      y + height ≤ win.height ∧ ∃ i, 0 ≤ i ∧ i < width ∧
        (0 ≤ y ∧ 0 < x + i ∧ x + i < win.width) ∧
        s = ⟨y + height, x + i,
          advance (advance (corner win x y) (i32 (height * win.width))) i, color⟩ := by
  rw [bottomEdge, i32_of_isInt h.bottom]
  exact mem_edge fun i h0 hi => by rw [h.column h0 hi]

theorem mem_leftEdge (h : Drawn win x y width height) : s ∈ leftEdge win color x y height ↔
    0 ≤ x ∧ ∃ i, 0 ≤ i ∧ i < height ∧ (0 ≤ y + i ∧ y + i < win.height) ∧
      s = ⟨y + i, x, advance (corner win x y) (i32 (i * win.width)), color⟩ :=
  mem_edge fun i h0 hi => by rw [h.row h0 hi]

theorem mem_rightEdge (h : Drawn win x y width height) :
    s ∈ rightEdge win color x y width height ↔
      x + width ≤ win.width ∧ ∃ i, 0 ≤ i ∧ i < height ∧ (0 ≤ y + i ∧ y + i < win.height) ∧
        s = ⟨y + i, x + width,
          advance (advance (corner win x y) width) (i32 (i * win.width)), color⟩ := by
  rw [rightEdge, i32_of_isInt h.right]
  exact mem_edge fun i h0 hi => by rw [h.row h0 hi]

theorem mem_drawRect (ho : ¬ Outside win x y width height) :
    s ∈ drawRect win color x y width height ↔
      s ∈ topEdge win color x y width ∨ s ∈ bottomEdge win color x y width height ∨
        s ∈ leftEdge win color x y height ∨ s ∈ rightEdge win color x y width height := by
  rw [drawRect, if_neg ho, List.mem_append, List.mem_append, List.mem_append, or_assoc, or_assoc]

/-- Every store has the address of its row and column, whichever products wrap around. -/
theorem addressed (h : Drawn win x y width height) (ho : ¬ Outside win x y width height)
    (hs : s ∈ drawRect win color x y width height) : Addressed win s := by
  unfold Addressed
  rcases (mem_drawRect ho).mp hs with ht | hb | hl | hr
  · obtain ⟨-, i, -, -, -, rfl⟩ := (mem_topEdge h).mp ht
    rw [corner_eq, advance_advance, Int.add_assoc]
  · obtain ⟨-, i, -, -, -, rfl⟩ := (mem_bottomEdge h).mp hb
    rw [corner_eq, advance_i32, advance_advance, advance_advance, Int.add_mul]
    apply congrArg (advance _)
    dsimp only
    omega
  · obtain ⟨-, i, -, -, -, rfl⟩ := (mem_leftEdge h).mp hl
    rw [corner_eq, advance_i32, advance_advance, Int.add_mul]
    apply congrArg (advance _)
    dsimp only
    omega
  · obtain ⟨-, i, -, -, -, rfl⟩ := (mem_rightEdge h).mp hr
    rw [corner_eq, advance_i32, advance_advance, advance_advance, Int.add_mul]
    apply congrArg (advance _)
    dsimp only
    omega

/-- A store leaves the window only below it or to its right, by one row or column. -/
theorem store_place (h : Drawn win x y width height) (ho : ¬ Outside win x y width height)
    (hs : s ∈ drawRect win color x y width height) :
    0 ≤ s.row ∧ 0 ≤ s.col ∧ ((s.row < win.height ∧ s.col < win.width) ∨
      EndsAtBottom win x y width height ∨ EndsAtRight win x y width height) := by
  rcases (mem_drawRect ho).mp hs with ht | hb | hl | hr
  · obtain ⟨hy, i, -, -, hi, rfl⟩ := (mem_topEdge h).mp ht
    exact ⟨hy, hi.1, .inl ⟨h.y_lt, hi.2⟩⟩
  · obtain ⟨hyh, i, h0, hi, ⟨hy, hx0, hx⟩, rfl⟩ := (mem_bottomEdge h).mp hb
    refine ⟨h.bottom_nonneg, hx0.le, ?_⟩
    obtain hlt | heq := hyh.lt_or_eq
    · exact .inl ⟨hlt, hx⟩
    · exact .inr (.inl ⟨hy, heq, i, h0, hi, hx0, hx⟩)
  · obtain ⟨hx, i, -, -, hi, rfl⟩ := (mem_leftEdge h).mp hl
    exact ⟨hi.1, hx, .inl ⟨hi.2, h.x_lt⟩⟩
  · obtain ⟨hxw, i, h0, hi, ⟨hy0, hy⟩, rfl⟩ := (mem_rightEdge h).mp hr
    refine ⟨hy0, h.right_nonneg, ?_⟩
    obtain hlt | heq := hxw.lt_or_eq
    · exact .inl ⟨hy, hlt⟩
    · exact .inr (.inr ⟨heq, i, h0, hi, hy0, hy⟩)

/-- The bottom edge of a rectangle that ends at the bottom is one row below the window. -/
theorem EndsAtBottom.store (color : RGB) (he : EndsAtBottom win x y width height)
    (h : Drawn win x y width height) (ho : ¬ Outside win x y width height) :
    ∃ s ∈ drawRect win color x y width height, s.row = win.height ∧ 0 ≤ win.width := by
  obtain ⟨hy, hyh, i, h0, hi, hx0, hx⟩ := he
  refine ⟨_, (mem_drawRect ho).mpr (.inr (.inl ((mem_bottomEdge h).mpr
    ⟨hyh.le, i, h0, hi, ⟨hy, hx0, hx⟩, rfl⟩))), hyh, ?_⟩
  omega

theorem EndsAtRight.store (color : RGB) (he : EndsAtRight win x y width height)
    (h : Drawn win x y width height) (ho : ¬ Outside win x y width height) :
    ∃ s ∈ drawRect win color x y width height, s.col = win.width ∧ 0 ≤ win.width := by
  obtain ⟨hxw, i, h0, hi, hy⟩ := he
  exact ⟨_, (mem_drawRect ho).mpr (.inr (.inr (.inr ((mem_rightEdge h).mpr
    ⟨hxw.le, i, h0, hi, hy, rfl⟩)))), hxw, hxw ▸ h.right_nonneg⟩

/-- The outline stays in the window, in its own rows and columns, exactly when the rectangle
is not drawn at all or does not end at the bottom or the right side of the window. -/
theorem outline_in_place_iff (win : Window) (color : RGB) (x y width height : ℤ)
    (h : AreInts win x y width height) :
    (∀ s ∈ drawRect win color x y width height, InPlace win s) ↔
      (Outside win x y width height ∨
        ¬ EndsAtBottom win x y width height ∧ ¬ EndsAtRight win x y width height) := by
  by_cases ho : Outside win x y width height
  case pos =>
    refine iff_of_true ?_ (.inl ho)
    intro s hs
    rw [drawRect, if_pos ho] at hs
    cases hs
  case neg =>
    have hd := drawn h ho
    rw [or_iff_right ho]
    constructor
    · intro hall
      constructor
      · intro he
        obtain ⟨s, hs, hrow, hw⟩ := he.store color hd ho
        have := ((inPlace_iff hw (addressed hd ho hs)).mp (hall s hs)).2.1
        omega
      · intro he
        obtain ⟨s, hs, hcol, hw⟩ := he.store color hd ho
        have := ((inPlace_iff hw (addressed hd ho hs)).mp (hall s hs)).2.2.2
        omega
    · rintro ⟨hb, hr⟩ s hs
      obtain ⟨hrow, hcol, ⟨hlt, hclt⟩ | he | he⟩ := store_place hd ho hs
      · exact (inPlace_iff (by omega) (addressed hd ho hs)).mpr ⟨hrow, hlt, hcol, hclt⟩
      · exact absurd he hb
      · exact absurd he hr

end Edges

/-- The desktop's window. -/
def desktopWindow : Window := ⟨⟨0, 0, 800, 600⟩, 0, 65536, 800, 600, 0⟩

theorem outline_in_place_button :
    AreInts desktopWindow 20 20 80 30 ∧
      ∀ s ∈ drawRect desktopWindow ⟨0, 0, 0⟩ 20 20 80 30, InPlace desktopWindow s := by
  have h : AreInts desktopWindow 20 20 80 30 := by constructor <;> decide
  refine ⟨h, (outline_in_place_iff desktopWindow ⟨0, 0, 0⟩ 20 20 80 30 h).mpr (.inr ⟨?_, ?_⟩)⟩
  · intro he
    exact absurd he.2.1 (by decide)
  · intro he
    exact absurd he.1 (by decide)

/-- The start button of the desktop touches the bottom of the screen, and the lower edge of its
outline is stored behind the buffer. -/
theorem start_button_below_window :
    ¬ ∀ (win : Window) (color : RGB) (x y width height : ℤ), AreInts win x y width height →
      ∀ s ∈ drawRect win color x y width height, InPlace win s := by
  intro hall
  have h : AreInts desktopWindow 5 564 72 36 := by constructor <;> decide
  have ho : ¬ Outside desktopWindow 5 564 72 36 := by decide
  have he : EndsAtBottom desktopWindow 5 564 72 36 := ⟨by decide, by decide, 0, by decide⟩
  obtain ⟨s, hs, hrow, -⟩ := he.store ⟨0, 0, 0⟩ (drawn h ho) ho
  obtain ⟨k, -, hk, -, hkr, -⟩ := hall desktopWindow ⟨0, 0, 0⟩ 5 564 72 36 h s hs
  rw [hrow] at hkr
  change k / 800 = 600 at hkr
  change k < 480000 at hk
  omega

end RectOutlines
