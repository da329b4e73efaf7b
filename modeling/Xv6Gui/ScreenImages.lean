import Xv6Gui.ImageCopies

/-!
# Windows on the screen

draw24ImagePart of gui.c, as drawWindow calls it for the whole buffer of a window.
-/
namespace ScreenImages

open WindowManagerState RectOutlines PixelBuffers ByteCopies BreakLoops ImageCopies

/-- `x < 0 ? -x : 0` -/
def minj (x : ℤ) : ℤ := if x < 0 then i32 (-x) else 0

/-- `x + subw > SCREEN_WIDTH ? SCREEN_WIDTH - x : subw` -/
def maxj (screen : ScreenBuffer) (x subw : ℤ) : ℤ :=
  if i32 (x + subw) > screen.width then i32 (screen.width - x) else subw

/-- The copies of `draw24ImagePart`, in order. -/
def draw24ImagePart (screen : ScreenBuffer) (img x y width _height subx suby subw subh : ℤ) :
    List Copy :=
  if x ≥ screen.width ∨ y ≥ screen.height then []
  else if minj x ≥ maxj screen x subw then []
  else
    forLoop subh fun i =>
      if i32 (y + i) < 0 then .next
      else if i32 (y + i) ≥ screen.height then .stop
      else .emit <| Kernel.memmove
        (advance (screen.pointer (i32 (y + i)) (minj x)) x)
        (advance (advance (advance img (i32 (i32 (i + suby) * width))) subx) (minj x))
        (i32 (i32 (maxj screen x subw - minj x) * 3))

/-- The part of the screen that the window's rectangle covers. -/
def Covered (screen : ScreenBuffer) (img : Raster) (x y r c : ℤ) : Prop :=
  screen.Contains r c ∧ img.Contains (r - y) (c - x)

/-- The pixel of the window that is shown there. -/
def sourceOf (x y r c : ℤ) : ℤ × ℤ := (r - y, c - x)

/-- `draw24ImagePart` in `drawWindow`. -/
def drawContent (screen : ScreenBuffer) (win : Raster) (x y : ℤ) : List Copy :=
  draw24ImagePart screen win.base x y win.width win.height 0 0 win.width win.height

/-- Some row of the window is on the screen. -/
def RowVisible (screen : ScreenBuffer) (win : Raster) (y : ℤ) : Prop :=
  max 0 y < min screen.height (y + win.height)

instance (screen : ScreenBuffer) (win : Raster) (y : ℤ) : Decidable (RowVisible screen win y) :=
  inferInstanceAs (Decidable (_ < _))

section Rows

variable {screen : ScreenBuffer} {win : Raster} {x y : ℤ}

/-- Nothing is copied when the window starts behind the screen or has no column on it. -/
def Skipped (screen : ScreenBuffer) (win : Raster) (x y : ℤ) : Prop :=
  (x ≥ screen.width ∨ y ≥ screen.height) ∨ minj x ≥ maxj screen x win.width

theorem mem_drawContent (hy : IsInt y) {cp : Copy} :
    cp ∈ drawContent screen win x y ↔
      ¬ Skipped screen win x y ∧ ∃ i : ℕ, (i : ℤ) < win.height ∧
        (0 ≤ y + i ∧ y + i ≤ screen.height - 1) ∧
        cp ∈ Kernel.memmove (screen.address (y + i) (minj x + x)) (win.address i (minj x))
          (i32 (i32 (maxj screen x win.width - minj x) * 3)) := by
  unfold drawContent draw24ImagePart Skipped
  split
  case isTrue h => exact iff_of_false List.not_mem_nil fun hs => hs.1 (.inl h)
  case isFalse h =>
    split
    case isTrue h' => exact iff_of_false List.not_mem_nil fun hs => hs.1 (.inr h')
    case isFalse h' =>
      rw [and_iff_right (not_or.mpr ⟨h, h'⟩)]
      simp only [lt_clip screen.height_nonneg]
      rw [mem_clippedLoop_i32 hy win.height_int]
      case hl =>
        have := screen.height_nonneg
        have := screen.height_int
        unfold IsInt at *
        omega
      refine exists_congr fun i => and_congr_right fun hi => and_congr_right fun hyi => ?_
      have hsrc : advance (advance (advance win.base (i32 (i32 (i + 0) * win.width))) 0) (minj x) =
          win.address i (minj x) := by
        rw [Raster.address, Int.add_zero, advance_row (i32_mod i), advance_advance,
          advance_advance, Int.zero_add]
      rw [Raster.pointer_i32, Raster.advance_address, hsrc]

theorem minj_eq (hx : IsInt x) (hne : x ≠ -2147483648) : minj x = max 0 (-x) := by
  unfold minj
  split
  case isTrue h =>
    unfold IsInt at hx
    rw [i32_of_isInt (by unfold IsInt; omega)]
    omega
  case isFalse h => omega

theorem maxj_eq (hx : IsInt x) (hlt : x < screen.width) (hw : win.width ≤ 1431655765) :
    maxj screen x win.width = min (screen.width - x) win.width := by
  have hs := screen.width_ushort
  have hs0 := screen.width_nonneg
  have hw0 := win.width_nonneg
  unfold IsInt at hx
  rw [maxj, i32_of_isInt (by unfold IsInt; omega)]
  split
  case isTrue h =>
    rw [i32_of_isInt (by unfold IsInt; omega)]
    omega
  case isFalse h => omega

theorem rowBytes_eq {m : ℤ} (h0 : 0 ≤ m) (hm : m < 65536) :
    i32 (i32 m * 3) % 4294967296 = 3 * m := by
  have hi : i32 m = m := i32_of_isInt (by unfold IsInt; omega)
  rw [hi, i32_of_isInt (by unfold IsInt; omega)]
  omega

theorem width_le (win : Raster) (h : 0 < win.height) : win.width ≤ 1431655765 := by
  have hle := Raster.width_le_size h
  have hb := win.base_nonneg
  have hf := win.fits
  omega

/-- Nothing is copied, and nothing is to be drawn. -/
theorem draws_nothing (hy : IsInt y) (hd : screen.Disjoint win)
    (hA : ∀ r c, ¬ Covered screen win x y r c)
    (h : RowVisible screen win y → Skipped screen win x y) :
    Draws screen.toRaster win (Covered screen win x y) (sourceOf x y)
      (drawContent screen win x y) := by
  refine draws_of_none hd hA ?_
  intro cp hcp
  obtain ⟨hs, i, hi, hyi, -⟩ := (mem_drawContent hy).mp hcp
  exact hs (h (by unfold RowVisible; omega))

/-- The columns from minj on, up to maxj, of each row that is on the screen. -/
theorem draws_rows (hy : IsInt y) (hd : screen.Disjoint win) (hs : ¬ Skipped screen win x y)
    (hmin : minj x = max 0 (-x))
    (hmax : maxj screen x win.width = min (screen.width - x) win.width) :
    Draws screen.toRaster win (Covered screen win x y) (sourceOf x y)
      (drawContent screen win x y) := by
  have hlt : max 0 (-x) < min (screen.width - x) win.width := by
    unfold Skipped at hs
    omega
  have hus := screen.width_ushort
  have hA : ∀ r c, Covered screen win x y r c ↔
      (max 0 y ≤ r ∧ r < min screen.height (y + win.height)) ∧ minj x + x ≤ c ∧
        c < minj x + x + (maxj screen x win.width - minj x) := by
    intro r c
    unfold Covered Raster.Contains
    omega
  have hsource : ∀ i j : ℤ, sourceOf x y (y + i) (minj x + x + j) = (i, minj x + j) := by
    intro i j
    rw [sourceOf, show y + i - y = i by omega, show minj x + x + j - x = minj x + j by omega]
  refine draws_of_rows hd hA (fun r c h => h) hsource ?_
  intro cp
  rw [mem_drawContent hy, and_iff_right hs]
  refine exists_congr fun i => and_congr_right fun _ => and_congr_right fun _ => ?_
  rw [Kernel.mem_memmove, rowBytes_eq (by omega) (by omega)]

/-- The count of bytes that a width then leads to. -/
theorem wrapped_count_pos {w : ℤ} (h0 : 0 ≤ w) (h : w < 2147483648) :
    0 < i32 (i32 (w - -2147483648) * 3) % 4294967296 := by
  have hi : i32 (w - -2147483648) = w - 2147483648 := by
    obtain ⟨q, hq⟩ := i32_spec (w - -2147483648)
    omega
  rw [hi, i32_mod]
  obtain hq | hq : (w - 2147483648) * 3 / 4294967296 = -1 ∨
      (w - 2147483648) * 3 / 4294967296 = -2 := by omega
  · omega
  · omega

/-- At the least int minj is negative, and the rows that are on the screen are copied. -/
theorem copies_at_int_min (hx : x = -2147483648) (hy : IsInt y) (hv : RowVisible screen win y) :
    ∃ cp, cp ∈ drawContent screen win x y := by
  have hw := win.width_int
  have hw0 := win.width_nonneg
  have hs0 := screen.width_nonneg
  have hmin : minj x = -2147483648 := by
    rw [hx]
    rfl
  unfold IsInt at hw
  have hmax : maxj screen x win.width = win.width := by
    rw [maxj, i32_of_isInt (by unfold IsInt; omega), if_neg (by omega)]
  obtain ⟨i, hi, hyi, hlt⟩ := exists_first_place hv
  have hs : ¬ Skipped screen win x y := by
    unfold Skipped
    omega
  have hpos : 0 < i32 (i32 (maxj screen x win.width - minj x) * 3) % 4294967296 := by
    rw [hmin, hmax]
    exact wrapped_count_pos hw0 hw.2
  exact ⟨_, (mem_drawContent hy).mpr ⟨hs, i, by omega, by omega,
    Kernel.mem_memmove.mpr ⟨0, hpos, rfl⟩⟩⟩

theorem not_covered_at_int_min (hx : x = -2147483648) {r c : ℤ} :
    ¬ Covered screen win x y r c := by
  have hw := win.width_int
  unfold Covered Raster.Contains
  unfold IsInt at hw
  omega

end Rows

/-- The whole buffer of a window is shown where its rectangle meets the screen and nowhere else,
unless a row of it is on the screen and the position has no opposite among the ints. -/
theorem content_drawn_iff (screen : ScreenBuffer) (win : Raster) (x y : ℤ) (hx : IsInt x)
    (hy : IsInt y) (hd : screen.Disjoint win) :
    Draws screen.toRaster win (Covered screen win x y) (sourceOf x y)
        (drawContent screen win x y) ↔
      ¬ (RowVisible screen win y ∧ x = -2147483648) := by
  constructor
  · rintro h ⟨hv, hmin⟩
    obtain ⟨cp, hcp⟩ := copies_at_int_min hmin hy hv
    obtain ⟨r, c, k, hc, -⟩ := h.area_of_mem hd hcp
    exact not_covered_at_int_min hmin hc
  · intro hno
    by_cases hv : RowVisible screen win y
    case neg =>
      refine draws_nothing hy hd ?_ fun h => absurd h hv
      intro r c hc
      unfold Covered Raster.Contains at hc
      exact hv (by unfold RowVisible; omega)
    have hne : x ≠ -2147483648 := fun he => hno ⟨hv, he⟩
    have hw := width_le win (by unfold RowVisible at hv; omega)
    have hmin := minj_eq hx hne
    by_cases hs : Skipped screen win x y
    case neg =>
      have hlt : x < screen.width := by
        unfold Skipped at hs
        omega
      exact draws_rows hy hd hs hmin (maxj_eq hx hlt hw)
    refine draws_nothing hy hd ?_ fun _ => hs
    intro r c hc
    unfold Covered Raster.Contains at hc
    have hlt : x < screen.width := by omega
    have hmax := maxj_eq hx hlt hw
    unfold Skipped at hs
    omega

theorem screenBuf_sized : Sized 4244635648 800 600 := by decide

theorem screenBuf_width : (800 : ℤ) < 65536 := by decide

theorem screenBuf_height : (600 : ℤ) < 65536 := by decide

theorem smallWindow_sized : Sized 4096 4 3 := by decide

/-- A screen of 800 by 600 pixels, at the address of the frame buffer. -/
def screenBuf : ScreenBuffer :=
  ⟨.ofSizes 4244635648 800 600 screenBuf_sized, screenBuf_width, screenBuf_height⟩

/-- A window of four columns and three rows, in the memory of its process. -/
def smallWindow : Raster := .ofSizes 4096 4 3 smallWindow_sized

theorem screen_disjoint : screenBuf.Disjoint smallWindow := by
  intro a hs hw
  change 4244635648 ≤ a ∧ a < 4246075648 at hs
  change 4096 ≤ a ∧ a < 4132 at hw
  omega

/-- A window that hangs over the lower left corner. -/
theorem content_drawn_at_corner :
    (IsInt (-2) ∧ IsInt 598) ∧
      Draws screenBuf.toRaster smallWindow (Covered screenBuf smallWindow (-2) 598)
        (sourceOf (-2) 598) (drawContent screenBuf smallWindow (-2) 598) := by
  have hx : IsInt (-2) := by decide
  have hy : IsInt 598 := by decide
  refine ⟨⟨hx, hy⟩, (content_drawn_iff screenBuf smallWindow (-2) 598 hx hy screen_disjoint).mpr ?_⟩
  rintro ⟨-, he⟩
  exact absurd he (by decide)

/-- At the least int the rows of a window that is nowhere near the screen are copied. -/
theorem content_at_int_min :
    ¬ ∀ (screen : ScreenBuffer) (win : Raster) (x y : ℤ), IsInt x → IsInt y → screen.Disjoint win →
      Draws screen.toRaster win (Covered screen win x y) (sourceOf x y)
        (drawContent screen win x y) := by
  intro hall
  have hmem : ∃ cp, cp ∈ drawContent screenBuf smallWindow (-2147483648) 0 :=
    copies_at_int_min rfl (by decide) (by decide)
  obtain ⟨cp, hcp⟩ := hmem
  have h := hall screenBuf smallWindow (-2147483648) 0 (by decide) (by decide) screen_disjoint
  obtain ⟨r, c, k, hc, -⟩ := h.area_of_mem screen_disjoint hcp
  exact not_covered_at_int_min rfl hc

end ScreenImages
