import Xv6Gui.ImageCopies

/-!
# Images in a window

draw24Image of user_gui.c, which cuts the rows to the window one by one and the columns once, on
the right. The image is stored with its last row first.
-/
namespace WindowImages

open WindowManagerState RectOutlines PixelBuffers ByteCopies BreakLoops ImageCopies

/-- `(win->width - x) < width ? (win->width - x) : width` -/
def maxLine (win : Raster) (x width : ℤ) : ℤ :=
  if i32 (win.width - x) < width then i32 (win.width - x) else width

/-- The copies of `draw24Image`, in order. -/
def draw24Image (win : Raster) (img x y width height : ℤ) : List Copy :=
  forLoop height fun i =>
    if i32 (y + i) ≥ win.height then .stop
    else if i32 (y + i) < 0 then .next
    else .emit <| User.memmove (win.pointer (i32 (y + i)) x)
      (advance img (i32 (i32 (i32 (height - i) - 1) * width))) (i32 (maxLine win x width * 3))

/-- The buffer lies in the memory of a process, below KERNBASE. -/
def InUserSpace (b : Raster) : Prop := b.base + 3 * (b.width * b.height) ≤ 2147483648

instance (b : Raster) : Decidable (InUserSpace b) := inferInstanceAs (Decidable (_ ≤ _))

/-- The part of the window that the image covers. -/
def Covered (win img : Raster) (x y r c : ℤ) : Prop :=
  (max 0 y ≤ r ∧ r < min win.height (y + img.height)) ∧
    max 0 x ≤ c ∧ c < min win.width (x + img.width)

/-- The pixel of the image that is drawn there. -/
def sourceOf (img : Raster) (x y r c : ℤ) : ℤ × ℤ := (img.height - 1 - (r - y), c - x)

/-- Some row of the image is in the window. -/
def RowVisible (win img : Raster) (y : ℤ) : Prop := max 0 y < min win.height (y + img.height)

/-- The image starts to the left of the window. -/
def StartsLeft (win img : Raster) (x : ℤ) : Prop :=
  x < 0 ∧ 0 < img.width ∧ win.width - x ≤ 2147483647

/-- The image is so far to the right that three times the distance is no longer an int. -/
def FarRight (win : Raster) (x : ℤ) : Prop :=
  715827883 ≤ x - win.width ∧ x - win.width ≤ 1431655765

section Rows

variable {win img : Raster} {x y : ℤ}

theorem width_le (h : InUserSpace img) (hh : 0 < img.height) : img.width ≤ 715827882 := by
  have hle := Raster.width_le_size hh
  have hb := img.base_nonneg
  unfold InUserSpace at h
  omega

theorem maxLine_eq (win : Raster) (x width : ℤ) :
    maxLine win x width = min (i32 (win.width - x)) width := by
  unfold maxLine
  split <;> omega

/-- The count of bytes in a row, while nothing wraps around. -/
theorem lineBytes_eq (hw : img.width ≤ 715827882) (hd : win.width - x ≤ 2147483647)
    (hn : -715827882 ≤ win.width - x) :
    i32 (maxLine win x img.width * 3) = 3 * min (win.width - x) img.width := by
  have hi := img.width_nonneg
  have hd : IsInt (win.width - x) := by
    unfold IsInt
    omega
  rw [maxLine_eq, i32_of_isInt hd, i32_of_isInt, Int.mul_comm]
  unfold IsInt
  omega

/-- Behind the right side the count is below zero, until three times the distance wraps. -/
theorem lineBytes_right (hx : IsInt x) (h : win.width ≤ x) :
    i32 (maxLine win x img.width * 3) = i32 (3 * (win.width - x)) := by
  have hi := img.width_nonneg
  have hwi := win.width_nonneg
  have hd : IsInt (win.width - x) := by
    unfold IsInt at *
    omega
  rw [maxLine_eq, i32_of_isInt hd, Int.min_eq_left (by omega), Int.mul_comm]

theorem farRight_iff (hx : IsInt x) (h : win.width ≤ x) :
    FarRight win x ↔ 0 < i32 (3 * (win.width - x)) := by
  obtain ⟨q, hs⟩ := i32_spec (3 * (win.width - x))
  have hwi := win.width_nonneg
  unfold FarRight IsInt at *
  obtain rfl | rfl : q = 0 ∨ q = 1 := by omega
  · omega
  · omega

theorem lineBytes_farRight (hx : IsInt x) (h : FarRight win x) :
    0 < i32 (maxLine win x img.width * 3) := by
  have hle : win.width ≤ x := by
    unfold FarRight at h
    omega
  rw [lineBytes_right hx hle]
  exact (farRight_iff hx hle).mp h

/-- Where the subtraction wraps around, the count is below zero too. -/
theorem lineBytes_wrapped (hx : IsInt x) (hww : win.width ≤ 715827882)
    (h : 2147483647 < win.width - x) : i32 (maxLine win x img.width * 3) ≤ 0 := by
  have hi := img.width_nonneg
  unfold IsInt at hx
  have hd : i32 (win.width - x) = win.width - x - 4294967296 := by
    obtain ⟨q, hq⟩ := i32_spec (win.width - x)
    omega
  obtain ⟨q, hs⟩ := i32_spec ((win.width - x - 4294967296) * 3)
  rw [maxLine_eq, hd, Int.min_eq_left (by omega)]
  obtain rfl : q = 1 := by omega
  omega

theorem mem_draw24Image (hy : IsInt y) {cp : Copy} :
    cp ∈ draw24Image win img.base x y img.width img.height ↔
      ∃ i : ℕ, (i : ℤ) < img.height ∧ (0 ≤ y + i ∧ y + i ≤ win.height - 1) ∧
        cp ∈ User.memmove (win.address (y + i) x) (img.address (img.height - 1 - i) 0)
          (i32 (maxLine win x img.width * 3)) := by
  unfold draw24Image
  simp only [ge_clip]
  rw [mem_clippedLoop_i32 hy img.height_int]
  case hl =>
    have := win.height_nonneg
    have := win.height_int
    unfold IsInt at *
    omega
  refine exists_congr fun i => and_congr_right fun hi => and_congr_right fun hyi => ?_
  have hsrc : advance img.base (i32 (i32 (i32 (img.height - i) - 1) * img.width)) =
      img.address (img.height - 1 - i) 0 := by
    rw [Raster.address, Int.add_zero]
    apply advance_row
    have h1 := i32_mod (img.height - i)
    have h2 := i32_mod (i32 (img.height - i) - 1)
    omega
  rw [Raster.pointer_i32, hsrc]

end Rows

section Drawn

variable {win img : Raster} {x y : ℤ}

/-- A row of which nothing is cut on the left. -/
theorem draws_of_inside (hx0 : 0 ≤ x) (hy : IsInt y) (hd : win.Disjoint img)
    (hn : i32 (maxLine win x img.width * 3) = 3 * min (win.width - x) img.width) :
    Draws win img (Covered win img x y) (sourceOf img x y)
      (draw24Image win img.base x y img.width img.height) := by
  have hA : ∀ r c, Covered win img x y r c ↔
      (max 0 y ≤ r ∧ r < min win.height (y + img.height)) ∧
        x ≤ c ∧ c < x + min (win.width - x) img.width := by
    intro r c
    unfold Covered
    omega
  have hin : ∀ r c, Covered win img x y r c → win.Contains r c ∧
      img.Contains (sourceOf img x y r c).1 (sourceOf img x y r c).2 := by
    intro r c h
    unfold Covered at h
    unfold Raster.Contains sourceOf
    dsimp only
    omega
  have hsource : ∀ i j : ℤ, sourceOf img x y (y + i) (x + j) = (img.height - 1 - i, 0 + j) := by
    intro i j
    rw [sourceOf, show y + i - y = i by omega, show x + j - x = j by omega, Int.zero_add]
  refine draws_of_rows hd hA hin hsource ?_
  intro cp
  rw [mem_draw24Image hy, hn]
  exact exists_congr fun i => and_congr_right fun _ => and_congr_right fun _ => User.mem_memmove

/-- Where nothing is to be drawn and no row has a byte. -/
theorem draws_of_nonpos (hy : IsInt y) (hd : win.Disjoint img)
    (hA : ∀ r c, ¬ Covered win img x y r c)
    (hn : RowVisible win img y → i32 (maxLine win x img.width * 3) ≤ 0) :
    Draws win img (Covered win img x y) (sourceOf img x y)
      (draw24Image win img.base x y img.width img.height) := by
  refine draws_of_none hd hA ?_
  intro cp hcp
  obtain ⟨i, hi, hyi, hcp⟩ := (mem_draw24Image hy).mp hcp
  obtain ⟨k, hk, -⟩ := User.mem_memmove.mp hcp
  have := hn (by unfold RowVisible; omega)
  omega

/-- The first byte that such a row gets. -/
theorem first_byte_mem (hy : IsInt y) (h : RowVisible win img y)
    (hn : 0 < i32 (maxLine win x img.width * 3)) :
    ∃ cp ∈ draw24Image win img.base x y img.width img.height,
      cp.dst = win.address (max 0 y) x := by
  obtain ⟨i, hi, hyi, hlt⟩ := exists_first_place h
  refine ⟨_, (mem_draw24Image hy).mpr ⟨i, hi, by omega, User.mem_memmove.mpr ⟨0, hn, rfl⟩⟩, ?_⟩
  rw [← hyi]
  unfold copyAt Raster.address advance
  dsimp only
  omega

theorem Covered.contains {r c : ℤ} (h : Covered win img x y r c) : win.Contains r c := by
  unfold Covered at h
  unfold Raster.Contains
  omega

/-- To the left of the first visible row there is no pixel that the image covers. -/
theorem first_byte_not_covered (hwin : InUserSpace win) (himg : InUserSpace img)
    (hv : RowVisible win img y) (hx0 : x < 0) {r c k : ℤ} (hc : Covered win img x y r c)
    (h0 : 0 ≤ k) (hk : k < 3) : win.address (max 0 y) x ≠ win.address r c + k := by
  have hw := width_le himg (by unfold RowVisible at hv; omega)
  have hlt := hc.contains.index_lt
  have hb := win.base_nonneg
  have hrow : max 0 y * win.width ≤ r * win.width :=
    Int.mul_le_mul_of_nonneg_right hc.1.1 win.width_nonneg
  have hpos : 0 ≤ max 0 y * win.width := Int.mul_nonneg (by omega) win.width_nonneg
  rw [hc.contains.address_eq]
  unfold Covered at hc
  unfold InUserSpace at hwin
  unfold Raster.address advance
  -- the address is below the buffer, or wraps around to above the memory of the process
  obtain hq | hq : (win.base + 3 * (max 0 y * win.width + x)) / 4294967296 = 0 ∨
      (win.base + 3 * (max 0 y * win.width + x)) / 4294967296 = -1 := by omega
  · omega
  · omega

/-- The image is drawn where it covers the window and nowhere else, unless one of its rows is
visible and it starts to the left of the window or far to its right. -/
theorem image_drawn_iff (win img : Raster) (x y : ℤ) (hx : IsInt x) (hy : IsInt y)
    (hwin : InUserSpace win) (himg : InUserSpace img) (hd : win.Disjoint img) :
    Draws win img (Covered win img x y) (sourceOf img x y)
        (draw24Image win img.base x y img.width img.height) ↔
      ¬ (RowVisible win img y ∧ (StartsLeft win img x ∨ FarRight win x)) := by
  constructor
  · rintro h ⟨hv, hl | hf⟩
    · obtain ⟨hx0, hw, hle⟩ := hl
      have hwi := width_le himg (by unfold RowVisible at hv; omega)
      have hn := lineBytes_eq hwi hle (by have := win.width_nonneg; omega)
      have := win.width_nonneg
      obtain ⟨cp, hcp, hdst⟩ := first_byte_mem (x := x) hy hv (by omega)
      obtain ⟨r, c, k, hc, hk, he⟩ := h.area_of_mem hd hcp
      exact first_byte_not_covered hwin himg hv hx0 hc hk.1 hk.2 (hdst ▸ he)
    · obtain ⟨cp, hcp, -⟩ := first_byte_mem hy hv (lineBytes_farRight hx hf)
      obtain ⟨r, c, k, hc, -⟩ := h.area_of_mem hd hcp
      unfold Covered at hc
      unfold FarRight at hf
      omega
  · intro hno
    by_cases hv : RowVisible win img y
    case neg =>
      refine draws_of_nonpos hy hd ?_ fun h => absurd h hv
      rintro r c ⟨hr, -⟩
      exact hv (by unfold RowVisible; omega)
    have hwi := width_le himg (by unfold RowVisible at hv; omega)
    have hww := width_le hwin (by unfold RowVisible at hv; omega)
    have hw0 := img.width_nonneg
    by_cases hin : 0 ≤ x ∧ x < win.width
    case pos =>
      exact draws_of_inside hin.1 hy hd (lineBytes_eq hwi (by unfold IsInt at hx; omega) (by omega))
    have hww0 := win.width_nonneg
    obtain hr | hx0 : win.width ≤ x ∨ x < 0 := by omega
    · have hf : ¬ FarRight win x := fun hf => hno ⟨hv, .inr hf⟩
      refine draws_of_nonpos hy hd ?_ fun _ => ?_
      · rintro r c ⟨-, hc⟩
        omega
      · rw [farRight_iff hx hr] at hf
        rw [lineBytes_right hx hr]
        exact Int.not_lt.mp hf
    · have hl : ¬ StartsLeft win img x := fun hl => hno ⟨hv, .inl hl⟩
      unfold StartsLeft at hl
      refine draws_of_nonpos hy hd ?_ fun _ => ?_
      · rintro r c ⟨-, hc⟩
        omega
      · by_cases hle : win.width - x ≤ 2147483647
        · rw [lineBytes_eq hwi hle (by omega)]
          omega
        · exact lineBytes_wrapped hx hww (by omega)

end Drawn

theorem smallWindow_sized : Sized 4096 4 3 := by decide

theorem smallImage_sized : Sized 8192 2 2 := by decide

/-- A window of four columns and three rows. -/
def smallWindow : Raster := .ofSizes 4096 4 3 smallWindow_sized

/-- An image of two by two pixels. -/
def smallImage : Raster := .ofSizes 8192 2 2 smallImage_sized

theorem small_disjoint : smallWindow.Disjoint smallImage := by
  intro a hw hi
  change 4096 ≤ a ∧ a < 4132 at hw
  change 8192 ≤ a ∧ a < 8204 at hi
  omega

theorem image_drawn_at_corner :
    (InUserSpace smallWindow ∧ InUserSpace smallImage) ∧
      Draws smallWindow smallImage (Covered smallWindow smallImage 3 2)
        (sourceOf smallImage 3 2) (draw24Image smallWindow 8192 3 2 2 2) := by
  have hw : InUserSpace smallWindow := by decide
  have hi : InUserSpace smallImage := by decide
  refine ⟨⟨hw, hi⟩, (image_drawn_iff smallWindow smallImage 3 2 (by decide) (by decide) hw hi
    small_disjoint).mpr ?_⟩
  rintro ⟨-, ⟨hx, -⟩ | ⟨hx, -⟩⟩
  · exact absurd hx (by decide)
  · exact absurd hx (by decide)

/-- An image that starts one column to the left is drawn from three bytes before the buffer. -/
theorem image_before_buffer :
    ¬ ∀ (win img : Raster) (x y : ℤ), IsInt x → IsInt y → InUserSpace win → InUserSpace img →
      win.Disjoint img →
      Draws win img (Covered win img x y) (sourceOf img x y)
        (draw24Image win img.base x y img.width img.height) := by
  intro hall
  have h := hall smallWindow smallImage (-1) 0 (by decide) (by decide) (by decide) (by decide)
    small_disjoint
  have hv : RowVisible smallWindow smallImage 0 := by
    unfold RowVisible
    decide
  obtain ⟨cp, hcp, hdst⟩ := first_byte_mem (x := -1) (by decide) hv (by decide)
  have hlow := (h.writes cp hcp).1
  rw [hdst] at hlow
  exact absurd hlow (by decide)

end WindowImages
