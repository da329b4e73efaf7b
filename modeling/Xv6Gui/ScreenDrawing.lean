import Xv6Gui.GlyphDrawing

/-!
# Rectangles and the cursor on the screen

drawRectBound, drawRectBorder and drawMouse of gui.c, with exact integers. What a run of
drawPointAlpha does to the memory is stated for any way to blend a colour with the one below it.
-/
namespace ScreenDrawing

open WindowManagerState RectOutlines PixelBuffers BreakLoops ByteCopies GlyphDrawing Bitmaps

def drawRectBound (screen : ScreenBuffer) (x y width height : ℤ) (fill : RGBA) (maxX maxY : ℤ) :
    List AlphaPoint :=
  forLoop height fun i =>
    if y + i < 0 then .next
    else if y + i ≥ maxY then .stop
    else .emit <| forLoop width fun j =>
      if x + j < 0 then .next
      else if x + j ≥ maxX then .stop
      else .emit [⟨y + i, x + j, advance (screen.pointer (y + i) x) j, fill⟩]

def drawRectBorder (screen : ScreenBuffer) (color : RGB) (x y width height : ℤ) : List Store :=
  if x ≥ screen.width ∨ x + width < 0 ∨ y ≥ screen.height ∨ y + height < 0 ∨ width < 0 ∨
      height < 0 then []
  else
    let t := screen.pointer y x
    (if y > 0 then
      drawEdge width (fun i => x + i > 0 ∧ x + i < screen.width) fun i =>
        ⟨y, x + i, advance t i, color⟩
    else []) ++
    (if y + height < screen.height then
      let o := advance t (height * screen.width)
      drawEdge width (fun i => y > 0 ∧ x + i > 0 ∧ x + i < screen.width) fun i =>
        ⟨y + height, x + i, advance o i, color⟩
    else []) ++
    (if x > 0 then
      drawEdge height (fun i => y + i > 0 ∧ y + i < screen.height) fun i =>
        ⟨y + i, x, advance t (i * screen.width), color⟩
    else []) ++
    if x + width < screen.width then
      let o := advance t width
      drawEdge height (fun i => y + i > 0 ∧ y + i < screen.height) fun i =>
        ⟨y + i, x + width, advance o (i * screen.width), color⟩
    else []

def mouseColor : List RGB := [⟨0, 0, 0⟩, ⟨200, 200, 200⟩]

/-- The stores of `drawMouse`, one for each point of the shape that is not blank. -/
def drawMouse (screen : ScreenBuffer) (mode : Fin 2) (x y : ℤ) : List Store :=
  forLoop mouseHeight fun i =>
    if y + i ≥ screen.height then .stop
    else if y + i < 0 then .next
    else .emit <| forLoop mouseWidth fun j =>
      if x + j ≥ screen.width then .stop
      else if x + j < 0 then .next
      else
        let temp := mousePointer mode i j
        if temp ≠ 0 then
          .emit [⟨y + i, x + j, advance (screen.pointer (y + i) x) j,
            mouseColor.getD (temp - 1) ⟨0, 0, 0⟩⟩]
        else .next

def setPixel (mem : Bytes) (a : ℤ) (p : RGB) : Bytes :=
  Function.update (Function.update (Function.update mem a p.B) (a + 1) p.G) (a + 2) p.R

/-- `drawPointAlpha`: what is left of the colour below, where `blend` mixes two values by alpha. -/
def drawPointAlpha (blend : UInt8 → UInt8 → UInt8 → UInt8) (below : RGB) (origin : RGBA) : RGB :=
  if origin.A = 255 then ⟨origin.B, origin.G, origin.R⟩
  else if origin.A = 0 then below
  else ⟨blend below.B origin.B origin.A, blend below.G origin.G origin.A,
    blend below.R origin.R origin.A⟩

def paint (blend : UInt8 → UInt8 → UInt8 → UInt8) : List AlphaPoint → Bytes → Bytes
  | [], mem => mem
  | p :: l, mem =>
    paint blend l (setPixel mem p.address (drawPointAlpha blend (pixel mem p.address) p.color))

/-- The points paint the pixels of the area, each once, and no others. -/
structure Paints (b : Raster) (fill : RGBA) (Area : ℤ → ℤ → Prop) (l : List AlphaPoint) : Prop where
  inside : ∀ p ∈ l, Inside b p
  area : ∀ r c, Area r c → b.Contains r c
  painted : ∀ blend mem r c, Area r c →
    pixel (paint blend l mem) (b.address r c) =
      drawPointAlpha blend (pixel mem (b.address r c)) fill
  kept : ∀ blend mem r c, b.Contains r c → ¬ Area r c →
    pixel (paint blend l mem) (b.address r c) = pixel mem (b.address r c)

def OnScreen (b : Raster) (s : Store) : Prop :=
  b.Contains s.row s.col ∧ s.address = b.address s.row s.col

def OnOutline (x y width height r c : ℤ) : Prop :=
  ((r = y ∨ r = y + height) ∧ x ≤ c ∧ c < x + width) ∨
    ((c = x ∨ c = x + width) ∧ y ≤ r ∧ r < y + height)

/-- The points of the cursor's shape that are not blank, with their colours. -/
def OnShape (mode : Fin 2) (x y : ℤ) (s : Store) : Prop :=
  ∃ i j : ℕ, (i < mouseHeight ∧ j < mouseWidth) ∧ s.row = y + i ∧ s.col = x + j ∧
    mousePointer mode i j ≠ 0 ∧ mouseColor[mousePointer mode i j - 1]? = some s.color

section Pixels

variable {mem : Bytes} {a a' : ℤ} {p : RGB}

@[simp]
theorem pixel_setPixel : pixel (setPixel mem a p) a = p := by
  unfold pixel setPixel
  rw [Function.update_self, Function.update_of_ne (show a ≠ a + 2 by omega),
    Function.update_of_ne (show a ≠ a + 1 by omega), Function.update_self,
    Function.update_of_ne (show a + 1 ≠ a + 2 by omega), Function.update_self]

theorem pixel_setPixel_of_ne
    (h : ∀ k k', 0 ≤ k → k < 3 → 0 ≤ k' → k' < 3 → a' + k ≠ a + k') :
    pixel (setPixel mem a p) a' = pixel mem a' := by
  apply pixel_congr
  intro k h0 hk
  have h0' := h k 0 h0 hk (by decide) (by decide)
  have h1' := h k 1 h0 hk (by decide) (by decide)
  have h2' := h k 2 h0 hk (by decide) (by decide)
  rw [Int.add_zero] at h0'
  rw [setPixel, Function.update_of_ne h2', Function.update_of_ne h1', Function.update_of_ne h0']

end Pixels

section Painting

variable {b : Raster} {fill : RGBA} {A B : ℤ → ℤ → Prop} {l l' : List AlphaPoint}

theorem paint_append (blend : UInt8 → UInt8 → UInt8 → UInt8) (l l' : List AlphaPoint)
    (mem : Bytes) : paint blend (l ++ l') mem = paint blend l' (paint blend l mem) := by
  induction l generalizing mem with
  | nil => rfl
  | cons p l ih => exact ih _

theorem Paints.congr (h : Paints b fill A l) (hAB : ∀ r c, A r c ↔ B r c) : Paints b fill B l :=
  (funext fun r => funext fun c => propext (hAB r c) : A = B) ▸ h

theorem Paints.nil : Paints b fill (fun _ _ => False) [] where
  inside := fun _ hp => absurd hp List.not_mem_nil
  area := fun _ _ h => h.elim
  painted := fun _ _ _ _ h => h.elim
  kept := fun _ _ _ _ _ _ => rfl

theorem Paints.point {r c : ℤ} (h : b.Contains r c) :
    Paints b fill (fun r' c' => r' = r ∧ c' = c) [⟨r, c, b.address r c, fill⟩] where
  inside := by
    intro p hp
    rw [List.mem_singleton.mp hp]
    exact ⟨h, rfl⟩
  area := by
    rintro r' c' ⟨rfl, rfl⟩
    exact h
  painted := by
    rintro blend mem r' c' ⟨rfl, rfl⟩
    exact pixel_setPixel
  kept := by
    intro blend mem r' c' hc hne
    apply pixel_setPixel_of_ne
    intro k k' h0 hk h0' hk' he
    exact hne (hc.byte_unique h h0 hk h0' hk' he).1

theorem Paints.append (h : Paints b fill A l) (h' : Paints b fill B l')
    (hd : ∀ r c, A r c → ¬ B r c) : Paints b fill (fun r c => A r c ∨ B r c) (l ++ l') where
  inside := by
    intro p hp
    exact (List.mem_append.mp hp).elim (h.inside p) (h'.inside p)
  area := fun r c hc => hc.elim (h.area r c) (h'.area r c)
  painted := by
    rintro blend mem r c (ha | hb)
    · rw [paint_append, h'.kept _ _ r c (h.area r c ha) (hd r c ha), h.painted _ _ r c ha]
    · rw [paint_append, h'.painted _ _ r c hb,
        h.kept _ _ r c (h'.area r c hb) fun ha => hd r c ha hb]
  kept := by
    intro blend mem r c hc hno
    rw [paint_append, h'.kept _ _ r c hc fun hb => hno (.inr hb),
      h.kept _ _ r c hc fun ha => hno (.inl ha)]

theorem Paints.flatMap {A : ℕ → ℤ → ℤ → Prop} {f : ℕ → List AlphaPoint} {l : List ℕ}
    (hl : l.Nodup) (h : ∀ i ∈ l, Paints b fill (A i) (f i))
    (hd : ∀ i k r c, i ≠ k → A i r c → ¬ A k r c) :
    Paints b fill (fun r c => ∃ i ∈ l, A i r c) (l.flatMap f) := by
  induction l with
  | nil => exact Paints.nil.congr fun r c => by simp
  | cons i l ih =>
    obtain ⟨hi, hl⟩ := List.nodup_cons.mp hl
    have hrest := ih hl fun k hk => h k (List.mem_cons_of_mem i hk)
    have hall := (h i List.mem_cons_self).append hrest fun r c ha ⟨k, hk, hb⟩ =>
      hd i k r c (fun he => hi (he ▸ hk)) ha hb
    exact hall.congr fun r c => by simp only [List.mem_cons, exists_eq_or_imp]

/-- A clipped loop, each round of which paints its own area. -/
theorem Paints.clippedLoop {A : ℕ → ℤ → ℤ → Prop} {f : ℕ → List AlphaPoint} {n z limit : ℤ}
    (h : ∀ i : ℕ, 0 ≤ z + i → z + i ≤ limit → Paints b fill (A i) (f i))
    (hd : ∀ i k r c, i ≠ k → A i r c → ¬ A k r c) :
    Paints b fill (fun r c => ∃ i : ℕ, (i : ℤ) < n ∧ (0 ≤ z + i ∧ z + i ≤ limit) ∧ A i r c)
      (forLoop n fun i => clip (z + i) limit (.emit (f i))) := by
  rw [forLoop_eq_flatMap (clip_stopsLate leaves_exact)]
  refine (Paints.flatMap (A := fun i r c => (0 ≤ z + i ∧ z + i ≤ limit) ∧ A i r c)
    List.nodup_range ?_ ?_).congr fun r c => ?_
  · intro i _
    by_cases hi : 0 ≤ z + i ∧ z + i ≤ limit
    case pos =>
      have he : (clip (z + i) limit (.emit (f i))).items = f i := by
        rw [clip, if_neg (by omega), if_neg (by omega), Round.items]
      rw [he]
      exact (h i hi.1 hi.2).congr fun r c => (and_iff_right hi).symm
    case neg =>
      have he : (clip (z + i) limit (.emit (f i))).items = [] :=
        List.eq_nil_iff_forall_not_mem.mpr fun a ha => hi (mem_clip.mp ha).1
      rw [he]
      exact Paints.nil.congr fun r c => iff_of_false id fun ha => hi ha.1
  · rintro i k r c hik ⟨-, ha⟩ ⟨-, hb⟩
    exact hd i k r c hik ha hb
  · refine exists_congr fun i => and_congr_left fun _ => ?_
    rw [List.mem_range]
    omega

end Painting

theorem row_paints (screen : ScreenBuffer) {x row width : ℤ} {fill : RGBA} (h0 : 0 ≤ row)
    (hr : row ≤ screen.height - 1) :
    Paints screen.toRaster fill
      (fun r c => r = row ∧ (0 ≤ c ∧ c < screen.width) ∧ x ≤ c ∧ c < x + width)
      (forLoop width fun j => clip (x + j) (screen.width - 1)
        (.emit [⟨row, x + j, advance (screen.pointer row x) j, fill⟩])) := by
  refine (Paints.clippedLoop (A := fun j r c => r = row ∧ c = x + j) ?_ ?_).congr fun r c => ?_
  · intro j hj0 hj
    rw [Raster.pointer_eq, Raster.advance_address]
    exact Paints.point ⟨⟨h0, by omega⟩, hj0, by omega⟩
  · rintro j k r c hjk ⟨-, hc⟩ ⟨-, hc'⟩
    omega
  · constructor
    · rintro ⟨j, hj, hx, rfl, rfl⟩
      exact ⟨rfl, by omega⟩
    · rintro ⟨rfl, hc, hx⟩
      obtain ⟨j, hj⟩ := Int.eq_ofNat_of_zero_le (show 0 ≤ c - x by omega)
      exact ⟨j, by omega, by omega, rfl, by omega⟩

/-- drawRectBound with the limits of the screen paints the part of the rectangle that is on the
screen. -/
theorem drawRectBound_paints (screen : ScreenBuffer) (x y width height : ℤ) (fill : RGBA) :
    Paints screen.toRaster fill
      (fun r c => screen.Contains r c ∧ (y ≤ r ∧ r < y + height) ∧ x ≤ c ∧ c < x + width)
      (drawRectBound screen x y width height fill screen.width screen.height) := by
  unfold drawRectBound
  simp only [lt_clip screen.height_nonneg, lt_clip screen.width_nonneg]
  refine (Paints.clippedLoop (fun i h0 hi => row_paints screen h0 hi) ?_).congr fun r c => ?_
  · rintro i k r c hik ⟨hr, -⟩ ⟨hr', -⟩
    omega
  · constructor
    · rintro ⟨i, hi, hy, rfl, hc, hx⟩
      exact ⟨⟨by omega, hc⟩, by omega, hx⟩
    · rintro ⟨⟨hr, hc⟩, hy, hx⟩
      obtain ⟨i, hi⟩ := Int.eq_ofNat_of_zero_le (show 0 ≤ r - y by omega)
      exact ⟨i, by omega, by omega, by omega, hc, hx⟩

section Outline

variable {screen : ScreenBuffer} {color : RGB} {x y width height : ℤ} {s : Store}

/-- Each edge is stored where it is on the screen. -/
theorem drawRectBorder_on_screen (hs : s ∈ drawRectBorder screen color x y width height) :
    OnScreen screen.toRaster s ∧ OnOutline x y width height s.row s.col := by
  unfold drawRectBorder at hs
  split at hs
  case isTrue h => cases hs
  case isFalse h =>
    simp only [List.mem_append, List.mem_ite_nil_right, mem_drawEdge, Raster.pointer_eq] at hs
    unfold OnScreen OnOutline Raster.Contains
    rcases hs with ((ht | hb) | hl) | hr
    · obtain ⟨hy, i, h0, hi, hx, rfl⟩ := ht
      dsimp only
      refine ⟨⟨by omega, ?_⟩, by omega⟩
      rw [Raster.advance_address]
    · obtain ⟨hyh, i, h0, hi, hx, rfl⟩ := hb
      dsimp only
      refine ⟨⟨by omega, ?_⟩, by omega⟩
      rw [Raster.advance_rows, Raster.advance_address]
    · obtain ⟨hx, i, h0, hi, hy, rfl⟩ := hl
      dsimp only
      refine ⟨⟨by omega, ?_⟩, by omega⟩
      rw [Raster.advance_rows]
    · obtain ⟨hxw, i, h0, hi, hy, rfl⟩ := hr
      dsimp only
      refine ⟨⟨by omega, ?_⟩, by omega⟩
      rw [Raster.advance_address, Raster.advance_rows]

end Outline

section Cursor

variable {screen : ScreenBuffer} {mode : Fin 2} {x y : ℤ} {s : Store}

/-- Every point of the table has a colour. -/
theorem mouseColor_getElem? (i j : ℕ) :
    mouseColor[mousePointer mode i j - 1]? =
      some (mouseColor.getD (mousePointer mode i j - 1) ⟨0, 0, 0⟩) := by
  have hle := mousePointer_le mode i j
  have hlt : mousePointer mode i j - 1 < mouseColor.length := by
    change mousePointer mode i j - 1 < 2
    omega
  rw [List.getD_eq_getElem _ _ hlt, List.getElem?_eq_getElem hlt]

theorem drawMouse_on_screen (hs : s ∈ drawMouse screen mode x y) :
    OnScreen screen.toRaster s ∧ OnShape mode x y s := by
  unfold drawMouse at hs
  simp only [ge_clip] at hs
  obtain ⟨i, hi, hs⟩ := mem_rounds hs
  obtain ⟨hy, hs⟩ := mem_clip.mp hs
  obtain ⟨j, hj, hs⟩ := mem_rounds hs
  obtain ⟨hx, hs⟩ := mem_clip.mp hs
  rw [List.mem_range] at hi hj
  split at hs
  case isTrue ht =>
    rw [Round.items, List.mem_singleton, Raster.pointer_eq, Raster.advance_address] at hs
    rw [hs]
    refine ⟨⟨?_, rfl⟩, i, j, ⟨hi, hj⟩, rfl, rfl, ht, mouseColor_getElem? i j⟩
    unfold Raster.Contains
    dsimp only
    omega
  case isFalse ht => cases hs

end Cursor

/-- Rectangles are painted where they are on the screen; outlines and the cursor are stored only
there, in their own places. -/
theorem drawings_on_screen (screen : ScreenBuffer) (color : RGB) (fill : RGBA) (mode : Fin 2)
    (x y width height : ℤ) :
    Paints screen.toRaster fill
      (fun r c => screen.Contains r c ∧ (y ≤ r ∧ r < y + height) ∧ x ≤ c ∧ c < x + width)
      (drawRectBound screen x y width height fill screen.width screen.height) ∧
    (∀ s ∈ drawRectBorder screen color x y width height,
      OnScreen screen.toRaster s ∧ OnOutline x y width height s.row s.col) ∧
    ∀ s ∈ drawMouse screen mode x y, OnScreen screen.toRaster s ∧ OnShape mode x y s :=
  ⟨drawRectBound_paints screen x y width height fill, fun _ hs => drawRectBorder_on_screen hs,
    fun _ hs => drawMouse_on_screen hs⟩

end ScreenDrawing
