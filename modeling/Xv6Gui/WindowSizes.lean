import Xv6Gui.WindowSessions

/-!
# The size of a window

The kernel draws a window with the size of its rectangle as the stride of the program's
buffer. A rectangle that fits is taken as requested. Otherwise `createWindow` centres the
window by two halves, which loses an odd pixel, and `createPopupWindow` leaves the rectangle
of the last popup in place. Drags keep the size. A ghost record keeps the user windows.
-/
namespace WindowSizes

open WindowManagerState WindowManager WindowManagerSteps WindowMessages WindowMessageOutcomes
open WindowSessions MessageDeliveries GuardedRuns

/-- A session and the user windows that the open windows and the popup were created from. -/
structure Sized where
  session : Session
  created : ℤ → Window
  popup : Window

/-- The rectangle has the width and the height of the user window, as `int`s. -/
def HasSize (r : WinRect) (w : Window) : Prop :=
  i32 (r.xmax - r.xmin) = i32 w.width ∧ i32 (r.ymax - r.ymin) = i32 w.height

instance (r : WinRect) (w : Window) : Decidable (HasSize r w) := inferInstanceAs (Decidable (_ ∧ _))

variable (scr : Screen)

def start : Sized := ⟨WindowSessions.start scr, fun _ => desktopWindow, desktopWindow⟩

def step (s : Sized) (c : Call) : Except Fault Sized := do
  let t ← WindowSessions.step scr s.session c
  return {
    session := t
    created := match c with
      | .createWindow _ w _ =>
        if findNextAvailableWindowId s.session.wm = -1 then s.created
        else Function.update s.created (findNextAvailableWindowId s.session.wm) w
      | _ => s.created
    popup := match c with
      | .createPopupWindow _ w _ => if s.session.wm.popupwindow.caller = -1 then w else s.popup
      | _ => s.popup }

structure SizesAgree (s : Sized) : Prop where
  windows : ∀ i ∈ s.session.opened, HasSize (s.session.wm.windowlist.wnd i).position (s.created i)
  popup : s.session.wm.popupwindow.caller ≠ -1 →
    HasSize s.session.wm.popupwindow.wnd.position s.popup

/-- A window that is placed elsewhere than requested has an even size, and a popup that is
has the size of the last one. -/
def PlacedInSize (s : Sized) : Call → Prop
  | .createWindow _ w _ => findNextAvailableWindowId s.session.wm ≠ -1 →
      fitsScreen scr w = true ∨ w.width % 2 = 0 ∧ w.height % 2 = 0
  | .createPopupWindow _ w caller => s.session.wm.popupwindow.caller = -1 → caller ≠ -1 →
      fitsScreen scr w = true ∨ HasSize s.session.wm.popupwindow.wnd.position w
  | _ => True

variable {scr} {r : WinRect} {w : Window} {m : Message}

theorem hasSize_of_fits (h : fitsScreen scr w = true) : HasSize w.initialPosition w := by
  obtain ⟨_, _, _, _, hw, hh⟩ := of_decide_eq_true h
  constructor
  · rw [← hw, i32_congr, i32_mod]
  · rw [← hh, i32_congr, i32_mod]

/-- Two halves make the whole of an even extent only. -/
theorem halves_iff (c e : ℤ) :
    i32 (c + e.tdiv 2 - (c - e.tdiv 2)) = i32 e ↔ e % 2 = 0 := by
  rw [i32_congr]
  have hsum := Int.mul_tdiv_add_tmod e 2
  have hodd := Int.tmod_two_eq e
  omega

theorem initialRect_hasSize_iff :
    HasSize (initialRect scr w) w ↔
      fitsScreen scr w = true ∨ w.width % 2 = 0 ∧ w.height % 2 = 0 := by
  by_cases h : fitsScreen scr w = true
  · rw [initialRect, if_pos h]
    exact iff_of_true (hasSize_of_fits h) (Or.inl h)
  · rw [initialRect, if_neg h, or_iff_right h]
    exact and_congr (halves_iff _ _) (halves_iff _ _)

/-- Moving a rectangle wraps both sides alike. -/
theorem hasSize_moveRect (dx dy : ℤ) : HasSize (moveRect r dx dy) w ↔ HasSize r w := by
  rw [HasSize, HasSize, moveRect, i32_translate, i32_translate]

theorem hasSize_dragged (dx dy : ℤ) (k : KernelWindow) :
    HasSize (dragged dx dy k).position w ↔ HasSize k.position w := by
  simp only [dragged]
  split
  · exact hasSize_moveRect dx dy
  · exact Iff.rfl

/-- No window changes its size and the popup stays as it is. -/
structure SizesKept (s t : Wm) : Prop where
  window : ∀ i w, HasSize (s.windowlist.wnd i).position w → HasSize (t.windowlist.wnd i).position w
  popup : t.popupwindow.wnd.position = s.popupwindow.wnd.position
  caller : t.popupwindow.caller = s.popupwindow.caller

theorem sizesKept_of_posted {s t : Wm} {ms : ℤ → List Message} {ps : List Message}
    (h : Posted ms ps s t) : SizesKept s t where
  window i w hw := by rwa [h.position]
  popup := h.popupPosition
  caller := h.caller

theorem sizesKept_of_drag {s t : Wm} (h : DragsTail scr m s t) : SizesKept s t where
  window i w hw := by
    by_cases hi : i = s.windowlisttail
    · subst hi
      rw [h.tail, hasSize_dragged]
      exact hw
    · rwa [h.other i hi]
  popup := by rw [h.popup]
  caller := by rw [h.popup]

theorem wmHandleMessage_sizesKept {s t : Wm} (hr : Ranged (links s)) (hd : IsLink s.desktopId)
    (h : wmHandleMessage scr s m = .ok t) : SizesKept s t := by
  by_cases hm : m.msgType = .mouseMove
  · rw [wmHandleMessage, hm] at h
    by_cases hc : s.clickedOnTitle = true
    · exact sizesKept_of_drag (handleMouseMove_drags hc h)
    · have hkept := sizesKept_of_posted (handleMouseMove_posted (Bool.eq_false_iff.mpr hc) h)
      exact ⟨hkept.window, hkept.popup, hkept.caller⟩
  · obtain ⟨_, _, hpost⟩ := wmHandleMessage_posted hr hd hm h
    exact sizesKept_of_posted hpost

section Runs

variable {s t : Sized} {c : Call}

theorem SizesAgree.kept (h : SizesAgree s) (hk : SizesKept s.session.wm t.session.wm)
    (ho : t.session.opened = s.session.opened) (hc : t.created = s.created)
    (hp : t.popup = s.popup) : SizesAgree t := by
  constructor
  · intro i hi
    rw [ho] at hi
    rw [hc]
    exact hk.window i _ (h.windows i hi)
  · intro hcaller
    rw [hk.caller] at hcaller
    rw [hk.popup, hp]
    exact h.popup hcaller

/-- Placing a window gives slot `x` the initial rectangle and leaves the others alone. -/
theorem placeWindow_position {s : Wm} {x : ℤ} {p : ProcId} {title : List UInt8} (i : ℤ) :
    ((placeWindow scr s x p w title).windowlist.wnd i).position =
      if i = x then initialRect scr w else (s.windowlist.wnd i).position := by
  by_cases hi : i = x
  · subst hi
    simp [placeWindow, updateWnd]
  · simp [placeWindow, updateWnd, setLinks, hi]

theorem updateWnd_position {s : Wm} {x : ℤ} {f : KernelWindow → KernelWindow}
    (hf : ∀ k, (f k).position = k.position) (i : ℤ) :
    ((updateWnd s x f).windowlist.wnd i).position = (s.windowlist.wnd i).position := by
  by_cases hi : i = x
  · subst hi
    simp [updateWnd, hf]
  · simp [updateWnd, hi]

theorem markMinimized_position (s : Wm) (x v i : ℤ) :
    ((markMinimized s x v).windowlist.wnd i).position = (s.windowlist.wnd i).position := by
  apply updateWnd_position
  intro k
  rfl

theorem createWindow_places {s : Session} (hr : Ranged (links s.wm)) {p : ProcId}
    {title : List UInt8} (hx : InBounds (findNextAvailableWindowId s.wm)) :
    WindowSessions.step scr s (.createWindow p w title) = .ok { s with
      wm := placeWindow scr s.wm (findNextAvailableWindowId s.wm) p w title
      opened := insert (findNextAvailableWindowId s.wm) s.opened } := by
  rw [WindowSessions.step, createWindow_eq hr.tail hx, ok_bind]
  rfl

theorem createWindow_sizes (h : SizesAgree s) {p : ProcId} {title : List UInt8}
    {x : ℤ} (hsize : HasSize (initialRect scr w) w) {u : Session}
    (hu : u.wm = placeWindow scr s.session.wm x p w title)
    (ho : u.opened = insert x s.session.opened) :
    SizesAgree ⟨u, Function.update s.created x w, s.popup⟩ := by
  constructor
  · intro i hi
    dsimp only at hi ⊢
    rw [hu, placeWindow_position]
    by_cases hix : i = x
    · rw [if_pos hix, hix, Function.update_self]
      exact hsize
    · rw [if_neg hix, Function.update_of_ne hix]
      rw [ho] at hi
      exact h.windows i ((Finset.mem_insert.mp hi).resolve_left hix)
  · dsimp only
    rw [hu]
    exact h.popup

theorem popup_sizes (h : SizesAgree s) {p : PopupWindow} {u : Session}
    (hu : u.wm = { s.session.wm with popupwindow := p }) (ho : u.opened = s.session.opened)
    (hp : p.caller ≠ -1 → HasSize p.wnd.position w) : SizesAgree ⟨u, s.created, w⟩ := by
  constructor
  · intro i hi
    dsimp only at hi ⊢
    rw [hu]
    rw [ho] at hi
    exact h.windows i hi
  · dsimp only
    rw [hu]
    exact hp

/-- What a popup that is opened has to satisfy. -/
theorem openedPopup_hasSize_iff {s : Wm} {p : ProcId} {caller : ℤ} :
    HasSize (openedPopup scr s p w caller).wnd.position w ↔
      fitsScreen scr w = true ∨ HasSize s.popupwindow.wnd.position w := by
  by_cases hf : fitsScreen scr w = true
  · simp only [openedPopup, hf, if_true, true_or, iff_true]
    exact hasSize_of_fits hf
  · rw [openedPopup, if_neg hf, or_iff_right hf]

structure Invariant (s : Sized) : Prop where
  sane : Sane s.session
  sizes : SizesAgree s

theorem start_invariant (scr : Screen) : Invariant (start scr) where
  sane := start_sane scr
  sizes := ⟨fun i hi => by simp [start, WindowSessions.start] at hi, fun h => absurd rfl h⟩

theorem unmoved_sizes (h : SizesAgree s) {u : Session} (hk : Unmoved s.session.wm u.wm)
    (ho : u.opened = s.session.opened) : SizesAgree ⟨u, s.created, s.popup⟩ :=
  h.kept ⟨fun i w hw => by rwa [hk.position], hk.popup, hk.caller⟩ ho rfl rfl

theorem step_sizes (h : Invariant s) (hg : PlacedInSize scr s c) (ht : step scr s c = .ok t) :
    SizesAgree t := by
  obtain ⟨u, hu, ht⟩ := bind_eq_ok.mp ht
  cases ht
  have hr := h.sane.ranged
  have hd := h.sane.desktop
  cases c with
  | createWindow p w title =>
    rcases findNextAvailableWindowId_cases s.session.wm with ⟨hx, _⟩ | ⟨hx, _⟩
    · rw [WindowSessions.step, createWindow_full hx, ok_bind] at hu
      cases hu
      simp only [if_pos hx]
      exact h.sizes
    · rw [createWindow_places hr hx] at hu
      cases hu
      simp only [if_neg hx.ne_neg]
      exact createWindow_sizes h.sizes (initialRect_hasSize_iff.mpr (hg hx.ne_neg)) rfl rfl
  | createPopupWindow p w caller =>
    by_cases hc : s.session.wm.popupwindow.caller = -1
    · rw [createPopupWindow_opens hc] at hu
      cases hu
      simp only [if_pos hc]
      exact popup_sizes h.sizes rfl rfl fun hne => openedPopup_hasSize_iff.mpr (hg hc hne)
    · rw [createPopupWindow_refused hc hu]
      simp only [if_neg hc]
      exact h.sizes
  | closePopupWindow p w =>
    cases hu
    exact popup_sizes h.sizes rfl rfl fun hne => absurd rfl hne
  | getMessage p x =>
    cases step_effect hr hd hu with
    | quiet hq hsame hopened => exact unmoved_sizes h.sizes (getMessage_unmoved hu) hopened
  | getPopupMessage p =>
    cases step_effect hr hd hu with
    | quiet hq hsame hopened => exact unmoved_sizes h.sizes (getPopupMessage_unmoved hu) hopened
  | turnoffScreen p =>
    cases step_effect hr hd hu with
    | quiet hq hsame hopened => exact unmoved_sizes h.sizes (turnoffScreen_unmoved hu) hopened
  | closeWindow p w =>
    cases step_effect hr hd hu with
    | closed hx =>
      constructor
      · intro i hi
        have hpos := updateWnd_position (s := setLinks s.session.wm
          (release (links s.session.wm) w.handler)) (x := w.handler) (f := blankWindow)
          (fun _ => rfl) i
        dsimp only at hi ⊢
        rw [hpos]
        exact h.sizes.windows i (Finset.mem_of_mem_erase hi)
      · exact h.sizes.popup
    | quiet hq => cases hq
  | minimizeWindow p w =>
    cases step_effect hr hd hu with
    | minimized hx hs =>
      exact unmoved_sizes h.sizes ⟨rfl, markMinimized_position _ _ _, rfl, rfl⟩ rfl
    | quiet hq => cases hq
  | maximizeWindow p w =>
    cases step_effect hr hd hu with
    | maximized hx hs =>
      exact unmoved_sizes h.sizes ⟨rfl, markMinimized_position _ _ _, rfl, rfl⟩ rfl
    | quiet hq => cases hq
  | wmHandleMessage m =>
    obtain ⟨wm, hm, hu⟩ := bind_eq_ok.mp hu
    cases hu
    exact h.sizes.kept (wmHandleMessage_sizesKept hr hd hm) rfl rfl rfl

/-- A window or a popup that is placed in another size shows it at once. -/
theorem placedInSize_of_sizes (h : Invariant s)
    (hstep : ∀ t, step scr s c = .ok t → SizesAgree t) : PlacedInSize scr s c := by
  have hr := h.sane.ranged
  cases c with
  | createWindow p w title =>
    intro hne
    rcases findNextAvailableWindowId_cases s.session.wm with ⟨hx, _⟩ | ⟨hx, _⟩
    · exact absurd hx hne
    · apply initialRect_hasSize_iff.mp
      have hagree := hstep _ (by rw [step, createWindow_places hr hx, ok_bind]; rfl)
      have hsize := hagree.windows _ (Finset.mem_insert_self _ _)
      simp only [if_neg hne, Function.update_self, placeWindow_position, if_true] at hsize
      exact hsize
  | createPopupWindow p w caller =>
    intro hc hne
    have hagree := hstep _ (by rw [step, createPopupWindow_opens hc, ok_bind]; rfl)
    have hsize := hagree.popup hne
    simp only [if_pos hc] at hsize
    exact openedPopup_hasSize_iff.mp hsize
  | _ => trivial

/-- Every open window and the open popup have the size of their user window exactly as long
as whatever cannot be placed as requested has an even size, or that of the last popup. -/
theorem window_sizes_iff (scr : Screen) (calls : List Call) :
    Visits (step scr) SizesAgree (start scr) calls ↔
      Along (step scr) (PlacedInSize scr) (start scr) calls := by
  have hiff : ∀ s c, Invariant s → True →
      ((∀ t, step scr s c = .ok t → SizesAgree t) ↔ PlacedInSize scr s c) :=
    fun s c h _ => ⟨placedInSize_of_sizes h, fun hg t => step_sizes h hg⟩
  have hstep : ∀ s c t, Invariant s → True → PlacedInSize scr s c → step scr s c = .ok t →
      Invariant t := by
    intro s c t h _ hg ht
    refine ⟨?_, step_sizes h hg ht⟩
    obtain ⟨u, hu, ht⟩ := bind_eq_ok.mp ht
    cases ht
    exact step_sane h.sane hu
  exact visits_iff (fun _ => Invariant.sizes) hiff hstep (start_invariant scr)
    (along_of_forall (fun _ _ => trivial) _ _)

/-- A window of 201 by 200 pixels that asks for a place outside the screen. -/
def oddWindow : Window := ⟨⟨700, 901, 100, 300⟩, 1, 0, 201, 200, -1⟩

theorem odd_window_loses_pixel :
    ¬∀ (scr : Screen) (calls : List Call), Visits (step scr) SizesAgree (start scr) calls := by
  intro h
  obtain ⟨s, hs, hf⟩ := execution_of_map (step desktopScreen) (start desktopScreen)
    [.createWindow 0 oddWindow []]
    (fun s => decide (0 ∈ s.session.opened ∧
      ¬HasSize (s.session.wm.windowlist.wnd 0).position (s.created 0))) (b := true)
    (by decide +kernel)
  obtain ⟨hopen, hsize⟩ := of_decide_eq_true hf
  exact hsize (((h desktopScreen _).last hs).windows 0 hopen)

end Runs

end WindowSizes
