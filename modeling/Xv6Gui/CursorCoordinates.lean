import Xv6Gui.WindowSessions

/-!
# Coordinates relative to the window

A window gets the cursor position relative to its own top-left corner, on every path but
two: a press on its content is reported relative to the popup's rectangle, and a click on
the start icon is reported to the desktop relative to the screen. Both are right exactly
where the two corners are the same.
-/
namespace CursorCoordinates

open WindowManagerState WindowManager WindowManagerSteps WindowMessages DockClicks
open WindowMessageOutcomes WindowSessions MessageQueues MessageDeliveries LinkedSlots GuardedRuns

variable {scr : Screen} {opened : Finset ℤ} {m : Message}

/-- The first two parameters are the cursor position relative to the corner of `r`. -/
def RelativeTo (s : Wm) (r : WinRect) (x : Message) : Prop :=
  x.params 0 = some (i32 (s.wmMousePos.x - r.xmin)) ∧
    x.params 1 = some (i32 (s.wmMousePos.y - r.ymin))

/-- The mouse messages that have arrived are relative to the window's own corner. -/
def RelativeArrivals (t : Wm) (w w' : KernelWindow) : Prop :=
  ∀ x ∈ arrivals w.msgBuf w'.msgBuf, isMouse x.msgType = true → RelativeTo t w'.position x

structure Delivered (opened : Finset ℤ) (s t : Wm) : Prop where
  windows : ∀ i ∈ opened, RelativeArrivals t (s.windowlist.wnd i) (t.windowlist.wnd i)
  popup : RelativeArrivals t s.popupwindow.wnd t.popupwindow.wnd

def CoordinateLaw (scr : Screen) (s : Session) : Call → Prop
  | .wmHandleMessage m =>
    isMouse m.msgType = true → ∀ t, wmHandleMessage scr s.wm m = .ok t → Delivered s.opened s.wm t
  | _ => True

/-- The two rectangles have the same top-left corner, as `int`s. -/
def SameCorner (r r' : WinRect) : Prop := i32 (r.xmin - r'.xmin) = 0 ∧ i32 (r.ymin - r'.ymin) = 0

instance (r r' : WinRect) : Decidable (SameCorner r r') := inferInstanceAs (Decidable (_ ∧ _))

/-- A press reaches the content of window `i`, whose queue has room for the message. -/
structure PressReaches (s : Wm) (i : ℤ) : Prop where
  outside : ¬OnPopup s
  target : ∃ w, MouseTarget s w ∧ PressInBounds s w ∧ (focused (links s) w).tail = i
  content : OnContent s (s.windowlist.wnd i).position
  room : (s.windowlist.wnd i).msgBuf.cnt + (titleMessages s (s.windowlist.wnd i)).length <
    msgBufSize

/-- A click on the start icon reaches the desktop, whose queue has room for the message. -/
structure IconReaches (scr : Screen) (s : Wm) (m : Message) : Prop where
  popup : s.clickedOnPopup = false
  content : s.clickedOnContent = true
  dock : InDock scr s
  icon : StartIcon s s.wmMousePos.x m
  ends : ∃ l, Path (· = -1) s.windowlist.next s.windowlisthead l (-1)
  room : (s.windowlist.wnd s.desktopId).msgBuf.cnt < msgBufSize

def screenRect : WinRect := ⟨0, 0, 0, 0⟩

/-- The corner that is subtracted is the corner of the window the message goes to. -/
def CornersAgree (scr : Screen) (s : Session) : Call → Prop
  | .wmHandleMessage m =>
    match m.msgType with
    | .mouseDown => ∀ i ∈ s.opened, PressReaches s.wm i →
        SameCorner s.wm.popupwindow.wnd.position (s.wm.windowlist.wnd i).position
    | .mouseLeftClick | .mouseRightClick | .mouseDblclick =>
      s.wm.desktopId ∈ s.opened → IconReaches scr s.wm m →
        SameCorner screenRect (s.wm.windowlist.wnd s.wm.desktopId).position
    | _ => True
  | _ => True

theorem i32_sub_eq {x a b : ℤ} : i32 (x - a) = i32 (x - b) ↔ i32 (a - b) = 0 := by
  have h0 : i32 0 = 0 := rfl
  rw [← h0, i32_congr, i32_congr]
  omega

/-- The distance to one corner is the distance to the other where the corners agree. -/
theorem relativeTo_iff {s : Wm} {r r' : WinRect} {τ : MsgType} :
    RelativeTo s r' (relativeTo s r τ) ↔ SameCorner r r' := by
  have hx : (relativeTo s r τ).params 0 = some (i32 (s.wmMousePos.x - r.xmin)) := rfl
  have hy : (relativeTo s r τ).params 1 = some (i32 (s.wmMousePos.y - r.ymin)) := rfl
  rw [RelativeTo, hx, hy, Option.some_inj, Option.some_inj, i32_sub_eq, i32_sub_eq, SameCorner]

theorem relativeTo_self (s : Wm) (r : WinRect) (τ : MsgType) : RelativeTo s r (relativeTo s r τ) :=
  ⟨rfl, rfl⟩

section Deliveries

variable {s t : Wm} {ms : ℤ → List Message} {ps : List Message}

theorem relativeTo_posted (h : Posted ms ps s t) {r : WinRect} {x : Message} :
    RelativeTo t r x ↔ RelativeTo s r x := by
  unfold RelativeTo
  rw [h.mouse]

/-- It is enough that what arrives among the posted messages is relative to its window. -/
theorem delivered_of_arrivals (h : Posted ms ps s t)
    (hw : ∀ i ∈ opened, ∀ x ∈ arrivals (s.windowlist.wnd i).msgBuf
      (post (s.windowlist.wnd i).msgBuf (ms i)),
      isMouse x.msgType = true → RelativeTo s (s.windowlist.wnd i).position x)
    (hp : ∀ x ∈ ps, isMouse x.msgType = true → RelativeTo s s.popupwindow.wnd.position x) :
    Delivered opened s t := by
  constructor
  · intro i hi x hx hmouse
    rw [arrivals_posted h] at hx
    rw [relativeTo_posted h, h.position]
    exact hw i hi x hx hmouse
  · intro x hx hmouse
    rw [h.popup] at hx
    rw [relativeTo_posted h, h.popupPosition]
    exact hp x (mem_of_mem_arrivals hx) hmouse

theorem delivered_of_posted (h : Posted ms ps s t)
    (hw : ∀ i ∈ opened, ∀ x ∈ ms i,
      isMouse x.msgType = true → RelativeTo s (s.windowlist.wnd i).position x)
    (hp : ∀ x ∈ ps, isMouse x.msgType = true → RelativeTo s s.popupwindow.wnd.position x) :
    Delivered opened s t :=
  delivered_of_arrivals h (fun i hi x hx => hw i hi x (mem_of_mem_arrivals hx)) hp

/-- What the focused window gets is relative to the focused window. -/
theorem contentMessages_relative {i : ℤ} {τ : MsgType} {x : Message}
    (h : x ∈ sole s.windowlisttail (contentMessages s τ) i) :
    RelativeTo s (s.windowlist.wnd i).position x := by
  obtain ⟨rfl, hx⟩ := mem_sole h
  simp only [contentMessages] at hx
  split at hx
  · rw [List.mem_singleton.mp hx]
    exact relativeTo_self _ _ _
  · cases hx

theorem popupMessages_relative {τ : MsgType} {x : Message} (h : x ∈ popupMessages s τ) :
    RelativeTo s s.popupwindow.wnd.position x := by
  simp only [popupMessages] at h
  split at h
  · rw [List.mem_singleton.mp h]
    exact relativeTo_self _ _ _
  · cases h

theorem titleMessages_quiet {w : KernelWindow} {x : Message} (h : x ∈ titleMessages s w) :
    isMouse x.msgType = false := by
  simp only [titleMessages] at h
  split at h
  · split at h
    · rw [List.mem_singleton.mp h]
      rfl
    · split at h
      · rw [List.mem_singleton.mp h]
        rfl
      · cases h
  · cases h

theorem mem_pressedMessages {r : WinRect} {τ : MsgType} {x : Message} :
    x ∈ pressedMessages s r τ ↔ OnContent s r ∧ x = relativeTo s s.popupwindow.wnd.position τ := by
  simp only [pressedMessages]
  split
  · next hc => simp [hc]
  · next hc => simp [hc]

theorem titleMessages_length (s : Wm) (w : KernelWindow) : (titleMessages s w).length ≤ 1 := by
  simp only [titleMessages]
  split
  · split
    · exact Nat.le_refl 1
    · split
      · exact Nat.le_refl 1
      · exact Nat.zero_le 1
  · exact Nat.zero_le 1

theorem pressedMessages_length (s : Wm) (r : WinRect) (τ : MsgType) :
    (pressedMessages s r τ).length ≤ 1 := by
  simp only [pressedMessages]
  split
  · exact Nat.le_refl 1
  · exact Nat.zero_le 1

theorem press_length (s : Wm) (w : KernelWindow) (τ : MsgType) :
    (titleMessages s w ++ pressedMessages s w.position τ).length ≤ msgBufSize := by
  rw [List.length_append]
  exact (Nat.add_le_add (titleMessages_length s w) (pressedMessages_length s _ τ)).trans (by decide)

theorem handleMouseMove_delivered (h : handleMouseMove scr s m = .ok t) : Delivered opened s t := by
  by_cases hc : s.clickedOnTitle = true
  · have hdrag := handleMouseMove_drags hc h
    constructor
    · intro i _ x hx
      rw [hdrag.queue, arrivals_self] at hx
      cases hx
    · intro x hx
      rw [hdrag.popup, arrivals_self] at hx
      cases hx
  · have hpost := handleMouseMove_posted (Bool.eq_false_iff.mpr hc) h
    have hd : Delivered opened (followed scr s m) t :=
      delivered_of_posted hpost (fun _ _ _ hx _ => contentMessages_relative hx) (by simp)
    exact ⟨hd.windows, hd.popup⟩

theorem handleMouseUp_delivered (h : handleMouseUp s m = .ok t) : Delivered opened s t :=
  delivered_of_posted (handleMouseUp_posted h) (fun _ _ _ hx _ => contentMessages_relative hx)
    (by simp)

/-- A press is right unless it reaches content under another corner than the popup's. -/
theorem handleMouseDown_delivered (hr : Ranged (links s)) (hd : IsLink s.desktopId)
    (hg : ∀ i ∈ opened, PressReaches s i →
      SameCorner s.popupwindow.wnd.position (s.windowlist.wnd i).position)
    (h : handleMouseDown s m = .ok t) : Delivered opened s t := by
  by_cases hp : OnPopup s
  · rw [handleMouseDown, if_pos hp] at h
    cases h
    exact delivered_of_posted (.none rfl rfl rfl rfl) (by simp) (by simp)
  · obtain ⟨w, hw⟩ : ∃ w, MouseTarget s w := by
      by_contra hno
      cases (handleMouseDown_diverges hr m hp (not_exists.mp hno)).symm.trans h
    have hin : PressInBounds s w := by
      by_contra hout
      have hfault := handleMouseDown_out hr hd m hp hw hout
      rwa [h] at hfault
    obtain ⟨hpost, _⟩ := handleMouseDown_posted hr hd hp hw h
    refine delivered_of_arrivals hpost ?_ (by simp [newmsg, isMouse])
    intro i hi x hx hmouse
    by_cases hif : i = (focused (links s) w).tail
    · rw [← hif, sole_self] at hx
      have hlength := press_length s (s.windowlist.wnd i) m.msgType
      have htitle : ∀ y ∈ titleMessages s (s.windowlist.wnd i), y ≠ x := by
        rintro y hy rfl
        exact Bool.false_ne_true ((titleMessages_quiet hy).symm.trans hmouse)
      by_cases hroom : (s.windowlist.wnd i).msgBuf.cnt +
          (titleMessages s (s.windowlist.wnd i)).length < msgBufSize
      · rcases List.mem_append.mp (mem_of_mem_arrivals hx) with hx | hx
        · exact absurd rfl (htitle x hx)
        · obtain ⟨hc, hx⟩ := mem_pressedMessages.mp hx
          rw [hx]
          exact relativeTo_iff.mpr (hg i hi ⟨hp, ⟨w, hw, hin, hif.symm⟩, hc, hroom⟩)
      · exact absurd rfl (htitle x (arrivals_without_room hlength (not_lt.mp hroom) x hx))
    · rw [sole_of_ne hif, post_nil, arrivals_self] at hx
      cases hx

theorem press_sameCorner (hr : Ranged (links s)) (hd : IsLink s.desktopId)
    (hm : m.msgType = .mouseDown) {i : ℤ} (hi : i ∈ opened) (hreach : PressReaches s i)
    (hlaw : ∀ t, handleMouseDown s m = .ok t → Delivered opened s t) :
    SameCorner s.popupwindow.wnd.position (s.windowlist.wnd i).position := by
  obtain ⟨w, hw, hin, hfocus⟩ := hreach.target
  obtain ⟨t, ht, _⟩ := handleMouseDown_delivers hr hd m hreach.outside hw hin
  obtain ⟨hpost, _⟩ := handleMouseDown_posted hr hd hreach.outside hw ht
  rw [hfocus] at hpost
  have hroom : (s.windowlist.wnd i).msgBuf.cnt + ((titleMessages s (s.windowlist.wnd i) ++
      pressedMessages s (s.windowlist.wnd i).position m.msgType).length : ℤ) ≤ msgBufSize := by
    have hpressed := pressedMessages_length s (s.windowlist.wnd i).position m.msgType
    have hfree : (s.windowlist.wnd i).msgBuf.cnt +
        ((titleMessages s (s.windowlist.wnd i)).length : ℤ) < 50 := hreach.room
    rw [List.length_append]
    push_cast
    omega
  have hx : relativeTo s s.popupwindow.wnd.position m.msgType ∈
      arrivals (s.windowlist.wnd i).msgBuf (t.windowlist.wnd i).msgBuf := by
    rw [arrivals_posted hpost, sole_self, arrivals_of_room (press_length _ _ _) hroom]
    apply List.mem_append_right
    exact mem_pressedMessages.mpr ⟨hreach.content, rfl⟩
  have hmouse : isMouse (relativeTo s s.popupwindow.wnd.position m.msgType).msgType = true := by
    rw [relativeTo, newmsgAt, hm]
    rfl
  have hrel := (hlaw t ht).windows i hi _ hx hmouse
  rw [relativeTo_posted hpost, hpost.position] at hrel
  exact relativeTo_iff.mp hrel

/-- The cursor is on the screen, so its coordinates are `int`s. -/
structure OnScreen (scr : Screen) (p : Point) : Prop where
  xmin : 0 ≤ p.x
  xmax : p.x ≤ scr.screenWidth
  ymin : 0 ≤ p.y
  ymax : p.y ≤ scr.screenHeight

theorem i32_of_small {z : ℤ} (h0 : 0 ≤ z) (h1 : z < 65536) : i32 z = z := by
  rw [i32, Int.bmod_def]
  split <;> omega

/-- The start icon reports the cursor relative to the screen. -/
theorem newmsgAt_onScreen (h : OnScreen scr s.wmMousePos) (τ : MsgType) :
    newmsgAt τ s.wmMousePos.x s.wmMousePos.y = relativeTo s screenRect τ := by
  have hw := scr.width_lt
  have hh := scr.height_lt
  have hx := i32_of_small h.xmin (h.xmax.trans_lt (by omega))
  have hy := i32_of_small h.ymin (h.ymax.trans_lt (by omega))
  rw [relativeTo, screenRect, Int.sub_zero, Int.sub_zero, hx, hy]

theorem mem_iconMessages (h : OnScreen scr s.wmMousePos) {x : Message} :
    x ∈ iconMessages s s.wmMousePos.x m ↔
      StartIcon s s.wmMousePos.x m ∧ x = relativeTo s screenRect m.msgType := by
  simp only [iconMessages]
  rw [newmsgAt_onScreen h]
  split
  · next hi =>
    rw [List.mem_singleton]
    exact ⟨fun hx => ⟨hi, hx⟩, And.right⟩
  · next hi => exact ⟨fun hx => absurd hx List.not_mem_nil, fun hx => absurd hx.1 hi⟩

/-- A click is right unless it reaches a desktop whose corner is not the screen's. -/
theorem handleClick_delivered (hr : Ranged (links s)) (hs : OnScreen scr s.wmMousePos)
    (hg : s.desktopId ∈ opened → IconReaches scr s m →
      SameCorner screenRect (s.windowlist.wnd s.desktopId).position)
    (h : handleClick scr s m = .ok t) : Delivered opened s t := by
  by_cases hdock : s.clickedOnPopup = false ∧ s.clickedOnContent = true ∧ InDock scr s
  · obtain ⟨hp, hc, hdock⟩ := hdock
    have hends := dock_ends hr hp hc hdock h
    obtain ⟨ms, hquiet, hdesktop, hpost⟩ := handleClick_dock_posted hr hp hc hdock h
    refine delivered_of_arrivals hpost ?_ (by simp)
    intro i hi x hx hmouse
    rcases List.mem_append.mp (mem_of_mem_arrivals hx) with hms | hicon
    · cases (hquiet i x hms).symm.trans hmouse
    · obtain ⟨rfl, hone⟩ := mem_sole hicon
      obtain ⟨hstart, rfl⟩ := (mem_iconMessages hs).mp hone
      rw [hdesktop, sole_self, List.nil_append] at hx
      have hroom : (s.windowlist.wnd s.desktopId).msgBuf.cnt < msgBufSize := by
        by_contra hfull
        rw [arrivals_of_full (iconMessages_length _ _ _) (not_lt.mp hfull)] at hx
        cases hx
      exact relativeTo_iff.mpr (hg hi ⟨hp, hc, hdock, hstart, hends, hroom⟩)
  · exact delivered_of_posted (handleClick_posted hdock h)
      (fun _ _ _ hx _ => contentMessages_relative hx) (fun _ hx _ => popupMessages_relative hx)

theorem icon_returns (hr : Ranged (links s)) (hd : InBounds s.desktopId)
    (hreach : IconReaches scr s m) : ∃ t, handleClick scr s m = .ok t := by
  obtain ⟨l, hl⟩ := hreach.ends
  have hno : ∀ p, ¬DockFocus scr s s.wmMousePos.x p := by
    intro p hp
    have hright := hp.1.not_startIcon
    have hleft := hreach.icon.1
    omega
  obtain ⟨u, hu, hframe⟩ := handleDesktopDockClick_delivers (s := released s) (m := m) hr
    (Or.inr hd) hl hno fun _ => hd.ne_neg
  obtain ⟨t, ht, _⟩ := handleMouseUp_after_dock (m := m) (t := released s) hr.tail rfl hframe
  refine ⟨t, ?_⟩
  rw [handleClick, dispatchClick_dock hreach.popup hreach.content hreach.dock, hu, ok_bind, ht]

theorem icon_sameCorner (hr : Ranged (links s)) (hs : OnScreen scr s.wmMousePos)
    (hd : InBounds s.desktopId) (hi : s.desktopId ∈ opened) (hreach : IconReaches scr s m)
    (hlaw : ∀ t, handleClick scr s m = .ok t → Delivered opened s t) :
    SameCorner screenRect (s.windowlist.wnd s.desktopId).position := by
  obtain ⟨t, ht⟩ := icon_returns hr hd hreach
  obtain ⟨ms, _, hdesktop, hpost⟩ :=
    handleClick_dock_posted hr hreach.popup hreach.content hreach.dock ht
  have hx : relativeTo s screenRect m.msgType ∈
      arrivals (s.windowlist.wnd s.desktopId).msgBuf (t.windowlist.wnd s.desktopId).msgBuf := by
    have hicon : iconMessages s s.wmMousePos.x m = [relativeTo s screenRect m.msgType] := by
      rw [iconMessages, if_pos hreach.icon, newmsgAt_onScreen hs]
    have hlength := iconMessages_length s s.wmMousePos.x m
    rw [hicon] at hlength
    rw [arrivals_posted hpost, hdesktop, sole_self, List.nil_append, hicon,
      arrivals_of_room hlength hreach.room]
    exact List.mem_singleton_self _
  have hmouse : isMouse (relativeTo s screenRect m.msgType).msgType = true := by
    rw [relativeTo, newmsgAt, hreach.icon.2.1]
    rfl
  have hrel := (hlaw t ht).windows _ hi _ hx hmouse
  rw [relativeTo_posted hpost, hpost.position] at hrel
  exact relativeTo_iff.mp hrel

end Deliveries

section Sessions

variable {s t : Session} {c : Call}

theorem quiet_mouse (hq : Quiet c) (h : step scr s c = .ok t) :
    t.wm.wmMousePos = s.wm.wmMousePos := by
  cases hq with
  | getMessage p x => exact (getMessage_unmoved h).mouse
  | getPopupMessage p => exact (getPopupMessage_unmoved h).mouse
  | turnoffScreen p => exact (turnoffScreen_unmoved h).mouse
  | closePopupWindow p w =>
    cases h
    rfl
  | createPopupWindow p w caller =>
    by_cases hc : s.wm.popupwindow.caller = -1
    · rw [createPopupWindow_opens hc] at h
      cases h
      rfl
    · rw [createPopupWindow_refused hc h]

theorem moveMouse_onScreen (scr : Screen) (s : Wm) (dx dy : ℤ) :
    OnScreen scr (moveMouse scr s dx dy).wmMousePos := by
  have hw : (0 : ℤ) ≤ scr.screenWidth := Int.natCast_nonneg _
  have hh : (0 : ℤ) ≤ scr.screenHeight := Int.natCast_nonneg _
  simp only [moveMouse]
  generalize (if dx > -(scr.screenWidth : ℤ) ∧ dx < scr.screenWidth ∧
      dy > -(scr.screenHeight : ℤ) ∧ dx < scr.screenHeight
    then ⟨s.wmMousePos.x + dx, s.wmMousePos.y - dy⟩ else s.wmMousePos : Point) = p
  constructor <;> dsimp only [clampMousePos] <;> split <;> split <;> omega

theorem wmHandleMessage_onScreen {s t : Wm} (hr : Ranged (links s)) (hd : IsLink s.desktopId)
    (hs : OnScreen scr s.wmMousePos) (h : wmHandleMessage scr s m = .ok t) :
    OnScreen scr t.wmMousePos := by
  by_cases hm : m.msgType = .mouseMove
  · have hmove := moveMouse_onScreen scr s (m.param 0) (m.param 1)
    rw [wmHandleMessage, hm] at h
    by_cases hc : s.clickedOnTitle = true
    · rw [(handleMouseMove_drags hc h).mouse]
      exact hmove
    · rw [(handleMouseMove_posted (Bool.eq_false_iff.mpr hc) h).mouse]
      exact hmove
  · obtain ⟨_, _, hpost⟩ := wmHandleMessage_posted hr hd hm h
    rw [hpost.mouse]
    exact hs

structure Invariant (scr : Screen) (s : Session) : Prop where
  sane : Sane s
  cursor : OnScreen scr s.wm.wmMousePos
  opened : ∀ i ∈ s.opened, InBounds i

theorem start_invariant (scr : Screen) : Invariant scr (start scr) where
  sane := start_sane scr
  cursor := by
    have hw : (0 : ℤ) ≤ scr.screenWidth := Int.natCast_nonneg _
    have hh : (0 : ℤ) ≤ scr.screenHeight := Int.natCast_nonneg _
    constructor <;> dsimp only [start, initial, wmInit] <;> omega
  opened i hi := by simp [start] at hi

theorem step_invariant (h : Invariant scr s) (ht : step scr s c = .ok t) : Invariant scr t := by
  have hsane := step_sane h.sane ht
  have hr := h.sane.ranged
  have hd := h.sane.desktop
  cases hstep : step_effect hr hd ht with
  | full => exact h
  | placed hx hfree =>
    refine ⟨hsane, h.cursor, ?_⟩
    intro i hi
    rcases Finset.mem_insert.mp hi with rfl | hi
    · exact hx
    · exact h.opened i hi
  | closed hx => exact ⟨hsane, h.cursor, fun i hi => h.opened i (Finset.mem_of_mem_erase hi)⟩
  | minimized hx hs => exact ⟨hsane, h.cursor, h.opened⟩
  | maximized hx hs => exact ⟨hsane, h.cursor, h.opened⟩
  | @message m x wm hreq hx hs hframe =>
    obtain ⟨wm', hm, ht⟩ := bind_eq_ok.mp ht
    cases ht
    exact ⟨hsane, wmHandleMessage_onScreen hr hd h.cursor hm, h.opened⟩
  | quiet hq hsame hopened =>
    refine ⟨hsane, ?_, by rw [hopened]; exact h.opened⟩
    rw [quiet_mouse hq ht]
    exact h.cursor

theorem coordinateLaw_iff (h : Invariant scr s) : CoordinateLaw scr s c ↔ CornersAgree scr s c := by
  have hr := h.sane.ranged
  have hd := h.sane.desktop
  cases c with
  | wmHandleMessage m =>
    unfold CoordinateLaw CornersAgree wmHandleMessage
    cases hm : m.msgType with
    | mouseMove =>
      simp only [hm]
      exact iff_of_true (fun _ _ ht => handleMouseMove_delivered ht) trivial
    | mouseUp =>
      simp only [hm]
      exact iff_of_true (fun _ _ ht => handleMouseUp_delivered ht) trivial
    | mouseDown =>
      simp only [hm]
      constructor
      · intro hlaw i hi hreach
        exact press_sameCorner hr hd hm hi hreach (hlaw rfl)
      · intro hg _ t ht
        exact handleMouseDown_delivered hr hd hg ht
    | mouseLeftClick | mouseRightClick | mouseDblclick =>
      simp only [hm]
      constructor
      · intro hlaw hi hreach
        exact icon_sameCorner hr h.cursor (h.opened _ hi) hi hreach (hlaw rfl)
      · intro hg _ t ht
        exact handleClick_delivered hr h.cursor hg ht
    | _ => simp [hm, isMouse]
  | _ => exact Iff.rfl

/-- In every run the mouse messages are relative to the windows they are put into exactly as
long as the corner that is subtracted agrees with the window's. -/
theorem cursor_coordinates_iff (scr : Screen) (calls : List Call) :
    Along (step scr) (CoordinateLaw scr) (start scr) calls ↔
      Along (step scr) (CornersAgree scr) (start scr) calls := by
  have hiff : ∀ s c, Invariant scr s → True → (CoordinateLaw scr s c ↔ CornersAgree scr s c) :=
    fun _ _ h _ => coordinateLaw_iff h
  have hstep : ∀ s c t, Invariant scr s → True → CornersAgree scr s c → step scr s c = .ok t →
      Invariant scr t := fun _ _ _ h _ _ => step_invariant h
  exact along_iff hiff hstep (start_invariant scr) (along_of_forall (fun _ _ => trivial) _ _)

/-- The cursor is brought from the middle of the screen to the content of the window at
(100, 100), where no popup has been opened yet. -/
def cursorOnWindow : List Call :=
  twoWindows ++ [.wmHandleMessage (newmsgAt .mouseMove (-200) 100)]

def press : Message := newmsg .mouseDown

/-- What the window of slot 1 gets of a press. -/
def pressArrivals (s : Wm) : Except Fault (List Message × Point × WinRect) :=
  (wmHandleMessage desktopScreen s press).map fun t =>
    (arrivals (s.windowlist.wnd 1).msgBuf (t.windowlist.wnd 1).msgBuf, t.wmMousePos,
      (t.windowlist.wnd 1).position)

theorem press_relative_to_popup :
    ¬∀ (scr : Screen) (calls : List Call),
      Along (step scr) (CoordinateLaw scr) (start scr) calls := by
  intro h
  obtain ⟨s, hs, hf⟩ := execution_of_map (step desktopScreen) (start desktopScreen) cursorOnWindow
    (fun s => (decide (1 ∈ s.opened), decide (pressArrivals s.wm =
      .ok ([newmsgAt .mouseDown 200 200], ⟨200, 200⟩, ⟨100, 300, 100, 300⟩)))) (b := (true, true))
    (by decide +kernel)
  obtain ⟨hopen, harrived⟩ := Prod.mk.inj hf
  have hlaw := (h desktopScreen (cursorOnWindow ++ .wmHandleMessage press :: [])).reached hs rfl
  have hok := of_decide_eq_true harrived
  simp only [pressArrivals] at hok
  cases ht : wmHandleMessage desktopScreen s.wm press with
  | error e =>
    rw [ht] at hok
    cases hok
  | ok t =>
    rw [ht] at hok
    obtain ⟨hmsg, hrest⟩ := Prod.mk.inj (Except.ok.inj hok)
    obtain ⟨hpos, hrect⟩ := Prod.mk.inj hrest
    have hx : newmsgAt .mouseDown 200 200 ∈
        arrivals (s.wm.windowlist.wnd 1).msgBuf (t.windowlist.wnd 1).msgBuf :=
      hmsg ▸ List.mem_singleton_self _
    have hrel := ((hlaw t ht).windows 1 (of_decide_eq_true hopen) _ hx rfl).1
    rw [hpos, hrect] at hrel
    exact absurd hrel (by decide)

end Sessions

end CursorCoordinates
