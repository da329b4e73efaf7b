import Xv6Gui.WindowSessions

/-!
# Presses, drags and releases

What the code remembers of a press is that the title bar or the content was hit. Which window
it was is looked up again at each message, as the tail of the list, and any process may move
the focus in between. A ghost record keeps the windows that were pressed. A slot outlives its
window: the record forgets the slot of a pressed window when it is closed.
-/
namespace WindowGestures

open WindowManagerState WindowManager WindowManagerSteps WindowMessages DockClicks
open WindowMessageOutcomes WindowSessions MessageQueues MessageDeliveries LinkedSlots GuardedRuns

/-- A session and the windows whose press has not been released, each by its slot, or `none`
for one that is gone. -/
structure Tracked where
  session : Session
  pressed : Finset (Option ℤ)

instance (s : Wm) : Decidable (Clicked s) := inferInstanceAs (Decidable (_ ∨ _))

variable (scr : Screen)

def start : Tracked := ⟨WindowSessions.start scr, ∅⟩

/-- A press records the window it leaves focused; clearing the flags ends the gesture. -/
def track (pressed : Finset (Option ℤ)) (m : Message) (t : Wm) : Finset (Option ℤ) :=
  if Clicked t then
    if m.msgType = .mouseDown then insert (some t.windowlisttail) pressed else pressed
  else ∅

/-- The slot whose window a call ends: the one that is closed, or given to a new window. -/
def vacated (s : Wm) : Call → Option ℤ
  | .closeWindow _ window => some window.handler
  | .createWindow myproc window title =>
    match createWindow scr s myproc window title with
    | .ok (ret, _, window) => if ret = 0 then some window.handler else none
    | .error _ => none
  | _ => none

/-- A pressed window that is gone stays in the record, as no slot. -/
def forget (slot : Option ℤ) (pressed : Finset (Option ℤ)) : Finset (Option ℤ) :=
  pressed.image fun w => if w = slot then none else w

def step (s : Tracked) (c : Call) : Except Fault Tracked := do
  let t ← WindowSessions.step scr s.session c
  return ⟨t, match c with
    | .wmHandleMessage m => track s.pressed m t.wm
    | _ => forget (vacated scr s.session.wm c) s.pressed⟩

/-- The messages of a gesture after its press. -/
def isGesture : MsgType → Bool
  | .mouseMove | .mouseUp | .mouseLeftClick | .mouseRightClick | .mouseDblclick => true
  | _ => false

/-- No listed window other than `w` is moved or gets a mouse message. -/
structure StaysWith (opened : Finset ℤ) (w : Option ℤ) (s t : Wm) : Prop where
  position : ∀ i ∈ opened, some i ≠ w →
    (t.windowlist.wnd i).position = (s.windowlist.wnd i).position
  queue : ∀ i ∈ opened, some i ≠ w →
    ∀ x ∈ arrivals (s.windowlist.wnd i).msgBuf (t.windowlist.wnd i).msgBuf,
      isMouse x.msgType = false

def GestureLaw (s : Tracked) : Call → Prop
  | .wmHandleMessage m => isGesture m.msgType = true →
      ∀ t, wmHandleMessage scr s.session.wm m = .ok t →
        ∀ w ∈ s.pressed, StaysWith s.session.opened w s.session.wm t
  | _ => True

/-- The focused window has a pressed content and room for a message about it. -/
def TakesContent (s : Wm) : Prop :=
  s.clickedOnContent = true ∧ (s.windowlist.wnd s.windowlisttail).msgBuf.cnt < msgBufSize

instance (s : Wm) : Decidable (TakesContent s) := inferInstanceAs (Decidable (_ ∧ _))

/-- The message is for the focused window: it drags it or is put into its queue. -/
def ForFocused (s : Wm) (m : Message) : Prop :=
  match m.msgType with
  | .mouseMove =>
    if s.clickedOnTitle then (s.windowlist.wnd s.windowlisttail).hasTitleBar ≠ 0
    else TakesContent s
  | .mouseUp => TakesContent s
  | .mouseLeftClick | .mouseRightClick | .mouseDblclick =>
    TakesContent s ∧ (s.clickedOnPopup = false → InDock scr s → StartIcon s s.wmMousePos.x m)
  | _ => False

instance (s : Wm) (m : Message) : Decidable (ForFocused scr s m) := by
  simp only [ForFocused]
  split <;> infer_instance

/-- What reaches the focused window during a gesture reaches the window that was pressed. -/
def FocusKept (s : Tracked) : Call → Prop
  | .wmHandleMessage m => s.session.wm.windowlisttail ∈ s.session.opened →
      ForFocused scr s.session.wm m → ∀ w ∈ s.pressed, w = some s.session.wm.windowlisttail
  | _ => True

instance (s : Tracked) : (c : Call) → Decidable (FocusKept scr s c)
  | .wmHandleMessage _ => inferInstanceAs (Decidable (_ → _ → _))
  | .createWindow _ _ _ | .closeWindow _ _ | .minimizeWindow _ _ | .maximizeWindow _ _
  | .getMessage _ _ | .createPopupWindow _ _ _ | .closePopupWindow _ _ | .getPopupMessage _
  | .turnoffScreen _ => inferInstanceAs (Decidable True)

variable {scr} {opened : Finset ℤ} {m : Message}

section Deliveries

variable {s t : Wm} {w : Option ℤ} {ms : ℤ → List Message} {ps : List Message}

/-- Messages to the focused window stay with `w` where only `w` is focused and has room. -/
theorem staysWith_of_content {τ : MsgType}
    (h : Posted (sole s.windowlisttail (contentMessages s τ)) ps s t)
    (hf : s.windowlisttail ∈ opened → TakesContent s → w = some s.windowlisttail) :
    StaysWith opened w s t := by
  refine ⟨fun i _ _ => h.position i, ?_⟩
  intro i hi hne x hx
  rw [arrivals_posted h] at hx
  obtain ⟨rfl, hmem⟩ := mem_sole (mem_of_mem_arrivals hx)
  exfalso
  rw [sole_self] at hx
  have hcontent : s.clickedOnContent = true := by
    by_contra hc
    rw [contentMessages, if_neg hc] at hmem
    cases hmem
  by_cases hroom : (s.windowlist.wnd s.windowlisttail).msgBuf.cnt < msgBufSize
  · exact hne (hf hi ⟨hcontent, hroom⟩).symm
  · rw [arrivals_of_full (contentMessages_length _ _) (not_lt.mp hroom)] at hx
    cases hx

theorem staysWith_of_drag (h : DragsTail scr m s t)
    (hf : s.windowlisttail ∈ opened → (s.windowlist.wnd s.windowlisttail).hasTitleBar ≠ 0 →
      w = some s.windowlisttail) : StaysWith opened w s t := by
  constructor
  · intro i hi hne
    by_cases hit : i = s.windowlisttail
    · subst hit
      have hbar : (s.windowlist.wnd s.windowlisttail).hasTitleBar = 0 := by
        by_contra hbar
        exact hne (hf hi hbar).symm
      rw [h.tail, dragged, if_neg (by simp [hbar])]
    · rw [h.other i hit]
  · intro i _ _ x hx
    rw [h.queue, arrivals_self] at hx
    cases hx

theorem handleMouseMove_staysWith (hm : m.msgType = .mouseMove)
    (hf : s.windowlisttail ∈ opened → ForFocused scr s m → w = some s.windowlisttail)
    (h : handleMouseMove scr s m = .ok t) : StaysWith opened w s t := by
  simp only [ForFocused, hm] at hf
  by_cases hc : s.clickedOnTitle = true
  · simp only [if_pos hc] at hf
    exact staysWith_of_drag (handleMouseMove_drags hc h) hf
  · simp only [if_neg hc] at hf
    have hpost := handleMouseMove_posted (Bool.eq_false_iff.mpr hc) h
    have hstays : StaysWith opened w (followed scr s m) t := by
      apply staysWith_of_content (s := followed scr s m) hpost
      intro hi htakes
      exact hf hi ⟨htakes.1, htakes.2⟩
    exact ⟨hstays.position, hstays.queue⟩

theorem handleClick_staysWith (hr : Ranged (links s))
    (hf : s.windowlisttail ∈ opened → TakesContent s →
      (s.clickedOnPopup = false → InDock scr s → StartIcon s s.wmMousePos.x m) →
      w = some s.windowlisttail)
    (h : handleClick scr s m = .ok t) : StaysWith opened w s t := by
  by_cases hdock : s.clickedOnPopup = false ∧ s.clickedOnContent = true ∧ InDock scr s
  · obtain ⟨hp, hc, hdock⟩ := hdock
    obtain ⟨ms, hquiet, hdesktop, hpost⟩ := handleClick_dock_posted hr hp hc hdock h
    refine ⟨fun i _ _ => hpost.position i, ?_⟩
    intro i hi hne x hx
    rw [arrivals_posted hpost] at hx
    rcases List.mem_append.mp (mem_of_mem_arrivals hx) with hms | hicon
    · exact hquiet i x hms
    · obtain ⟨hid, hone⟩ := mem_sole hicon
      have htail : i = s.windowlisttail := hid.trans hdock.1.symm
      subst htail
      exfalso
      have hstart : StartIcon s s.wmMousePos.x m := by
        by_contra hno
        rw [iconMessages, if_neg hno] at hone
        cases hone
      have hroom : ¬(s.windowlist.wnd s.windowlisttail).msgBuf.cnt < msgBufSize := by
        intro hroom
        exact hne (hf hi ⟨hc, hroom⟩ fun _ _ => hstart).symm
      rw [hid, hdesktop, sole_self] at hx
      rw [hid] at hroom
      rw [List.nil_append, arrivals_of_full (iconMessages_length _ _ _) (not_lt.mp hroom)] at hx
      cases hx
  · apply staysWith_of_content (handleClick_posted hdock h)
    intro hi htakes
    exact hf hi htakes fun hp hd => absurd ⟨hp, htakes.1, hd⟩ hdock

theorem wmHandleMessage_staysWith (hr : Ranged (links s)) (hm : isGesture m.msgType = true)
    (hf : s.windowlisttail ∈ opened → ForFocused scr s m → w = some s.windowlisttail)
    (h : wmHandleMessage scr s m = .ok t) : StaysWith opened w s t := by
  simp only [wmHandleMessage] at h
  cases hτ : m.msgType with
  | mouseMove =>
    rw [hτ] at h
    exact handleMouseMove_staysWith hτ hf h
  | mouseUp =>
    rw [hτ] at h
    simp only [ForFocused, hτ] at hf
    exact staysWith_of_content (handleMouseUp_posted h) hf
  | mouseLeftClick | mouseRightClick | mouseDblclick =>
    rw [hτ] at h
    simp only [ForFocused, hτ] at hf
    exact handleClick_staysWith hr (fun hi htakes hd => hf hi ⟨htakes, hd⟩) h
  | _ => simp [hτ, isGesture] at hm

end Deliveries

/-- A drag stays with the window that was pressed in every run in which that window is still
open and focused when a message is for the focused one. -/
theorem gesture_stays_with_window (scr : Screen) (calls : List Call)
    (hf : Along (step scr) (FocusKept scr) (start scr) calls) :
    Along (step scr) (GestureLaw scr) (start scr) calls := by
  have hlaw : ∀ s c, Sane s.session → FocusKept scr s c → GestureLaw scr s c := by
    intro s c hs hk
    cases c with
    | wmHandleMessage m =>
      intro hm t ht w hw
      exact wmHandleMessage_staysWith hs.ranged hm (fun hi hfor => hk hi hfor w hw) ht
    | _ => trivial
  have hstep : ∀ s c t, Sane s.session → FocusKept scr s c → step scr s c = .ok t →
      Sane t.session := by
    intro s c t hs _ ht
    obtain ⟨u, hu, ht⟩ := bind_eq_ok.mp ht
    cases ht
    exact step_sane hs hu
  exact along_of_invariant hlaw hstep (start_sane scr) hf

/-- The title bar of the window at (100, 100) is pressed. -/
def pressOnTitle : List Call :=
  twoWindows ++ [.wmHandleMessage (newmsgAt .mouseMove (-200) 210),
    .wmHandleMessage (newmsg .mouseDown)]

/-- The window is dragged ten pixels to the right, released and closed; then the window that
gets its slot is dragged. -/
def dragAndRelease : List Call :=
  pressOnTitle ++ [.wmHandleMessage (newmsgAt .mouseMove 10 0), .wmHandleMessage (newmsg .mouseUp),
    .closeWindow 1 (appWindow 1), .createWindow 2 (appWindow (-1)) [],
    .wmHandleMessage (newmsg .mouseDown), .wmHandleMessage (newmsgAt .mouseMove 10 0)]

theorem drag_and_release_stays :
    Along (step desktopScreen) (GestureLaw desktopScreen) (start desktopScreen) dragAndRelease :=
  gesture_stays_with_window desktopScreen dragAndRelease (by decide +kernel)

/-- While the title bar is held another process opens a window, which takes the focus. -/
def pressThenCreate : List Call := pressOnTitle ++ [.createWindow 2 (appWindow (-1)) []]

/-- The window of slot 2 after a move of ten pixels. -/
def rectAfterMove (s : Wm) : Except Fault WinRect :=
  (wmHandleMessage desktopScreen s (newmsgAt .mouseMove 10 0)).map fun t =>
    (t.windowlist.wnd 2).position

/-- The drag of one window moves the window that was opened meanwhile. -/
theorem drag_moves_new_window :
    ¬∀ (scr : Screen) (calls : List Call), Along (step scr) (GestureLaw scr) (start scr) calls := by
  intro h
  obtain ⟨s, hs, hf⟩ := execution_of_map (step desktopScreen) (start desktopScreen) pressThenCreate
    (fun s => (decide (some 1 ∈ s.pressed ∧ 2 ∈ s.session.opened ∧
      (s.session.wm.windowlist.wnd 2).position = ⟨100, 300, 100, 300⟩ ∧
      rectAfterMove s.session.wm = .ok ⟨110, 310, 100, 300⟩))) (b := true) (by decide +kernel)
  obtain ⟨hpressed, hopen, hbefore, hafter⟩ := of_decide_eq_true hf
  have hlaw := (h desktopScreen (pressThenCreate ++
    .wmHandleMessage (newmsgAt .mouseMove 10 0) :: [])).reached hs rfl
  simp only [rectAfterMove] at hafter
  cases ht : wmHandleMessage desktopScreen s.session.wm (newmsgAt .mouseMove 10 0) with
  | error e =>
    rw [ht] at hafter
    cases hafter
  | ok t =>
    rw [ht] at hafter
    have hmoved : (t.windowlist.wnd 2).position = ⟨110, 310, 100, 300⟩ := Except.ok.inj hafter
    have hsame := (hlaw t ht (some 1) hpressed).position 2 hopen (by decide)
    rw [hmoved, hbefore] at hsame
    exact absurd hsame (by decide)

end WindowGestures
