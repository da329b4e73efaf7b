import Xv6Gui.WindowMessageOutcomes
import Xv6Gui.MessageQueues

/-!
# Where messages go

For each handler of a driver's message: which messages it puts into whose queue, when it
returns. The mouse position, the rectangles and the popup are as the handler leaves them.
-/
namespace MessageDeliveries

open WindowManagerState WindowManager WindowManagerSteps WindowMessages DockClicks
open WindowMessageOutcomes MessageQueues LinkedSlots GuardedRuns

variable {scr : Screen} {s t u : Wm} {m : Message} {ms ms' : ℤ → List Message}
  {ps ps' : List Message}

/-- The messages that the drivers' mouse messages turn into. -/
def isMouse : MsgType → Bool
  | .mouseMove | .mouseDown | .mouseUp | .mouseLeftClick | .mouseRightClick | .mouseDblclick => true
  | _ => false

/-- `t` is `s` after the messages `ms i` for each window `i` and `ps` for the popup. -/
structure Posted (ms : ℤ → List Message) (ps : List Message) (s t : Wm) : Prop where
  queue : ∀ i, (t.windowlist.wnd i).msgBuf = post (s.windowlist.wnd i).msgBuf (ms i)
  popup : t.popupwindow.wnd.msgBuf = post s.popupwindow.wnd.msgBuf ps
  position : ∀ i, (t.windowlist.wnd i).position = (s.windowlist.wnd i).position
  popupPosition : t.popupwindow.wnd.position = s.popupwindow.wnd.position
  caller : t.popupwindow.caller = s.popupwindow.caller
  mouse : t.wmMousePos = s.wmMousePos
  desktopId : t.desktopId = s.desktopId

/-- Messages for one window. -/
def sole (p : ℤ) (l : List Message) : ℤ → List Message := fun i => if i = p then l else []

@[simp] theorem sole_self (p : ℤ) (l : List Message) : sole p l p = l := if_pos rfl

theorem sole_of_ne {p i : ℤ} (h : i ≠ p) (l : List Message) : sole p l i = [] := if_neg h

theorem mem_sole {p i : ℤ} {l : List Message} {x : Message} (h : x ∈ sole p l i) :
    i = p ∧ x ∈ l := by
  by_cases hi : i = p
  · subst hi
    exact ⟨rfl, sole_self i l ▸ h⟩
  · rw [sole_of_ne hi] at h
    cases h

theorem sole_append (p : ℤ) (l l' : List Message) :
    (fun i => sole p l i ++ sole p l' i) = sole p (l ++ l') := by
  funext i
  by_cases h : i = p
  · rw [h, sole_self, sole_self, sole_self]
  · rw [sole_of_ne h, sole_of_ne h, sole_of_ne h, List.append_nil]

theorem sole_nil (p : ℤ) : sole p [] = fun _ => [] := by
  funext i
  by_cases h : i = p
  · rw [h, sole_self]
  · exact sole_of_ne h _

theorem Posted.trans (h : Posted ms ps s t) (k : Posted ms' ps' t u) :
    Posted (fun i => ms i ++ ms' i) (ps ++ ps') s u where
  queue i := by rw [k.queue, h.queue, post_append]
  popup := by rw [k.popup, h.popup, post_append]
  position i := (k.position i).trans (h.position i)
  popupPosition := k.popupPosition.trans h.popupPosition
  caller := k.caller.trans h.caller
  mouse := k.mouse.trans h.mouse
  desktopId := k.desktopId.trans h.desktopId

/-- The links and the flags may change without a message. -/
theorem Posted.none (hw : t.windowlist.wnd = s.windowlist.wnd) (hp : t.popupwindow = s.popupwindow)
    (hm : t.wmMousePos = s.wmMousePos) (hd : t.desktopId = s.desktopId) :
    Posted (fun _ => []) [] s t where
  queue i := by rw [hw]; rfl
  popup := by rw [hp]; rfl
  position i := by rw [hw]
  popupPosition := by rw [hp]
  caller := by rw [hp]
  mouse := hm
  desktopId := hd

theorem Posted.refl (s : Wm) : Posted (fun _ => []) [] s s := .none rfl rfl rfl rfl

theorem Posted.silent_trans (h : Posted (fun _ => []) [] s t) (k : Posted ms ps t u) :
    Posted ms ps s u := h.trans k

theorem Posted.trans_silent (h : Posted ms ps s t) (k : Posted (fun _ => []) [] t u) :
    Posted ms ps s u := by
  have hk := h.trans k
  simp only [List.append_nil] at hk
  exact hk

theorem arrivals_posted (h : Posted ms ps s t) (i : ℤ) :
    arrivals (s.windowlist.wnd i).msgBuf (t.windowlist.wnd i).msgBuf =
      arrivals (s.windowlist.wnd i).msgBuf (post (s.windowlist.wnd i).msgBuf (ms i)) := by
  rw [h.queue]

theorem dispatchTo_posted {p : ℤ} (h : dispatchTo s p m = .ok t) :
    Posted (sole p [m]) [] s t ∧ t.windowlisttail = s.windowlisttail ∧
      t.clickedOnContent = s.clickedOnContent := by
  obtain ⟨_, rfl⟩ := setWnd_eq_ok.mp h
  refine ⟨⟨?_, rfl, ?_, rfl, rfl, rfl, rfl⟩, rfl, rfl⟩
  · intro i
    by_cases hi : i = p
    · subst hi
      simp [updateWnd, post]
    · simp [updateWnd, hi, sole_of_ne hi]
  · intro i
    by_cases hi : i = p
    · subst hi
      simp [updateWnd]
    · simp [updateWnd, hi]

theorem dispatchToPopup_posted (s : Wm) (m : Message) :
    Posted (fun _ => []) [m] s (dispatchToPopup s m) :=
  ⟨fun _ => rfl, rfl, fun _ => rfl, rfl, rfl, rfl, rfl⟩

theorem focusWindow_ok (hr : Ranged (links s)) {x : ℤ} (hx : IsLink x)
    (h : focusWindow s x = .ok t) : t = setLinks s (focused (links s) x) := by
  by_cases hs : FocusSafe (links s) x
  · rw [focusWindow_safe hr hx hs] at h
    exact (Except.ok.inj h).symm
  · have hout := focusWindow_faults hr hx hs
    rw [h] at hout
    exact hout.elim

theorem setLinks_posted (s : Wm) (k : LinkedSlots.Links ℤ) :
    Posted (fun _ => []) [] s (setLinks s k) :=
  .none rfl rfl rfl rfl

theorem dispatchToFocused_posted {τ : MsgType} (h : dispatchToFocused s τ = .ok t) :
    Posted (sole s.windowlisttail
      [relativeTo s (s.windowlist.wnd s.windowlisttail).position τ]) [] s t ∧
      t.clickedOnContent = s.clickedOnContent := by
  obtain ⟨p, hp, h⟩ := bind_eq_ok.mp h
  obtain ⟨_, rfl⟩ := index_eq_ok.mp hp
  obtain ⟨hpost, _, hcontent⟩ := dispatchTo_posted h
  exact ⟨hpost, hcontent⟩

/-- The message to the focused window of a press that was on its content. -/
def contentMessages (s : Wm) (τ : MsgType) : List Message :=
  if s.clickedOnContent then [relativeTo s (s.windowlist.wnd s.windowlisttail).position τ] else []

theorem contentMessages_length (s : Wm) (τ : MsgType) :
    (contentMessages s τ).length ≤ msgBufSize := by
  simp only [contentMessages]
  split
  · exact Nat.succ_le_succ (Nat.zero_le 49)
  · exact Nat.zero_le _

theorem handleMouseUp_posted (h : handleMouseUp s m = .ok t) :
    Posted (sole s.windowlisttail (contentMessages s m.msgType)) [] s t := by
  rw [handleMouseUp] at h
  dsimp only at h
  split at h
  · next hc =>
    obtain ⟨u, hu, h⟩ := bind_eq_ok.mp h
    cases h
    rw [contentMessages, if_pos hc]
    have hflags : Posted (fun _ => []) [] s
        { s with clickedOnContent := false, clickedOnPopup := false } := .none rfl rfl rfl rfl
    exact (hflags.silent_trans (dispatchToFocused_posted hu).1).trans_silent (.none rfl rfl rfl rfl)
  · next hc =>
    cases h
    rw [contentMessages, if_neg hc, sole_nil]
    exact .none rfl rfl rfl rfl

section Press

/-- What the title strip sends to the window. -/
def titleMessages (s : Wm) (w : KernelWindow) : List Message :=
  if isInRect w.position.xmin (i32 (w.position.ymin - titleHeight)) w.position.xmax w.position.ymin
      s.wmMousePos.x s.wmMousePos.y then
    if s.wmMousePos.x + 30 > w.position.xmax then [newmsg .windowClose]
    else if s.wmMousePos.x + 60 > w.position.xmax ∧ s.wmMousePos.x + 30 ≤ w.position.xmax then
      [newmsg .windowMinimize]
    else []
  else []

/-- The cursor is on the content of a window with this rectangle. -/
def OnContent (s : Wm) (r : WinRect) : Prop :=
  isInRect r.xmin r.ymin r.xmax r.ymax s.wmMousePos.x s.wmMousePos.y = true

instance (s : Wm) (r : WinRect) : Decidable (OnContent s r) :=
  inferInstanceAs (Decidable (_ = true))

/-- What a press on the content sends to the window. -/
def pressedMessages (s : Wm) (r : WinRect) (τ : MsgType) : List Message :=
  if OnContent s r then [relativeTo s s.popupwindow.wnd.position τ] else []

theorem pressTitleBar_posted {w : KernelWindow} (h : pressTitleBar s w = .ok t) :
    Posted (sole s.windowlisttail (titleMessages s w)) [] s t ∧
      t.windowlisttail = s.windowlisttail := by
  simp only [pressTitleBar] at h
  simp only [titleMessages]
  split at h
  · next hstrip =>
    rw [if_pos hstrip]
    split at h
    · next hclose =>
      rw [if_pos hclose]
      obtain ⟨hpost, htail, _⟩ := dispatchTo_posted h
      exact ⟨hpost, htail⟩
    · next hclose =>
      rw [if_neg hclose]
      split at h
      · next hmin =>
        rw [if_pos hmin]
        obtain ⟨hpost, htail, _⟩ := dispatchTo_posted h
        exact ⟨hpost, htail⟩
      · next hmin =>
        cases h
        rw [if_neg hmin, sole_nil]
        exact ⟨.none rfl rfl rfl rfl, rfl⟩
  · next hstrip =>
    cases h
    rw [if_neg hstrip, sole_nil]
    exact ⟨.refl _, rfl⟩

theorem pressContent_posted {w : KernelWindow} {τ : MsgType} (h : pressContent s w τ = .ok t) :
    Posted (sole s.windowlisttail (pressedMessages s w.position τ)) [] s t ∧
      t.windowlisttail = s.windowlisttail := by
  simp only [pressContent] at h
  split at h
  · next hc =>
    obtain ⟨hpost, htail, _⟩ := dispatchTo_posted h
    rw [pressedMessages, if_pos (by exact hc)]
    have hflag : Posted (fun _ => []) [] s { s with clickedOnContent := true } :=
      .none rfl rfl rfl rfl
    exact ⟨hflag.silent_trans hpost, htail⟩
  · next hc =>
    cases h
    rw [pressedMessages, if_neg (by exact hc), sole_nil]
    exact ⟨.refl _, rfl⟩

/-- What a press on the content sends depends on the cursor and the rectangles only. -/
theorem Posted.pressedMessages (h : Posted ms ps s t) (r : WinRect) (τ : MsgType) :
    pressedMessages t r τ = pressedMessages s r τ := by
  have hc : OnContent t r ↔ OnContent s r := by
    unfold OnContent
    rw [h.mouse]
  have hm : relativeTo t t.popupwindow.wnd.position τ =
      relativeTo s s.popupwindow.wnd.position τ := by
    unfold relativeTo
    rw [h.mouse, h.popupPosition]
  simp only [MessageDeliveries.pressedMessages]
  rw [hm]
  exact if_congr hc rfl rfl

/-- A press outside the popup goes to the window it focuses, which is the tail afterwards. -/
theorem handleMouseDown_posted (hr : Ranged (links s)) (hd : IsLink s.desktopId)
    (hp : ¬OnPopup s) {w : ℤ} (hw : MouseTarget s w) (h : handleMouseDown s m = .ok t) :
    Posted (sole (focused (links s) w).tail
        (titleMessages s (s.windowlist.wnd (focused (links s) w).tail) ++
          pressedMessages s (s.windowlist.wnd (focused (links s) w).tail).position m.msgType))
      [newmsg .windowClose] s t ∧ t.windowlisttail = (focused (links s) w).tail := by
  rw [handleMouseDown_eq hr m hp hw] at h
  obtain ⟨u, hu, h⟩ := bind_eq_ok.mp h
  have hfocus := focusWindow_ok (s := dispatchToPopup s (newmsg .windowClose)) hr
    (hw.isLink hr hd) hu
  subst hfocus
  rw [links_dispatchToPopup, setLinks_dispatchToPopup] at h
  obtain ⟨p, hpos, h⟩ := bind_eq_ok.mp h
  obtain ⟨_, rfl⟩ := index_eq_ok.mp hpos
  obtain ⟨v, hv, h⟩ := bind_eq_ok.mp h
  have hfirst := (setLinks_posted s (focused (links s) w)).silent_trans
    (dispatchToPopup_posted _ (newmsg .windowClose))
  obtain ⟨hstrip, hvtail⟩ := pressTitleBar_posted hv
  obtain ⟨hcontent, httail⟩ := pressContent_posted h
  rw [hstrip.position, hstrip.pressedMessages, hvtail] at hcontent
  have hall := (hfirst.trans hstrip).trans hcontent
  refine ⟨?_, httail.trans hvtail⟩
  rw [← sole_append]
  exact hall

end Press

section Move

/-- What dragging the title bar by `dx` and `dy` makes of a window. -/
def dragged (dx dy : ℤ) (w : KernelWindow) : KernelWindow :=
  if w.hasTitleBar ≠ 0 then { w with position := moveRect w.position dx dy } else w

/-- The state after the cursor has followed a move. -/
def followed (scr : Screen) (s : Wm) (m : Message) : Wm := moveMouse scr s (m.param 0) (m.param 1)

theorem dragged_msgBuf (dx dy : ℤ) (w : KernelWindow) : (dragged dx dy w).msgBuf = w.msgBuf := by
  simp only [dragged]
  split
  · rfl
  · rfl

/-- `t` is `s` after a move that drags the window at the tail by its title bar. -/
structure DragsTail (scr : Screen) (m : Message) (s t : Wm) : Prop where
  queue : ∀ i, (t.windowlist.wnd i).msgBuf = (s.windowlist.wnd i).msgBuf
  popup : t.popupwindow = s.popupwindow
  mouse : t.wmMousePos = (followed scr s m).wmMousePos
  tail : t.windowlist.wnd s.windowlisttail =
    dragged ((followed scr s m).wmMousePos.x - s.wmMousePos.x)
      ((followed scr s m).wmMousePos.y - s.wmMousePos.y) (s.windowlist.wnd s.windowlisttail)
  other : ∀ i, i ≠ s.windowlisttail → t.windowlist.wnd i = s.windowlist.wnd i

theorem handleMouseMove_drags (hc : s.clickedOnTitle = true) (h : handleMouseMove scr s m = .ok t) :
    DragsTail scr m s t := by
  unfold handleMouseMove at h
  dsimp only at h
  rw [if_pos (by exact hc)] at h
  obtain ⟨_, rfl⟩ := setWnd_eq_ok.mp h
  have htail := Function.update_self (f := s.windowlist.wnd) s.windowlisttail
    (dragged ((followed scr s m).wmMousePos.x - s.wmMousePos.x)
      ((followed scr s m).wmMousePos.y - s.wmMousePos.y) (s.windowlist.wnd s.windowlisttail))
  have hother := fun i (hi : i ≠ s.windowlisttail) =>
    Function.update_of_ne (f := s.windowlist.wnd) hi
      (dragged ((followed scr s m).wmMousePos.x - s.wmMousePos.x)
        ((followed scr s m).wmMousePos.y - s.wmMousePos.y) (s.windowlist.wnd s.windowlisttail))
  refine ⟨?_, rfl, rfl, htail, hother⟩
  intro i
  by_cases hi : i = s.windowlisttail
  · subst hi
    exact (congrArg KernelWindow.msgBuf htail).trans (dragged_msgBuf _ _ _)
  · exact congrArg KernelWindow.msgBuf (hother i hi)

theorem handleMouseMove_posted (hc : s.clickedOnTitle = false)
    (h : handleMouseMove scr s m = .ok t) :
    Posted (sole s.windowlisttail (contentMessages (followed scr s m) m.msgType)) []
      (followed scr s m) t := by
  unfold handleMouseMove at h
  dsimp only at h
  rw [if_neg (by simp [moveMouse, hc])] at h
  split at h
  · next hcontent =>
    rw [contentMessages, if_pos (by exact hcontent)]
    exact (dispatchToFocused_posted h).1
  · next hcontent =>
    cases h
    rw [contentMessages, if_neg (by exact hcontent), sole_nil]
    exact .refl _

end Move

section Dock

/-- The dock tells windows other than the desktop to show or to hide themselves. -/
structure Notified (s t : Wm) (ms : ℤ → List Message) : Prop where
  posted : Posted ms [] s t
  quiet : ∀ i, ∀ x ∈ ms i, isMouse x.msgType = false
  desktop : ms s.desktopId = []
  content : t.clickedOnContent = s.clickedOnContent

theorem Notified.none (hp : Posted (fun _ => []) [] s t)
    (hc : t.clickedOnContent = s.clickedOnContent) : Notified s t fun _ => [] where
  posted := hp
  quiet i x hx := by cases hx
  desktop := rfl
  content := hc

theorem Notified.trans (h : Notified s t ms) (k : Notified t u ms') :
    Notified s u fun i => ms i ++ ms' i where
  posted := h.posted.trans k.posted
  quiet i x hx := (List.mem_append.mp hx).elim (h.quiet i x) (k.quiet i x)
  desktop := by
    have hk := k.desktop
    rw [h.posted.desktopId] at hk
    rw [h.desktop, hk]
    rfl
  content := k.content.trans h.content

theorem dispatchTo_notified {p : ℤ} {τ : MsgType} (hp : p ≠ s.desktopId) (hτ : isMouse τ = false)
    (h : dispatchTo s p (newmsg τ) = .ok t) : Notified s t (sole p [newmsg τ]) := by
  obtain ⟨hpost, _, hcontent⟩ := dispatchTo_posted h
  refine ⟨hpost, ?_, sole_of_ne (Ne.symm hp) _, hcontent⟩
  intro i x hx
  by_cases hi : i = p
  · subst hi
    rw [sole_self, List.mem_singleton] at hx
    rw [hx]
    exact hτ
  · rw [sole_of_ne hi] at hx
    cases hx

theorem clickProgramBar_notified (hr : Ranged (links s)) {l : List ℤ}
    (hl : Path (· = -1) s.windowlist.next s.windowlisthead l (-1)) {x : ℤ}
    (h : clickProgramBar scr s x (dockWindows s l).length = .ok t) : ∃ ms, Notified s t ms := by
  rw [clickProgramBar_eq hr hl] at h
  split at h
  · next p hp =>
    obtain ⟨xs, ys, hsplit, _⟩ := barAt_eq_some.mp hp
    have hmem : p ∈ dockWindows s l := by simp [hsplit]
    have hne : p ≠ s.desktopId := of_decide_eq_true (List.mem_filter.mp hmem).2
    have hlink : IsLink p := Or.inr ((dockTarget_of_bar hl hp).inBounds hr)
    simp only [clickProgram] at h
    split at h
    · exact ⟨_, dispatchTo_notified hne rfl h⟩
    · have hfocus := focusWindow_ok hr hlink h
      subst hfocus
      exact ⟨_, .none (setLinks_posted _ _) rfl⟩
  · cases h
    exact ⟨_, .none (.refl s) rfl⟩

theorem minimize_notified {l : List ℤ}
    (h : l.foldlM (fun s p =>
      if p ≠ s.desktopId ∧ (s.windowlist.wnd p).minimized = 0
      then dispatchTo s p (newmsg .windowMinimize) else pure s) s = .ok t) :
    ∃ ms, Notified s t ms := by
  induction l generalizing s with
  | nil =>
    cases h
    exact ⟨_, .none (.refl _) rfl⟩
  | cons p l ih =>
    rw [List.foldlM_cons] at h
    obtain ⟨u, hu, h⟩ := bind_eq_ok.mp h
    obtain ⟨ms', hrest⟩ := ih h
    split at hu
    · next hp => exact ⟨_, (dispatchTo_notified hp.1 rfl hu).trans hrest⟩
    · cases hu
      exact ⟨ms', hrest⟩

theorem clickShowDesktop_notified {x : ℤ} (h : clickShowDesktop scr s x = .ok t) :
    ∃ ms, Notified s t ms := by
  simp only [clickShowDesktop] at h
  split at h
  · obtain ⟨l, _, h⟩ := bind_eq_ok.mp h
    exact minimize_notified h
  · cases h
    exact ⟨_, .none (.refl s) rfl⟩

instance (s : Wm) (x : ℤ) (m : Message) : Decidable (StartIcon s x m) :=
  inferInstanceAs (Decidable (_ ∧ _ ∧ _))

/-- The message to the desktop of a click on the start icon. -/
def iconMessages (s : Wm) (x : ℤ) (m : Message) : List Message :=
  if StartIcon s x m then [newmsgAt m.msgType s.wmMousePos.x s.wmMousePos.y] else []

theorem iconMessages_length (s : Wm) (x : ℤ) (m : Message) :
    (iconMessages s x m).length ≤ msgBufSize := by
  simp only [iconMessages]
  split
  · exact Nat.succ_le_succ (Nat.zero_le 49)
  · exact Nat.zero_le _

theorem clickStartIcon_posted {x : ℤ} (h : clickStartIcon s x m = .ok t) :
    Posted (sole s.desktopId (iconMessages s x m)) [] s t ∧
      t.clickedOnContent = s.clickedOnContent := by
  simp only [clickStartIcon] at h
  split at h
  · next hi =>
    obtain ⟨hpost, _, hcontent⟩ := dispatchTo_posted h
    rw [iconMessages, if_pos (by exact hi)]
    exact ⟨hpost, hcontent⟩
  · next hi =>
    cases h
    rw [iconMessages, if_neg (by exact hi), sole_nil]
    exact ⟨.refl s, rfl⟩

theorem Posted.iconMessages (h : Posted ms ps s t) (x : ℤ) (m : Message) :
    iconMessages t x m = iconMessages s x m := by
  have hi : StartIcon t x m ↔ StartIcon s x m := by
    unfold StartIcon
    rw [h.caller, h.desktopId]
  simp only [MessageDeliveries.iconMessages]
  rw [h.mouse]
  exact if_congr hi rfl rfl

theorem handleDesktopDockClick_posted (hr : Ranged (links s)) {x : ℤ}
    (h : handleDesktopDockClick scr s x m = .ok t) :
    ∃ ms : ℤ → List Message, (∀ i, ∀ x ∈ ms i, isMouse x.msgType = false) ∧ ms s.desktopId = [] ∧
      Posted (fun i => ms i ++ sole s.desktopId (iconMessages s x m) i) [] s t ∧
      t.clickedOnContent = s.clickedOnContent := by
  rcases traverse_cases hr with ⟨l, hl⟩ | hd
  · have hpath := (traverse_eq_ok hr).mp hl
    rw [handleDesktopDockClick_eq hr hpath] at h
    obtain ⟨u, hu, h⟩ := bind_eq_ok.mp h
    obtain ⟨v, hv, h⟩ := bind_eq_ok.mp h
    obtain ⟨_, hbar⟩ := clickProgramBar_notified hr hpath hu
    obtain ⟨_, hshow⟩ := clickShowDesktop_notified hv
    have hboth := hbar.trans hshow
    obtain ⟨hicon, hcontent⟩ := clickStartIcon_posted h
    rw [hboth.posted.desktopId, hboth.posted.iconMessages] at hicon
    exact ⟨_, hboth.quiet, hboth.desktop, hboth.posted.trans hicon,
      hcontent.trans hboth.content⟩
  · rw [handleDesktopDockClick, getWindowCount, hd, error_bind, error_bind] at h
    cases h

end Dock

section Click

/-- The message to the popup of a click that was pressed on it. -/
def popupMessages (s : Wm) (τ : MsgType) : List Message :=
  if s.clickedOnPopup then [relativeTo s s.popupwindow.wnd.position τ] else []

theorem handleMouseUp_silent (hc : s.clickedOnContent = false) (h : handleMouseUp s m = .ok t) :
    Posted (fun _ => []) [] s t := by
  have hpost := handleMouseUp_posted h
  rwa [contentMessages, hc, if_neg Bool.false_ne_true, sole_nil] at hpost

/-- A click goes to the popup or to the focused window, unless it is for the dock. -/
theorem handleClick_posted
    (hdock : ¬(s.clickedOnPopup = false ∧ s.clickedOnContent = true ∧ InDock scr s))
    (h : handleClick scr s m = .ok t) :
    Posted (sole s.windowlisttail (contentMessages s m.msgType)) (popupMessages s m.msgType)
      s t := by
  obtain ⟨u, hu, h⟩ := bind_eq_ok.mp h
  rw [dispatchClick] at hu
  split at hu
  · next hp =>
    cases hu
    have hflag : Posted (fun _ => []) [] s { s with clickedOnPopup := false } :=
      .none rfl rfl rfl rfl
    have hpopup := hflag.silent_trans (dispatchToPopup_posted _
      (relativeTo s s.popupwindow.wnd.position m.msgType))
    rw [popupMessages, if_pos hp]
    exact hpopup.trans (handleMouseUp_posted h)
  · next hp =>
    rw [popupMessages, if_neg hp]
    split at hu
    · next hc =>
      have hnot : ¬InDock scr (released s) := fun hd => hdock ⟨Bool.eq_false_iff.mpr hp, hc, hd⟩
      dsimp only at hu
      rw [if_neg (by exact hnot)] at hu
      obtain ⟨hpost, hcontent⟩ := dispatchToFocused_posted hu
      rw [contentMessages, if_pos hc]
      have hflag : Posted (fun _ => []) [] s (released s) := .none rfl rfl rfl rfl
      exact (hflag.silent_trans hpost).trans_silent (handleMouseUp_silent hcontent h)
    · next hc =>
      cases hu
      exact handleMouseUp_posted h

/-- A click on the dock reaches the desktop through the start icon only. -/
theorem handleClick_dock_posted (hr : Ranged (links s)) (hp : s.clickedOnPopup = false)
    (hc : s.clickedOnContent = true) (hdock : InDock scr s) (h : handleClick scr s m = .ok t) :
    ∃ ms : ℤ → List Message, (∀ i, ∀ x ∈ ms i, isMouse x.msgType = false) ∧
      ms s.desktopId = [] ∧
      Posted (fun i => ms i ++ sole s.desktopId (iconMessages s s.wmMousePos.x m) i) [] s t := by
  obtain ⟨u, hu, h⟩ := bind_eq_ok.mp h
  rw [dispatchClick_dock hp hc hdock] at hu
  obtain ⟨ms, hquiet, hdesktop, hpost, hcontent⟩ :=
    handleDesktopDockClick_posted (s := released s) hr hu
  have hflag : Posted (fun _ => []) [] s (released s) := .none rfl rfl rfl rfl
  exact ⟨ms, hquiet, hdesktop,
    (hflag.silent_trans hpost).trans_silent (handleMouseUp_silent hcontent h)⟩

theorem dock_ends (hr : Ranged (links s)) (hp : s.clickedOnPopup = false)
    (hc : s.clickedOnContent = true) (hdock : InDock scr s) (h : handleClick scr s m = .ok t) :
    ∃ l, Path (· = -1) s.windowlist.next s.windowlisthead l (-1) := by
  by_contra hno
  have hdiv : handleDesktopDockClick scr (released s) s.wmMousePos.x m = .error .diverges :=
    handleDesktopDockClick_diverges (s := released s) hr (not_exists.mp hno) s.wmMousePos.x m
  rw [handleClick, dispatchClick_dock hp hc hdock, hdiv, error_bind] at h
  cases h

end Click

/-- A message other than a move leaves the cursor and the rectangles alone. -/
theorem wmHandleMessage_posted (hr : Ranged (links s)) (hd : IsLink s.desktopId)
    (hm : m.msgType ≠ .mouseMove) (h : wmHandleMessage scr s m = .ok t) :
    ∃ ms ps, Posted ms ps s t := by
  have hclick : handleClick scr s m = .ok t → ∃ ms ps, Posted ms ps s t := by
    intro hk
    by_cases hdock : s.clickedOnPopup = false ∧ s.clickedOnContent = true ∧ InDock scr s
    · obtain ⟨_, _, _, hpost⟩ := handleClick_dock_posted hr hdock.1 hdock.2.1 hdock.2.2 hk
      exact ⟨_, _, hpost⟩
    · exact ⟨_, _, handleClick_posted hdock hk⟩
  simp only [wmHandleMessage] at h
  cases hτ : m.msgType with
  | mouseMove => exact absurd hτ hm
  | mouseDown =>
    rw [hτ] at h
    by_cases hp : OnPopup s
    · rw [handleMouseDown, if_pos hp] at h
      cases h
      exact ⟨_, _, .none rfl rfl rfl rfl⟩
    · by_cases hw : ∃ w, MouseTarget s w
      · obtain ⟨w, hw⟩ := hw
        exact ⟨_, _, (handleMouseDown_posted hr hd hp hw h).1⟩
      · have hdiv := handleMouseDown_diverges hr m hp (not_exists.mp hw)
        cases hdiv.symm.trans h
  | mouseUp =>
    rw [hτ] at h
    exact ⟨_, _, handleMouseUp_posted h⟩
  | mouseLeftClick | mouseRightClick | mouseDblclick =>
    rw [hτ] at h
    exact hclick h
  | keyUp | keyDown =>
    rw [hτ] at h
    exact ⟨_, _, (dispatchTo_posted h).1⟩
  | windowClose | windowMinimize | windowMaximize | popupWindowOpen | popupWindowClose | other =>
    rw [hτ] at h
    cases h
    exact ⟨_, _, .refl s⟩

theorem dispatchAll_posted {l : List ℤ} (h : l.foldlM (fun s p => dispatchTo s p m) s = .ok t) :
    ∃ ms, Posted ms [] s t := by
  induction l generalizing s with
  | nil =>
    cases h
    exact ⟨_, .refl _⟩
  | cons p l ih =>
    rw [List.foldlM_cons] at h
    obtain ⟨u, hu, h⟩ := bind_eq_ok.mp h
    obtain ⟨_, hrest⟩ := ih h
    exact ⟨_, (dispatchTo_posted hu).1.trans hrest⟩

end MessageDeliveries
