import Xv6Gui.WindowSessions

/-!
# What a call leaves alone

An observation of the state is kept by a call that may fault if it is the same whenever the
call returns. The functions that deliver messages, move the focus or drag a window keep every
observation that does not look at the links, the queues, the rectangles, the popup and the
cursor, and those that handle the mouse keep it if it does not look at the flags either.
-/
namespace WindowFrames

open WindowManagerState WindowManager WindowManagerSteps WindowMessages WindowMessageOutcomes
open WindowSessions MessageDeliveries LinkedSlots GuardedRuns

section Library

variable {σ φ α β : Type} {obs : σ → α} {s t : σ} {r : Except φ σ}

/-- Whatever state the call returns, the observation of it is that of `s`. -/
def Keeps (obs : σ → α) (s : σ) (r : Except φ σ) : Prop := ∀ t, r = .ok t → obs t = obs s

theorem Keeps.ok (h : obs t = obs s) : Keeps obs s (.ok t : Except φ σ) := by
  rintro _ ⟨⟩
  exact h

theorem Keeps.error (e : φ) : Keeps obs s (.error e) := by
  rintro _ ⟨⟩

theorem Keeps.of_eq (h : obs t = obs s) (hr : Keeps obs t r) : Keeps obs s r := by
  intro u hu
  exact (hr u hu).trans h

theorem Keeps.bind {f : σ → Except φ σ} (hr : Keeps obs s r)
    (hf : ∀ t, r = .ok t → Keeps obs t (f t)) : Keeps obs s (r >>= f) := by
  intro u hu
  obtain ⟨t, ht, hu⟩ := bind_eq_ok.mp hu
  exact (hf t ht u hu).trans (hr t ht)

/-- A call that reads, and then one that changes the state. -/
theorem Keeps.read {x : Except φ β} {f : β → Except φ σ}
    (hf : ∀ b, x = .ok b → Keeps obs s (f b)) : Keeps obs s (x >>= f) := by
  intro u hu
  obtain ⟨b, hb, hu⟩ := bind_eq_ok.mp hu
  exact hf b hb u hu

theorem Keeps.ite {c : Prop} [Decidable c] {r r' : Except φ σ} (h : c → Keeps obs s r)
    (h' : ¬c → Keeps obs s r') : Keeps obs s (if c then r else r') := by
  split
  case isTrue hc => exact h hc
  case isFalse hc => exact h' hc

theorem Keeps.foldlM {f : σ → β → Except φ σ} (h : ∀ s b, Keeps obs s (f s b)) (s : σ)
    (l : List β) : Keeps obs s (l.foldlM f s) := by
  induction l generalizing s with
  | nil => exact .ok rfl
  | cons b l ih =>
    rw [List.foldlM_cons]
    exact (h s b).bind fun t _ => ih t

end Library

variable {scr : Screen} {α : Type} {obs : Wm → α} {s t : Wm}

/-- The observation does not look at the links, the queues, the rectangles, the popup and the
cursor. -/
structure Blind (obs : Wm → α) : Prop where
  links (s : Wm) (k : Links ℤ) : obs (setLinks s k) = obs s
  wnd (s : Wm) (i : ℤ) (f : KernelWindow → KernelWindow) :
    (∀ w, (f w).title = w.title) → obs (updateWnd s i f) = obs s
  popup (s : Wm) (p : PopupWindow) : obs { s with popupwindow := p } = obs s
  cursor (s : Wm) (p q : Point) (shape : ℤ) :
    obs { s with wmMousePos := p, wmLastMousePos := q, mouseShape := shape } = obs s

structure BlindToFlags (obs : Wm → α) : Prop extends Blind obs where
  flags (s : Wm) (title content popup : Bool) :
    obs { s with
      clickedOnTitle := title, clickedOnContent := content, clickedOnPopup := popup } = obs s

section Deliveries

theorem setWnd_keeps (hb : Blind obs) {p : ℤ} {f : KernelWindow → KernelWindow}
    (hf : ∀ w, (f w).title = w.title) : Keeps obs s (setWnd s p f) := by
  intro t ht
  obtain ⟨_, rfl⟩ := setWnd_eq_ok.mp ht
  exact hb.wnd s p f hf

theorem dispatchTo_keeps (hb : Blind obs) (p : ℤ) (m : Message) :
    Keeps obs s (dispatchTo s p m) := setWnd_keeps hb fun _ => rfl

theorem dispatchToFocused_keeps (hb : Blind obs) (τ : MsgType) :
    Keeps obs s (dispatchToFocused s τ) := .read fun p _ => dispatchTo_keeps hb p _

theorem turnoffScreen_keeps (hb : Blind obs) : Keeps obs s (turnoffScreen s) :=
  .read fun l _ => .foldlM (fun _ p => dispatchTo_keeps hb p _) s l

theorem sysGetMessage_keeps (hb : Blind obs) {p : ProcId} {x : ℤ} {res : Option Message}
    (h : sysGetMessage s p x = .ok (res, t)) : obs t = obs s := by
  by_cases hx : InBounds x
  · by_cases hp : s.windowlist.proc x = some p
    · rw [sysGetMessage_owner hx hp] at h
      cases h
      exact hb.wnd s x takeMessage fun _ => rfl
    · rw [sysGetMessage_other hx hp] at h
      cases h
      rfl
  · exact absurd (sysGetMessage_out hx) (not_outOfBounds_of_ok h)

theorem moveFocusWindow_keeps (hb : Blind obs) (dx dy : ℤ) :
    Keeps obs s (moveFocusWindow s dx dy) := by
  apply setWnd_keeps hb
  intro w
  split <;> rfl

theorem handleMouseMove_keeps (hb : Blind obs) (m : Message) :
    Keeps obs s (handleMouseMove scr s m) := by
  refine .of_eq (hb.cursor s (moveMouse scr s (m.param 0) (m.param 1)).wmMousePos s.wmMousePos
    s.mouseShape) ?_
  apply Keeps.ite
  · intro _
    exact .of_eq (hb.cursor _ _ _ 1) (moveFocusWindow_keeps hb _ _)
  · intro _
    exact .ite (fun _ => dispatchToFocused_keeps hb _) fun _ => .ok rfl

end Deliveries

section Focus

theorem focusWindow_keeps (hb : Blind obs) (hr : Ranged (links s)) {x : ℤ} (hx : IsLink x) :
    Keeps obs s (focusWindow s x) := by
  intro t ht
  rw [focusWindow_ok hr hx ht]
  exact hb.links s _

theorem dockProgramClick_keeps (hb : Blind obs) (hr : Ranged (links s)) (x bw : ℤ) (fuel : ℕ)
    (xStart p : ℤ) : Keeps obs s (dockProgramClick s x bw fuel xStart p) := by
  induction fuel generalizing xStart p with
  | zero =>
    rw [dockProgramClick]
    refine .ite (fun _ => .ok rfl) fun _ => .read fun q hq => ?_
    obtain ⟨hp, rfl⟩ := index_eq_ok.mp hq
    refine .ite (fun _ => .ite (fun _ => dispatchTo_keeps hb _ _) fun _ => ?_) fun _ => .error _
    exact focusWindow_keeps hb hr (.inr hp)
  | succ fuel ih =>
    rw [dockProgramClick]
    refine .ite (fun _ => .ok rfl) fun _ => .read fun q hq => ?_
    obtain ⟨hp, rfl⟩ := index_eq_ok.mp hq
    refine .ite (fun _ => .ite (fun _ => dispatchTo_keeps hb _ _) fun _ => ?_) fun _ => ih _ _
    exact focusWindow_keeps hb hr (.inr hp)

theorem minimizeAll_keeps (hb : Blind obs) : Keeps obs s (minimizeAll s) := by
  refine .read fun l _ => .foldlM (fun s p => ?_) s l
  exact .ite (fun _ => dispatchTo_keeps hb p _) fun _ => .ok rfl

theorem handleDesktopDockClick_keeps (hb : Blind obs) (hr : Ranged (links s)) (x : ℤ)
    (m : Message) : Keeps obs s (handleDesktopDockClick scr s x m) := by
  refine .read fun n _ => ?_
  refine Keeps.bind (r := clickProgramBar scr s x n) ?_ fun t _ => ?_
  · exact .ite (fun _ => dockProgramClick_keeps hb hr x _ _ _ _) fun _ => .ok rfl
  refine Keeps.bind (r := clickShowDesktop scr t x) ?_ fun u _ => ?_
  · exact .ite (fun _ => minimizeAll_keeps hb) fun _ => .ok rfl
  · exact .ite (fun _ => dispatchTo_keeps hb _ _) fun _ => .ok rfl

end Focus

section Mouse

theorem pressTitleBar_keeps (hb : BlindToFlags obs) (w : KernelWindow) :
    Keeps obs s (pressTitleBar s w) := by
  refine .ite (fun _ => .ite (fun _ => dispatchTo_keeps hb.toBlind _ _) fun _ =>
    .ite (fun _ => dispatchTo_keeps hb.toBlind _ _) fun _ => .ok ?_) fun _ => .ok rfl
  exact hb.flags s true s.clickedOnContent s.clickedOnPopup

theorem pressContent_keeps (hb : BlindToFlags obs) (w : KernelWindow) (τ : MsgType) :
    Keeps obs s (pressContent s w τ) := by
  refine .ite (fun _ => ?_) fun _ => .ok rfl
  exact .of_eq (hb.flags s s.clickedOnTitle true s.clickedOnPopup) (dispatchTo_keeps hb.toBlind _ _)

theorem findFocus_isLink (hr : Ranged (links s)) {p q : ℤ} (hp : IsLink p) {fuel : ℕ}
    (h : findFocus s fuel p = .ok q) : IsLink q := by
  rcases findFocus_cases hr hp fuel with ⟨l, x, hx, hpath⟩ | hdiv
  · cases h.symm.trans hx
    exact (path_inBounds hpath (.inl rfl) hr.prev hp).2
  · cases h.symm.trans hdiv

theorem handleMouseDown_keeps (hb : BlindToFlags obs) (hr : Ranged (links s))
    (hd : IsLink s.desktopId) (m : Message) : Keeps obs s (handleMouseDown s m) := by
  refine .ite (fun _ => .ok (hb.flags s s.clickedOnTitle s.clickedOnContent true)) fun hp => ?_
  have hpopup : obs (dispatchToPopup s (newmsg .windowClose)) = obs s := hb.popup s _
  have hr : Ranged (links (dispatchToPopup s (newmsg .windowClose))) := hr
  refine .of_eq hpopup (.read fun p hp => ?_)
  have hlink : IsLink (if p = -1 then s.desktopId else p) := by
    split
    · exact hd
    · exact findFocus_isLink hr hr.tail hp
  refine (focusWindow_keeps hb.toBlind hr hlink).bind fun t _ => .read fun q _ => ?_
  exact (pressTitleBar_keeps hb _).bind fun u _ => pressContent_keeps hb _ _

theorem released_keeps (hb : BlindToFlags obs) (s : Wm) (popup : Bool) :
    obs { s with clickedOnTitle := false, mouseShape := 0, clickedOnPopup := popup } = obs s :=
  (hb.cursor _ s.wmMousePos s.wmLastMousePos 0).trans (hb.flags s false s.clickedOnContent popup)

theorem handleMouseUp_keeps (hb : BlindToFlags obs) (m : Message) :
    Keeps obs s (handleMouseUp s m) := by
  rw [handleMouseUp]
  dsimp only
  refine .ite (fun _ => ?_) fun _ => .ok (released_keeps hb s false)
  refine .of_eq (hb.flags s s.clickedOnTitle false false) ?_
  refine (dispatchToFocused_keeps hb.toBlind m.msgType).bind fun t _ => ?_
  exact .ok (released_keeps hb t t.clickedOnPopup)

theorem dispatchClick_keeps (hb : BlindToFlags obs) (hr : Ranged (links s)) (m : Message) :
    Keeps obs s (dispatchClick scr s m) := by
  have hpopup : obs { s with clickedOnPopup := false } = obs s :=
    hb.flags s s.clickedOnTitle s.clickedOnContent false
  have hcontent : obs (released s) = obs s := hb.flags s s.clickedOnTitle false s.clickedOnPopup
  have hr : Ranged (links (released s)) := hr
  unfold dispatchClick
  refine .ite (fun _ => ?_) fun _ => .ite (fun _ => ?_) fun _ => .ok rfl
  · exact .of_eq hpopup (.ok (hb.popup _ _))
  · refine .of_eq hcontent (.ite (fun _ => ?_) fun _ => dispatchToFocused_keeps hb.toBlind _)
    exact handleDesktopDockClick_keeps hb.toBlind hr _ m

theorem handleClick_keeps (hb : BlindToFlags obs) (hr : Ranged (links s)) (m : Message) :
    Keeps obs s (handleClick scr s m) :=
  (dispatchClick_keeps hb hr m).bind fun _ _ => handleMouseUp_keeps hb m

theorem wmHandleMessage_keeps (hb : BlindToFlags obs) (hr : Ranged (links s))
    (hd : IsLink s.desktopId) (m : Message) : Keeps obs s (wmHandleMessage scr s m) := by
  unfold wmHandleMessage
  split
  · exact handleMouseMove_keeps hb.toBlind m
  · exact handleMouseDown_keeps hb hr hd m
  · exact handleClick_keeps hb hr m
  · exact handleClick_keeps hb hr m
  · exact handleClick_keeps hb hr m
  · exact handleMouseUp_keeps hb m
  · exact dispatchTo_keeps hb.toBlind _ m
  · exact dispatchTo_keeps hb.toBlind _ m
  · exact .ok rfl

end Mouse

/-- The calls that concern the popup, a queue or the end of the session. -/
theorem quiet_keeps (hb : Blind obs) {s t : Session} {c : Call} (hq : Quiet c)
    (ht : step scr s c = .ok t) : obs t.wm = obs s.wm := by
  cases hq with
  | getMessage p x =>
    obtain ⟨⟨res, wm⟩, hget, ht⟩ := bind_eq_ok.mp ht
    cases ht
    exact sysGetMessage_keeps hb hget
  | createPopupWindow p w caller =>
    by_cases hc : s.wm.popupwindow.caller = -1
    · rw [createPopupWindow_opens hc] at ht
      cases ht
      exact hb.popup _ _
    · rw [createPopupWindow_refused hc ht]
  | closePopupWindow p w =>
    cases ht
    exact hb.popup _ _
  | getPopupMessage p =>
    by_cases hc : s.wm.popupwindow.caller = -1
    · simp only [step, sysGetPopupMessage, hc, if_true] at ht
      cases ht
      rfl
    · simp only [step, sysGetPopupMessage, hc, if_false] at ht
      cases ht
      exact hb.popup _ _
  | turnoffScreen p =>
    obtain ⟨wm, hoff, ht⟩ := bind_eq_ok.mp ht
    cases ht
    exact turnoffScreen_keeps hb wm hoff

end WindowFrames
