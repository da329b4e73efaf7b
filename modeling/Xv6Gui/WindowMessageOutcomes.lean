import Xv6Gui.DockClicks

/-!
# Which messages stay inside the array

`MessageInBounds` is the exact condition under which `wmHandleMessage` uses no index outside
the array. When it holds the message focuses at most one window, and the call fails to
return only on a list that goes round.
-/
namespace WindowMessageOutcomes

open WindowManagerState WindowManager WindowManagerSteps WindowMessages DockClicks LinkedSlots
open GuardedRuns

variable {scr : Screen} {s : Wm} {m : Message}

/-- Message `m` asks for the focus to go to `x`. -/
def FocusRequest (scr : Screen) (s : Wm) (m : Message) (x : ℤ) : Prop :=
  match m.msgType with
  | .mouseDown => ¬OnPopup s ∧ MouseTarget s x
  | .mouseLeftClick | .mouseRightClick | .mouseDblclick =>
    s.clickedOnPopup = false ∧ s.clickedOnContent = true ∧ InDock scr s ∧
      DockFocus scr s s.wmMousePos.x x
  | _ => False

def DockInBounds (scr : Screen) (s : Wm) (m : Message) : Prop :=
  (∀ p, DockFocus scr s s.wmMousePos.x p → FocusSafe (links s) p) ∧
    (StartIcon s s.wmMousePos.x m →
      (∃ l, Path (· = -1) s.windowlist.next s.windowlisthead l (-1)) → s.desktopId ≠ -1)

def ClickInBounds (scr : Screen) (s : Wm) (m : Message) : Prop :=
  s.clickedOnContent = true →
    (s.clickedOnPopup = false ∧ InDock scr s → DockInBounds scr s m) ∧
    (¬(s.clickedOnPopup = false ∧ InDock scr s) → s.windowlisttail ≠ -1)

/-- What keeps `wmHandleMessage` inside the array, message by message. -/
def MessageInBounds (scr : Screen) (s : Wm) (m : Message) : Prop :=
  match m.msgType with
  | .mouseMove => Clicked s → s.windowlisttail ≠ -1
  | .mouseDown => OnPopup s ∨ ∀ w, MouseTarget s w → PressInBounds s w
  | .mouseLeftClick | .mouseRightClick | .mouseDblclick => ClickInBounds scr s m
  | .mouseUp => s.clickedOnContent = true → s.windowlisttail ≠ -1
  | .keyDown | .keyUp => s.windowlisttail ≠ -1
  | _ => True

/-- Both directions of the list come to an end. -/
def ListEnds (k : Links ℤ) : Prop :=
  (∃ l, Path (· = -1) k.next k.head l (-1)) ∧ ∃ l, Path (· = -1) k.prev k.tail l (-1)

theorem listEnds_of_linked {k : Links ℤ} {l : List ℤ} (h : Linked (-1) k l) : ListEnds k :=
  ⟨⟨l, h.forward⟩, ⟨l.reverse, h.backward⟩⟩

/-- The message focuses what it asks for, if anything, and changes queues, rectangles and the
mouse besides. -/
structure Completes (scr : Screen) (s : Wm) (m : Message) (r : Except Fault Wm) (x : ℤ) :
    Prop where
  request : FocusRequest scr s m x ∨ x = -1 ∧ ∀ y, ¬FocusRequest scr s m y
  isLink : IsLink x
  safe : FocusSafe (links s) x
  delivers : Delivers r (setLinks s (focused (links s) x))

theorem completes_without_focus {r : Except Fault Wm} (h : ∀ y, ¬FocusRequest scr s m y)
    (hr : Delivers r s) : Completes scr s m r (-1) where
  request := Or.inr ⟨rfl, h⟩
  isLink := isLink_neg
  safe := Or.inl rfl
  delivers := by rwa [focused_neg, setLinks_links]

theorem MouseTarget.of_listEnds (h : ListEnds (links s)) : ∃ w, MouseTarget s w := by
  obtain ⟨_, l, hl⟩ := h
  obtain ⟨l', q, h'⟩ := hl.stops_earlier fun p hp => (Or.inl hp : SearchEnds s p)
  exact ⟨_, l', q, h', rfl⟩

theorem handleMouseDown_cases (hr : Ranged (links s)) (hd : IsLink s.desktopId)
    (hm : m.msgType = .mouseDown) (h : MessageInBounds scr s m) :
    (∃ x, Completes scr s m (handleMouseDown s m) x) ∨
      handleMouseDown s m = .error .diverges ∧ ¬ListEnds (links s) := by
  have hreq : ∀ x, FocusRequest scr s m x ↔ ¬OnPopup s ∧ MouseTarget s x := by
    intro x
    simp only [FocusRequest, hm]
  simp only [MessageInBounds, hm] at h
  by_cases hp : OnPopup s
  · refine Or.inl ⟨-1, completes_without_focus ?_ (handleMouseDown_popup s m hp)⟩
    intro y hy
    exact ((hreq y).mp hy).1 hp
  · by_cases hw : ∃ w, MouseTarget s w
    · obtain ⟨w, hw⟩ := hw
      have hin := h.resolve_left hp w hw
      exact Or.inl ⟨w, Or.inl ((hreq w).mpr ⟨hp, hw⟩), hw.isLink hr hd, hin.1,
        handleMouseDown_delivers hr hd m hp hw hin⟩
    · exact Or.inr ⟨handleMouseDown_diverges hr m hp (not_exists.mp hw),
        fun he => hw (MouseTarget.of_listEnds he)⟩

/-- The state in which the dock or the focused window is told of the click. -/
def released (s : Wm) : Wm := { s with clickedOnContent := false }

theorem released_framed (s : Wm) : Framed s (released s) :=
  flags_framed s _ _ false _ Or.inl Bool.false_ne_true.elim

theorem dispatchClick_delivers (hl : IsLink s.windowlisttail)
    (hc : s.clickedOnContent = true → s.windowlisttail ≠ -1)
    (h : ¬(s.clickedOnPopup = false ∧ s.clickedOnContent = true ∧ InDock scr s)) :
    Delivers (dispatchClick scr s m) s := by
  rw [dispatchClick]
  split
  · exact .pure ((flags_framed s _ _ _ false Or.inl Or.inl).trans (dispatchToPopup_framed _ _))
  · next hp =>
    split
    · next hcontent =>
      have hdock : ¬InDock scr (released s) := fun hd =>
        h ⟨Bool.eq_false_iff.mpr hp, hcontent, hd⟩
      dsimp only
      rw [if_neg (by exact hdock)]
      refine Delivers.of_framed (released_framed s) ?_
      apply dispatchToFocused_delivers
      exact hl.inBounds (hc hcontent)
    · exact .pure (Framed.refl s)

theorem dispatchClick_dock (hp : s.clickedOnPopup = false) (hc : s.clickedOnContent = true)
    (hd : InDock scr s) : dispatchClick scr s m =
      handleDesktopDockClick scr (released s) s.wmMousePos.x m := by
  have hdock : InDock scr (released s) := hd
  rw [dispatchClick, if_neg (by simp [hp]), if_pos hc]
  exact if_pos hdock

theorem handleClick_without_focus (hl : IsLink s.windowlisttail)
    (hc : s.clickedOnContent = true → s.windowlisttail ≠ -1)
    (h : ¬(s.clickedOnPopup = false ∧ s.clickedOnContent = true ∧ InDock scr s)) :
    Delivers (handleClick scr s m) s := by
  refine (dispatchClick_delivers hl hc h).bind ?_
  intro t ht
  apply handleMouseUp_delivers
  · rwa [ht.tail]
  · intro htc
    rw [ht.tail]
    exact (ht.content htc).elim hc id

/-- What the mouse-up case sees after a click the dock has handled. -/
theorem handleMouseUp_after_dock {t u : Wm} (hl : IsLink t.windowlisttail)
    (hc : t.clickedOnContent = false) (h : Framed t u) : Delivers (handleMouseUp u m) u := by
  apply handleMouseUp_delivers
  · rwa [h.tail]
  · intro hu
    rw [h.tail]
    exact (h.content hu).resolve_left (by simp [hc])

theorem handleClick_dock_cases (hr : Ranged (links s)) (hd : IsLink s.desktopId)
    (hreq : ∀ x, FocusRequest scr s m x ↔ DockFocus scr s s.wmMousePos.x x)
    (hp : s.clickedOnPopup = false) (hc : s.clickedOnContent = true) (hdock : InDock scr s)
    (h : DockInBounds scr s m) :
    (∃ x, Completes scr s m (handleClick scr s m) x) ∨
      handleClick scr s m = .error .diverges ∧
        (¬ListEnds (links s) ∨ ∃ x, FocusRequest scr s m x ∧ ¬ListEnds (focused (links s) x)) := by
  rw [handleClick, dispatchClick_dock hp hc hdock]
  by_cases hpath : ∃ l, Path (· = -1) s.windowlist.next s.windowlisthead l (-1)
  · obtain ⟨l, hl⟩ := hpath
    by_cases hfocus : ∃ x, DockFocus scr s s.wmMousePos.x x
    · obtain ⟨x, hx⟩ := hfocus
      have hlink : IsLink x := Or.inr (hx.1.inBounds hr)
      rcases handleDesktopDockClick_focus (s := released s) (m := m) hr hd hx (h.1 x hx)
        with hdel | ⟨hround, hdiv⟩
      · refine Or.inl ⟨x, Or.inl ((hreq x).mpr hx), hlink, h.1 x hx, ?_⟩
        refine Delivers.of_framed (released_framed _) (hdel.bind ?_)
        intro u hu
        exact handleMouseUp_after_dock (hr.focused hlink).tail rfl hu
      · refine Or.inr ⟨by rw [hdiv, error_bind], Or.inr ⟨x, (hreq x).mpr hx, ?_⟩⟩
        rintro ⟨⟨l', hl'⟩, -⟩
        have hok :=
          (traverse_eq_ok (s := setLinks s (focused (links s) x)) (hr.focused hlink)).mpr hl'
        cases hok.symm.trans hround
    · have hnone : ∀ y, ¬FocusRequest scr s m y := fun y hy => hfocus ⟨y, (hreq y).mp hy⟩
      refine Or.inl ⟨-1, completes_without_focus hnone ?_⟩
      refine Delivers.of_framed (released_framed s) (Delivers.bind ?_ ?_)
      · exact handleDesktopDockClick_delivers (s := released s) hr hd hl
          (not_exists.mp hfocus) fun hi => h.2 hi ⟨l, hl⟩
      · intro u hu
        exact handleMouseUp_after_dock (t := released s) hr.tail rfl hu
  · refine Or.inr ⟨?_, Or.inl fun he => hpath he.1⟩
    rw [handleDesktopDockClick_diverges (s := released s) hr (not_exists.mp hpath), error_bind]

theorem handleClick_cases (hr : Ranged (links s)) (hd : IsLink s.desktopId)
    (hreq : ∀ x, FocusRequest scr s m x ↔ s.clickedOnPopup = false ∧ s.clickedOnContent = true ∧
      InDock scr s ∧ DockFocus scr s s.wmMousePos.x x)
    (h : ClickInBounds scr s m) :
    (∃ x, Completes scr s m (handleClick scr s m) x) ∨
      handleClick scr s m = .error .diverges ∧
        (¬ListEnds (links s) ∨ ∃ x, FocusRequest scr s m x ∧ ¬ListEnds (focused (links s) x)) := by
  by_cases hall : s.clickedOnPopup = false ∧ s.clickedOnContent = true ∧ InDock scr s
  · obtain ⟨hp, hc, hdock⟩ := hall
    exact handleClick_dock_cases hr hd (fun x => by rw [hreq]; simp [hp, hc, hdock]) hp hc hdock
      ((h hc).1 ⟨hp, hdock⟩)
  · refine Or.inl ⟨-1, completes_without_focus (fun y hy => hall ?_) ?_⟩
    · obtain ⟨hp, hc, hdock, _⟩ := (hreq y).mp hy
      exact ⟨hp, hc, hdock⟩
    · refine handleClick_without_focus hr.tail ?_ hall
      intro hc
      exact (h hc).2 fun hpd => hall ⟨hpd.1, hc, hpd.2⟩

theorem handleClick_out (hr : Ranged (links s)) (h : ¬ClickInBounds scr s m) :
    OutOfBounds (handleClick scr s m) := by
  obtain ⟨hc, h⟩ := Classical.not_imp.mp h
  by_cases hpd : s.clickedOnPopup = false ∧ InDock scr s
  · have hbad : ¬DockInBounds scr s m := fun hin => h ⟨fun _ => hin, fun hn => absurd hpd hn⟩
    rw [handleClick, dispatchClick_dock hpd.1 hc hpd.2]
    apply outOfBounds_bind
    by_cases hfocus : ∃ p, DockFocus scr s s.wmMousePos.x p ∧ ¬FocusSafe (links s) p
    · obtain ⟨p, hp, hs⟩ := hfocus
      obtain ⟨l, _, _, hl, _⟩ := hp.1
      exact handleDesktopDockClick_out (s := released s) hr hl (Or.inl ⟨p, hp, hs⟩)
    · have hsafe : ∀ p, DockFocus scr s s.wmMousePos.x p → FocusSafe (links s) p := by
        intro p hp
        by_contra hs
        exact hfocus ⟨p, hp, hs⟩
      have hicon := fun hi => hbad ⟨hsafe, hi⟩
      obtain ⟨hi, hrest⟩ := Classical.not_imp.mp hicon
      obtain ⟨⟨l, hl⟩, hdesk⟩ := Classical.not_imp.mp hrest
      exact handleDesktopDockClick_out (s := released s) hr hl (Or.inr ⟨hi, not_not.mp hdesk⟩)
  · have ht : s.windowlisttail = -1 := by
      by_contra ht
      exact h ⟨fun hin => absurd hin hpd, fun _ => ht⟩
    by_cases hp : s.clickedOnPopup = true
    · have hd : dispatchClick scr s m = .ok (dispatchToPopup { s with clickedOnPopup := false }
          (relativeTo s s.popupwindow.wnd.position m.msgType)) := if_pos hp
      rw [handleClick, hd, ok_bind]
      exact handleMouseUp_out _ m hc ht
    · have hdock : ¬InDock scr (released s) := fun hin => hpd ⟨Bool.eq_false_iff.mpr hp, hin⟩
      rw [handleClick, dispatchClick, if_neg hp, if_pos hc]
      dsimp only
      rw [if_neg (by exact hdock)]
      apply outOfBounds_bind
      apply dispatchToFocused_out
      exact ht

theorem wmHandleMessage_out (hr : Ranged (links s)) (hd : IsLink s.desktopId)
    (h : ¬MessageInBounds scr s m) : OutOfBounds (wmHandleMessage scr s m) := by
  have htail : ¬s.windowlisttail ≠ -1 → ¬InBounds s.windowlisttail := by
    intro ht
    rw [not_not.mp ht]
    exact not_inBounds_neg
  simp only [wmHandleMessage]
  simp only [MessageInBounds] at h
  cases hm : m.msgType with
  | keyUp | keyDown =>
    simp only [hm] at h
    exact dispatchTo_out s (htail h) m
  | mouseMove =>
    simp only [hm] at h
    obtain ⟨hc, ht⟩ := Classical.not_imp.mp h
    exact handleMouseMove_out s m hc (not_not.mp ht)
  | mouseDown =>
    simp only [hm] at h
    obtain ⟨hp, h⟩ := not_or.mp h
    obtain ⟨w, h⟩ := not_forall.mp h
    obtain ⟨hw, hin⟩ := Classical.not_imp.mp h
    exact handleMouseDown_out hr hd m hp hw hin
  | mouseUp =>
    simp only [hm] at h
    obtain ⟨hc, ht⟩ := Classical.not_imp.mp h
    exact handleMouseUp_out s m hc (not_not.mp ht)
  | mouseLeftClick | mouseRightClick | mouseDblclick =>
    simp only [hm] at h
    exact handleClick_out hr h
  | windowClose | windowMinimize | windowMaximize | popupWindowOpen | popupWindowClose | other =>
    simp [hm] at h

theorem wmHandleMessage_cases (hr : Ranged (links s)) (hd : IsLink s.desktopId)
    (h : MessageInBounds scr s m) :
    (∃ x, Completes scr s m (wmHandleMessage scr s m) x) ∨
      wmHandleMessage scr s m = .error .diverges ∧
        (¬ListEnds (links s) ∨ ∃ x, FocusRequest scr s m x ∧ ¬ListEnds (focused (links s) x)) := by
  have hin := h
  simp only [MessageInBounds] at h
  simp only [wmHandleMessage]
  cases hm : m.msgType with
  | keyUp | keyDown =>
    simp only [hm] at h
    refine Or.inl ⟨-1, completes_without_focus ?_ ?_⟩
    · intro y hy
      simp [FocusRequest, hm] at hy
    · exact dispatchTo_delivers s (hr.tail.inBounds h) m
  | mouseMove =>
    simp only [hm] at h
    refine Or.inl ⟨-1, completes_without_focus ?_ ?_⟩
    · intro y hy
      simp [FocusRequest, hm] at hy
    · exact handleMouseMove_delivers s m hr.tail h
  | mouseDown =>
    exact (handleMouseDown_cases hr hd hm hin).imp_right fun hdiv => ⟨hdiv.1, Or.inl hdiv.2⟩
  | mouseUp =>
    simp only [hm] at h
    refine Or.inl ⟨-1, completes_without_focus ?_ ?_⟩
    · intro y hy
      simp [FocusRequest, hm] at hy
    · exact handleMouseUp_delivers s m hr.tail h
  | mouseLeftClick | mouseRightClick | mouseDblclick =>
    simp only [hm] at h
    exact handleClick_cases hr hd (fun x => by simp only [FocusRequest, hm]) h
  | windowClose | windowMinimize | windowMaximize | popupWindowOpen | popupWindowClose | other =>
    refine Or.inl ⟨-1, completes_without_focus ?_ (.pure (Framed.refl s))⟩
    intro y hy
    simp [FocusRequest, hm] at hy

theorem messageInBounds_of_ok (hr : Ranged (links s)) (hd : IsLink s.desktopId) {t : Wm}
    (ht : wmHandleMessage scr s m = .ok t) : MessageInBounds scr s m := by
  by_contra hn
  have hout := wmHandleMessage_out hr hd hn
  rwa [ht] at hout

/-- Whatever the message, a call that returns has focused what it asks for, if anything. -/
theorem wmHandleMessage_ok (hr : Ranged (links s)) (hd : IsLink s.desktopId) {t : Wm}
    (ht : wmHandleMessage scr s m = .ok t) :
    ∃ x, (FocusRequest scr s m x ∨ x = -1 ∧ ∀ y, ¬FocusRequest scr s m y) ∧ IsLink x ∧
      FocusSafe (links s) x ∧ Framed (setLinks s (focused (links s) x)) t := by
  rcases wmHandleMessage_cases hr hd (messageInBounds_of_ok hr hd ht) with ⟨x, hx⟩ | ⟨hdiv, _⟩
  · obtain ⟨u, hu, hf⟩ := hx.delivers
    rw [ht] at hu
    cases hu
    exact ⟨x, hx.request, hx.isLink, hx.safe, hf⟩
  · rw [ht] at hdiv
    cases hdiv

theorem wmHandleMessage_inBounds (hr : Ranged (links s)) (hd : IsLink s.desktopId) :
    ¬OutOfBounds (wmHandleMessage scr s m) ↔ MessageInBounds scr s m := by
  constructor
  · intro h
    by_contra hn
    exact h (wmHandleMessage_out hr hd hn)
  · intro h
    rcases wmHandleMessage_cases hr hd h with ⟨x, hx⟩ | ⟨hdiv, _⟩
    · exact hx.delivers.not_outOfBounds
    · rw [hdiv]
      exact id

end WindowMessageOutcomes
