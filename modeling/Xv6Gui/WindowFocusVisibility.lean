import Xv6Gui.WindowSessions

/-!
# Who gets the keys

Keys go to the tail of the list. Minimising or closing the tail hands the focus to its
predecessor, and a press on no window hands it to the desktop, in both cases without a look
at `minimized`. The runs are those of any processes with any handles; the windows that count
are those that were opened and not closed.
-/
namespace WindowFocusVisibility

open WindowManagerState WindowManager WindowManagerSteps WindowMessages WindowMessageOutcomes
open DockClicks WindowSessions LinkedSlots GuardedRuns

variable {scr : Screen} {s t : Session} {c : Call}

def Shown (s : Wm) (i : ℤ) : Prop := (s.windowlist.wnd i).minimized = 0

/-- The keys do not go to a minimised window while an open window is shown. -/
def FocusShown (s : Session) : Prop :=
  (∃ v ∈ s.opened, Shown s.wm v) → s.wm.windowlisttail ≠ -1 ∧ Shown s.wm s.wm.windowlisttail

/-- The conditions under which each call keeps the keys away from minimised windows. Handing
the focus to a window whose links leave the array faults and so shows nothing. -/
def HandsOverShown (s : Session) : Call → Prop
  | .closeWindow _ w =>
    w.handler = s.wm.windowlisttail → (∃ v ∈ s.opened, v ≠ w.handler ∧ Shown s.wm v) →
      s.wm.windowlist.prev w.handler ≠ -1 ∧ Shown s.wm (s.wm.windowlist.prev w.handler)
  | .minimizeWindow _ w =>
    w.handler = s.wm.windowlisttail → (∃ v ∈ s.opened, v ≠ w.handler ∧ Shown s.wm v) →
      s.wm.windowlist.prev w.handler ≠ -1 ∧ s.wm.windowlist.prev w.handler ≠ w.handler ∧
        (Shown s.wm (s.wm.windowlist.prev w.handler) ∨
          ¬FocusInBounds (links s.wm) (s.wm.windowlist.prev w.handler))
  | .wmHandleMessage m =>
    m.msgType = .mouseDown → ¬OnPopup s.wm → MouseTarget s.wm s.wm.desktopId →
      (∃ v ∈ s.opened, Shown s.wm v) →
        s.wm.desktopId = s.wm.windowlisttail ∨ Shown s.wm s.wm.desktopId ∨
          ¬FocusInBounds (links s.wm) s.wm.desktopId
  | _ => True

theorem shown_markMinimized {s : Wm} {x v i : ℤ} :
    Shown (markMinimized s x v) i ↔ if i = x then v = 0 else Shown s i := by
  simp only [Shown]
  rw [markMinimized_minimized]
  split <;> rfl

theorem shown_of_onWindow (h : Sane s) {p : ℤ} (hp : OnWindow s.wm p) : Shown s.wm p :=
  (h.minimized p).resolve_right hp.2.1

theorem tail_inBounds (h : Sane s) (hq : FocusShown s) (hv : ∃ v ∈ s.opened, Shown s.wm v) :
    InBounds s.wm.windowlisttail :=
  h.ranged.tail.inBounds (hq hv).1

theorem release_tail {k : Links ℤ} {x : ℤ} :
    (release k x).tail = if x = k.tail then k.prev x else k.tail := rfl

theorem closed_shown {s : Wm} {x i : ℤ} :
    Shown (updateWnd (setLinks s (release (links s) x)) x blankWindow) i ↔ Shown s i := by
  simp only [Shown]
  rw [updateWnd_minimized]
  split
  · next h => subst h; exact Iff.rfl
  · exact Iff.rfl

theorem close_shown_iff (hq : FocusShown s) {p : ProcId} {w : Window} :
    FocusShown { s with
      wm := updateWnd (setLinks s.wm (release (links s.wm) w.handler)) w.handler blankWindow
      opened := s.opened.erase w.handler } ↔ HandsOverShown s (.closeWindow p w) := by
  have hclosed : FocusShown { s with
      wm := updateWnd (setLinks s.wm (release (links s.wm) w.handler)) w.handler blankWindow
      opened := s.opened.erase w.handler } ↔
      ((∃ v ∈ s.opened, v ≠ w.handler ∧ Shown s.wm v) →
        (release (links s.wm) w.handler).tail ≠ -1 ∧
          Shown s.wm (release (links s.wm) w.handler).tail) := by
    simp only [FocusShown, closed_shown, Finset.mem_erase]
    refine imp_congr ⟨?_, ?_⟩ Iff.rfl
    · rintro ⟨v, ⟨hne, hv⟩, hvs⟩; exact ⟨v, hv, hne, hvs⟩
    · rintro ⟨v, hv, hne, hvs⟩; exact ⟨v, ⟨hne, hv⟩, hvs⟩
  rw [hclosed, release_tail]
  by_cases ht : w.handler = s.wm.windowlisttail
  · rw [if_pos (by exact ht)]
    exact ⟨fun h _ => h, fun h => h ht⟩
  · rw [if_neg (by exact ht)]
    refine ⟨fun _ he => absurd he ht, ?_⟩
    rintro - ⟨v, hv, _, hvs⟩
    exact hq ⟨v, hv, hvs⟩

theorem minimize_shown_iff (hq : FocusShown s) {p : ProcId} {w : Window}
    (hs : FocusSafe (links s.wm) (handOver s.wm w.handler)) :
    FocusShown { s with
      wm := setLinks (markMinimized s.wm w.handler 1)
        (focused (links s.wm) (handOver s.wm w.handler)) } ↔
      HandsOverShown s (.minimizeWindow p w) := by
  have hmin : ∀ k : Links ℤ,
      FocusShown { s with wm := setLinks (markMinimized s.wm w.handler 1) k } ↔
        ((∃ v ∈ s.opened, v ≠ w.handler ∧ Shown s.wm v) →
          k.tail ≠ -1 ∧ k.tail ≠ w.handler ∧ Shown s.wm k.tail) := fun k => by
    have hshown : ∀ i, Shown (setLinks (markMinimized s.wm w.handler 1) k) i ↔
        i ≠ w.handler ∧ Shown s.wm i := fun i => by
      apply shown_markMinimized.trans
      split
      · next he => simp [he]
      · next hne => simp [hne]
    simp only [FocusShown, hshown]
    rfl
  rw [hmin]
  by_cases ht : w.handler = s.wm.windowlisttail
  · rw [handOver_tail ht] at hs ⊢
    constructor
    · intro h _ hv
      obtain ⟨h1, h2, h3⟩ := h hv
      by_cases hstay : s.wm.windowlist.prev w.handler = -1 ∨
          s.wm.windowlist.prev w.handler = s.wm.windowlisttail
      · rw [focused_stay hstay] at h2
        exact absurd ht.symm h2
      · rw [focused_tail (not_or.mp hstay).1] at h1 h2 h3
        exact ⟨h1, h2, Or.inl h3⟩
    · intro h hv
      obtain ⟨hp, hself, hshow⟩ := h ht hv
      have hin := (hs.resolve_left hp).resolve_left fun he => hself (he.trans ht.symm)
      rw [focused_tail hp]
      exact ⟨hp, hself, hshow.resolve_right (not_not.mpr hin)⟩
  · rw [handOver_other ht, focused_neg]
    refine ⟨fun _ he => absurd he ht, ?_⟩
    rintro - ⟨v, hv, _, hvs⟩
    obtain ⟨h1, h2⟩ := hq ⟨v, hv, hvs⟩
    exact ⟨h1, Ne.symm ht, h2⟩

theorem maximize_shown {w : Window} (hx : InBounds w.handler) :
    FocusShown { s with
      wm := setLinks (markMinimized s.wm w.handler 0) (focused (links s.wm) w.handler) } := by
  intro _
  change (focused (links s.wm) w.handler).tail ≠ -1 ∧
    Shown (markMinimized s.wm w.handler 0) (focused (links s.wm) w.handler).tail
  rw [focused_tail hx.ne_neg, shown_markMinimized, if_pos rfl]
  exact ⟨hx.ne_neg, rfl⟩

/-- A window that a message focuses is shown, unless it is the desktop. -/
theorem request_shown (h : Sane s) {m : Message} {x : ℤ} (hx : FocusRequest scr s.wm m x) :
    Shown s.wm x ∨
      m.msgType = .mouseDown ∧ ¬OnPopup s.wm ∧ MouseTarget s.wm x ∧ x = s.wm.desktopId := by
  simp only [FocusRequest] at hx
  cases hm : m.msgType with
  | mouseDown =>
    simp only [hm] at hx
    obtain ⟨hp, l, q, hpath, hxq⟩ := hx
    by_cases hq : q = -1
    · rw [if_pos hq] at hxq
      exact Or.inr ⟨rfl, hp, ⟨l, q, hpath, by rw [if_pos hq, hxq]⟩, hxq⟩
    · rw [if_neg hq] at hxq
      rw [hxq]
      exact Or.inl (shown_of_onWindow h (hpath.stopped.resolve_left hq))
  | mouseLeftClick | mouseRightClick | mouseDblclick =>
    simp only [hm] at hx
    exact Or.inl hx.2.2.2.2
  | _ => simp [hm] at hx

theorem message_shown (h : Sane s) (hq : FocusShown s) {m : Message} {x : ℤ} {wm : Wm}
    {placed : List (Option ProcId)} (hg : HandsOverShown s (.wmHandleMessage m))
    (hreq : FocusRequest scr s.wm m x ∨ x = -1 ∧ ∀ y, ¬FocusRequest scr s.wm m y)
    (hs : FocusSafe (links s.wm) x) (hframe : Framed (setLinks s.wm (focused (links s.wm) x)) wm) :
    FocusShown { s with wm := wm, popupPlaced := placed } := by
  have hshown : ∀ i, Shown wm i ↔ Shown s.wm i := by
    intro i
    simp only [Shown]
    rw [hframe.minimized i]
    rfl
  rintro ⟨v, hv, hvs⟩
  have hvs := (hshown v).mp hvs
  change wm.windowlisttail ≠ -1 ∧ Shown wm wm.windowlisttail
  rw [hshown, hframe.tail]
  change (focused (links s.wm) x).tail ≠ -1 ∧ Shown s.wm (focused (links s.wm) x).tail
  have hold := hq ⟨v, hv, hvs⟩
  by_cases hx : x = -1
  · rw [hx, focused_neg]
    exact hold
  · rw [focused_tail hx]
    refine ⟨hx, ?_⟩
    rcases hreq with hreq | ⟨he, _⟩
    · rcases request_shown h hreq with hsh | ⟨hm, hp, hdesk, hxd⟩
      · exact hsh
      · subst hxd
        rcases hg hm hp hdesk ⟨v, hv, hvs⟩ with htail | hsh | hout
        · rw [htail]
          exact hold.2
        · exact hsh
        · rcases hs with he | he | hin
          · exact absurd he hx
          · exact he ▸ hold.2
          · exact absurd hin hout
    · exact absurd he hx

theorem step_shown (h : Sane s) (hq : FocusShown s) (hg : HandsOverShown s c)
    (ht : step scr s c = .ok t) : FocusShown t := by
  cases step_effect h.ranged h.desktop ht with
  | full => exact hq
  | @placed p w title x hx hfree =>
    refine fun _ => ⟨hx.ne_neg, ?_⟩
    exact (placeWindow_minimized x).trans (if_pos rfl)
  | closed hx => exact (close_shown_iff hq).mpr hg
  | minimized hx hs => exact (minimize_shown_iff hq hs).mpr hg
  | maximized hx hs => exact maximize_shown hx
  | message hreq hx hs hframe => exact message_shown h hq hg hreq hs hframe
  | quiet hquiet hsame hopened =>
    have hshown : ∀ i, Shown t.wm i ↔ Shown s.wm i := by
      intro i
      unfold Shown
      rw [hsame.minimized i]
    have htail : t.wm.windowlisttail = s.wm.windowlisttail := congrArg Links.tail hsame.links
    simpa only [FocusShown, hopened, htail, hshown] using hq

theorem step_hides (h : Sane s) (hq : FocusShown s) (hg : ¬HandsOverShown s c) :
    ∃ t, step scr s c = .ok t ∧ ¬FocusShown t := by
  cases c with
  | closeWindow p w =>
    obtain ⟨ht, hg'⟩ := Classical.not_imp.mp hg
    obtain ⟨⟨v, hv, _, hvs⟩, _⟩ := Classical.not_imp.mp hg'
    have hx : InBounds w.handler := ht ▸ tail_inBounds h hq ⟨v, hv, hvs⟩
    refine ⟨_, by rw [step, closeWindow_eq h.ranged hx]; rfl, fun hf => hg ?_⟩
    exact (close_shown_iff hq).mp hf
  | minimizeWindow p w =>
    obtain ⟨ht, hg'⟩ := Classical.not_imp.mp hg
    obtain ⟨⟨v, hv, _, hvs⟩, hbad⟩ := Classical.not_imp.mp hg'
    have hx : InBounds w.handler := ht ▸ tail_inBounds h hq ⟨v, hv, hvs⟩
    have hs : FocusSafe (links s.wm) (handOver s.wm w.handler) := by
      rw [handOver_tail ht]
      by_contra hs
      obtain ⟨h1, h2⟩ := not_or.mp hs
      obtain ⟨h2, h3⟩ := not_or.mp h2
      exact hbad ⟨h1, fun he => h2 (he.trans ht), Or.inr h3⟩
    refine ⟨_, by rw [step, minimizeWindow_safe h.ranged hx hs]; rfl, fun hf => hg ?_⟩
    exact (minimize_shown_iff hq hs).mp hf
  | wmHandleMessage m =>
    obtain ⟨hm, hg'⟩ := Classical.not_imp.mp hg
    obtain ⟨hp, hg'⟩ := Classical.not_imp.mp hg'
    obtain ⟨hdesk, hg'⟩ := Classical.not_imp.mp hg'
    obtain ⟨⟨v, hv, hvs⟩, hbad⟩ := Classical.not_imp.mp hg'
    obtain ⟨_, hbad⟩ := not_or.mp hbad
    obtain ⟨hhidden, hin⟩ := not_or.mp hbad
    have hne : s.wm.desktopId ≠ -1 := by
      intro he
      rw [h.fresh he] at hv
      simp at hv
    have hpress : PressInBounds s.wm s.wm.desktopId :=
      ⟨Or.inr (Or.inr (not_not.mp hin)), fun he => absurd he hne⟩
    obtain ⟨wm, hwm, hframe⟩ := handleMouseDown_delivers h.ranged h.desktop m hp hdesk hpress
    have hstep : wmHandleMessage scr s.wm m = .ok wm := by
      simp only [wmHandleMessage, hm]
      exact hwm
    refine ⟨_, by rw [step, hstep]; rfl, ?_⟩
    intro hf
    have htail : wm.windowlisttail = s.wm.desktopId := hframe.tail.trans (focused_tail hne)
    have hshow : Shown wm wm.windowlisttail := (hf ⟨v, hv, (hframe.minimized v).trans hvs⟩).2
    rw [htail] at hshow
    exact hhidden ((hframe.minimized _).symm.trans hshow)
  | _ => exact absurd trivial hg

/-- The keys stay with shown windows exactly as long as no hand-over of the focus picks a
minimised one while another open window is shown. -/
theorem focus_shown_visits_iff (scr : Screen) (calls : List Call) :
    Visits (step scr) FocusShown (start scr) calls ↔
      Along (step scr) HandsOverShown (start scr) calls := by
  have hstart : Sane (start scr) ∧ FocusShown (start scr) :=
    ⟨start_sane scr, fun ⟨v, hv, _⟩ => by simp [start] at hv⟩
  have hiff : ∀ s c, Sane s ∧ FocusShown s → True →
      ((∀ t, step scr s c = .ok t → FocusShown t) ↔ HandsOverShown s c) := fun s c hs _ => by
    refine ⟨?_, fun hg t ht => step_shown hs.1 hs.2 hg ht⟩
    intro hok
    by_contra hg
    obtain ⟨t, ht, hhidden⟩ := @step_hides scr s c hs.1 hs.2 hg
    exact hhidden (hok t ht)
  have hstep : ∀ s c t, Sane s ∧ FocusShown s → True → HandsOverShown s c →
      step scr s c = .ok t → Sane t ∧ FocusShown t :=
    fun s c t hs _ hg ht => ⟨step_sane hs.1 ht, step_shown hs.1 hs.2 hg ht⟩
  exact visits_iff (fun _ => And.right) hiff hstep hstart
    (along_of_forall (fun _ _ => trivial) _ _)

/-- Two windows over the desktop are minimised, the upper one first. -/
def minimizeBoth : List Call :=
  twoWindows ++ [.createWindow 2 (appWindow (-1)) [], .minimizeWindow 2 (appWindow 2),
    .minimizeWindow 1 (appWindow 1)]

/-- The desktop is shown, yet the keys go back to the window that was minimised first. -/
theorem minimize_both_hides_focus :
    ¬∀ (scr : Screen) (calls : List Call), Visits (step scr) FocusShown (start scr) calls := by
  intro h
  obtain ⟨s, hs, hf⟩ := execution_of_map (step desktopScreen) (start desktopScreen) minimizeBoth
    (fun s => (decide (0 ∈ s.opened), [s.wm.windowlisttail, (s.wm.windowlist.wnd 0).minimized,
      (s.wm.windowlist.wnd 2).minimized])) (b := (true, [2, 0, 1])) (by decide +kernel)
  simp only [Prod.mk.injEq, List.cons.injEq, and_true, decide_eq_true_eq] at hf
  obtain ⟨hopen, htail, hdesk, hmin⟩ := hf
  obtain ⟨_, hshow⟩ := (h desktopScreen minimizeBoth).last hs ⟨0, hopen, hdesk⟩
  rw [htail] at hshow
  exact absurd (hmin.symm.trans hshow) (by decide)

end WindowFocusVisibility
