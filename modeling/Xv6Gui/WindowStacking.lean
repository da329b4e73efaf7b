import Xv6Gui.WindowListInvariant

/-!
# A press meets what is painted on top

updateScreen paints along the list and a press searches it from the other end. The window that
gets the focus is the last one painted under the cursor, or the desktop.
-/
namespace WindowStacking

open WindowManagerState WindowManager WindowManagerSteps WindowMessages WindowSessions
open WindowListInvariant LinkedSlots GuardedRuns

variable {scr : Screen} {s t : Wm} {l : List ℤ} {m : Message}

/-- A call of drawWindow. -/
inductive Drawn where
  | window (p : ℤ)
  | popup
  deriving DecidableEq, Repr

/-- The windows updateScreen draws, in its order. -/
def drawWindows (s : Wm) : Except Fault (List Drawn) := do
  let d ← index s.desktopId
  let l ← traverse s
  let others := l.filter fun p =>
    decide (p ≠ s.desktopId ∧ (s.windowlist.wnd p).minimized = 0)
  return .window d :: (others.map .window ++
    if s.popupwindow.caller ≠ -1 then [.popup] else [])

def updateScreen (s : Wm) (myproc : ProcId) : Except Fault (List Drawn) := do
  let d ← index s.desktopId
  if some myproc ≠ s.windowlist.proc d
    then .error (.panic "Update screen called by non desktop process")
    else drawWindows s

/-- The links thread the slots of `l`, the desktop among them; the other slots are free, and
`minimized` is a truth value. -/
structure WellFormed (s : Wm) (l : List ℤ) : Prop where
  threads : Threads (links s) l.toFinset l
  desktop : s.desktopId ∈ l
  minimized : ∀ p ∈ l, (s.windowlist.wnd p).minimized = 0 ∨ (s.windowlist.wnd p).minimized = 1

/-- The content and the title bar above it, whose upper edge drawWindowBar computes as an `int`. -/
def frame (r : WinRect) : WinRect := { r with ymin := i32 (r.ymin - titleHeight) }

/-- A window that is not minimised, other than the desktop, whose frame contains the cursor. -/
structure UnderCursor (s : Wm) (p : ℤ) : Prop where
  window : p ≠ s.desktopId
  shown : (s.windowlist.wnd p).minimized = 0
  left : (s.windowlist.wnd p).position.xmin ≤ s.wmMousePos.x
  right : s.wmMousePos.x ≤ (s.windowlist.wnd p).position.xmax
  top : (frame (s.windowlist.wnd p).position).ymin ≤ s.wmMousePos.y
  bottom : s.wmMousePos.y ≤ (s.windowlist.wnd p).position.ymax

/-- The last of the windows drawn that is under the cursor, or the desktop if no listed window
is. -/
def Topmost (s : Wm) (l : List ℤ) (drawn : List Drawn) (w : ℤ) : Prop :=
  (UnderCursor s w ∧ ∃ before after, drawn = before ++ .window w :: after ∧
    ∀ p, .window p ∈ after → ¬UnderCursor s p) ∨
  w = s.desktopId ∧ ∀ p ∈ l, ¬UnderCursor s p

theorem updateScreen_desktop {p : ProcId} (h : InBounds s.desktopId)
    (hp : s.windowlist.proc s.desktopId = some p) : updateScreen s p = drawWindows s := by
  rw [updateScreen, index_ok h, ok_bind, if_neg (not_not_intro hp.symm)]

/-- The lists of the sessions are well formed in this sense once the desktop is open. -/
theorem wellFormed_of_invariant {s : Session} (h : Invariant s)
    (hd : s.wm.desktopId ∈ s.opened) : ∃ l, WellFormed s.wm l := by
  obtain ⟨l, hl⟩ := h.threads
  refine ⟨l, ⟨hl.linked, fun i => List.mem_toFinset.symm, hl.inBounds, hl.free⟩,
    (hl.members _).mpr hd, ?_⟩
  intro p _
  exact h.sane.minimized p

theorem drawWindows_eq (h : WellFormed s l) :
    drawWindows s = .ok (.window s.desktopId ::
      ((l.filter fun p => decide (p ≠ s.desktopId ∧ (s.windowlist.wnd p).minimized = 0)).map
        .window ++ if s.popupwindow.caller ≠ -1 then [.popup] else [])) := by
  rw [drawWindows, index_ok (h.threads.inBounds _ h.desktop), ok_bind,
    traverse_linked h.threads.ranged h.threads.linked, ok_bind, pure_eq_ok]

/-- Painting leaves out what is minimised and the press what is minimised with the value 1. -/
theorem onWindow_iff (h : WellFormed s l) {p : ℤ} (hp : p ∈ l) :
    OnWindow s p ↔ UnderCursor s p := by
  have hmin := h.minimized p hp
  simp only [OnWindow, isInRect, decide_eq_true_eq]
  constructor
  · rintro ⟨hd, hm, hl, hr, ht, hb⟩
    exact ⟨hd, hmin.resolve_right hm, hl, hr, ht, hb⟩
  · rintro ⟨hd, hm, hl, hr, ht, hb⟩
    refine ⟨hd, ?_, hl, hr, ht, hb⟩
    rw [hm]
    decide

/-- The search from the tail ends at the first window under the cursor that it meets. -/
theorem target_first (h : WellFormed s l) {visited rest : List ℤ} {q : ℤ}
    (hl : l.reverse = visited ++ q :: rest) (hq : OnWindow s q)
    (hv : ∀ p ∈ visited, ¬OnWindow s p) : MouseTarget s q := by
  have hne : ∀ p ∈ l.reverse, p ≠ -1 := fun p hp =>
    (h.threads.inBounds p (List.mem_reverse.mp hp)).ne_neg
  have hback := h.threads.linked.backward
  rw [hl] at hback hne
  refine ⟨visited, q, hback.cut ?_ (Or.inr hq), (if_neg (hne q (by simp))).symm⟩
  intro p hp hstop
  rcases hstop with rfl | hon
  · exact hne (-1) (by simp [hp]) rfl
  · exact hv p hp hon

theorem target_desktop (h : WellFormed s l) (hl : ∀ p ∈ l, ¬OnWindow s p) :
    MouseTarget s s.desktopId := by
  refine ⟨l.reverse, -1, h.threads.linked.backward.exhaust ?_ (Or.inl rfl), (if_pos rfl).symm⟩
  intro p hp hstop
  have hp := List.mem_reverse.mp hp
  rcases hstop with rfl | hon
  · exact (h.threads.inBounds _ hp).ne_neg rfl
  · exact hl p hp hon

/-- What a press focuses is listed and painted on top. -/
theorem target_topmost (h : WellFormed s l) :
    ∃ w drawn, MouseTarget s w ∧ w ∈ l ∧ drawWindows s = .ok drawn ∧ Topmost s l drawn w := by
  cases hfind : l.reverse.find? fun p => decide (OnWindow s p) with
  | some w =>
    obtain ⟨hw, visited, rest, hrev, hv⟩ := List.find?_eq_some_iff_append.mp hfind
    have hw : OnWindow s w := of_decide_eq_true hw
    have hv : ∀ p ∈ visited, ¬OnWindow s p := fun p hp => by simpa using hv p hp
    have hl : l = rest.reverse ++ w :: visited.reverse := by
      simpa using congrArg List.reverse hrev
    have hwl : w ∈ l := by simp [hl]
    have hu : UnderCursor s w := (onWindow_iff h hwl).mp hw
    refine ⟨w, _, target_first h hrev hw hv, hwl, drawWindows_eq h, Or.inl ⟨hu, ?_⟩⟩
    rw [hl, List.filter_append, List.filter_cons_of_pos (by simp [hu.window, hu.shown]),
      List.map_append, List.map_cons, List.append_assoc, List.cons_append, ← List.cons_append]
    refine ⟨_, _, rfl, ?_⟩
    intro p hp hup
    have hpv : p ∈ visited := by
      rcases List.mem_append.mp hp with hp | hp
      · obtain ⟨i, hi, heq⟩ := List.mem_map.mp hp
        cases heq
        exact List.mem_reverse.mp (List.mem_of_mem_filter hi)
      · split at hp <;> simp at hp
    exact hv p hpv ((onWindow_iff h (by simp [hl, hpv])).mpr hup)
  | none =>
    have hno : ∀ p ∈ l, ¬OnWindow s p := fun p hp => by
      simpa using List.find?_eq_none.mp hfind p (List.mem_reverse.mpr hp)
    refine ⟨s.desktopId, _, target_desktop h hno, h.desktop, drawWindows_eq h, Or.inr ⟨rfl, ?_⟩⟩
    intro p hp hu
    exact hno p hp ((onWindow_iff h hp).mpr hu)

/-- A press off the popup focuses what is painted on top under the cursor, and the other windows
stay in their order. -/
theorem press_focuses_topmost (scr : Screen) (h : WellFormed s l) (hm : m.msgType = .mouseDown)
    (hp : ¬OnPopup s) :
    ∃ t drawn, wmHandleMessage scr s m = .ok t ∧ drawWindows s = .ok drawn ∧
      (∀ p, s.windowlist.proc s.desktopId = some p → updateScreen s p = .ok drawn) ∧
      Topmost s l drawn t.windowlisttail ∧
      WellFormed t (l.erase t.windowlisttail ++ [t.windowlisttail]) := by
  obtain ⟨w, drawn, hw, hwl, hdrawn, htop⟩ := target_topmost h
  have hne : w ≠ -1 := (h.threads.inBounds w hwl).ne_neg
  have hsafe : PressInBounds s w :=
    ⟨h.threads.focusSafe (Or.inr (List.mem_toFinset.mpr hwl)), fun hn => absurd hn hne⟩
  obtain ⟨t, ht, hframed⟩ := handleMouseDown_delivers h.threads.ranged
    (Or.inr (h.threads.inBounds _ h.desktop)) m hp hw hsafe
  have htail : t.windowlisttail = w := by
    rw [hframed.tail]
    exact focused_tail hne
  have hthreads := h.threads.focus_mem hwl
  have hmem : ∀ i, i ∈ l.erase w ++ [w] ↔ i ∈ l := fun i =>
    (hthreads.members i).trans List.mem_toFinset
  refine ⟨t, drawn, ?_, hdrawn, ?_, ?_, ?_⟩
  · rw [wmHandleMessage, hm]
    exact ht
  · intro p hown
    rw [updateScreen_desktop (h.threads.inBounds _ h.desktop) hown]
    exact hdrawn
  · rw [htail]
    exact htop
  · rw [htail]
    refine ⟨?_, ?_, ?_⟩
    · rw [hframed.links]
      exact ⟨hthreads.linked, fun i => List.mem_toFinset.symm, hthreads.inBounds, hthreads.free⟩
    · rw [hframed.desktopId]
      exact (hmem _).mpr h.desktop
    · intro p hp
      rw [hframed.minimized]
      exact h.minimized p ((hmem p).mp hp)

/-- Process 2 opens a window that covers the cursor's place only in part; the cursor is moved to
where only the window of process 1 is. -/
def coveredWindow : List Call :=
  twoWindows ++ [.createWindow 2 ⟨⟨180, 380, 180, 380⟩, 1, 0, 200, 200, -1⟩ [],
    .wmHandleMessage (newmsgAt .mouseMove (-250) 150)]

theorem coveredWindow_invariant {s : Session}
    (h : Execution (step desktopScreen) (start desktopScreen) coveredWindow s) : Invariant s := by
  cases h with
  | cons h₁ h =>
    have hs := step_invariant (start_invariant desktopScreen) (by trivial) (by trivial) h₁
    cases h with
    | cons h₂ h =>
      have hs := step_invariant hs (by trivial) (by trivial) h₂
      cases h with
      | cons h₃ h =>
        have hs := step_invariant hs (by trivial) (by trivial) h₃
        cases h with
        | cons h₄ h =>
          cases h
          exact step_invariant hs (by trivial) (by trivial) h₄

theorem coveredWindow_wellFormed {s : Session}
    (h : Execution (step desktopScreen) (start desktopScreen) coveredWindow s) :
    WellFormed s.wm [0, 1, 2] := by
  obtain ⟨t, ht, hfacts⟩ := execution_of_map (step desktopScreen) (start desktopScreen)
    coveredWindow (fun s => (decide (s.wm.desktopId ∈ s.opened), traverse s.wm))
    (b := (true, .ok [0, 1, 2])) (by decide +kernel)
  cases h.unique ht
  obtain ⟨hopen, hlist⟩ := Prod.mk.inj hfacts
  obtain ⟨l, hl⟩ := wellFormed_of_invariant (coveredWindow_invariant h) (of_decide_eq_true hopen)
  cases (traverse_linked hl.threads.ranged hl.threads.linked).symm.trans hlist
  exact hl

theorem press_raises_window :
    ∃ (s : Session) (t : Wm) (drawn : List Drawn),
      Execution (step desktopScreen) (start desktopScreen) coveredWindow s ∧
      wmHandleMessage desktopScreen s.wm (newmsg .mouseDown) = .ok t ∧
      drawWindows s.wm = .ok drawn ∧ t.windowlisttail = 1 ∧
      Topmost s.wm [0, 1, 2] drawn 1 ∧ WellFormed t [0, 2, 1] := by
  obtain ⟨s, hs, hfacts⟩ := execution_of_map (step desktopScreen) (start desktopScreen)
    coveredWindow (fun s => (decide (¬OnPopup s.wm),
      (wmHandleMessage desktopScreen s.wm (newmsg .mouseDown)).map fun t => t.windowlisttail))
    (b := (true, .ok 1)) (by decide +kernel)
  obtain ⟨hp, hfocus⟩ := Prod.mk.inj hfacts
  obtain ⟨t, drawn, ht, hdrawn, _, htop, hwf⟩ := press_focuses_topmost desktopScreen
    (coveredWindow_wellFormed hs) (m := newmsg .mouseDown) rfl (of_decide_eq_true hp)
  have htail : t.windowlisttail = 1 := by
    rw [ht] at hfocus
    exact Except.ok.inj hfocus
  rw [htail] at htop hwf
  exact ⟨s, t, drawn, hs, ht, hdrawn, htail, htop, hwf⟩

end WindowStacking
