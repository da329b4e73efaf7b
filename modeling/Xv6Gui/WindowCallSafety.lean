import Xv6Gui.WindowSessions

/-!
# Indexes and handles, for every reachable state

The states are those of runs in which any process calls with any handle. For messages the
condition for staying inside the array was found message by message; for the calls that take
a handle the question is also whether they leave the windows of others alone.
-/
namespace WindowCallSafety

open WindowManagerState WindowManager WindowManagerSteps WindowMessages WindowMessageOutcomes
open WindowSessions LinkedSlots GuardedRuns

variable {scr : Screen}

section Messages

theorem wmHandleMessage_bounds_iff {s : Session} (h : Reachable (step scr) (start scr) s)
    (m : Message) :
    ¬OutOfBounds (wmHandleMessage scr s.wm m) ↔ MessageInBounds scr s.wm m :=
  wmHandleMessage_inBounds (reachable_sane h).ranged (reachable_sane h).desktop

theorem wmHandleMessage_bounds_after_desktop :
    ∃ s, Reachable (step desktopScreen) (start desktopScreen) s ∧ s.wm.windowlisttail = 0 ∧
      ¬OutOfBounds (wmHandleMessage desktopScreen s.wm (newmsg .keyDown)) := by
  obtain ⟨s, hs, ht⟩ := execution_of_map (step desktopScreen) (start desktopScreen)
    [.createWindow 0 desktopWindow []] (fun s => s.wm.windowlisttail) (b := 0)
    (by decide +kernel)
  have hr : Reachable (step desktopScreen) (start desktopScreen) s := ⟨_, hs⟩
  refine ⟨s, hr, ht, (wmHandleMessage_bounds_iff hr (newmsg .keyDown)).mpr ?_⟩
  change s.wm.windowlisttail ≠ -1
  rw [ht]
  decide

/-- Before the first window a key press writes to the queue of slot -1. -/
theorem key_before_first_window : ¬∀ (scr : Screen) (s : Session) (m : Message),
    Reachable (step scr) (start scr) s → ¬OutOfBounds (wmHandleMessage scr s.wm m) := by
  intro h
  exact h desktopScreen (start desktopScreen) (newmsg .keyDown) ⟨[], .nil _⟩ trivial

end Messages

section Handles

/-- A slot that the traversals from the head come across. -/
inductive OnList (k : Links ℤ) : ℤ → Prop where
  | head : k.head ≠ -1 → OnList k k.head
  | next {i} : OnList k i → k.next i ≠ -1 → OnList k (k.next i)

/-- Slot `h` is on the list and its window belongs to `p`. -/
def Owns (s : Wm) (p : ProcId) (h : ℤ) : Prop :=
  OnList (links s) h ∧ s.windowlist.proc h = some p

/-- The call stays inside the array, and it acts on a listed window of the caller or changes
nothing at all. -/
def Guarded (s : Wm) (p : ProcId) (h : ℤ) (r : Except Fault Wm) : Prop :=
  ¬OutOfBounds r ∧ (Owns s p h ∨ ∀ t, r = .ok t → t = s)

/-- A free slot with an empty queue at its first position and no title. -/
structure BlankSlot (s : Wm) (h : ℤ) : Prop where
  free : Free s h
  front : (s.windowlist.wnd h).msgBuf.front = 0
  rear : (s.windowlist.wnd h).msgBuf.rear = 0
  cnt : (s.windowlist.wnd h).msgBuf.cnt = 0
  title : (s.windowlist.wnd h).title = fun _ => 0

/-- Minimising slot `h` would not move the focus. -/
def KeepsFocus (s : Wm) (h : ℤ) : Prop :=
  h = s.windowlisttail → s.windowlist.prev h = -1 ∨ s.windowlist.prev h = h

variable {s : Wm} {p : ProcId} {w : Window}

theorem guarded_ok {h : ℤ} {t : Wm} : Guarded s p h (.ok t) ↔ Owns s p h ∨ t = s := by
  simp [Guarded, OutOfBounds]

theorem guarded_out {h : ℤ} {r : Except Fault Wm} (hr : OutOfBounds r) : ¬Guarded s p h r :=
  fun hg => hg.1 hr

theorem outOfBounds_map {α β : Type} {r : Except Fault α} {f : α → β} (h : OutOfBounds r) :
    OutOfBounds (f <$> r) := by
  cases r with
  | error e => cases e <;> exact h
  | ok t => exact h.elim

theorem release_eq_self {h : ℤ} (hh : InBounds h) (hf : Free s h) :
    release (links s) h = links s := by
  obtain ⟨hp, hn⟩ := hf
  have hn' : Function.update s.windowlist.next h h = s.windowlist.next :=
    Function.update_eq_self_iff.mpr hn.symm
  have hp' : Function.update s.windowlist.prev h h = s.windowlist.prev :=
    Function.update_eq_self_iff.mpr hp.symm
  simp [release, unlink, Links.remove, links, hp, hn, hh.ne_neg, hn', hp', eq_comm]

theorem updateWnd_eq_self {h : ℤ} {f : KernelWindow → KernelWindow}
    (hf : f (s.windowlist.wnd h) = s.windowlist.wnd h) : updateWnd s h f = s := by
  simp only [updateWnd]
  rw [hf, Function.update_eq_self]

theorem blankSlot_iff {h : ℤ} :
    BlankSlot s h ↔ Free s h ∧ blankWindow (s.windowlist.wnd h) = s.windowlist.wnd h := by
  constructor
  · rintro ⟨hf, h1, h2, h3, h4⟩
    refine ⟨hf, ?_⟩
    generalize s.windowlist.wnd h = w at *
    obtain ⟨_, _, ⟨_, _, _, _⟩, _, _, _⟩ := w
    simp only at h1 h2 h3 h4
    subst h1 h2 h3 h4
    rfl
  · rintro ⟨hf, hb⟩
    refine ⟨hf, ?_, ?_, ?_, ?_⟩ <;> rw [← hb] <;> rfl

theorem closeWindow_guarded (hr : Ranged (links s)) :
    Guarded s p w.handler ((fun r => r.2.1) <$> closeWindow s w) ↔
      InBounds w.handler ∧ (Owns s p w.handler ∨ BlankSlot s w.handler) := by
  by_cases hx : InBounds w.handler
  · rw [closeWindow_eq hr hx]
    apply guarded_ok.trans
    simp only [hx, true_and]
    refine or_congr_right ⟨?_, ?_⟩
    · intro ht
      have hprev := congrArg (fun t : Wm => t.windowlist.prev w.handler) ht
      have hnext := congrArg (fun t : Wm => t.windowlist.next w.handler) ht
      have hwnd := congrArg (fun t : Wm => t.windowlist.wnd w.handler) ht
      simp only [updateWnd, setLinks, release, Function.update_self] at hprev hnext hwnd
      exact blankSlot_iff.mpr ⟨⟨hprev.symm, hnext.symm⟩, hwnd⟩
    · intro hb
      obtain ⟨hf, hb⟩ := blankSlot_iff.mp hb
      rw [release_eq_self hx hf, setLinks_links]
      exact updateWnd_eq_self hb
  · simp only [hx, false_and, iff_false]
    exact guarded_out (outOfBounds_map (closeWindow_out hx))

/-- Focusing changes the links unless it returns early. -/
theorem focused_eq_self {k : Links ℤ} {x : ℤ} : focused k x = k ↔ x = -1 ∨ x = k.tail := by
  constructor
  · intro h
    by_cases hx : x = -1
    · exact Or.inl hx
    · have ht := focused_tail (k := k) hx
      rw [h] at ht
      exact Or.inr ht.symm
  · exact fun h => if_pos h

theorem setLinks_markMinimized_eq_self {x v : ℤ} {k : Links ℤ} :
    setLinks (markMinimized s x v) k = s ↔ (s.windowlist.wnd x).minimized = v ∧ k = links s := by
  constructor
  · intro h
    have hwnd := congrArg (fun t : Wm => (t.windowlist.wnd x).minimized) h
    have hlinks := congrArg links h
    rw [links_setLinks] at hlinks
    refine ⟨hwnd.symm.trans ?_, hlinks⟩
    exact (markMinimized_minimized s x v x).trans (if_pos rfl)
  · rintro ⟨hv, rfl⟩
    rw [show markMinimized s x v = s from updateWnd_eq_self (by rw [← hv]), setLinks_links]

theorem handOver_keeps {h : ℤ} :
    handOver s h = -1 ∨ handOver s h = s.windowlisttail ↔ KeepsFocus s h := by
  simp only [handOver, KeepsFocus]
  by_cases ht : h = s.windowlisttail
  · simp [ht]
  · simp [ht]

theorem minimizeWindow_guarded (hr : Ranged (links s)) :
    Guarded s p w.handler ((fun r => r.2.1) <$> minimizeWindow s w) ↔
      InBounds w.handler ∧ FocusSafe (links s) (handOver s w.handler) ∧
        (Owns s p w.handler ∨
          (s.windowlist.wnd w.handler).minimized = 1 ∧ KeepsFocus s w.handler) := by
  by_cases hx : InBounds w.handler ∧ FocusSafe (links s) (handOver s w.handler)
  · rw [minimizeWindow_safe hr hx.1 hx.2]
    apply guarded_ok.trans
    simp only [hx, true_and]
    rw [setLinks_markMinimized_eq_self, focused_eq_self, ← handOver_keeps]
    rfl
  · rw [← and_assoc]
    simp only [hx, false_and, iff_false]
    exact guarded_out (outOfBounds_map (minimizeWindow_faults hr hx))

theorem maximizeWindow_guarded (hr : Ranged (links s)) :
    Guarded s p w.handler ((fun r => r.2.1) <$> maximizeWindow s w) ↔
      InBounds w.handler ∧ FocusSafe (links s) w.handler ∧
        (Owns s p w.handler ∨
          (s.windowlist.wnd w.handler).minimized = 0 ∧ w.handler = s.windowlisttail) := by
  by_cases hx : InBounds w.handler ∧ FocusSafe (links s) w.handler
  · rw [maximizeWindow_safe hr hx.1 hx.2]
    apply guarded_ok.trans
    simp only [hx, true_and]
    rw [setLinks_markMinimized_eq_self, focused_eq_self]
    simp only [hx.1.ne_neg, false_or]
    rfl
  · rw [← and_assoc]
    simp only [hx, false_and, iff_false]
    exact guarded_out (outOfBounds_map (maximizeWindow_faults hr hx))

theorem updateWnd_takeMessage_eq_self {h : ℤ} :
    updateWnd s h takeMessage = s ↔ (s.windowlist.wnd h).msgBuf.cnt = 0 := by
  constructor
  · intro ht
    by_contra hc
    have hcnt := congrArg (fun t : Wm => (t.windowlist.wnd h).msgBuf.cnt) ht
    simp only [updateWnd, Function.update_self, takeMessage, getMessage, hc, if_false] at hcnt
    omega
  · exact fun hc => updateWnd_eq_self (takeMessage_empty hc)

theorem sysGetMessage_guarded {h : ℤ} :
    Guarded s p h (Prod.snd <$> sysGetMessage s p h) ↔
      InBounds h ∧ (s.windowlist.proc h ≠ some p ∨ (s.windowlist.wnd h).msgBuf.cnt = 0 ∨
        OnList (links s) h) := by
  by_cases hx : InBounds h
  · by_cases hp : s.windowlist.proc h = some p
    · rw [sysGetMessage_owner hx hp]
      apply guarded_ok.trans
      rw [updateWnd_takeMessage_eq_self]
      simp [Owns, hp, hx, or_comm]
    · rw [sysGetMessage_other hx hp]
      apply guarded_ok.trans
      simp [hp, hx]
  · simp only [hx, false_and, iff_false]
    exact guarded_out (outOfBounds_map (sysGetMessage_out hx))

/-- Only `getMessage` compares the owner, and no call compares the handle with the bounds. -/
theorem handle_calls_guarded_iff {s : Session} (h : Reachable (step scr) (start scr) s)
    (p : ProcId) (w : Window) :
    (Guarded s.wm p w.handler ((fun r => r.2.1) <$> closeWindow s.wm w) ↔
      InBounds w.handler ∧ (Owns s.wm p w.handler ∨ BlankSlot s.wm w.handler)) ∧
    (Guarded s.wm p w.handler ((fun r => r.2.1) <$> minimizeWindow s.wm w) ↔
      InBounds w.handler ∧ FocusSafe (links s.wm) (handOver s.wm w.handler) ∧
        (Owns s.wm p w.handler ∨
          (s.wm.windowlist.wnd w.handler).minimized = 1 ∧ KeepsFocus s.wm w.handler)) ∧
    (Guarded s.wm p w.handler ((fun r => r.2.1) <$> maximizeWindow s.wm w) ↔
      InBounds w.handler ∧ FocusSafe (links s.wm) w.handler ∧
        (Owns s.wm p w.handler ∨ (s.wm.windowlist.wnd w.handler).minimized = 0 ∧
          w.handler = s.wm.windowlisttail)) ∧
    (Guarded s.wm p w.handler (Prod.snd <$> sysGetMessage s.wm p w.handler) ↔
      InBounds w.handler ∧ (s.wm.windowlist.proc w.handler ≠ some p ∨
        (s.wm.windowlist.wnd w.handler).msgBuf.cnt = 0 ∨ OnList (links s.wm) w.handler)) :=
  have hr := (reachable_sane h).ranged
  ⟨closeWindow_guarded hr, minimizeWindow_guarded hr, maximizeWindow_guarded hr,
    sysGetMessage_guarded⟩

theorem twoWindows_reached : ∃ s, Reachable (step desktopScreen) (start desktopScreen) s ∧
    s.wm.windowlisthead = 0 ∧ s.wm.windowlisttail = 1 ∧ s.wm.windowlist.next 0 = 1 ∧
    s.wm.windowlist.next 1 = -1 ∧ s.wm.windowlist.proc 0 = some 0 ∧
    s.wm.windowlist.proc 1 = some 1 ∧ (s.wm.windowlist.wnd 1).minimized = 0 := by
  obtain ⟨s, hs, ht⟩ := execution_of_map (step desktopScreen) (start desktopScreen) twoWindows
    (fun s => ([s.wm.windowlisthead, s.wm.windowlisttail, s.wm.windowlist.next 0,
      s.wm.windowlist.next 1, (s.wm.windowlist.wnd 1).minimized],
      [s.wm.windowlist.proc 0, s.wm.windowlist.proc 1]))
    (b := ([0, 1, 1, -1, 0], [some 0, some 1])) (by decide +kernel)
  simp only [Prod.mk.injEq, List.cons.injEq, and_true] at ht
  obtain ⟨⟨hhead, htail, hnext, hlast, hmin⟩, hproc, hproc'⟩ := ht
  exact ⟨s, ⟨_, hs⟩, hhead, htail, hnext, hlast, hproc, hproc', hmin⟩

theorem own_handle_guarded : ∃ s, Reachable (step desktopScreen) (start desktopScreen) s ∧
    Guarded s.wm 1 1 ((fun r => r.2.1) <$> closeWindow s.wm (appWindow 1)) := by
  obtain ⟨s, hs, hhead, _, hnext, _, _, hproc, _⟩ := twoWindows_reached
  have hlist : OnList (links s.wm) 1 := by
    have hzero : OnList (links s.wm) 0 := hhead ▸ .head (by simp [links, hhead])
    exact hnext ▸ hzero.next (by simp [links, hnext])
  exact ⟨s, hs, (handle_calls_guarded_iff hs 1 (appWindow 1)).1.mpr
    ⟨by decide, Or.inl ⟨hlist, hproc⟩⟩⟩

/-- Process 2 owns no window, yet it changes those of the others, and a stale handle leads
outside the array. -/
theorem foreign_handles_not_guarded :
    ∃ s, Reachable (step desktopScreen) (start desktopScreen) s ∧
      ¬Guarded s.wm 2 1 ((fun r => r.2.1) <$> closeWindow s.wm (appWindow 1)) ∧
      ¬Guarded s.wm 2 1 ((fun r => r.2.1) <$> minimizeWindow s.wm (appWindow 1)) ∧
      ¬Guarded s.wm 2 0 ((fun r => r.2.1) <$> maximizeWindow s.wm (appWindow 0)) ∧
      ¬Guarded s.wm 2 (-1) (Prod.snd <$> sysGetMessage s.wm 2 (-1)) := by
  obtain ⟨s, hs, hhead, htail, hnext, hlast, hproc0, hproc, hmin⟩ := twoWindows_reached
  have hr := (reachable_sane hs).ranged
  have hforeign : ¬Owns s.wm 2 1 := by
    intro h
    have := h.2
    rw [hproc] at this
    exact absurd this (by decide)
  have hforeign0 : ¬Owns s.wm 2 0 := by
    intro h
    have := h.2
    rw [hproc0] at this
    exact absurd this (by decide)
  refine ⟨s, hs, ?_, ?_, ?_, ?_⟩
  · intro h
    obtain ⟨_, ho | hb⟩ := (closeWindow_guarded (w := appWindow 1) hr).mp h
    · exact hforeign ho
    · have hfree : s.wm.windowlist.next 1 = 1 := hb.free.2
      omega
  · intro h
    obtain ⟨_, _, ho | ⟨hm, _⟩⟩ := (minimizeWindow_guarded (w := appWindow 1) hr).mp h
    · exact hforeign ho
    · have hone : (s.wm.windowlist.wnd 1).minimized = 1 := hm
      omega
  · intro h
    obtain ⟨_, _, ho | ⟨_, ht⟩⟩ := (maximizeWindow_guarded (w := appWindow 0) hr).mp h
    · exact hforeign0 ho
    · have hzero : 0 = s.wm.windowlisttail := ht
      omega
  · intro h
    exact not_inBounds_neg (sysGetMessage_guarded.mp h).1

end Handles

end WindowCallSafety
