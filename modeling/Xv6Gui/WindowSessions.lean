import Xv6Gui.MessageDeliveries
import Mathlib.Data.Finset.Basic

/-!
# Runs of the system calls and the drivers

One step is a system call of one process or a message from the drivers. Beside the globals
a session records the handles that `createWindow` has given out and `closeWindow` has not
taken back, whose `createPopupWindow` opened the popup, and who owned the popup when each of
its queued messages was placed. The code never reads this record.
-/
namespace WindowSessions

open WindowManagerState WindowManager WindowManagerSteps WindowMessages WindowMessageOutcomes
open DockClicks MessageDeliveries LinkedSlots GuardedRuns

inductive Call where
  | createWindow (myproc : ProcId) (window : Window) (title : List UInt8)
  | closeWindow (myproc : ProcId) (window : Window)
  | minimizeWindow (myproc : ProcId) (window : Window)
  | maximizeWindow (myproc : ProcId) (window : Window)
  | getMessage (myproc : ProcId) (h : ℤ)
  | createPopupWindow (myproc : ProcId) (window : Window) (caller : ℤ)
  | closePopupWindow (myproc : ProcId) (window : Window)
  | getPopupMessage (myproc : ProcId)
  | turnoffScreen (myproc : ProcId)
  | wmHandleMessage (msg : Message)

structure Session where
  wm : Wm
  opened : Finset ℤ
  popupOwner : Option ProcId
  popupPlaced : List (Option ProcId)

variable (scr : Screen)

def start : Session := ⟨initial scr, ∅, none, []⟩

/-- The messages that a driver's message adds to the popup's queue. -/
def popupGrowth (s t : Wm) : ℕ :=
  (t.popupwindow.wnd.msgBuf.cnt - s.popupwindow.wnd.msgBuf.cnt).toNat

def step (s : Session) : Call → Except Fault Session
  | .createWindow myproc window title => do
    let (ret, wm, window) ← createWindow scr s.wm myproc window title
    return { s with
      wm := wm, opened := if ret = 0 then insert window.handler s.opened else s.opened }
  | .closeWindow _ window => do
    let (_, wm, _) ← closeWindow s.wm window
    return { s with wm := wm, opened := s.opened.erase window.handler }
  | .minimizeWindow _ window => do
    let (_, wm, _) ← minimizeWindow s.wm window
    return { s with wm := wm }
  | .maximizeWindow _ window => do
    let (_, wm, _) ← maximizeWindow s.wm window
    return { s with wm := wm }
  | .getMessage myproc h => do
    let (_, wm) ← sysGetMessage s.wm myproc h
    return { s with wm := wm }
  | .createPopupWindow myproc window caller =>
    let (ret, wm, _) := createPopupWindow scr s.wm myproc window caller
    .ok (if ret = 0 then { s with wm := wm, popupOwner := some myproc, popupPlaced := [] }
      else { s with wm := wm })
  | .closePopupWindow _ window =>
    let (_, wm, _) := closePopupWindow s.wm window
    .ok { s with wm := wm, popupOwner := none, popupPlaced := [] }
  | .getPopupMessage _ =>
    let (res, wm) := sysGetPopupMessage s.wm
    .ok { s with
      wm := wm, popupPlaced := if res.isSome then s.popupPlaced.tail else s.popupPlaced }
  | .turnoffScreen _ => do
    let wm ← turnoffScreen s.wm
    return { s with wm := wm }
  | .wmHandleMessage msg => do
    let wm ← wmHandleMessage scr s.wm msg
    return { s with
      wm := wm
      popupPlaced := s.popupPlaced ++ List.replicate (popupGrowth s.wm wm) s.popupOwner }

variable {scr}

/-- `t` has the windows of `s`, with other queues and rectangles perhaps. -/
structure SameWindows (s t : Wm) : Prop where
  links : links t = links s
  desktopId : t.desktopId = s.desktopId
  proc : t.windowlist.proc = s.windowlist.proc
  minimized : ∀ i, (t.windowlist.wnd i).minimized = (s.windowlist.wnd i).minimized
  clicked : Clicked t → Clicked s ∨ s.windowlisttail ≠ -1

theorem sameWindows_of_framed {s t : Wm} (h : Framed s t) : SameWindows s t :=
  ⟨h.links, h.desktopId, h.proc, h.minimized, h.clicked⟩

theorem sameWindows_of_popup (s : Wm) (p : PopupWindow) :
    SameWindows s { s with popupwindow := p } :=
  ⟨rfl, rfl, rfl, fun _ => rfl, Or.inl⟩

/-- The calls that cannot change which windows are listed, shown or focused. -/
inductive Quiet : Call → Prop where
  | getMessage (p h) : Quiet (.getMessage p h)
  | createPopupWindow (p w c) : Quiet (.createPopupWindow p w c)
  | closePopupWindow (p w) : Quiet (.closePopupWindow p w)
  | getPopupMessage (p) : Quiet (.getPopupMessage p)
  | turnoffScreen (p) : Quiet (.turnoffScreen p)

/-- All that a step can do to the windows. -/
inductive Effect (scr : Screen) (s : Session) : Call → Session → Prop where
  | full {p w title} :
      (∀ i, InBounds i → ¬Free s.wm i) → Effect scr s (.createWindow p w title) s
  | placed {p w title x} : InBounds x → Free s.wm x →
      Effect scr s (.createWindow p w title)
        { s with wm := placeWindow scr s.wm x p w title, opened := insert x s.opened }
  | closed {p w} : InBounds w.handler →
      Effect scr s (.closeWindow p w)
        { s with
          wm := updateWnd (setLinks s.wm (release (links s.wm) w.handler)) w.handler blankWindow
          opened := s.opened.erase w.handler }
  | minimized {p w} : InBounds w.handler → FocusSafe (links s.wm) (handOver s.wm w.handler) →
      Effect scr s (.minimizeWindow p w)
        { s with
          wm := setLinks (markMinimized s.wm w.handler 1)
            (focused (links s.wm) (handOver s.wm w.handler)) }
  | maximized {p w} : InBounds w.handler → FocusSafe (links s.wm) w.handler →
      Effect scr s (.maximizeWindow p w)
        { s with
          wm := setLinks (markMinimized s.wm w.handler 0)
            (focused (links s.wm) w.handler) }
  | message {m x wm} :
      (FocusRequest scr s.wm m x ∨ x = -1 ∧ ∀ y, ¬FocusRequest scr s.wm m y) → IsLink x →
      FocusSafe (links s.wm) x → Framed (setLinks s.wm (focused (links s.wm) x)) wm →
      Effect scr s (.wmHandleMessage m) { s with
        wm := wm
        popupPlaced := s.popupPlaced ++ List.replicate (popupGrowth s.wm wm) s.popupOwner }
  | quiet {c t} : Quiet c → SameWindows s.wm t.wm → t.opened = s.opened → Effect scr s c t

theorem not_outOfBounds_of_ok {β : Type} {r : Except Fault β} {t : β} (h : r = .ok t) :
    ¬OutOfBounds r := by
  rw [h]
  exact id

theorem sysGetMessage_sameWindows {s t : Wm} {p : ProcId} {h : ℤ} {res : Option Message}
    (ht : sysGetMessage s p h = .ok (res, t)) : SameWindows s t := by
  by_cases hx : InBounds h
  · by_cases hp : s.windowlist.proc h = some p
    · rw [sysGetMessage_owner hx hp] at ht
      cases ht
      exact sameWindows_of_framed (updateWnd_framed s h fun _ => rfl)
    · rw [sysGetMessage_other hx hp] at ht
      cases ht
      exact sameWindows_of_framed (Framed.refl s)
  · exact absurd (sysGetMessage_out hx) (not_outOfBounds_of_ok ht)

theorem turnoffScreen_cases {s : Wm} (hr : Ranged (links s)) :
    Delivers (turnoffScreen s) s ∨ turnoffScreen s = .error .diverges := by
  rcases traverse_cases hr with ⟨l, hl⟩ | hd
  · exact Or.inl (traversal_delivers hr hl fun t p hp => dispatchTo_delivers t hp _)
  · exact Or.inr (by rw [turnoffScreen, hd, error_bind])

/-- The popup that `createPopupWindow` opens when there is none. -/
def openedPopup (scr : Screen) (s : Wm) (p : ProcId) (w : Window) (caller : ℤ) : PopupWindow :=
  let old := s.popupwindow.wnd
  { proc := some p
    caller := caller
    wnd := { old with
      position := if fitsScreen scr w then w.initialPosition else old.position
      windowBuf := w.windowBuf
      minimized := 0
      hasTitleBar := w.hasTitleBar
      msgBuf := initMessageQueue old.msgBuf } }

theorem createPopupWindow_refused {s t : Session} {p : ProcId} {w : Window} {caller : ℤ}
    (hc : s.wm.popupwindow.caller ≠ -1)
    (h : step scr s (.createPopupWindow p w caller) = .ok t) : t = s := by
  simp only [step, createPopupWindow, hc, ne_eq, not_false_eq_true, if_true] at h
  exact (Except.ok.inj h).symm

theorem createPopupWindow_opens {s : Session} {p : ProcId} {w : Window} {caller : ℤ}
    (hc : s.wm.popupwindow.caller = -1) :
    step scr s (.createPopupWindow p w caller) = .ok { s with
      wm := { s.wm with popupwindow := openedPopup scr s.wm p w caller }
      popupOwner := some p
      popupPlaced := [] } := by
  simp only [step, createPopupWindow, hc, ne_eq, not_true_eq_false, if_false, if_true]
  rfl

theorem step_effect {s t : Session} {c : Call} (hr : Ranged (links s.wm))
    (hd : IsLink s.wm.desktopId) (ht : step scr s c = .ok t) : Effect scr s c t := by
  cases c with
  | createWindow p w title =>
    rcases findNextAvailableWindowId_cases s.wm with ⟨hx, hfull⟩ | ⟨hx, hfree⟩
    · rw [step, createWindow_full hx, ok_bind] at ht
      cases ht
      exact .full hfull
    · rw [step, createWindow_eq hr.tail hx, ok_bind] at ht
      cases ht
      exact .placed hx hfree
  | closeWindow p w =>
    by_cases hx : InBounds w.handler
    · rw [step, closeWindow_eq hr hx, ok_bind] at ht
      cases ht
      exact .closed hx
    · exact absurd (outOfBounds_bind (closeWindow_out hx)) (not_outOfBounds_of_ok ht)
  | minimizeWindow p w =>
    by_cases hx : InBounds w.handler ∧ FocusSafe (links s.wm) (handOver s.wm w.handler)
    · rw [step, minimizeWindow_safe hr hx.1 hx.2, ok_bind] at ht
      cases ht
      exact .minimized hx.1 hx.2
    · exact absurd (outOfBounds_bind (minimizeWindow_faults hr hx)) (not_outOfBounds_of_ok ht)
  | maximizeWindow p w =>
    by_cases hx : InBounds w.handler ∧ FocusSafe (links s.wm) w.handler
    · rw [step, maximizeWindow_safe hr hx.1 hx.2, ok_bind] at ht
      cases ht
      exact .maximized hx.1 hx.2
    · exact absurd (outOfBounds_bind (maximizeWindow_faults hr hx)) (not_outOfBounds_of_ok ht)
  | getMessage p h =>
    obtain ⟨⟨res, wm⟩, hget, ht⟩ := bind_eq_ok.mp ht
    cases ht
    exact .quiet (.getMessage p h) (sysGetMessage_sameWindows hget) rfl
  | createPopupWindow p w caller =>
    by_cases hc : s.wm.popupwindow.caller = -1
    · rw [createPopupWindow_opens hc] at ht
      cases ht
      exact .quiet (.createPopupWindow p w caller) (sameWindows_of_popup _ _) rfl
    · rw [createPopupWindow_refused hc ht]
      exact .quiet (.createPopupWindow p w caller) (sameWindows_of_framed (Framed.refl _)) rfl
  | closePopupWindow p w =>
    cases ht
    exact .quiet (.closePopupWindow p w) (sameWindows_of_popup _ _) rfl
  | getPopupMessage p =>
    refine .quiet (.getPopupMessage p) ?_ ?_ <;>
      by_cases hc : s.wm.popupwindow.caller = -1 <;>
      simp [step, sysGetPopupMessage, hc] at ht <;> subst ht
    · exact sameWindows_of_framed (Framed.refl _)
    · exact sameWindows_of_popup _ _
    · rfl
    · rfl
  | turnoffScreen p =>
    obtain ⟨wm, hoff, ht⟩ := bind_eq_ok.mp ht
    cases ht
    rcases turnoffScreen_cases hr with ⟨u, hu, hf⟩ | hdiv
    · rw [hoff] at hu
      cases hu
      exact .quiet (.turnoffScreen p) (sameWindows_of_framed hf) rfl
    · rw [hoff] at hdiv
      cases hdiv
  | wmHandleMessage m =>
    obtain ⟨wm, hm, ht⟩ := bind_eq_ok.mp ht
    cases ht
    obtain ⟨x, hreq, hx, hs, hf⟩ := wmHandleMessage_ok hr hd hm
    exact .message hreq hx hs hf

/-- What every run keeps, whoever calls with whatever handle. -/
structure Sane (s : Session) : Prop where
  ranged : Ranged (links s.wm)
  desktop : IsLink s.wm.desktopId
  minimized : ∀ i, (s.wm.windowlist.wnd i).minimized = 0 ∨ (s.wm.windowlist.wnd i).minimized = 1
  fresh : s.wm.desktopId = -1 → s.opened = ∅

theorem initial_ranged (scr : Screen) : Ranged (links (initial scr)) := by
  refine ⟨?_, ?_, isLink_neg, isLink_neg⟩
  · intro i hi
    exact Or.inr (by simp [links, initial, wmInit, hi])
  · intro i hi
    exact Or.inr (by simp [links, initial, wmInit, hi])

theorem start_sane (scr : Screen) : Sane (start scr) where
  ranged := initial_ranged scr
  desktop := isLink_neg
  minimized _ := Or.inl rfl
  fresh _ := rfl

theorem markMinimized_flag {s : Wm} {v : ℤ} (hv : v = 0 ∨ v = 1)
    (hs : ∀ i, (s.windowlist.wnd i).minimized = 0 ∨ (s.windowlist.wnd i).minimized = 1) (x i : ℤ) :
    ((markMinimized s x v).windowlist.wnd i).minimized = 0 ∨
      ((markMinimized s x v).windowlist.wnd i).minimized = 1 := by
  rw [markMinimized_minimized]
  split
  · exact hv
  · exact hs i

theorem step_sane {s t : Session} {c : Call} (h : Sane s) (ht : step scr s c = .ok t) :
    Sane t := by
  obtain ⟨hr, hd, hm, hf⟩ := h
  cases step_effect hr hd ht with
  | full => exact ⟨hr, hd, hm, hf⟩
  | @placed p w title x hx hfree =>
    refine ⟨hr.placeWindow hx, ?_, ?_, ?_⟩
    · change IsLink (if s.wm.desktopId = -1 then x else s.wm.desktopId)
      split
      · exact Or.inr hx
      · exact hd
    · intro i
      rw [placeWindow_minimized]
      split
      · exact Or.inl rfl
      · exact hm i
    · intro he
      change (if s.wm.desktopId = -1 then x else s.wm.desktopId) = -1 at he
      split at he
      · exact absurd he hx.ne_neg
      · next hne => exact absurd he hne
  | closed hx =>
    refine ⟨hr.release hx, hd, ?_, ?_⟩
    · intro i
      rw [updateWnd_minimized]
      split
      · exact hm _
      · exact hm i
    · intro he
      rw [show s.opened = ∅ from hf he]
      rfl
  | minimized hx hs =>
    refine ⟨hr.focused (hr.handOver hx), hd, ?_, hf⟩
    intro i
    exact markMinimized_flag (Or.inr rfl) hm _ i
  | maximized hx hs =>
    refine ⟨hr.focused (Or.inr hx), hd, ?_, hf⟩
    intro i
    exact markMinimized_flag (Or.inl rfl) hm _ i
  | message hreq hx hs hframe =>
    refine ⟨?_, ?_, ?_, fun he => hf ?_⟩
    · exact hframe.links ▸ hr.focused hx
    · exact hframe.desktopId ▸ hd
    · intro i
      rw [hframe.minimized i]
      exact hm i
    · exact hframe.desktopId.symm.trans he
  | quiet hq hsame hopened =>
    refine ⟨hsame.links ▸ hr, hsame.desktopId ▸ hd, ?_, ?_⟩
    · intro i
      rw [hsame.minimized i]
      exact hm i
    · intro he
      rw [hopened]
      exact hf (hsame.desktopId.symm.trans he)

theorem reachable_sane {s : Session} (h : Reachable (step scr) (start scr) s) : Sane s :=
  reachable_invariant (fun _ _ _ => step_sane) (start_sane scr) h

/-- The cursor and all rectangles are where they were. -/
structure Unmoved (s t : Wm) : Prop where
  mouse : t.wmMousePos = s.wmMousePos
  position : ∀ i, (t.windowlist.wnd i).position = (s.windowlist.wnd i).position
  popup : t.popupwindow.wnd.position = s.popupwindow.wnd.position
  caller : t.popupwindow.caller = s.popupwindow.caller

theorem unmoved_of_posted {s t : Wm} {ms : ℤ → List Message} {ps : List Message}
    (h : Posted ms ps s t) : Unmoved s t := ⟨h.mouse, h.position, h.popupPosition, h.caller⟩

theorem Unmoved.refl (s : Wm) : Unmoved s s := ⟨rfl, fun _ => rfl, rfl, rfl⟩

section Unmoved

variable {s t : Session} {p : ProcId} {w : Window}

theorem getMessage_unmoved {x : ℤ} (h : step scr s (.getMessage p x) = .ok t) :
    Unmoved s.wm t.wm := by
  obtain ⟨⟨res, wm⟩, hget, h⟩ := bind_eq_ok.mp h
  cases h
  by_cases hx : InBounds x
  · by_cases hp : s.wm.windowlist.proc x = some p
    · rw [sysGetMessage_owner hx hp] at hget
      cases hget
      refine ⟨rfl, ?_, rfl, rfl⟩
      intro i
      by_cases hi : i = x
      · subst hi
        simp [updateWnd, takeMessage]
      · simp [updateWnd, hi]
    · rw [sysGetMessage_other hx hp] at hget
      cases hget
      exact .refl _
  · exact absurd (sysGetMessage_out hx) (not_outOfBounds_of_ok hget)

theorem getPopupMessage_unmoved (h : step scr s (.getPopupMessage p) = .ok t) :
    Unmoved s.wm t.wm := by
  by_cases hc : s.wm.popupwindow.caller = -1
  · simp only [step, sysGetPopupMessage, hc, if_true] at h
    cases h
    exact .refl _
  · simp only [step, sysGetPopupMessage, hc, if_false] at h
    cases h
    exact ⟨rfl, fun _ => rfl, rfl, rfl⟩

theorem turnoffScreen_unmoved (h : step scr s (.turnoffScreen p) = .ok t) :
    Unmoved s.wm t.wm := by
  obtain ⟨wm, hoff, h⟩ := bind_eq_ok.mp h
  cases h
  obtain ⟨l, _, hoff⟩ := bind_eq_ok.mp hoff
  obtain ⟨_, hpost⟩ := dispatchAll_posted hoff
  exact unmoved_of_posted hpost

end Unmoved

/-- The screen and the windows of the runs that are worked out. -/
def desktopScreen : Screen := ⟨800, 600, by decide, by decide⟩

def desktopWindow : Window := ⟨⟨0, 800, 0, 600⟩, 0, 0, 800, 600, -1⟩

def appWindow (handler : ℤ) : Window := ⟨⟨100, 300, 100, 300⟩, 1, 0, 200, 200, handler⟩

/-- Process 0 has opened the desktop in slot 0 and process 1 a window in slot 1. -/
def twoWindows : List Call :=
  [.createWindow 0 desktopWindow [], .createWindow 1 (appWindow (-1)) []]

end WindowSessions
