import Xv6Gui.MessageQueues
import Xv6Gui.GuardedRuns

/-!
# Two readers of the popup's queue

`getMessage` looks at the count before it takes `wmlock` and removes the message under the
lock, so other calls may run between the two. A step is one of these halves, the test of the
popup's caller that comes before them, or another call that holds the lock. The record of
the messages that are in the queue is never read by the code.
-/
namespace PopupQueueRaces

open WindowManagerState WindowManager MessageQueues GuardedRuns

/-- The half of `getMessage` under the lock. -/
def removeMessage (b : MsgBuf) : Message × MsgBuf :=
  (b.data b.front, { b with cnt := b.cnt - 1, front := advance b.front })

theorem getMessage_eq (b : MsgBuf) :
    getMessage b = if b.cnt = 0 then (none, b)
      else (some (removeMessage b).1, (removeMessage b).2) := rfl

/-- Where a process is in `sys_GUI_getPopupMessage`. -/
inductive ReaderPc where
  | outside
  | entered
  | tested
  deriving DecidableEq, Repr

structure Polling where
  wm : Wm
  pc : ProcId → ReaderPc
  queued : List Message

inductive Event where
  | dispatchMessage (msg : Message)
  | createPopupWindow (p : ProcId) (window : Window) (caller : ℤ)
  | closePopupWindow (p : ProcId) (window : Window)
  | getPopupMessage (p : ProcId)
  | testCount (p : ProcId)
  | removeMessage (p : ProcId)

def Enabled (s : Polling) : Event → Prop
  | .dispatchMessage _ => True
  | .createPopupWindow p _ _ | .closePopupWindow p _ | .getPopupMessage p => s.pc p = .outside
  | .testCount p => s.pc p = .entered
  | .removeMessage p => s.pc p = .tested

instance (s : Polling) : (e : Event) → Decidable (Enabled s e)
  | .dispatchMessage _ => inferInstanceAs (Decidable True)
  | .createPopupWindow _ _ _ | .closePopupWindow _ _ | .getPopupMessage _ | .testCount _
  | .removeMessage _ => inferInstanceAs (Decidable (_ = _))

def popupBuf (s : Polling) : MsgBuf := s.wm.popupwindow.wnd.msgBuf

variable (scr : Screen)

def start : Polling := ⟨initial scr, fun _ => .outside, []⟩

def step (s : Polling) : Event → Except Fault Polling
  | .dispatchMessage msg => .ok { s with
      wm := dispatchToPopup s.wm msg
      queued := if (dispatchMessage (popupBuf s) msg).1 = 0 then s.queued ++ [msg] else s.queued }
  | .createPopupWindow p window caller =>
    let (ret, wm, _) := createPopupWindow scr s.wm p window caller
    .ok { s with wm := wm, queued := if ret = 0 then [] else s.queued }
  | .closePopupWindow _ window =>
    let (_, wm, _) := closePopupWindow s.wm window
    .ok { s with wm := wm, queued := [] }
  | .getPopupMessage p => .ok { s with
      pc := Function.update s.pc p (if s.wm.popupwindow.caller = -1 then .outside else .entered) }
  | .testCount p => .ok { s with
      pc := Function.update s.pc p (if (popupBuf s).cnt = 0 then .outside else .tested) }
  | .removeMessage p => .ok { s with
      wm := { s.wm with popupwindow.wnd.msgBuf := (removeMessage (popupBuf s)).2 }
      pc := Function.update s.pc p .outside
      queued := s.queued.tail }

/-- The count stays in its range, and a message that is returned was in the queue. -/
structure QueueLaw (s : Polling) (e : Event) : Prop where
  count : ∀ t, step scr s e = .ok t → 0 ≤ (popupBuf t).cnt ∧ (popupBuf t).cnt ≤ msgBufSize
  returned : ∀ p, e = .removeMessage p → (removeMessage (popupBuf s)).1 ∈ s.queued

/-- A process that removes a message still finds one. -/
def FindsMessage (s : Polling) : Event → Prop
  | .removeMessage _ => s.queued ≠ []
  | _ => True

instance (s : Polling) : (e : Event) → Decidable (FindsMessage s e)
  | .removeMessage _ => inferInstanceAs (Decidable (_ ≠ _))
  | .dispatchMessage _ | .createPopupWindow _ _ _ | .closePopupWindow _ _ | .getPopupMessage _
  | .testCount _ => inferInstanceAs (Decidable True)

structure Invariant (s : Polling) : Prop where
  ring : RingOk (popupBuf s)
  queued : contents (popupBuf s) = s.queued

variable {scr} {s t : Polling} {e : Event}

theorem start_invariant (scr : Screen) : Invariant (start scr) :=
  ⟨⟨Int.le_refl 0, Int.natCast_nonneg msgBufSize, rfl⟩, rfl⟩

theorem dispatch_invariant (h : Invariant s) (msg : Message)
    (ht : step scr s (.dispatchMessage msg) = .ok t) : Invariant t := by
  cases ht
  by_cases hc : (popupBuf s).cnt < msgBufSize
  · obtain ⟨hring, hcontents⟩ := h.ring.dispatch (m := msg) hc
    refine ⟨hring, hcontents.trans ?_⟩
    rw [h.queued, dispatchMessage_room hc]
    rfl
  · have hfull := dispatchMessage_full (m := msg) (not_lt.mp hc)
    have hbuf : (dispatchMessage s.wm.popupwindow.wnd.msgBuf msg).2 = popupBuf s :=
      congrArg Prod.snd hfull
    constructor
    · change RingOk (dispatchMessage s.wm.popupwindow.wnd.msgBuf msg).2
      rw [hbuf]
      exact h.ring
    · change contents (dispatchMessage s.wm.popupwindow.wnd.msgBuf msg).2 = _
      rw [hbuf, hfull]
      exact h.queued

theorem create_invariant (h : Invariant s) {p : ProcId} {w : Window} {caller : ℤ}
    (ht : step scr s (.createPopupWindow p w caller) = .ok t) : Invariant t := by
  by_cases hc : s.wm.popupwindow.caller = -1
  · simp only [step, createPopupWindow, hc, ne_eq, not_true_eq_false, if_false, if_true] at ht
    cases ht
    exact ⟨init_ringOk _, rfl⟩
  · simp only [step, createPopupWindow, hc, ne_eq, not_false_eq_true, if_true] at ht
    cases ht
    exact h

/-- The message at the front is the first of the queue. -/
theorem remove_of_queued (h : Invariant s) (hq : s.queued ≠ []) :
    RingOk (removeMessage (popupBuf s)).2 ∧
      s.queued = (removeMessage (popupBuf s)).1 :: contents (removeMessage (popupBuf s)).2 := by
  have hc : (popupBuf s).cnt ≠ 0 := by
    intro hc
    apply hq
    rw [← h.queued, contents, hc]
    rfl
  obtain ⟨hring, hcontents⟩ := h.ring.take hc
  rw [getMessage_some hc] at hring hcontents
  exact ⟨hring, h.queued.symm.trans hcontents⟩

theorem step_invariant (h : Invariant s) (hg : FindsMessage s e) (ht : step scr s e = .ok t) :
    Invariant t := by
  cases e with
  | dispatchMessage msg => exact dispatch_invariant h msg ht
  | createPopupWindow p w caller => exact create_invariant h ht
  | closePopupWindow p w =>
    cases ht
    exact ⟨init_ringOk _, rfl⟩
  | getPopupMessage p =>
    cases ht
    exact ⟨h.ring, h.queued⟩
  | testCount p =>
    cases ht
    exact ⟨h.ring, h.queued⟩
  | removeMessage p =>
    cases ht
    obtain ⟨hring, hqueued⟩ := remove_of_queued h hg
    exact ⟨hring, (congrArg List.tail hqueued).symm⟩

theorem queueLaw_iff (h : Invariant s) : QueueLaw scr s e ↔ FindsMessage s e := by
  constructor
  · intro hlaw
    cases e with
    | removeMessage p => exact List.ne_nil_of_mem (hlaw.returned p rfl)
    | _ => trivial
  · intro hg
    constructor
    · intro t ht
      have hring := (step_invariant h hg ht).ring
      exact ⟨hring.nonneg, hring.le⟩
    · rintro p rfl
      rw [(remove_of_queued h hg).2]
      exact List.mem_cons_self

/-- The count and the messages returned are right exactly as long as no process that has
found the queue non-empty finds it empty when it removes its message. -/
theorem popup_queue_iff (scr : Screen) (events : List Event)
    (he : Along (step scr) Enabled (start scr) events) :
    Along (step scr) (QueueLaw scr) (start scr) events ↔
      Along (step scr) FindsMessage (start scr) events := by
  have hiff : ∀ s e, Invariant s → Enabled s e → (QueueLaw scr s e ↔ FindsMessage s e) :=
    fun _ _ h _ => queueLaw_iff h
  have hstep : ∀ s e t, Invariant s → Enabled s e → FindsMessage s e → step scr s e = .ok t →
      Invariant t := fun _ _ _ h _ => step_invariant h
  exact along_iff hiff hstep (start_invariant scr) he

def smallScreen : Screen := ⟨640, 480, by decide, by decide⟩

def popup : Window := ⟨⟨0, 216, 264, 564⟩, 0, 0, 216, 300, 0⟩

/-- Processes 1 and 2 are in the middle of a read at once, and each finds a message. -/
def twoMessages : List Event :=
  [.createPopupWindow 1 popup 0, .dispatchMessage (newmsg .mouseMove), .getPopupMessage 1,
    .testCount 1, .getPopupMessage 2, .dispatchMessage (newmsg .windowClose), .testCount 2,
    .removeMessage 2, .removeMessage 1]

theorem popup_queue_two_readers :
    Along (step smallScreen) (QueueLaw smallScreen) (start smallScreen) twoMessages :=
  (popup_queue_iff smallScreen twoMessages (by decide +kernel)).mpr (by decide +kernel)

/-- Processes 1 and 2 both find the one message, and process 1 removes it. -/
def twoReaders : List Event :=
  [.createPopupWindow 1 popup 0, .dispatchMessage (newmsg .windowClose), .getPopupMessage 1,
    .getPopupMessage 2, .testCount 1, .testCount 2, .removeMessage 1]

theorem two_readers_of_one_message :
    ¬∀ (scr : Screen) (events : List Event), Along (step scr) Enabled (start scr) events →
      Along (step scr) (QueueLaw scr) (start scr) events := by
  intro h
  obtain ⟨s, hs, hqueued⟩ := execution_of_map (step smallScreen) (start smallScreen) twoReaders
    (fun s => s.queued) (b := []) (by decide +kernel)
  have hlaw := (h smallScreen (twoReaders ++ .removeMessage 2 :: []) (by decide +kernel)).reached hs
  have hmem := hlaw.returned 2 rfl
  rw [hqueued] at hmem
  cases hmem

end PopupQueueRaces
