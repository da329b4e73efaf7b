import Xv6Gui.WindowSessions

/-!
# Whose popup it is

There is one popup for all processes. A second `createPopupWindow` is refused, but the
process that was refused may go on to poll the queue and to close the popup, since neither
call asks who the caller is.
-/
namespace PopupOwnership

open WindowManagerState WindowManager WindowManagerSteps WindowMessages WindowMessageOutcomes
open DockClicks WindowSessions LinkedSlots GuardedRuns

variable {scr : Screen} {s t : Session} {c : Call}

/-- A queued message goes to the process whose popup it was placed for, and nobody else
closes an open popup. -/
def PopupLaw (s : Session) : Call → Prop
  | .getPopupMessage p =>
    (sysGetPopupMessage s.wm).1.isSome → s.popupPlaced.head? = some (some p)
  | .closePopupWindow p _ => s.wm.popupwindow.caller ≠ -1 → s.popupOwner = some p
  | _ => True

/-- The caller is the process recorded in the open popup, where the call has an effect. -/
def CallerIsRecorded (s : Session) : Call → Prop
  | .getPopupMessage p =>
    s.wm.popupwindow.caller ≠ -1 → s.wm.popupwindow.wnd.msgBuf.cnt ≠ 0 →
      s.wm.popupwindow.proc = some p
  | .closePopupWindow p _ =>
    s.wm.popupwindow.caller ≠ -1 → s.wm.popupwindow.proc = some p
  | _ => True

structure Invariant (s : Session) : Prop where
  sane : Sane s
  tags : ∀ o ∈ s.popupPlaced, o = s.popupOwner
  count : (s.popupPlaced.length : ℤ) = s.wm.popupwindow.wnd.msgBuf.cnt
  owner : s.wm.popupwindow.caller ≠ -1 → s.wm.popupwindow.proc = s.popupOwner

theorem start_invariant (scr : Screen) : Invariant (start scr) where
  sane := start_sane scr
  tags o ho := by simp [start] at ho
  count := rfl
  owner h := absurd rfl h

theorem dispatchTo_popup {s t : Wm} {p : ℤ} {m : Message} (h : dispatchTo s p m = .ok t) :
    t.popupwindow = s.popupwindow := by
  obtain ⟨_, rfl⟩ := setWnd_eq_ok.mp h
  rfl

theorem dispatchAll_popup {s t : Wm} {m : Message} {l : List ℤ}
    (h : l.foldlM (fun s p => dispatchTo s p m) s = .ok t) : t.popupwindow = s.popupwindow := by
  induction l generalizing s with
  | nil => cases h; rfl
  | cons p l ih =>
    rw [List.foldlM_cons] at h
    obtain ⟨u, hu, h⟩ := bind_eq_ok.mp h
    exact (ih h).trans (dispatchTo_popup hu)

theorem turnoffScreen_popup {s t : Wm} (h : turnoffScreen s = .ok t) :
    t.popupwindow = s.popupwindow := by
  obtain ⟨l, _, h⟩ := bind_eq_ok.mp h
  exact dispatchAll_popup h

theorem sysGetMessage_popup {s t : Wm} {p : ProcId} {h : ℤ} {res : Option Message}
    (ht : sysGetMessage s p h = .ok (res, t)) : t.popupwindow = s.popupwindow := by
  by_cases hx : InBounds h
  · by_cases hp : s.windowlist.proc h = some p
    · rw [sysGetMessage_owner hx hp] at ht
      cases ht
      rfl
    · rw [sysGetMessage_other hx hp] at ht
      cases ht
      rfl
  · exact absurd (sysGetMessage_out hx) (not_outOfBounds_of_ok ht)

/-- A step leaves the popup and its record alone, or it is a message that adds to the queue,
or one of the three popup calls. -/
inductive PopupEffect (s t : Session) : Call → Prop where
  | same {c : Call} : t.wm.popupwindow = s.wm.popupwindow → t.popupOwner = s.popupOwner →
      t.popupPlaced = s.popupPlaced → PopupEffect s t c
  | grown {m} : t.wm.popupwindow.proc = s.wm.popupwindow.proc →
      t.wm.popupwindow.caller = s.wm.popupwindow.caller → t.popupOwner = s.popupOwner →
      s.wm.popupwindow.wnd.msgBuf.cnt ≤ t.wm.popupwindow.wnd.msgBuf.cnt →
      t.popupPlaced =
        s.popupPlaced ++ List.replicate (popupGrowth s.wm t.wm) s.popupOwner →
      PopupEffect s t (.wmHandleMessage m)
  | opened {p w caller} : s.wm.popupwindow.caller = -1 →
      t.wm.popupwindow.proc = some p → t.popupOwner = some p → t.popupPlaced = [] →
      t.wm.popupwindow.wnd.msgBuf.cnt = 0 → PopupEffect s t (.createPopupWindow p w caller)
  | closed {p w} : t.wm.popupwindow.caller = -1 → t.popupPlaced = [] →
      t.wm.popupwindow.wnd.msgBuf.cnt = 0 → PopupEffect s t (.closePopupWindow p w)
  | taken {p} : s.wm.popupwindow.wnd.msgBuf.cnt ≠ 0 →
      t.wm.popupwindow.proc = s.wm.popupwindow.proc →
      t.wm.popupwindow.caller = s.wm.popupwindow.caller → t.popupOwner = s.popupOwner →
      t.wm.popupwindow.wnd.msgBuf.cnt = s.wm.popupwindow.wnd.msgBuf.cnt - 1 →
      t.popupPlaced = s.popupPlaced.tail → PopupEffect s t (.getPopupMessage p)

theorem sysGetPopupMessage_eq (s : Wm) :
    sysGetPopupMessage s =
      if s.popupwindow.caller = -1 ∨ s.popupwindow.wnd.msgBuf.cnt = 0 then (none, s)
      else (some (s.popupwindow.wnd.msgBuf.data s.popupwindow.wnd.msgBuf.front),
        { s with popupwindow.wnd := takeMessage s.popupwindow.wnd }) := by
  simp only [sysGetPopupMessage]
  by_cases hc : s.popupwindow.caller = -1
  · simp [hc]
  · by_cases hn : s.popupwindow.wnd.msgBuf.cnt = 0
    · simp [hc, hn, getMessage]
    · simp [hc, hn, getMessage, takeMessage]

theorem step_popup (hr : Ranged (links s.wm)) (hd : IsLink s.wm.desktopId)
    (ht : step scr s c = .ok t) : PopupEffect s t c := by
  cases c with
  | getMessage p h =>
    obtain ⟨⟨res, wm⟩, hget, ht⟩ := bind_eq_ok.mp ht
    cases ht
    exact .same (sysGetMessage_popup hget) rfl rfl
  | turnoffScreen p =>
    obtain ⟨wm, hoff, ht⟩ := bind_eq_ok.mp ht
    cases ht
    exact .same (turnoffScreen_popup hoff) rfl rfl
  | createPopupWindow p w caller =>
    by_cases hc : s.wm.popupwindow.caller = -1
    · rw [createPopupWindow_opens hc] at ht
      cases ht
      exact .opened hc rfl rfl rfl rfl
    · rw [createPopupWindow_refused hc ht]
      exact .same rfl rfl rfl
  | closePopupWindow p w =>
    cases ht
    exact .closed rfl rfl rfl
  | getPopupMessage p =>
    rw [step, sysGetPopupMessage_eq] at ht
    by_cases hc : s.wm.popupwindow.caller = -1 ∨ s.wm.popupwindow.wnd.msgBuf.cnt = 0
    · rw [if_pos hc] at ht
      cases ht
      exact .same rfl rfl rfl
    · rw [if_neg hc] at ht
      cases ht
      refine .taken (not_or.mp hc).2 rfl rfl rfl ?_ rfl
      simp [takeMessage, getMessage, (not_or.mp hc).2]
  | wmHandleMessage m =>
    cases step_effect hr hd ht with
    | message hreq hx hs hframe =>
      exact .grown hframe.popupProc hframe.popupCaller rfl hframe.popupCnt rfl
    | quiet hq => cases hq
  | createWindow | closeWindow | minimizeWindow | maximizeWindow =>
    cases step_effect hr hd ht with
    | quiet hq => cases hq
    | _ => exact .same rfl rfl rfl

theorem step_invariant (h : Invariant s) (ht : step scr s c = .ok t) : Invariant t := by
  have hsane := step_sane h.sane ht
  cases step_popup h.sane.ranged h.sane.desktop ht with
  | same hpopup howner hplaced =>
    refine ⟨hsane, ?_, ?_, ?_⟩
    · rw [hplaced, howner]; exact h.tags
    · rw [hplaced, hpopup]; exact h.count
    · rw [hpopup, howner]; exact h.owner
  | grown hproc hcaller howner hcnt hplaced =>
    refine ⟨hsane, ?_, ?_, ?_⟩
    · intro o ho
      rw [hplaced] at ho
      rw [howner]
      rcases List.mem_append.mp ho with ho | ho
      · exact h.tags o ho
      · exact (List.mem_replicate.mp ho).2
    · have hcount := h.count
      rw [hplaced, List.length_append, List.length_replicate, popupGrowth]
      omega
    · rw [hproc, hcaller, howner]; exact h.owner
  | opened _ hproc howner hplaced hcnt =>
    refine ⟨hsane, ?_, ?_, ?_⟩
    · rw [hplaced]; simp
    · rw [hplaced, hcnt]; rfl
    · intro _
      rw [hproc, howner]
  | closed hcaller hplaced hcnt =>
    refine ⟨hsane, ?_, ?_, fun hc => absurd hcaller hc⟩
    · rw [hplaced]; simp
    · rw [hplaced, hcnt]; rfl
  | taken hne hproc hcaller howner hcnt hplaced =>
    refine ⟨hsane, ?_, ?_, ?_⟩
    · intro o ho
      rw [hplaced] at ho
      rw [howner]
      exact h.tags o (List.mem_of_mem_tail ho)
    · have hcount := h.count
      rw [hplaced, List.length_tail, hcnt]
      omega
    · rw [hproc, hcaller, howner]; exact h.owner

theorem popupLaw_iff (h : Invariant s) : PopupLaw s c ↔ CallerIsRecorded s c := by
  cases c with
  | getPopupMessage p =>
    simp only [PopupLaw, CallerIsRecorded, sysGetPopupMessage_eq]
    by_cases hc : s.wm.popupwindow.caller = -1
    · simp [hc]
    · by_cases hn : s.wm.popupwindow.wnd.msgBuf.cnt = 0
      · simp [hn]
      · have hcount := h.count
        obtain ⟨o, rest, hplaced⟩ : ∃ o rest, s.popupPlaced = o :: rest := by
          refine List.exists_cons_of_ne_nil fun hnil => hn ?_
          rw [← hcount, hnil]
          rfl
        have ho : o = s.popupOwner := h.tags o (by simp [hplaced])
        simp [hc, hn, hplaced, ho, h.owner hc]
  | closePopupWindow p w =>
    simp only [PopupLaw, CallerIsRecorded]
    exact forall_congr' fun hc => by rw [h.owner hc]
  | _ => exact Iff.rfl

/-- The law holds along a run exactly as long as nobody but the recorded process polls or
closes an open popup. -/
theorem popup_law_iff (scr : Screen) (calls : List Call) :
    Along (step scr) PopupLaw (start scr) calls ↔
      Along (step scr) CallerIsRecorded (start scr) calls := by
  have hiff : ∀ s c, Invariant s → True → (PopupLaw s c ↔ CallerIsRecorded s c) :=
    fun _ _ h _ => popupLaw_iff h
  have hstep : ∀ s c t, Invariant s → True → CallerIsRecorded s c → step scr s c = .ok t →
      Invariant t := fun _ _ _ h _ _ => step_invariant h
  exact along_iff hiff hstep (start_invariant scr) (along_of_forall (fun _ _ => trivial) _ _)

def popupWindow : Window := ⟨⟨0, 216, 264, 564⟩, 0, 0, 216, 300, 0⟩

/-- Process 1 opens the popup and process 2 is refused; a press elsewhere then asks the popup
to close, and process 2 takes that message and closes the popup itself. -/
def refusedStarter : List Call :=
  [.createWindow 0 desktopWindow [], .createPopupWindow 1 popupWindow 0,
    .createPopupWindow 2 popupWindow 0, .wmHandleMessage (newmsg .mouseDown)]

theorem refused_starter_takes_message :
    ¬∀ (scr : Screen) (calls : List Call), Along (step scr) PopupLaw (start scr) calls := by
  intro h
  obtain ⟨s, hs, hf⟩ := execution_of_map (step desktopScreen) (start desktopScreen) refusedStarter
    (fun s => ((sysGetPopupMessage s.wm).1.isSome, s.popupPlaced)) (b := (true, [some 1]))
    (by decide +kernel)
  obtain ⟨hmsg, hplaced⟩ := Prod.mk.inj hf
  have hlaw := (h desktopScreen (refusedStarter ++ .getPopupMessage 2 :: [])).reached hs hmsg
  rw [hplaced] at hlaw
  exact absurd hlaw (by decide)

end PopupOwnership
