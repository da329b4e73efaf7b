import Xv6Gui.ProcessTable
import Xv6Gui.PopupOwnership
import Xv6Gui.WindowListInvariant

/-!
# Windows and the life of their processes

The window manager keeps the process of each window and switches to its address space to
draw it; exit and wait recycle the slots of the process table. Neither module calls the
other, and neither forgets a window when its process ends.
-/
namespace WindowProcessLifetime

open WindowManagerState WindowManager WindowManagerSteps WindowSessions WindowListInvariant
open PopupOwnership ProcessTable LinkedSlots GuardedRuns

structure System where
  gui : Session
  table : PTable

inductive Event where
  | gui (c : Call)
  | table (e : ProcessTable.Event)
  | updateScreen (myproc : ProcId)

/-- The process that makes the call; the drivers' messages arrive in any process. -/
def callingProc : Call → Option ProcId
  | .createWindow p _ _ | .closeWindow p _ | .minimizeWindow p _ | .maximizeWindow p _ => some p
  | .getMessage p _ | .createPopupWindow p _ _ | .closePopupWindow p _ => some p
  | .getPopupMessage p | .turnoffScreen p => some p
  | .wmHandleMessage _ => none

/-- The dock is drawn first and counts the windows, so a list that never ends stops the
function before the first switch of the address space. -/
def updateScreen (s : System) (myproc : ProcId) : Except Fault Unit := do
  let wm := s.gui.wm
  let d ← index wm.desktopId
  if some myproc ≠ wm.windowlist.proc d then
    .error (.panic "Update screen called by non desktop process")
  else do
    let _ ← getWindowCount wm
    let l ← traverse wm
    let shown := l.filter fun p => decide (p ≠ d ∧ (wm.windowlist.wnd p).minimized = 0)
    shown.forM fun p => switchuvm s.table (wm.windowlist.proc p)
    if wm.popupwindow.caller ≠ -1 then switchuvm s.table wm.popupwindow.proc
    switchuvm s.table (some myproc)

def Enabled (s : System) : Event → Prop
  | .gui c => ∀ p ∈ callingProc c, InUser s.table p
  | .table e => ProcessTable.Enabled s.table e
  | .updateScreen p => InUser s.table p

instance (s : System) : (e : Event) → Decidable (Enabled s e)
  | .gui c => inferInstanceAs (Decidable (∀ p ∈ callingProc c, _))
  | .table e => inferInstanceAs (Decidable (ProcessTable.Enabled s.table e))
  | .updateScreen p => inferInstanceAs (Decidable (InUser s.table p))

variable (scr : Screen)

def start (pages : FirstPages) : System := ⟨WindowSessions.start scr, userinit pages⟩

def step (s : System) : Event → Except Fault System
  | .gui c => do
    let gui ← WindowSessions.step scr s.gui c
    return { s with gui := gui }
  | .table e => do
    let table ← ProcessTable.step s.table e
    return { s with table := table }
  | .updateScreen p => do
    updateScreen s p
    return s

variable {scr} {s t : System} {e : Event} {p c : ProcId}

def Live (table : PTable) (o : Option ProcId) : Prop :=
  ∃ p, o = some p ∧ (table.proc p).state ≠ .unused ∧ (table.proc p).kstack ≠ 0

/-- The process is recorded for an open window or for the open popup. -/
def Records (gui : Session) (c : ProcId) : Prop :=
  (∃ h ∈ gui.opened, gui.wm.windowlist.proc h = some c) ∨
    gui.wm.popupwindow.caller ≠ -1 ∧ gui.wm.popupwindow.proc = some c

instance (gui : Session) (c : ProcId) : Decidable (Records gui c) :=
  inferInstanceAs (Decidable (_ ∨ _))

/-- A `wait` does not reap a process that has a window or the popup. -/
def ReapsNoWindow (s : System) : Event → Prop
  | .table (.wait p) => ∀ c ∈ zombieChild s.table p, ¬Records s.gui c
  | _ => True

instance (s : System) (e : Event) : Decidable (ReapsNoWindow s e) := by
  unfold ReapsNoWindow
  split <;> infer_instance

def Recorded (table : PTable) (o : Option ProcId) : Prop :=
  ∃ p, o = some p ∧ Settled (table.proc p)

structure Invariant (s : System) : Prop where
  sane : Sane s.gui
  table : TableOk s.table
  windows : ∀ h ∈ s.gui.opened, Recorded s.table (s.gui.wm.windowlist.proc h)
  popup : s.gui.wm.popupwindow.caller ≠ -1 → Recorded s.table s.gui.wm.popupwindow.proc

theorem start_invariant (scr : Screen) (pages : FirstPages) : Invariant (start scr pages) where
  sane := start_sane scr
  table := userinit_tableOk pages
  windows h hh := by simp [start, WindowSessions.start] at hh
  popup h := absurd rfl h

theorem placeWindow_proc {wm : Wm} {x h : ℤ} {w : Window} {title : List UInt8} :
    (placeWindow scr wm x p w title).windowlist.proc h =
      if h = x then some p else wm.windowlist.proc h := by
  by_cases hx : h = x
  · subst hx
    rw [if_pos rfl]
    exact Function.update_self _ _ _
  · rw [if_neg hx]
    exact Function.update_of_ne hx _ _

/-- An open window was open before with the same process, or the calling process has just
created it. -/
theorem step_window {s t : Session} {c : Call} {h : ℤ} (hs : Sane s)
    (ht : WindowSessions.step scr s c = .ok t) (hh : h ∈ t.opened) :
    h ∈ s.opened ∧ t.wm.windowlist.proc h = s.wm.windowlist.proc h ∨
      ∃ p ∈ callingProc c, t.wm.windowlist.proc h = some p := by
  cases WindowSessions.step_effect hs.ranged hs.desktop ht with
  | full => exact Or.inl ⟨hh, rfl⟩
  | @placed p w title x hx hfree =>
    rw [placeWindow_proc]
    by_cases he : h = x
    · exact Or.inr ⟨p, rfl, if_pos he⟩
    · exact Or.inl ⟨(Finset.mem_insert.mp hh).resolve_left he, if_neg he⟩
  | closed => exact Or.inl ⟨Finset.mem_of_mem_erase hh, rfl⟩
  | minimized => exact Or.inl ⟨hh, rfl⟩
  | maximized => exact Or.inl ⟨hh, rfl⟩
  | message _ _ _ hframe => exact Or.inl ⟨hh, congrFun hframe.proc h⟩
  | quiet _ hsame hopened => exact Or.inl ⟨hopened ▸ hh, congrFun hsame.proc h⟩

theorem step_popupProc {s t : Session} {c : Call} (hs : Sane s)
    (ht : WindowSessions.step scr s c = .ok t) (hc : t.wm.popupwindow.caller ≠ -1) :
    s.wm.popupwindow.caller ≠ -1 ∧ t.wm.popupwindow.proc = s.wm.popupwindow.proc ∨
      ∃ p ∈ callingProc c, t.wm.popupwindow.proc = some p := by
  cases step_popup hs.ranged hs.desktop ht with
  | same hpopup => exact Or.inl ⟨hpopup ▸ hc, congrArg PopupWindow.proc hpopup⟩
  | grown hproc hcaller => exact Or.inl ⟨hcaller ▸ hc, hproc⟩
  | opened _ hproc => exact Or.inr ⟨_, rfl, hproc⟩
  | closed hcaller => exact absurd hcaller hc
  | taken _ hproc hcaller => exact Or.inl ⟨hcaller ▸ hc, hproc⟩

theorem recorded_of_inUser (h : InUser s.table p) : Recorded s.table (some p) :=
  ⟨p, rfl, settled_of_running h.1⟩

theorem gui_invariant {gui : Session} {c : Call} (h : Invariant s)
    (he : Enabled s (.gui c)) (ht : WindowSessions.step scr s.gui c = .ok gui) :
    Invariant { s with gui := gui } where
  sane := step_sane h.sane ht
  table := h.table
  windows x hx := by
    change Recorded s.table (gui.wm.windowlist.proc x)
    rcases step_window h.sane ht hx with ⟨hold, hproc⟩ | ⟨p, hp, hproc⟩
    · rw [hproc]
      exact h.windows x hold
    · rw [hproc]
      exact recorded_of_inUser (he p hp)
  popup hc := by
    change Recorded s.table gui.wm.popupwindow.proc
    rcases step_popupProc h.sane ht hc with ⟨hold, hproc⟩ | ⟨p, hp, hproc⟩
    · rw [hproc]
      exact h.popup hold
    · rw [hproc]
      exact recorded_of_inUser (he p hp)

theorem table_invariant {e : ProcessTable.Event} {table : PTable} (h : Invariant s)
    (he : Enabled s (.table e)) (hg : ReapsNoWindow s (.table e))
    (ht : ProcessTable.step s.table e = .ok table) : Invariant { s with table := table } := by
  have hkeep : ∀ {o}, Recorded s.table o → (∀ c, o = some c → Records s.gui c) →
      Recorded table o := by
    rintro _ ⟨c, rfl, hc⟩ hrec
    refine ⟨c, rfl, step_settled h.table he ht hc ?_⟩
    intro p hp hz
    subst hp
    exact hg c hz (hrec c rfl)
  refine ⟨h.sane, step_tableOk h.table he ht, ?_, ?_⟩
  · intro x hx
    exact hkeep (h.windows x hx) fun c hc => Or.inl ⟨x, hx, hc⟩
  · intro hc
    exact hkeep (h.popup hc) fun c hproc => Or.inr ⟨hc, hproc⟩

theorem step_invariant (h : Invariant s) (he : Enabled s e) (hg : ReapsNoWindow s e)
    (ht : step scr s e = .ok t) : Invariant t := by
  cases e with
  | gui c =>
    obtain ⟨gui, hgui, ht⟩ := bind_eq_ok.mp ht
    cases ht
    exact gui_invariant h he hgui
  | table e =>
    obtain ⟨table, htable, ht⟩ := bind_eq_ok.mp ht
    cases ht
    exact table_invariant h he hg htable
  | updateScreen p =>
    obtain ⟨_, _, ht⟩ := bind_eq_ok.mp ht
    cases ht
    exact h

theorem Recorded.live {table : PTable} {o : Option ProcId} (h : TableOk table)
    (ho : Recorded table o) : Live table o := by
  obtain ⟨p, rfl, hp⟩ := ho
  exact ⟨p, rfl, hp.1, (h.settled p hp).1⟩

end WindowProcessLifetime
