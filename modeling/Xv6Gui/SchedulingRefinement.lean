import Xv6Gui.SchedulingSafety

/-!
# The process table on several processors

What the processors do to the table, in any interleaving of their steps, is a run of the
sections of `ProcessTable`, one after another. The two tables differ in the channels of
processes that do not sleep: sleep clears the channel only once its process runs again.
-/
namespace SchedulingRefinement

open WindowManagerState (ProcId)
open ProcessTable (PTable Proc Control FirstPages Settled updateProc setControl)
open SpinLocks GuardedRuns Scheduling SchedulingSafety

/-- Two slots that differ in the channel at most, and only where nobody sleeps on it. -/
structure Similar (v w : Proc) : Prop where
  state : v.state = w.state
  pid : v.pid = w.pid
  kstack : v.kstack = w.kstack
  pgdir : v.pgdir = w.pgdir
  parent : v.parent = w.parent
  killed : v.killed = w.killed
  chan : v.state = .sleeping → v.chan = w.chan

structure Agrees (t u : PTable) : Prop where
  slot : ∀ p, Similar (t.proc p) (u.proc p)
  nextpid : t.nextpid = u.nextpid
  control : t.control = u.control

section Tables

variable {t u t' : PTable} {p : ProcId}

theorem Similar.refl (v : Proc) : Similar v v := ⟨rfl, rfl, rfl, rfl, rfl, rfl, fun _ => rfl⟩

theorem Agrees.refl (t : PTable) : Agrees t t := ⟨fun _ => .refl _, rfl, rfl⟩

theorem Agrees.trans {v : PTable} (h : Agrees t u) (k : Agrees u v) : Agrees t v where
  slot p :=
    have hp := h.slot p
    have kp := k.slot p
    ⟨hp.state.trans kp.state, hp.pid.trans kp.pid, hp.kstack.trans kp.kstack,
      hp.pgdir.trans kp.pgdir, hp.parent.trans kp.parent, hp.killed.trans kp.killed,
      fun hs => (hp.chan hs).trans (kp.chan (hp.state ▸ hs))⟩
  nextpid := h.nextpid.trans k.nextpid
  control := h.control.trans k.control

theorem Agrees.updateProc {f g : Proc → Proc} (h : Agrees t u)
    (hf : Similar (f (t.proc p)) (g (u.proc p))) :
    Agrees (updateProc t p f) (updateProc u p g) := by
  refine ⟨fun q => ?_, h.nextpid, h.control⟩
  by_cases hq : q = p
  · subst hq
    simp only [ProcessTable.updateProc, Function.update_self]
    exact hf
  · simp only [ProcessTable.updateProc, Function.update_of_ne hq]
    exact h.slot q

theorem Agrees.setControl (h : Agrees t u) (k : Control) :
    Agrees (setControl t p k) (setControl u p k) :=
  ⟨h.slot, h.nextpid, by simp only [ProcessTable.setControl, h.control]⟩

theorem Agrees.wakeup1 (h : Agrees t u) (chan : Option ProcessTable.Chan) :
    Agrees (ProcessTable.wakeup1 t chan) (ProcessTable.wakeup1 u chan) := by
  refine ⟨fun q => ?_, h.nextpid, h.control⟩
  have hq := h.slot q
  have hiff : (t.proc q).state = .sleeping ∧ (t.proc q).chan = chan ↔
      (u.proc q).state = .sleeping ∧ (u.proc q).chan = chan := by
    constructor
    · rintro ⟨hs, hc⟩
      exact ⟨hq.state ▸ hs, hq.chan hs ▸ hc⟩
    · rintro ⟨hs, hc⟩
      have hs' := hq.state.trans hs
      exact ⟨hs', (hq.chan hs').trans hc⟩
  simp only [ProcessTable.wakeup1]
  by_cases hw : (t.proc q).state = .sleeping ∧ (t.proc q).chan = chan
  · rw [if_pos hw, if_pos (hiff.mp hw)]
    exact ⟨rfl, hq.pid, hq.kstack, hq.pgdir, hq.parent, hq.killed, (by simp)⟩
  · rw [if_neg hw, if_neg fun k => hw (hiff.mpr k)]
    exact hq

theorem Agrees.zombieChild (h : Agrees t u) :
    ProcessTable.zombieChild t p = ProcessTable.zombieChild u p := by
  simp only [ProcessTable.zombieChild, (h.slot _).parent, (h.slot _).state]

theorem Agrees.reparent (h : Agrees t u) :
    Agrees (ProcessTable.reparent t p) (ProcessTable.reparent u p) := by
  have hpass : Agrees (ProcessTable.passChildren t p) (ProcessTable.passChildren u p) := by
    refine ⟨fun q => ?_, h.nextpid, h.control⟩
    have hq := h.slot q
    simp only [ProcessTable.passChildren, hq.parent]
    split
    · exact ⟨hq.state, hq.pid, hq.kstack, hq.pgdir, rfl, hq.killed, hq.chan⟩
    · exact hq
  unfold ProcessTable.reparent
  rw [h.zombieChild]
  split
  · exact hpass.wakeup1 _
  · exact hpass

theorem Agrees.switchuvm (h : Agrees t u) (p : Option ProcId) :
    ProcessTable.switchuvm t p = ProcessTable.switchuvm u p := by
  cases p with
  | none => rfl
  | some p => simp only [ProcessTable.switchuvm, (h.slot p).kstack, (h.slot p).pgdir]

theorem Agrees.enabled (h : Agrees t u) {e : ProcessTable.Event}
    (he : ProcessTable.Enabled t e) : ProcessTable.Enabled u e := by
  cases e with
  | wakeup chan => trivial
  | _ =>
    simpa only [ProcessTable.Enabled, ProcessTable.InUser, h.control, (h.slot _).state] using he

/-- A section does to the one table what it does to the other. -/
theorem Agrees.kill (h : Agrees t u) (pid : ℤ) :
    Agrees (ProcessTable.kill t pid) (ProcessTable.kill u pid) := by
  unfold ProcessTable.kill
  simp only [(h.slot _).pid]
  split
  · exact h
  · rename_i q _
    have hq := h.slot q
    refine h.updateProc ⟨?_, hq.pid, hq.kstack, hq.pgdir, hq.parent, rfl, ?_⟩
    · simp only [hq.state]
    · intro hs
      dsimp only at hs
      split at hs
      · cases hs
      · rename_i hn
        exact absurd hs hn

theorem Agrees.forkAlloc (h : Agrees t u) (p : ProcId) :
    Agrees (ProcessTable.forkAlloc t p) (ProcessTable.forkAlloc u p) := by
  unfold ProcessTable.forkAlloc ProcessTable.allocproc
  simp only [(h.slot _).state, h.nextpid]
  cases ProcessTable.findProc fun p => (u.proc p).state == .unused with
  | none => exact h
  | some np =>
    have hn := h.slot np
    refine Agrees.setControl (t := { ProcessTable.updateProc t np _ with nextpid := _ })
      (u := { ProcessTable.updateProc u np _ with nextpid := _ }) ?_ _
    have hup := h.updateProc (p := np) (f := fun q =>
      { q with state := .embryo, pid := u.nextpid }) (g := fun q =>
      { q with state := .embryo, pid := u.nextpid })
      ⟨rfl, rfl, hn.kstack, hn.pgdir, hn.parent, hn.killed, by rintro ⟨⟩⟩
    exact ⟨hup.slot, rfl, hup.control⟩

theorem Agrees.forkStack (h : Agrees t u) (p : ProcId) (kstack : ℕ) :
    Agrees (ProcessTable.forkStack t p kstack) (ProcessTable.forkStack u p kstack) := by
  unfold ProcessTable.forkStack
  rw [h.control]
  split
  · rename_i np _
    have hn := h.slot np
    split
    · exact (h.updateProc
        ⟨rfl, hn.pid, rfl, hn.pgdir, hn.parent, hn.killed, by rintro ⟨⟩⟩).setControl _
    · exact (h.updateProc
        ⟨hn.state, hn.pid, rfl, hn.pgdir, hn.parent, hn.killed, hn.chan⟩).setControl _
  · exact h

theorem Agrees.forkMemory (h : Agrees t u) (p : ProcId) (pgdir : ℕ) :
    Agrees (ProcessTable.forkMemory t p pgdir) (ProcessTable.forkMemory u p pgdir) := by
  unfold ProcessTable.forkMemory
  rw [h.control]
  split
  · rename_i np _
    have hn := h.slot np
    split
    · exact (h.updateProc
        ⟨rfl, hn.pid, rfl, rfl, hn.parent, hn.killed, by rintro ⟨⟩⟩).setControl _
    · exact (h.updateProc
        ⟨hn.state, hn.pid, hn.kstack, rfl, rfl, hn.killed, hn.chan⟩).setControl _
  · exact h

theorem Agrees.forkFinish (h : Agrees t u) (p : ProcId) :
    Agrees (ProcessTable.forkFinish t p) (ProcessTable.forkFinish u p) := by
  unfold ProcessTable.forkFinish
  rw [h.control]
  split
  · rename_i np _
    have hn := h.slot np
    exact (h.updateProc
      ⟨rfl, hn.pid, hn.kstack, hn.pgdir, hn.parent, hn.killed, by rintro ⟨⟩⟩).setControl _
  · exact h

theorem Agrees.wait (h : Agrees t u) (p : ProcId) :
    Agrees (ProcessTable.wait t p) (ProcessTable.wait u p) := by
  unfold ProcessTable.wait
  rw [h.zombieChild]
  simp only [(h.slot _).parent, (h.slot _).killed]
  split
  · rename_i child _
    have hc := h.slot child
    exact (h.updateProc ⟨rfl, rfl, rfl, hc.pgdir, rfl, rfl, by rintro ⟨⟩⟩).setControl _
  · split
    · exact h.setControl _
    · have hp := h.slot p
      exact (h.updateProc ⟨rfl, hp.pid, hp.kstack, hp.pgdir, hp.parent, hp.killed,
        fun _ => rfl⟩).setControl _

theorem Agrees.exec {p : ProcId} {pgdir : ℕ} (h : Agrees t u)
    (ht : ProcessTable.step t (.exec p pgdir) = .ok t') :
    ∃ u', ProcessTable.step u (.exec p pgdir) = .ok u' ∧ Agrees t' u' := by
  simp only [ProcessTable.step, ProcessTable.exec] at ht ⊢
  have hp := h.slot p
  have hup := h.updateProc (p := p) (f := fun q => { q with pgdir := pgdir })
    (g := fun q => { q with pgdir := pgdir })
    ⟨hp.state, hp.pid, hp.kstack, rfl, hp.parent, hp.killed, hp.chan⟩
  by_cases hz : pgdir = 0
  · rw [if_pos hz] at ht
    cases ht
    exact ⟨u, if_pos hz, h⟩
  · rw [if_neg hz] at ht
    obtain ⟨⟨⟩, hs, ht⟩ := bind_eq_ok.mp ht
    cases ht
    rw [hup.switchuvm] at hs
    exact ⟨_, (if_neg hz).trans (bind_eq_ok.mpr ⟨_, hs, rfl⟩), hup⟩

theorem Agrees.exit {p : ProcId} (h : Agrees t u)
    (ht : ProcessTable.step t (.exit p) = .ok t') :
    ∃ u', ProcessTable.step u (.exit p) = .ok u' ∧ Agrees t' u' := by
  obtain ⟨hp, rfl⟩ := exit_eq_ok ht
  simp only [ProcessTable.step, ProcessTable.exit, if_neg hp]
  have hup := ((h.wakeup1 ((t.proc p).parent.map .proc)).reparent (p := p))
  have hq := hup.slot p
  rw [← (h.slot p).parent]
  exact ⟨_, rfl, hup.updateProc
    ⟨rfl, hq.pid, hq.kstack, hq.pgdir, hq.parent, hq.killed, by rintro ⟨⟩⟩⟩

/-- The tables take the same sections, to tables that agree again. -/
theorem Agrees.step {e : ProcessTable.Event} (h : Agrees t u)
    (ht : ProcessTable.step t e = .ok t') :
    ∃ u', ProcessTable.step u e = .ok u' ∧ Agrees t' u' := by
  cases e with
  | schedule p =>
    obtain ⟨⟨⟩, hs, ht⟩ := bind_eq_ok.mp ht
    cases ht
    rw [h.switchuvm] at hs
    refine ⟨_, bind_eq_ok.mpr ⟨_, hs, rfl⟩, h.updateProc ?_⟩
    have hp := h.slot p
    exact ⟨rfl, hp.pid, hp.kstack, hp.pgdir, hp.parent, hp.killed, fun _ => rfl⟩
  | yield p =>
    cases ht
    have hp := h.slot p
    exact ⟨_, rfl, h.updateProc ⟨rfl, hp.pid, hp.kstack, hp.pgdir, hp.parent, hp.killed, nofun⟩⟩
  | sleep p chan =>
    cases ht
    have hp := h.slot p
    exact ⟨_, rfl, h.updateProc
      ⟨rfl, hp.pid, hp.kstack, hp.pgdir, hp.parent, hp.killed, fun _ => rfl⟩⟩
  | wakeup chan =>
    cases ht
    exact ⟨_, rfl, h.wakeup1 _⟩
  | kill p pid =>
    cases ht
    exact ⟨_, rfl, h.kill pid⟩
  | forkAlloc p =>
    cases ht
    exact ⟨_, rfl, h.forkAlloc p⟩
  | forkStack p kstack =>
    cases ht
    exact ⟨_, rfl, h.forkStack p kstack⟩
  | forkMemory p pgdir =>
    cases ht
    exact ⟨_, rfl, h.forkMemory p pgdir⟩
  | forkFinish p =>
    cases ht
    exact ⟨_, rfl, h.forkFinish p⟩
  | exec p pgdir => exact h.exec ht
  | exit p => exact h.exit ht
  | wait p =>
    cases ht
    exact ⟨_, rfl, h.wait p⟩

end Tables

variable {C : Type} [DecidableEq C] [Fintype C]

/-- The section of the table that an operation is. -/
def sectionOf (k : Kernel C) (c : C) : Op → Option ProcessTable.Event
  | .scan (p :: _) => if (k.table.proc p).state = .runnable then some (.schedule p) else none
  | .wakeup1 chan => some (.wakeup chan)
  | .giveUp => (k.proc c).map .yield
  | .fallAsleep chan _ => (k.proc c).map (.sleep · chan)
  | .mark pid => (k.proc c).map (.kill · pid)
  | .die => (k.proc c).map .exit
  | .look => (k.proc c).map .wait
  | .alloc _ _ => (k.proc c).map .forkAlloc
  | .stack kstack _ => (k.proc c).map (.forkStack · kstack)
  | .memory pgdir => (k.proc c).map (.forkMemory · pgdir)
  | .ready => (k.proc c).map .forkFinish
  | _ => none

/-- The section of the table, if it is one, that a step of a processor is. -/
def sections (s : State C) : SpinLocks.Event C Lock Op → List ProcessTable.Event
  | .step c =>
    match s.stack (s.current c) with
    | [] => []
    | f :: _ =>
      match f.code, f.phase with
      | .op x :: _, .start => (sectionOf s.client c x).toList
      | _, _ => []
  | _ => []

section Machine

variable {pages : FirstPages} {s t : State C} {c : C} {x : Op} {f : Frame C}
  {fs : List (Frame C)} {is : Scheduling.Code C}

omit [DecidableEq C] [Fintype C] in
theorem agrees_clearChan {k : Kernel C} {p : ProcId} (hp : (k.table.proc p).state = .running) :
    Agrees (k.clearChan p).table k.table := by
  refine ⟨fun q => ?_, rfl, rfl⟩
  by_cases hq : q = p
  · subst hq
    simp only [Kernel.clearChan, Kernel.setTable, ProcessTable.updateProc, Function.update_self]
    refine ⟨rfl, rfl, rfl, rfl, rfl, rfl, fun hs => ?_⟩
    rw [hp] at hs
    cases hs
  · simp only [Kernel.clearChan, Kernel.setTable, ProcessTable.updateProc,
      Function.update_of_ne hq]
    exact .refl _

/-- A section that the operation is takes the table where the machine takes it. -/
def Follows (k : Kernel C) (c : C) (x : Op) (u : PTable) : Prop :=
  (sectionOf k c x = none ∧ Agrees u k.table) ∨
    ∃ e t, sectionOf k c x = some e ∧ ProcessTable.Enabled k.table e ∧
      ProcessTable.step k.table e = .ok t ∧ Agrees u t

omit [DecidableEq C] [Fintype C] in
theorem Follows.same {k : Kernel C} (hs : sectionOf k c x = none) : Follows k c x k.table :=
  .inl ⟨hs, .refl _⟩

omit [DecidableEq C] [Fintype C] in
theorem Follows.own {k : Kernel C} {u : PTable} {e : ProcessTable.Event}
    (hs : sectionOf k c x = some e) (hen : ProcessTable.Enabled k.table e)
    (hu : ProcessTable.step k.table e = .ok u) : Follows k c x u :=
  .inr ⟨e, u, hs, hen, hu, .refl u⟩

section Sections

variable {k : Kernel C} {p np : ProcId} {e : Scheduling.Effect C} {v : ProcessTable.Event}

omit [DecidableEq C] [Fintype C] in
/-- An operation that is a section of the table and goes on with `code`. -/
theorem section_follows {code : PTable → Scheduling.Code C} (hs : sectionOf k c x = some v)
    (hen : ProcessTable.Enabled k.table v)
    (he : (tableOp k v >>= fun t => plain (k.setTable t) (code t)) = .ok e) :
    Follows k c x e.client.table := by
  obtain ⟨u, hu, he⟩ := bind_eq_ok.mp he
  cases plain_eq_ok he
  exact .own hs hen (tableOp_eq_ok hu)

theorem look_follows (hp : k.proc c = some p) (hen : ProcessTable.Enabled k.table (.wait p))
    (he : exec c .look k = .ok e) : Follows k c .look e.client.table := by
  have hs : sectionOf k c .look = some (.wait p) := congrArg (Option.map _) hp
  rw [exec, curproc_eq hp, ok_bind] at he
  obtain ⟨u, hu, he⟩ := bind_eq_ok.mp he
  split at he
  · unfold Scheduling.reap at he
    split at he
    · cases he
    · cases he
      exact .own hs hen (tableOp_eq_ok hu)
  · cases plain_eq_ok he
    exact .own hs hen (tableOp_eq_ok hu)

theorem stack_follows {kstack pgdir : ℕ} (hp : k.proc c = some p)
    (hen : ProcessTable.Enabled k.table (.forkStack p kstack))
    (he : exec c (.stack kstack pgdir) k = .ok e) :
    Follows k c (.stack kstack pgdir) e.client.table := by
  have hs : sectionOf k c (.stack kstack pgdir) = some (.forkStack p kstack) :=
    congrArg (Option.map _) hp
  rw [exec, curproc_eq hp, ok_bind] at he
  obtain ⟨u, hu, he⟩ := bind_eq_ok.mp he
  split at he
  · cases he
    exact .own hs hen (tableOp_eq_ok hu)
  · cases plain_eq_ok he
    exact .own hs hen (tableOp_eq_ok hu)

theorem memory_follows {pgdir : ℕ} (hp : k.proc c = some p)
    (hen : ProcessTable.Enabled k.table (.forkMemory p pgdir))
    (he : exec c (.memory pgdir) k = .ok e) : Follows k c (.memory pgdir) e.client.table := by
  have hs : sectionOf k c (.memory pgdir) = some (.forkMemory p pgdir) :=
    congrArg (Option.map _) hp
  rw [exec, curproc_eq hp, ok_bind] at he
  obtain ⟨u, hu, he⟩ := bind_eq_ok.mp he
  split at he
  · cases plain_eq_ok he
    exact .own hs hen (tableOp_eq_ok hu)
  · cases he
    exact .own hs hen (tableOp_eq_ok hu)
  · cases plain_eq_ok he
    exact .own hs hen (tableOp_eq_ok hu)

theorem scan_follows {ps : List ProcId} (he : exec c (.scan ps) k = .ok e) :
    Follows k c (.scan ps) e.client.table := by
  cases ps with
  | nil =>
    cases plain_eq_ok he
    exact .same rfl
  | cons p ps =>
    simp only [exec] at he
    split at he
    · rename_i hq
      cases plain_eq_ok he
      exact .same (if_neg hq)
    · rename_i hq
      have hq := not_not.mp hq
      split at he
      · cases he
      · cases he
      · rename_i hs
        cases plain_eq_ok he
        refine .inr ⟨.schedule p, _, if_pos hq, hq, bind_eq_ok.mpr ⟨_, hs, rfl⟩, ?_⟩
        have hagrees := (Agrees.refl k.table).updateProc (p := p)
          (f := fun q => { q with state := .running })
          (g := fun q => { q with state := .running, chan := none })
          ⟨rfl, rfl, rfl, rfl, rfl, rfl, by rintro ⟨⟩⟩
        exact hagrees

end Sections

theorem proc_follows {p : ProcId} (hb : Begins s c p f fs x is) {e : Scheduling.Effect C}
    (he : exec c x s.client = .ok e) : Follows s.client c x e.client.table := by
  have hcur := curproc_eq hb.proc
  have hexp := hb.expects
  have hat : ∀ {g : ProcId → ProcessTable.Event}, (s.client.proc c).map g = some (g p) :=
    fun {g} => congrArg (Option.map g) hb.proc
  cases x with
  | scheduler | loop | scan ps | back | zombieExit => exact hexp.elim
  | clock | sleep chan lk =>
    simp only [exec, hb.proc] at he
    cases plain_eq_ok he
    exact .same rfl
  | wakeup chan | kill pid | wait | fork kstack pgdir =>
    cases plain_eq_ok he
    exact .same rfl
  | giveUp =>
    rw [exec, hcur] at he
    cases plain_eq_ok he
    exact .own hat hexp.1 rfl
  | notRunning =>
    rw [exec, hcur] at he
    change (if (s.client.table.proc p).state = .running then _ else _) = _ at he
    rw [if_neg hexp.1] at he
    cases plain_eq_ok he
    exact .same rfl
  | clearChan =>
    rw [exec, hcur] at he
    cases plain_eq_ok he
    exact .inl ⟨rfl, agrees_clearChan hexp.1⟩
  | exit =>
    rw [exec, hcur] at he
    change (if p = ProcessTable.initproc then _ else _) = _ at he
    split at he
    · cases he
    · cases plain_eq_ok he
      exact .same rfl
  | wakeup1 chan => exact section_follows rfl trivial he
  | fallAsleep chan lk =>
    rw [exec, hcur, ok_bind] at he
    exact section_follows hat ⟨hexp.1, (kind_eq_some hexp.2.1).2⟩ he
  | mark pid =>
    rw [exec, hcur, ok_bind] at he
    exact section_follows hat ⟨hexp.1, (kind_eq_some hexp.2.1).2⟩ he
  | die =>
    rw [exec, hcur, ok_bind] at he
    exact section_follows hat ⟨hexp.1, (kind_eq_some hexp.2.1).2⟩ he
  | alloc kstack pgdir =>
    rw [exec, hcur, ok_bind] at he
    exact section_follows hat ⟨hexp.1, (kind_eq_some hexp.2.1).2⟩ he
  | ready =>
    obtain ⟨hq, ⟨np, hk⟩, -⟩ := hexp
    rw [exec, hcur, ok_bind] at he
    exact section_follows hat ⟨hq, np, (kind_eq_some hk).2⟩ he
  | look =>
    refine look_follows hb.proc ⟨hexp.1, ?_⟩ he
    exact hexp.2.1.imp (fun hk => (kind_eq_some hk).2) fun hk => (kind_eq_some hk).2
  | stack kstack pgdir =>
    obtain ⟨hq, ⟨np, hk⟩, -⟩ := hexp
    exact stack_follows hb.proc ⟨hq, np, (kind_eq_some hk).2⟩ he
  | memory pgdir =>
    obtain ⟨hq, ⟨np, hk⟩, -⟩ := hexp
    exact memory_follows hb.proc ⟨hq, np, (kind_eq_some hk).2⟩ he

theorem sched_follows (h : Sane s) (hcur : s.current c = .sched c)
    (hstack : s.stack (.sched c) = f :: fs) (hc : f.code = .op x :: is)
    {e : Scheduling.Effect C} (he : exec c x s.client = .ok e) :
    Follows s.client c x e.client.table := by
  have hplace := h.place c
  rw [hcur] at hplace
  obtain ⟨-, hplace⟩ := hplace
  cases hplace with
  | chosen p hch => exact (not_chosen (hcur ▸ hstack) hc (fun _ => nofun) hch).elim
  | back hb =>
    obtain ⟨g, ps, hg, -, hcode⟩ := hb
    rw [hstack] at hg
    cases hg
    rw [hc] at hcode
    cases hcode
    cases plain_eq_ok he
    exact .same rfl
  | idle hi hproc hcr3 =>
    rw [hstack] at hi
    have hidle := idleStack_head hi
    rw [hc] at hidle
    cases x with
    | scheduler | loop | wakeup chan =>
      cases plain_eq_ok he
      exact .same rfl
    | scan ps => exact scan_follows he
    | clock =>
      simp only [exec, hproc] at he
      cases plain_eq_ok he
      exact .same rfl
    | wakeup1 chan => exact section_follows rfl trivial he
    | back | giveUp | notRunning | sleep | fallAsleep | clearChan | kill | mark | exit | die
    | zombieExit | wait | look | fork | alloc | stack | memory | ready => exact hidle.elim

theorem restack_client {o : Option (Thread C × Option (Scheduling.Code C))}
    (h : SpinLocks.restack s .ptable o = .ok t) : t.client = s.client := by
  unfold SpinLocks.restack at h
  split at h
  · cases h
    rfl
  · split at h <;> cases h
    rfl

theorem swtch_client {gs : List (Frame C)} {u : Thread C} (h : swtch s c gs u = .ok t) :
    t.client = s.client := by
  obtain ⟨-, -, rfl⟩ := swtch_eq_ok h
  rfl

omit [DecidableEq C] [Fintype C] in
theorem sections_nil (hstack : s.stack (s.current c) = f :: fs)
    (hop : ∀ x is, f.code = .op x :: is → f.phase ≠ .start) : sections s (.step c) = [] := by
  simp only [sections, hstack]

/-- One step of a processor is one section of the table or none. -/
theorem step_follows (h : Sane s) (hl : SpinLocks.Invariant (kernel pages) s)
    {e : SpinLocks.Event C Lock Op} (ht : SpinLocks.step (kernel pages) s e = .ok t)
    {u : PTable} (hu : Agrees s.client.table u) :
    ∃ v, Execution ProcessTable.step u (sections s e) v ∧
      Along ProcessTable.step ProcessTable.Enabled u (sections s e) ∧
      Agrees t.client.table v := by
  have hquiet : t.client = s.client → sections s e = [] →
      ∃ v, Execution ProcessTable.step u (sections s e) v ∧
        Along ProcessTable.step ProcessTable.Enabled u (sections s e) ∧
        Agrees t.client.table v := by
    intro hclient hnil
    rw [hnil, hclient]
    exact ⟨u, .nil u, trivial, hu⟩
  cases e with
  | step c =>
    obtain ⟨f, fs, hstack, hrun, -⟩ := hl.running c
    simp only [SpinLocks.step, hstack] at ht
    cases execute_outcome ht with
    | spin lk is hc =>
      refine hquiet rfl (sections_nil hstack fun x js hc' => ?_)
      rw [hc] at hc'
      cases hc'
    | move lock m f' hm =>
      refine hquiet rfl (sections_nil hstack fun x is hc => ?_)
      exact absurd (move_head hm hc) id
    | leave b is _ hc hp ht =>
      refine hquiet (swtch_client ht) (sections_nil hstack fun x js hc' => ?_)
      rw [hc] at hc'
      cases hc'
    | enter u is _ hc hp ht =>
      refine hquiet (swtch_client ht) (sections_nil hstack fun x js hc' => ?_)
      rw [hc] at hc'
      cases hc'
    | op x is e _ hc hp he ht =>
      have hclient : t.client = e.client := restack_client ht
      have hsec : sections s (.step c) = (sectionOf s.client c x).toList := by
        simp only [sections, hstack, hc, hp]
      have hfollows : Follows s.client c x t.client.table := by
        rw [hclient]
        have hplace := h.place c
        cases hcur : s.current c with
        | sched d =>
          rw [hcur] at hplace hstack
          cases hplace.1
          exact sched_follows h hcur hstack hc he
        | proc p =>
          rw [hcur] at hstack
          exact proc_follows (h.begins hcur hstack hp hc hrun) he
      rw [hsec]
      rcases hfollows with ⟨hnone, hag⟩ | ⟨ev, w, hsome, hen, hstep, hag⟩
      · rw [hnone]
        exact ⟨u, .nil u, trivial, hag.trans hu⟩
      · rw [hsome]
        obtain ⟨v, hv, hwv⟩ := hu.step hstep
        exact ⟨v, .cons hv (.nil v), ⟨hu.enabled hen, fun _ _ => trivial⟩, hag.trans hwv⟩
  | call c r =>
    obtain ⟨f, fs, hstack, -⟩ := hl.running c
    simp only [SpinLocks.step, hstack] at ht
    split at ht <;> cases ht
    exact hquiet rfl rfl
  | interrupt c =>
    simp only [SpinLocks.step] at ht
    split at ht <;> cases ht
    exact hquiet rfl rfl
  | iret c =>
    obtain ⟨f, fs, hstack, -⟩ := hl.running c
    simp only [SpinLocks.step, hstack] at ht
    cases fs with
    | nil => cases ht
    | cons g gs =>
      simp only at ht
      split at ht <;> cases ht
      exact hquiet rfl rfl

/-- Whatever the processors interleave, the table goes through the sections one after another,
each from where its process may be in it. The steps of fork that put a stack and a copy of the
memory into the new slot hold no lock: nobody else touches an EMBRYO. -/
theorem table_atomic (pages : FirstPages) {es : List (SpinLocks.Event C Lock Op)} {s : State C}
    (h : Execution (SpinLocks.step (kernel pages)) (initial (kernel pages)) es s) :
    ∃ t, Execution ProcessTable.step (ProcessTable.userinit pages)
        (emitted (SpinLocks.step (kernel pages)) sections (initial (kernel pages)) es) t ∧
      Along ProcessTable.step ProcessTable.Enabled (ProcessTable.userinit pages)
        (emitted (SpinLocks.step (kernel pages)) sections (initial (kernel pages)) es) ∧
      Agrees s.client.table t := by
  have hinv : ∀ (s : State C) e t, Sane s ∧ SpinLocks.Invariant (kernel pages) s →
      SpinLocks.step (kernel pages) s e = .ok t →
        Sane t ∧ SpinLocks.Invariant (kernel pages) t := fun s e t hs ht =>
    ⟨step_sane hs.1 hs.2 ht, step_invariant (kernel_sound pages) hs.2 ht⟩
  have hstart : Agrees (initial (kernel (C := C) pages)).client.table
    (ProcessTable.userinit pages) := .refl _
  exact emitted_simulates (R := fun s u => Agrees s.client.table u) hinv
    (fun s e t u hs ht hu => step_follows hs.1 hs.2 ht hu) h
    ⟨initial_sane pages, initial_invariant (kernel_sound pages)⟩ hstart

theorem table_atomic_fork : ∃ s t,
    Execution (SpinLocks.step twoKernels) (initial twoKernels) childRuns s ∧
    Execution ProcessTable.step (ProcessTable.userinit loaded)
      [.schedule 0, .forkAlloc 0, .forkStack 0 28672, .forkMemory 0 32768, .forkFinish 0,
        .schedule 1] t ∧ Agrees s.client.table t := by
  obtain ⟨s, hs, -⟩ := execution_of_map (SpinLocks.step twoKernels) (initial twoKernels)
    childRuns (fun _ => ()) (b := ()) (by decide +kernel)
  obtain ⟨t, ht, -, hagrees⟩ := table_atomic loaded hs
  have hsections : emitted (SpinLocks.step (kernel loaded)) sections (initial (kernel loaded))
      childRuns = [.schedule 0, .forkAlloc 0, .forkStack 0 28672, .forkMemory 0 32768,
        .forkFinish 0, .schedule 1] := by decide +kernel
  rw [hsections] at ht
  exact ⟨s, t, hs, ht, hagrees⟩

end Machine

end SchedulingRefinement
