import Xv6Gui.Scheduling

/-!
# No two processors run one process

What each thread is about to do is read off its code: `Expects` says in which states of its
slot and of the fork it may be in the middle of a process may run some code, and `Idle` which
code a scheduler runs between two processes. The invariant ties the state of each slot to
where its thread is, with ptable.lock held wherever the two differ.
-/
namespace SchedulingSafety

open WindowManagerState (ProcId nproc)
open ProcessTable (PTable ProcState Control FirstPages TableOk Settled updateProc setControl
  initproc)
open SpinLocks GuardedRuns Scheduling

variable {C : Type} [DecidableEq C]

abbrev Frame (C : Type) := SpinLocks.Frame (Thread C) Lock Op

abbrev State (C : Type) := SpinLocks.State C (Thread C) Lock Op (Kernel C)

def Active (q : ProcState) : Prop := q = .running ∨ q = .runnable ∨ q = .sleeping

/-- What a process may run in state q; k is where it is in fork or wait, and none for a
handler. -/
def Expects : ProcState → Option Control → Scheduling.Code C → Prop
  | q, k, [] => q = .running ∧ (k = none ∨ k = some .user)
  | q, k, .op .giveUp :: is => q = .running ∧ Expects .runnable k is
  | q, k, .op (.fallAsleep _ _) :: is => q = .running ∧ k = some .user ∧ Expects .sleeping k is
  | q, k, .op .die :: is => q = .running ∧ k = some .user ∧ Expects .zombie k is
  | _, _, .op .zombieExit :: _ => False
  | q, k, .op .notRunning :: is => q ≠ .running ∧ Expects q k is
  | q, k, .op .clearChan :: is => q = .running ∧ Expects q k is
  | q, k, .op .look :: is =>
    q = .running ∧ (k = some .user ∨ k = some .waiting) ∧ Expects .running (some .user) is
  | q, k, .op (.alloc _ _) :: is =>
    q = .running ∧ k = some .user ∧ Expects .running (some .user) is
  | q, k, .op (.stack _ _) :: is =>
    q = .running ∧ (∃ np, k = some (.allocated np)) ∧ Expects .running (some .user) is
  | q, k, .op (.memory _) :: is =>
    q = .running ∧ (∃ np, k = some (.stacked np)) ∧ Expects .running (some .user) is
  | q, k, .op .ready :: is =>
    q = .running ∧ (∃ np, k = some (.copied np)) ∧ Expects .running (some .user) is
  | q, k, .op (.sleep _ _) :: is => q = .running ∧ k = some .user ∧ Expects q k is
  | q, k, .op (.kill _) :: is => q = .running ∧ k = some .user ∧ Expects q k is
  | q, k, .op (.mark _) :: is => q = .running ∧ k = some .user ∧ Expects q k is
  | q, k, .op (.fork _ _) :: is => q = .running ∧ k = some .user ∧ Expects q k is
  | q, k, .op .wait :: is => q = .running ∧ k = some .user ∧ Expects q k is
  | q, k, .op .exit :: is => q = .running ∧ k = some .user ∧ Expects q k is
  | q, k, .op (.wakeup _) :: is => q = .running ∧ Expects q k is
  | q, k, .op (.wakeup1 _) :: is => q = .running ∧ Expects q k is
  | q, k, .op .clock :: is => q = .running ∧ Expects q k is
  | _, _, .op .scheduler :: _ => False
  | _, _, .op .loop :: _ => False
  | _, _, .op (.scan _) :: _ => False
  | _, _, .op .back :: _ => False
  | q, k, .switchBack :: is =>
    (q = .runnable ∨ q = .sleeping ∨ q = .zombie) ∧ (q ≠ .zombie → Expects .running k is)
  | _, _, .switchTo _ :: _ => False
  | q, k, .give lk :: is => (lk = .ptable → q = .running) ∧ Expects q k is
  | q, k, .pushcli :: is => Expects q k is
  | q, k, .popcli :: is => Expects q k is
  | q, k, .test _ _ :: is => Expects q k is
  | q, k, .take _ :: is => Expects q k is
  | q, k, .sti :: is => Expects q k is
  | q, k, .checkNcli :: is => Expects q k is
  | q, k, .checkFlag :: is => Expects q k is

/-- What a scheduler's thread runs while it has chosen no process. -/
def Idle : Bool → Scheduling.Code C → Prop
  | bottom, [] => bottom = false
  | bottom, .op .scheduler :: is => bottom = true ∧ is = []
  | bottom, .op .loop :: is => bottom = true ∧ is = []
  | bottom, .op (.scan _) :: is => bottom = true ∧ is = []
  | bottom, .op (.wakeup _) :: is => Idle bottom is
  | bottom, .op (.wakeup1 _) :: is => Idle bottom is
  | bottom, .op .clock :: is => Idle bottom is
  | _, .op _ :: _ => False
  | _, .switchBack :: _ => False
  | _, .switchTo _ :: _ => False
  | bottom, _ :: is => Idle bottom is

/-- The control that the top frame of a stack sees. -/
def kind (k : Control) : List (Frame C) → Option Control
  | [] => some k
  | _ :: _ => none

/-- The frames below the top one, which go on once the process runs. -/
def Below (k : Control) : List (Frame C) → Prop
  | [] => True
  | f :: fs => Expects .running (kind k fs) f.code ∧ Below k fs

/-- The top frame of a process in state q. -/
def Acts (q : ProcState) (k : Option Control) (f : Frame C) : Prop :=
  match f.phase with
  | .away _ => q = .running ∧ ∀ is, f.code = .switchBack :: is → Expects .running k is
  | _ => Expects q k f.code

def IdleStack : List (Frame C) → Prop
  | [] => False
  | [f] => Idle true f.code
  | f :: g :: fs => Idle false f.code ∧ IdleStack (g :: fs)

/-- A stack that can be switched to, for a process that is in fork or wait where k tells. -/
def Waits (k : Control) (fs : List (Frame C)) : Prop :=
  ∃ f gs, fs = f :: gs ∧ Acts .running (kind k gs) f ∧ Below k gs

/-- The stack of a process that has not run yet. -/
def Unborn (fs : List (Frame C)) : Prop :=
  ∃ f, fs = [f] ∧ f.phase = .start ∧ f.code = forkret

/-- The stack of a scheduler that has switched to a process. -/
def Parked (fs : List (Frame C)) : Prop :=
  ∃ f ps, fs = [f] ∧ f.phase = .start ∧ f.code = [.op .back, .op (.scan ps)]

/-- A scheduler about to switch to p. -/
structure Chosen (s : State C) (c : C) (p : ProcId) : Prop where
  current : s.current c = .sched c
  stack : ∃ f ps, s.stack (.sched c) = [f] ∧ f.phase = .start ∧
    f.code = [.switchTo (.proc p), .op .back, .op (.scan ps)]
  proc : s.client.proc c = some p
  cr3 : s.client.cr3 c = some p
  state : (s.client.table.proc p).state = .running
  off : ∀ d, s.current d ≠ .proc p

inductive SchedOn (s : State C) (c : C) : Prop where
  | idle (h : IdleStack (s.stack (.sched c))) (hproc : s.client.proc c = none)
      (hcr3 : s.client.cr3 c = none)
  | chosen (p : ProcId) (h : Chosen s c p)
  | back (h : Parked (s.stack (.sched c)))

/-- A process that runs on c, with ptable.lock as long as its slot says something else. -/
structure ProcOn (s : State C) (c : C) (p : ProcId) : Prop where
  proc : s.client.proc c = some p
  cr3 : s.client.cr3 c = some p
  settled : Settled (s.client.table.proc p)
  stack : ∃ f fs, s.stack (.proc p) = f :: fs ∧
    Acts (s.client.table.proc p).state (kind (s.client.table.control p) fs) f ∧
    Below (s.client.table.control p) fs ∧
    ((s.client.table.proc p).state ≠ .running → .ptable ∈ f.locks)
  parked : Parked (s.stack (.sched c))

def Place (s : State C) (c : C) : Thread C → Prop
  | .sched d => d = c ∧ SchedOn s c
  | .proc p => ProcOn s c p

structure Sane (s : State C) : Prop where
  table : TableOk s.client.table
  place : ∀ c, Place s c (s.current c)
  chosen : ∀ p, (∀ c, s.current c ≠ .proc p) → (s.client.table.proc p).state = .running →
    ∃ c, Chosen s c p
  waits : ∀ p, (∀ c, s.current c ≠ .proc p) → Active (s.client.table.proc p).state →
    Waits (s.client.table.control p) (s.stack (.proc p))
  built : ∀ p np, s.client.table.control p = .stacked np ∨ s.client.table.control p = .copied np →
    Unborn (s.stack (.proc np))
  user : ∀ p, ¬ Active (s.client.table.proc p).state → s.client.table.control p = .user

section Steps

variable {s t : State C} {c d : C} {p : ProcId} {q : ProcState} {k : Option Control}
  {ctl : Control} {f f' : Frame C} {fs gs : List (Frame C)} {is : Scheduling.Code C}

omit [DecidableEq C] in
theorem acts_iff (hp : ∀ e, f.phase ≠ .away e) : Acts q k f ↔ Expects q k f.code := by
  unfold Acts
  split
  · rename_i e h
    exact absurd h (hp e)
  · exact Iff.rfl

omit [DecidableEq C] in
theorem acts_start (hp : f.phase = .start) : Acts q k f ↔ Expects q k f.code :=
  acts_iff (by simp [hp])

omit [DecidableEq C] in
theorem expects_plain {i : Instr (Thread C) Lock Op} (hi : i.plain) :
    Expects q k (i :: is) ↔ Expects q k is := by
  cases i <;> first | exact Iff.rfl | exact hi.elim

omit [DecidableEq C] in
theorem idle_plain {b : Bool} {i : Instr (Thread C) Lock Op} (hi : i.plain) :
    Idle b (i :: is) ↔ Idle b is := by
  cases i <;> first | exact Iff.rfl | exact hi.elim

omit [DecidableEq C] in
theorem Acts.move (h : Acts q k f) (hm : Move f f') : Acts q k f' := by
  cases hm with
  | within i is hhead hi hcode hlocks hp hp' =>
    rw [acts_iff hp'.not_away, hcode]
    exact (acts_iff hp.not_away).mp h
  | past i hcode hi hp hpt hlocks hp' =>
    have := (acts_iff hp).mp h
    rw [hcode, expects_plain hi] at this
    exact (acts_start hp').mpr this
  | take lk is hhead hcode hp hlocks hp' =>
    rw [acts_iff (by simp [hp']), hcode]
    exact (acts_start hp).mp h
  | give lk hcode hp hlocks hp' =>
    have := (acts_iff (by simp [hp])).mp h
    rw [hcode] at this
    exact (acts_start hp').mpr this.2
  | back e hcode hp hlocks hp' =>
    unfold Acts at h
    rw [hp] at h
    obtain ⟨rfl, h⟩ := h
    exact (acts_start hp').mpr (h _ hcode)

omit [DecidableEq C] in
theorem Acts.locks (h : Acts q k f) (hm : Move f f')
    (hlk : q ≠ .running → Lock.ptable ∈ f.locks) (hq : q ≠ .running) :
    Lock.ptable ∈ f'.locks := by
  cases hm with
  | within i is hhead hi hcode hlocks hp hp' => exact hlocks ▸ hlk hq
  | past i hcode hi hp hpt hlocks hp' => exact hlocks ▸ hlk hq
  | take lk is hhead hcode hp hlocks hp' => exact hlocks ▸ List.mem_cons_of_mem _ (hlk hq)
  | give lk hcode hp hlocks hp' =>
    have := (acts_iff (by simp [hp])).mp h
    rw [hcode] at this
    rw [hlocks]
    exact (List.mem_erase_of_ne fun e => hq (this.1 e.symm)).mpr (hlk hq)
  | back e hcode hp hlocks hp' => exact hlocks ▸ hlk hq

omit [DecidableEq C] in
theorem idle_move {b : Bool} (h : Idle b f.code) (hm : Move f f') : Idle b f'.code := by
  cases hm with
  | within i is hhead hi hcode hlocks hp hp' => exact hcode ▸ h
  | past i hcode hi hp hpt hlocks hp' =>
    rw [hcode, idle_plain hi] at h
    exact h
  | take lk is hhead hcode hp hlocks hp' => exact hcode ▸ h
  | give lk hcode hp hlocks hp' =>
    rw [hcode] at h
    exact h
  | back e hcode hp hlocks hp' =>
    rw [hcode] at h
    exact h.elim

omit [DecidableEq C] in
theorem idleStack_move (h : IdleStack (f :: fs)) (hm : Move f f') : IdleStack (f' :: fs) := by
  cases fs with
  | nil => exact idle_move h hm
  | cons g fs => exact ⟨idle_move h.1 hm, h.2⟩

omit [DecidableEq C] in
/-- A frame that waits at an operation or at a switch takes no step of its own. -/
theorem move_head {i : Instr (Thread C) Lock Op} (hm : Move f f') (hc : f.code = i :: is) :
    i.own := by
  cases hm with
  | within j js hhead hi hcode hlocks hp hp' =>
    rw [hc] at hhead
    cases hhead
    exact hi
  | past j hcode hi hp hpt hlocks hp' =>
    rw [hc] at hcode
    cases hcode
    cases i <;> first | exact hi.elim | trivial
  | take lk js hhead hcode hp hlocks hp' =>
    rw [hc] at hhead
    cases hhead
    trivial
  | give lk hcode hp hlocks hp' =>
    rw [hc] at hcode
    cases hcode
    trivial
  | back e hcode hp hlocks hp' =>
    rw [hc] at hcode
    cases hcode
    trivial

omit [DecidableEq C] in
theorem settled_congr {v w : ProcessTable.Proc} (h : v.state = w.state) :
    Settled v ↔ Settled w := by
  simp [Settled, h]

omit [DecidableEq C] in
theorem Chosen.other (h : Chosen s d p) (hcur : t.current = s.current)
    (hstack : t.stack (.sched d) = s.stack (.sched d))
    (hproc : t.client.proc d = s.client.proc d) (hcr3 : t.client.cr3 d = s.client.cr3 d)
    (hstate : (t.client.table.proc p).state = .running) : Chosen t d p where
  current := hcur ▸ h.current
  stack := hstack ▸ h.stack
  proc := hproc ▸ h.proc
  cr3 := hcr3 ▸ h.cr3
  state := hstate
  off := hcur ▸ h.off

/-- A step of processor c on the frames of its own thread, with what it may do to the table. -/
theorem Sane.act (h : Sane s) (hinj : Function.Injective s.current)
    {lock : Lock → Spinlock C} {m : Cpu} {k : Kernel C}
    (ht : t = { s with lock := lock, client := k }.put c m (f :: fs))
    (htable : TableOk k.table)
    (hcpu : ∀ d, d ≠ c → k.proc d = s.client.proc d ∧ k.cr3 d = s.client.cr3 d)
    (hon : ∀ d p, d ≠ c → s.current d = .proc p →
      (k.table.proc p).state = (s.client.table.proc p).state ∧
        k.table.control p = s.client.table.control p)
    (hother : ∀ d p, d ≠ c → Chosen s d p → (k.table.proc p).state = .running)
    (hplace : Place t c (s.current c))
    (hchosen : ∀ p, (∀ d, s.current d ≠ .proc p) → (k.table.proc p).state = .running →
      ∃ d, Chosen t d p)
    (hwaits : ∀ p, (∀ d, s.current d ≠ .proc p) → Active (k.table.proc p).state →
      Waits (k.table.control p) (s.stack (.proc p)))
    (hbuilt : ∀ p np, k.table.control p = .stacked np ∨ k.table.control p = .copied np →
      s.current c ≠ .proc np ∧ Unborn (s.stack (.proc np)))
    (huser : ∀ p, ¬ Active (k.table.proc p).state → k.table.control p = .user) : Sane t := by
  have hcur : t.current = s.current := by
    rw [ht]
    rfl
  have hclient : t.client = k := by
    rw [ht]
    rfl
  have hstack : ∀ v, v ≠ s.current c → t.stack v = s.stack v := by
    intro v hv
    rw [ht]
    exact Function.update_of_ne hv ..
  have hsched : ∀ d, d ≠ c → s.current c ≠ .sched d := by
    intro d hd hc
    have hp := h.place c
    rw [hc] at hp
    exact hd hp.1
  refine ⟨hclient ▸ htable, ?_, ?_, ?_, ?_, hclient ▸ huser⟩
  · intro d
    rw [hcur]
    by_cases hd : d = c
    · rw [hd]
      exact hplace
    · have hne : s.current d ≠ s.current c := fun e => hd (hinj e)
      have hp := h.place d
      cases hv : s.current d with
      | sched e =>
        rw [hv] at hp hne
        obtain ⟨rfl, hp⟩ := hp
        refine ⟨rfl, ?_⟩
        cases hp with
        | idle hi hproc hcr3 =>
          refine .idle ?_ ?_ ?_
          · rw [hstack _ hne]
            exact hi
          · rw [hclient, (hcpu _ hd).1]
            exact hproc
          · rw [hclient, (hcpu _ hd).2]
            exact hcr3
        | chosen p hch =>
          refine .chosen p (hch.other hcur (hstack _ hne) ?_ ?_ ?_)
          · rw [hclient, (hcpu _ hd).1]
          · rw [hclient, (hcpu _ hd).2]
          · rw [hclient]
            exact hother _ p hd hch
        | back hb =>
          refine .back ?_
          rw [hstack _ hne]
          exact hb
      | proc p =>
        rw [hv] at hp hne
        obtain ⟨hst, hctl⟩ := hon d p hd hv
        constructor
        · rw [hclient, (hcpu _ hd).1]
          exact hp.proc
        · rw [hclient, (hcpu _ hd).2]
          exact hp.cr3
        · rw [hclient, settled_congr hst]
          exact hp.settled
        · rw [hclient, hst, hctl, hstack _ hne]
          exact hp.stack
        · rw [hstack _ (hsched d hd).symm]
          exact hp.parked
  · intro p hoff hrun
    rw [hcur] at hoff
    rw [hclient] at hrun
    exact hchosen p hoff hrun
  · intro p hoff hact
    rw [hcur] at hoff
    rw [hclient] at hact ⊢
    rw [hstack _ (hoff c).symm]
    exact hwaits p hoff hact
  · intro p np hctl
    rw [hclient] at hctl
    obtain ⟨hne, hu⟩ := hbuilt p np hctl
    rw [hstack _ hne.symm]
    exact hu

omit [DecidableEq C] in
/-- The processor's own thread is not the one a scheduler is about to switch to. -/
theorem not_chosen {i : Instr (Thread C) Lock Op} (hstack : s.stack (s.current c) = f :: fs)
    (hc : f.code = i :: is) (hi : ∀ u, i ≠ .switchTo u) (h : Chosen s c p) : False := by
  obtain ⟨g, ps, hg, -, hcode⟩ := h.stack
  rw [h.current, hg] at hstack
  cases hstack
  rw [hc] at hcode
  cases hcode
  exact hi _ rfl

omit [DecidableEq C] in
theorem Sane.unborn_ne (h : Sane s) (hc : s.current c = .proc p) {np : ProcId}
    (hn : (s.client.table.proc np).state = .embryo) : np ≠ p := by
  rintro rfl
  have hp := h.place c
  rw [hc] at hp
  exact hp.settled.2 hn

omit [DecidableEq C] in
theorem Sane.built_ne (h : Sane s) {p np : ProcId}
    (hctl : s.client.table.control p = .stacked np ∨ s.client.table.control p = .copied np) :
    s.current c ≠ .proc np := by
  intro hc
  refine h.unborn_ne hc (h.table.embryo p np ?_) rfl
  rcases hctl with hctl | hctl <;> rw [hctl] <;> rfl

/-- A step that leaves the client's state alone and changes the frames of one thread, not one
that is about to switch to a process or has come back from it. -/
theorem Sane.quiet (h : Sane s) (hinj : Function.Injective s.current)
    (hstack : s.stack (s.current c) = f :: fs)
    (hhead : ∀ i is, f.code = i :: is → (∀ u, i ≠ .switchTo u) ∧ i ≠ .op .back)
    (hidle : ∀ d, s.current c = .sched d → IdleStack (f :: fs) → IdleStack (f' :: gs))
    (hacts : ∀ p, s.current c = .proc p → ∀ q ctl, Acts q (kind ctl fs) f → Below ctl fs →
      (q ≠ .running → Lock.ptable ∈ f.locks) →
      Acts q (kind ctl gs) f' ∧ Below ctl gs ∧ (q ≠ .running → Lock.ptable ∈ f'.locks))
    {lock : Lock → Spinlock C} {m : Cpu} :
    Sane ({ s with lock := lock }.put c m (f' :: gs)) := by
  have hno : ∀ p, ¬ Chosen s c p := by
    intro p hch
    obtain ⟨g, ps, hg, -, hcode⟩ := hch.stack
    rw [hch.current, hg] at hstack
    cases hstack
    exact (hhead _ _ hcode).1 _ rfl
  have hself : ({ s with lock := lock }.put c m (f' :: gs) : State C).stack (s.current c) =
      f' :: gs := put_stack_self
  have hother : ∀ v, v ≠ s.current c →
      ({ s with lock := lock }.put c m (f' :: gs) : State C).stack v = s.stack v :=
    fun v hv => Function.update_of_ne hv ..
  refine h.act hinj (k := s.client) rfl h.table (fun _ _ => ⟨rfl, rfl⟩)
    (fun _ _ _ _ => ⟨rfl, rfl⟩) (fun _ _ _ hch => hch.state) ?_ ?_ h.waits
    (fun p np hctl => ⟨h.built_ne hctl, h.built p np hctl⟩) h.user
  · have hp := h.place c
    cases hv : s.current c with
    | sched e =>
      rw [hv] at hp hstack hself
      obtain ⟨rfl, hp⟩ := hp
      refine ⟨rfl, ?_⟩
      cases hp with
      | idle hi hproc hcr3 =>
        refine .idle ?_ hproc hcr3
        rw [hself]
        rw [hstack] at hi
        exact hidle e hv hi
      | chosen p hch => exact (hno p hch).elim
      | back hb =>
        obtain ⟨g, ps, hg, -, hcode⟩ := hb
        rw [hg] at hstack
        cases hstack
        exact absurd rfl (hhead _ _ hcode).2
    | proc p =>
      rw [hv] at hp hstack hself
      obtain ⟨g, gs', hg, hacts', hbelow, hlocks⟩ := hp.stack
      rw [hstack] at hg
      cases hg
      refine ⟨hp.proc, hp.cr3, hp.settled, ?_, ?_⟩
      · exact ⟨f', gs, hself, hacts p hv _ _ hacts' hbelow hlocks⟩
      · have hne : Thread.sched c ≠ s.current c := by
          rw [hv]
          nofun
        rw [hother _ hne]
        exact hp.parked
  · intro p hoff hrun
    obtain ⟨d, hd⟩ := h.chosen p hoff hrun
    refine ⟨d, hd.other rfl (hother _ ?_) rfl rfl hrun⟩
    intro e
    have hdc : d = c := hinj (hd.current.trans e)
    exact hno p (hdc ▸ hd)

theorem Sane.move (h : Sane s) (hinj : Function.Injective s.current)
    (hstack : s.stack (s.current c) = f :: fs) (hm : Move f f') {lock : Lock → Spinlock C}
    {m : Cpu} : Sane ({ s with lock := lock }.put c m (f' :: fs)) := by
  refine h.quiet hinj hstack ?_ (fun _ _ hi => idleStack_move hi hm) ?_
  · intro i is hc
    have := move_head hm hc
    constructor
    · rintro u rfl
      exact this
    · rintro rfl
      exact this
  · intro _ _ q ctl hacts hbelow hlk
    exact ⟨hacts.move hm, hbelow, hacts.locks hm hlk⟩

omit [DecidableEq C] in
theorem Place.other {v : Thread C} (h : Place s d v) (hclient : t.client = s.client)
    (hstack : t.stack v = s.stack v) (hsched : t.stack (.sched d) = s.stack (.sched d))
    (hchosen : ∀ p, Chosen s d p → Chosen t d p) : Place t d v := by
  cases v with
  | sched e =>
    obtain ⟨rfl, h⟩ := h
    refine ⟨rfl, ?_⟩
    cases h with
    | idle hi hproc hcr3 => exact .idle (hsched ▸ hi) (hclient ▸ hproc) (hclient ▸ hcr3)
    | chosen p hch => exact .chosen p (hchosen p hch)
    | back hb => exact .back (hsched ▸ hb)
  | proc p =>
    refine ⟨hclient ▸ h.proc, hclient ▸ h.cr3, hclient ▸ h.settled, ?_, hsched ▸ h.parked⟩
    rw [hstack, hclient]
    exact h.stack

section Switches

variable [Fintype C] {pages : FirstPages}

theorem swtch_eq_ok {u : Thread C} {gs : List (Frame C)} (h : swtch s c gs u = .ok t) :
    (∀ d, s.current d ≠ u) ∧ s.stack u ≠ [] ∧
      t = { s with current := Function.update s.current c u
                   stack := Function.update s.stack (s.current c) gs } := by
  unfold swtch at h
  split at h
  · cases h
  · rename_i hfree
    obtain ⟨hoff, hne⟩ := not_or.mp hfree
    cases h
    exact ⟨fun d hd => hoff ⟨d, hd⟩, fun hn => hne (by simp [hn]), rfl⟩

theorem chosen_held (hl : SpinLocks.Invariant (kernel pages) s) (h : Chosen s c p) :
    Lock.ptable ∈ s.held c := by
  obtain ⟨f, ps, hstack, hp, hc⟩ := h.stack
  rw [← h.current] at hstack
  obtain ⟨f', fs, hf, hrun, -⟩ := hl.running c
  rw [hstack] at hf
  cases hf
  have htyped := hrun.typed hp
  rw [hc] at htyped
  rw [held_of_stack hstack, htyped.1]
  exact List.mem_cons_self

theorem chosen_unique (hl : SpinLocks.Invariant (kernel pages) s) {p' : ProcId}
    (h : Chosen s c p) (h' : Chosen s d p') : d = c ∧ p' = p := by
  have hdc := hl.locks.unique _ _ _ (chosen_held hl h') (chosen_held hl h)
  subst hdc
  have := h'.proc.symm.trans h.proc
  cases this
  exact ⟨rfl, rfl⟩

omit [DecidableEq C] [Fintype C] in
theorem Sane.chosen_of_switch (h : Sane s) {u : Thread C}
    (hstack : s.stack (s.current c) = f :: fs) (hc : f.code = .switchTo u :: is)
    (hp : f.phase = .start) : ∃ p, Chosen s c p := by
  have hplace := h.place c
  cases hv : s.current c with
  | sched e =>
    rw [hv] at hplace hstack
    obtain ⟨rfl, hplace⟩ := hplace
    cases hplace with
    | idle hi hproc hcr3 =>
      rw [hstack] at hi
      cases fs with
      | nil =>
        unfold IdleStack at hi
        rw [hc] at hi
        exact hi.elim
      | cons g gs =>
        have := hi.1
        rw [hc] at this
        exact this.elim
    | chosen p hch => exact ⟨p, hch⟩
    | back hb =>
      obtain ⟨g, ps, hg, -, hcode⟩ := hb
      rw [hg] at hstack
      cases hstack
      rw [hc] at hcode
      cases hcode
  | proc p =>
    rw [hv] at hplace hstack
    obtain ⟨g, gs, hg, hacts, -⟩ := hplace.stack
    rw [hstack] at hg
    cases hg
    have := (acts_start hp).mp hacts
    rw [hc] at this
    exact this.elim

/-- A scheduler enters the process it has chosen. -/
theorem Sane.enter (h : Sane s) (hl : SpinLocks.Invariant (kernel pages) s)
    {u : Thread C} (hstack : s.stack (s.current c) = f :: fs) (hc : f.code = .switchTo u :: is)
    (hp : f.phase = .start) (ht : swtch s c ({ f.next is with entry := none } :: fs) u = .ok t) :
    Sane t := by
  obtain ⟨p, hch⟩ := h.chosen_of_switch hstack hc hp
  obtain ⟨g, ps, hg, -, hcode⟩ := hch.stack
  rw [hch.current, hg] at hstack
  cases hstack
  rw [hc] at hcode
  cases hcode
  have hparked : ∃ g, { f.next [.op .back, .op (.scan ps)] with entry := none } = g ∧
      g.phase = .start ∧ g.code = [.op .back, .op (.scan ps)] := ⟨_, rfl, rfl, rfl⟩
  obtain ⟨g, hg', hphase, hcode⟩ := hparked
  rw [hg'] at ht
  obtain ⟨hoff, -, rfl⟩ := swtch_eq_ok ht
  have hne : ∀ {q : ProcId}, Thread.proc q ≠ s.current c := by
    intro q
    rw [hch.current]
    nofun
  have hstk : ∀ v, v ≠ s.current c →
      Function.update s.stack (s.current c) [g] v = s.stack v :=
    fun v hv => Function.update_of_ne hv ..
  have hoff' : ∀ p', (∀ d, Function.update s.current c (.proc p) d ≠ .proc p') →
      p' ≠ p ∧ ∀ d, s.current d ≠ .proc p' := by
    intro p' hp'
    refine ⟨?_, fun d => ?_⟩
    · rintro rfl
      exact hp' c (Function.update_self ..)
    · by_cases hd : d = c
      · rw [hd]
        exact hne.symm
      · have := hp' d
        rwa [Function.update_of_ne hd] at this
  refine ⟨h.table, ?_, ?_, ?_, ?_, h.user⟩
  · intro d
    by_cases hd : d = c
    · subst hd
      change Place _ d (Function.update s.current d (.proc p) d)
      rw [Function.update_self]
      refine ⟨hch.proc, hch.cr3, ?_, ?_, ?_⟩
      · exact ProcessTable.settled_of_running hch.state
      · obtain ⟨k, ks, hk, hacts, hbelow⟩ := h.waits p hoff (.inl hch.state)
        refine ⟨k, ks, (hstk _ hne).trans hk, ?_, hbelow, fun hn => absurd hch.state hn⟩
        rw [show (s.client.table.proc p).state = .running from hch.state]
        exact hacts
      · refine ⟨g, ps, ?_, hphase, hcode⟩
        rw [← hch.current]
        exact Function.update_self ..
    · change Place _ d (Function.update s.current c (.proc p) d)
      rw [Function.update_of_ne hd]
      have hcd : s.current d ≠ s.current c := fun e => hd (hl.injective e)
      have hsd : Thread.sched d ≠ s.current c := by
        rw [hch.current]
        rintro ⟨⟩
        exact hd rfl
      refine (h.place d).other rfl (hstk _ hcd) (hstk _ hsd) fun p' hp' => ?_
      exact absurd (chosen_unique hl hch hp').1 hd
  · intro p' hp' hrun
    obtain ⟨hpp, hp'⟩ := hoff' p' hp'
    obtain ⟨d, hd⟩ := h.chosen p' hp' hrun
    exact absurd (chosen_unique hl hch hd).2 hpp
  · intro p' hp' hact
    change Waits _ (Function.update s.stack _ _ _)
    rw [hstk _ hne]
    exact h.waits p' (hoff' p' hp').2 hact
  · intro p' np hctl
    change Unborn (Function.update s.stack _ _ _)
    rw [hstk _ hne]
    exact h.built p' np hctl

/-- A process that has given up its processor leaves it to the scheduler. -/
theorem Sane.leave (h : Sane s) (hl : SpinLocks.Invariant (kernel pages) s) {e : Bool}
    (hstack : s.stack (s.current c) = f :: fs) (hc : f.code = .switchBack :: is)
    (hp : f.phase = .leaving e)
    (ht : swtch s c ({ f with phase := .away e } :: fs) (.sched c) = .ok t) : Sane t := by
  obtain ⟨p, hv⟩ : ∃ p, s.current c = .proc p := by
    have hp := h.place c
    cases hv : s.current c with
    | sched d =>
      rw [hv] at hp hstack
      obtain ⟨rfl, hp⟩ := hp
      obtain ⟨hoff, -⟩ := swtch_eq_ok ht
      exact absurd hv (hoff d)
    | proc p => exact ⟨p, rfl⟩
  have hon := h.place c
  rw [hv] at hon hstack
  obtain ⟨g, gs, hg, hacts, hbelow, -⟩ := hon.stack
  rw [hstack] at hg
  cases hg
  have hexp := (acts_iff (by simp [hp])).mp hacts
  rw [hc] at hexp
  obtain ⟨hq, hnext⟩ := hexp
  have hnr : (s.client.table.proc p).state ≠ .running := by
    rcases hq with hq | hq | hq <;> rw [hq] <;> nofun
  obtain ⟨-, -, rfl⟩ := swtch_eq_ok ht
  have hsched : ∀ d : C, Thread.sched d ≠ .proc p := fun _ => nofun
  have hstk : ∀ v, v ≠ .proc p → Function.update s.stack (s.current c)
      ({ f with phase := .away e } :: fs) v = s.stack v := by
    intro v hvp
    rw [hv]
    exact Function.update_of_ne hvp ..
  have hself : Function.update s.stack (s.current c) ({ f with phase := .away e } :: fs)
      (.proc p) = { f with phase := .away e } :: fs := by
    rw [hv]
    exact Function.update_self ..
  have hoff' : ∀ p', p' ≠ p → (∀ d, Function.update s.current c (.sched c) d ≠ .proc p') →
      ∀ d, s.current d ≠ .proc p' := by
    intro p' hpp hp' d
    by_cases hd : d = c
    · rw [hd, hv]
      rintro ⟨⟩
      exact hpp rfl
    · have := hp' d
      rwa [Function.update_of_ne hd] at this
  have hchosen : ∀ d p', d ≠ c → Chosen s d p' → Chosen
      { s with current := Function.update s.current c (.sched c)
               stack := Function.update s.stack (s.current c)
                 ({ f with phase := .away e } :: fs) } d p' := by
    intro d p' hd hch
    refine ⟨?_, ?_, hch.proc, hch.cr3, hch.state, fun d' => ?_⟩
    · exact (Function.update_of_ne hd ..).trans hch.current
    · change ∃ f' ps, Function.update s.stack _ _ _ = _ ∧ _
      rw [hstk _ (hsched _)]
      exact hch.stack
    · change Function.update s.current c _ d' ≠ _
      by_cases hd' : d' = c
      · rw [hd', Function.update_self]
        nofun
      · rw [Function.update_of_ne hd']
        exact hch.off d'
  refine ⟨h.table, ?_, ?_, ?_, ?_, h.user⟩
  · intro d
    by_cases hd : d = c
    · subst hd
      change Place _ d (Function.update s.current d (.sched d) d)
      rw [Function.update_self]
      refine ⟨rfl, .back ?_⟩
      change Parked (Function.update s.stack _ _ _)
      rw [hstk _ (hsched _)]
      exact hon.parked
    · change Place _ d (Function.update s.current c (.sched c) d)
      rw [Function.update_of_ne hd]
      have hcd : s.current d ≠ .proc p := fun e => hd (hl.injective (e.trans hv.symm))
      exact (h.place d).other rfl (hstk _ hcd) (hstk _ (hsched _)) fun p' => hchosen d p' hd
  · intro p' hp' hrun
    have hpp : p' ≠ p := by
      rintro rfl
      exact hnr hrun
    obtain ⟨d, hd⟩ := h.chosen p' (hoff' p' hpp hp') hrun
    refine ⟨d, hchosen d p' ?_ hd⟩
    rintro rfl
    exact absurd (hd.current.symm.trans hv) nofun
  · intro p' hp' hact
    by_cases hpp : p' = p
    · subst hpp
      refine ⟨_, fs, hself, ⟨rfl, fun is' his => ?_⟩, hbelow⟩
      rw [hc] at his
      cases his
      refine hnext fun hz => ?_
      rw [hz] at hact
      rcases hact with hact | hact | hact <;> cases hact
    · change Waits _ (Function.update s.stack _ _ _)
      rw [hstk _ fun he => hpp (Thread.proc.inj he)]
      exact h.waits p' (hoff' p' hpp hp') hact
  · intro p' np hctl
    have := h.built_ne (c := c) hctl
    rw [hv] at this
    change Unborn (Function.update s.stack _ _ _)
    rw [hstk _ this.symm]
    exact h.built p' np hctl

end Switches

end Steps

/-! ### Sections under ptable.lock -/

section Sections

open ProcessTable

variable {t u v : PTable} {me : Option ProcId} {p : ProcId}

/-- No process but `me` starts or stops to be active, or to run. -/
structure Still (me : Option ProcId) (t u : PTable) : Prop where
  running : ∀ p, some p ≠ me → ((u.proc p).state = .running ↔ (t.proc p).state = .running)
  active : ∀ p, some p ≠ me → (Active (u.proc p).state ↔ Active (t.proc p).state)
  control : ∀ p, some p ≠ me → u.control p = t.control p

theorem Still.refl (t : PTable) : Still me t t :=
  ⟨fun _ _ => Iff.rfl, fun _ _ => Iff.rfl, fun _ _ => rfl⟩

theorem Still.trans (h : Still me t u) (k : Still me u v) : Still me t v where
  running p hp := (k.running p hp).trans (h.running p hp)
  active p hp := (k.active p hp).trans (h.active p hp)
  control p hp := (k.control p hp).trans (h.control p hp)

theorem Still.weaken (h : Still none t u) : Still me t u where
  running p _ := h.running p nofun
  active p _ := h.active p nofun
  control p _ := h.control p nofun

theorem still_own (f : Proc → Proc) : Still (some p) t (updateProc t p f) := by
  have hof : ∀ q, some q ≠ some p → (updateProc t p f).proc q = t.proc q := fun q hq =>
    Function.update_of_ne (fun e => hq (congrArg some e)) ..
  refine ⟨fun q hq => ?_, fun q hq => ?_, fun _ _ => rfl⟩
  · rw [hof q hq]
  · rw [hof q hq]

theorem still_control (k : Control) : Still (some p) t (setControl t p k) :=
  ⟨fun _ _ => Iff.rfl, fun _ _ => Iff.rfl, fun _ hq =>
    Function.update_of_ne (fun e => hq (congrArg some e)) ..⟩

/-- A change to one slot that neither was active nor becomes so. -/
theorem still_inactive (f : Proc → Proc) (h : ¬ Active (t.proc p).state)
    (h' : ¬ Active (f (t.proc p)).state) : Still me t (updateProc t p f) := by
  have hself : (updateProc t p f).proc p = f (t.proc p) := Function.update_self ..
  have hof : ∀ q, q ≠ p → (updateProc t p f).proc q = t.proc q := fun q hq =>
    Function.update_of_ne hq ..
  refine ⟨fun q _ => ?_, fun q _ => ?_, fun _ _ => rfl⟩
  · by_cases hq : q = p
    · rw [hq, hself]
      exact iff_of_false (fun e => h' (.inl e)) fun e => h (.inl e)
    · rw [hof q hq]
  · by_cases hq : q = p
    · rw [hq, hself]
      exact iff_of_false h' h
    · rw [hof q hq]

theorem still_wakeup1 (chan : Option Chan) : Still me t (ProcessTable.wakeup1 t chan) := by
  refine ⟨fun q _ => ?_, fun q _ => ?_, fun _ _ => rfl⟩
  · simp only [ProcessTable.wakeup1]
    split
    · rename_i h
      exact iff_of_false (by simp) (by rw [h.1]; simp)
    · exact Iff.rfl
  · simp only [ProcessTable.wakeup1]
    split
    · rename_i h
      exact iff_of_true (.inr (.inl rfl)) (.inr (.inr h.1))
    · exact Iff.rfl

theorem still_passChildren : Still me t (passChildren t p) := by
  refine ⟨fun q _ => ?_, fun q _ => ?_, fun _ _ => rfl⟩ <;>
    simp only [passChildren] <;> split <;> exact Iff.rfl

theorem still_reparent : Still me t (reparent t p) := by
  unfold reparent
  split
  · exact still_passChildren.trans (still_wakeup1 _)
  · exact still_passChildren

theorem still_kill (pid : ℤ) : Still me t (ProcessTable.kill t pid) := by
  unfold ProcessTable.kill
  split
  · exact Still.refl t
  · rename_i q _
    have hself : ∀ f : Proc → Proc, (updateProc t q f).proc q = f (t.proc q) := fun _ =>
      Function.update_self ..
    have hof : ∀ (f : Proc → Proc) r, r ≠ q → (updateProc t q f).proc r = t.proc r :=
      fun _ r hr => Function.update_of_ne hr ..
    refine ⟨fun r _ => ?_, fun r _ => ?_, fun _ _ => rfl⟩
    · by_cases hr : r = q
      · rw [hr, hself]
        dsimp only
        split
        · rename_i h
          exact iff_of_false nofun (by rw [h]; nofun)
        · exact Iff.rfl
      · rw [hof _ r hr]
    · by_cases hr : r = q
      · rw [hr, hself]
        dsimp only
        split
        · rename_i h
          exact iff_of_true (.inr (.inl rfl)) (.inr (.inr h))
        · exact Iff.rfl
      · rw [hof _ r hr]

theorem exit_eq_ok (h : ProcessTable.exit t p = .ok u) :
    p ≠ initproc ∧ u = updateProc (reparent (ProcessTable.wakeup1 t
      ((t.proc p).parent.map .proc)) p) p fun q => { q with state := .zombie } := by
  unfold ProcessTable.exit at h
  split at h
  · cases h
  · rename_i hp
    cases h
    exact ⟨hp, rfl⟩

theorem still_exit (h : ProcessTable.exit t p = .ok u) : Still (some p) t u := by
  rw [(exit_eq_ok h).2]
  exact ((still_wakeup1 _).trans still_reparent).trans (still_own _)

theorem not_active_zombie : ¬ Active .zombie := by
  rintro (h | h | h) <;> cases h

theorem not_active_embryo : ¬ Active .embryo := by
  rintro (h | h | h) <;> cases h

theorem not_active_unused : ¬ Active .unused := by
  rintro (h | h | h) <;> cases h

theorem still_wait : Still (some p) t (ProcessTable.wait t p) := by
  unfold ProcessTable.wait
  split
  · rename_i child hz
    refine Still.trans (still_inactive _ ?_ not_active_unused) (still_control _)
    rw [zombieChild_state hz]
    exact not_active_zombie
  · dsimp only
    split
    · exact still_control _
    · exact (still_own _).trans (still_control _)

theorem still_forkAlloc : Still (some p) t (forkAlloc t p) := by
  unfold forkAlloc allocproc
  cases hf : findProc fun p => (t.proc p).state == .unused with
  | none => exact Still.refl t
  | some np =>
    have hn : (t.proc np).state = .unused := by simpa using findProc_some hf
    have hstill : Still (some p) t (updateProc t np fun q =>
        { q with state := .embryo, pid := t.nextpid }) :=
      still_inactive _ (hn ▸ not_active_unused) not_active_embryo
    refine ⟨fun q hq => hstill.running q hq, fun q hq => hstill.active q hq, fun q hq => ?_⟩
    exact Function.update_of_ne (fun e => hq (congrArg some e)) ..

end Sections

/-! ### Operations -/

section Operations

variable [Fintype C] {pages : FirstPages} {s t : State C} {c d : C} {p : ProcId}
  {f f' : Frame C} {fs : List (Frame C)} {is : Scheduling.Code C} {x : Op} {m : Cpu}

theorem others_running (h : Sane s) (hl : SpinLocks.Invariant (kernel pages) s)
    (hlk : Lock.ptable ∈ s.held c) (hd : d ≠ c) (hcur : s.current d = .proc p) :
    (s.client.table.proc p).state = .running := by
  by_contra hn
  have hp := h.place d
  rw [hcur] at hp
  obtain ⟨g, gs, hg, -, -, hlocks⟩ := hp.stack
  have hheld : s.held d = g.locks := held_of_stack (hcur ▸ hg)
  exact hd (hl.locks.unique _ _ _ (hheld ▸ hlocks hn) hlk)

/-- A section under ptable.lock: the table changes, but for the process whose section it is
no slot begins or ends to be active or to run. -/
theorem Sane.locked (h : Sane s) (hl : SpinLocks.Invariant (kernel pages) s)
    (hstack : s.stack (s.current c) = f :: fs) (hc : f.code = .op x :: is)
    (hlk : Lock.ptable ∈ f.locks) {me : Option ProcId}
    (hme : ∀ p, me = some p → s.current c = .proc p) {u : PTable}
    (hstill : Still me s.client.table u) (htable : TableOk u)
    (hplace : Place ({ s with client := s.client.setTable u }.put c m (f' :: fs)) c
      (s.current c))
    (hbuilt : ∀ p np, me = some p → u.control p = .stacked np ∨ u.control p = .copied np →
      s.current c ≠ .proc np ∧ Unborn (s.stack (.proc np)))
    (huser : ∀ p, me = some p → ¬ Active (u.proc p).state → u.control p = .user) :
    Sane ({ s with client := s.client.setTable u }.put c m (f' :: fs)) := by
  have hheld : Lock.ptable ∈ s.held c := held_of_stack hstack ▸ hlk
  have hno : ∀ d p, ¬ Chosen s d p := by
    intro d p hch
    have hdc := hl.locks.unique _ _ _ (chosen_held hl hch) hheld
    exact not_chosen hstack hc (fun _ => nofun) (hdc ▸ hch)
  have hoff : ∀ {p}, (∀ d, s.current d ≠ .proc p) → some p ≠ me := by
    intro p hp hpm
    exact hp c (hme p hpm.symm)
  have honme : ∀ {d p}, d ≠ c → s.current d = .proc p → some p ≠ me := by
    intro d p hd hcur hpm
    exact hd (hl.injective (hcur.trans (hme p hpm.symm).symm))
  refine h.act hl.injective (k := s.client.setTable u) rfl htable (fun _ _ => ⟨rfl, rfl⟩) ?_ ?_
    hplace ?_ ?_ ?_ ?_
  · intro d p hd hcur
    have hrun := others_running h hl hheld hd hcur
    have hne := honme hd hcur
    exact ⟨((hstill.running p hne).mpr hrun).trans hrun.symm, hstill.control p hne⟩
  · intro d p _ hch
    exact (hno d p hch).elim
  · intro p hp hrun
    obtain ⟨d, hd⟩ := h.chosen p hp ((hstill.running p (hoff hp)).mp hrun)
    exact (hno d p hd).elim
  · intro p hp hact
    change Waits (u.control p) _
    rw [hstill.control p (hoff hp)]
    exact h.waits p hp ((hstill.active p (hoff hp)).mp hact)
  · intro p np hctl
    by_cases hpm : some p = me
    · exact hbuilt p np hpm.symm hctl
    · change u.control p = _ ∨ u.control p = _ at hctl
      rw [hstill.control p hpm] at hctl
      exact ⟨h.built_ne hctl, h.built p np hctl⟩
  · intro p hact
    by_cases hpm : some p = me
    · exact huser p hpm.symm hact
    · change u.control p = .user
      rw [hstill.control p hpm]
      exact h.user p fun ha => hact ((hstill.active p hpm).mpr ha)

/-- The same for the section of the process that runs. -/
theorem Sane.ownSection (h : Sane s) (hl : SpinLocks.Invariant (kernel pages) s)
    (hcur : s.current c = .proc p) (hstack : s.stack (.proc p) = f :: fs)
    (hc : f.code = .op x :: is) (hlk : Lock.ptable ∈ f.locks) {u : PTable}
    (hstill : Still (some p) s.client.table u) (htable : TableOk u) {code : Scheduling.Code C}
    (hsettled : Settled (u.proc p))
    (hexp : Expects (u.proc p).state (kind (u.control p) fs) code)
    (hbelow : Below (u.control p) fs)
    (hbuilt : ∀ np, u.control p = .stacked np ∨ u.control p = .copied np →
      s.client.table.control p = .stacked np ∨ s.client.table.control p = .copied np)
    (huser : ¬ Active (u.proc p).state → u.control p = .user) :
    Sane ({ s with client := s.client.setTable u }.put c m (f.next code :: fs)) := by
  have hp := h.place c
  rw [hcur] at hp
  refine h.locked hl (hcur ▸ hstack) hc hlk ?_ hstill htable ?_ ?_ ?_
  · rintro _ ⟨⟩
    exact hcur
  · rw [hcur]
    refine ⟨hp.proc, hp.cr3, hsettled, ?_, ?_⟩
    · refine ⟨f.next code, fs, ?_, (acts_start rfl).mpr hexp, hbelow, fun _ => hlk⟩
      rw [← hcur]
      exact put_stack_self (s := { s with client := s.client.setTable u })
    · have hne : Thread.sched c ≠ s.current c := by
        rw [hcur]
        nofun
      change Parked (Function.update s.stack _ _ _)
      rw [Function.update_of_ne hne]
      exact hp.parked
  · rintro _ np ⟨⟩ hctl
    exact ⟨h.built_ne (hbuilt np hctl), h.built p np (hbuilt np hctl)⟩
  · rintro _ ⟨⟩
    exact huser

omit [Fintype C] in
/-- An operation that leaves the table alone and asks for more code. -/
theorem Sane.expand (h : Sane s) (hinj : Function.Injective s.current)
    (hstack : s.stack (s.current c) = f :: fs) (hp : f.phase = .start)
    (hc : f.code = .op x :: is) {code : Scheduling.Code C} (hback : x ≠ .back)
    (hidle : ∀ d, s.current c = .sched d → ∀ b, Idle b f.code → Idle b code)
    (hexp : ∀ p, s.current c = .proc p → ∀ q k, Expects q k f.code → Expects q k code) :
    Sane (s.put c m (f.next code :: fs)) := by
  refine h.quiet hinj hstack ?_ ?_ ?_
  · intro i js hi
    rw [hc] at hi
    cases hi
    exact ⟨fun _ => nofun, fun e => hback (Instr.op.inj e)⟩
  · intro d hd hi
    cases fs with
    | nil => exact hidle d hd _ hi
    | cons g fs => exact ⟨hidle d hd _ hi.1, hi.2⟩
  · intro p hcur q ctl hacts hbelow hlk
    exact ⟨(acts_start rfl).mpr (hexp p hcur _ _ ((acts_start hp).mp hacts)), hbelow, hlk⟩

omit [DecidableEq C] [Fintype C] in
theorem kind_eq_some {k k' : Control} (h : kind k fs = some k') : fs = [] ∧ k = k' := by
  cases fs with
  | nil => exact ⟨rfl, Option.some.inj h⟩
  | cons g fs => cases h

omit [DecidableEq C] [Fintype C] in
theorem curproc_eq {k : Kernel C} (h : k.proc c = some p) : curproc k c = .ok p := by
  simp [curproc, h]

variable {q : ProcState} {k : Option Control}

omit [DecidableEq C] [Fintype C] in
theorem expects_sched (hq : q = .runnable ∨ q = .sleeping ∨ q = .zombie)
    (h : q ≠ .zombie → Expects .running k is) : Expects q k (sched ++ is) := by
  refine ⟨?_, hq, h⟩
  rcases hq with rfl | rfl | rfl <;> nofun

omit [DecidableEq C] [Fintype C] in
theorem expects_yield (hq : q = .running) (h : Expects q k is) : Expects q k (yield ++ is) := by
  subst hq
  exact ⟨rfl, expects_sched (.inl rfl) fun _ => ⟨fun _ => rfl, h⟩⟩

omit [DecidableEq C] [Fintype C] in
theorem expects_sleepWith {chan lk : ℕ} (hq : q = .running) (hk : k = some .user)
    (h : Expects q k is) : Expects q k (sleepWith chan lk ++ is) := by
  subst hq
  unfold sleepWith
  simp only [List.append_assoc, List.cons_append]
  exact ⟨nofun, rfl, hk, expects_sched (.inr (.inl rfl)) fun _ => ⟨rfl, fun _ => rfl, h⟩⟩

/-- What an operation of a process starts from. -/
structure Begins (s : State C) (c : C) (p : ProcId) (f : Frame C) (fs : List (Frame C)) (x : Op)
    (is : Scheduling.Code C) : Prop where
  current : s.current c = .proc p
  stack : s.stack (.proc p) = f :: fs
  phase : f.phase = .start
  code : f.code = .op x :: is
  proc : s.client.proc c = some p
  expects : Expects (s.client.table.proc p).state (kind (s.client.table.control p) fs)
    (.op x :: is)
  below : Below (s.client.table.control p) fs
  typed : pre x f.locks f.pushed = true

omit [DecidableEq C] [Fintype C] in
theorem active_running : Active .running := .inl rfl

omit [DecidableEq C] [Fintype C] in
theorem Begins.locked (hb : Begins s c p f fs x is)
    (hpre : ∀ n, pre x f.locks n = (decide (f.locks = [.ptable]) && decide (n = 0))) :
    Lock.ptable ∈ f.locks := by
  have := hb.typed
  rw [hpre, Bool.and_eq_true, decide_eq_true_eq] at this
  rw [this.1]
  exact List.mem_cons_self

/-- A section of the process that runs, which stays where it is in fork or wait. -/
theorem Begins.own (hb : Begins s c p f fs x is) (h : Sane s)
    (hl : SpinLocks.Invariant (kernel pages) s) (hlk : Lock.ptable ∈ f.locks) {u : PTable}
    (hstill : Still (some p) s.client.table u) (htable : TableOk u)
    (hctl : u.control p = s.client.table.control p) {code : Scheduling.Code C}
    (hsettled : Settled (u.proc p))
    (hexp : Expects (u.proc p).state (kind (s.client.table.control p) fs) code)
    (huser : ¬ Active (u.proc p).state → s.client.table.control p = .user) :
    Sane ({ s with client := s.client.setTable u }.put c m (f.next code :: fs)) := by
  rw [← hctl] at hexp huser
  have hbelow := hb.below
  rw [← hctl] at hbelow
  exact h.ownSection hl hb.current hb.stack hb.code hlk hstill htable hsettled hexp hbelow
    (fun np hn => hctl ▸ hn) huser

/-- The stack of a thread is freed or set up. -/
def withStack (s : State C) (v : Thread C) (gs : List (Frame C)) : State C :=
  { s with stack := Function.update s.stack v gs }

omit [Fintype C] in
theorem put_withStack {v : Thread C} {gs : List (Frame C)} {k : Kernel C}
    (hv : v ≠ s.current c) : { withStack s v gs with client := k }.put c m fs =
      withStack ({ s with client := k }.put c m fs) v gs := by
  unfold withStack State.put
  rw [Function.update_comm hv]

theorem restack_eq_ok {v : Thread C} {o : Option (Scheduling.Code C)}
    (h : restack s .ptable (some (v, o)) = .ok t) : (∀ d, s.current d ≠ v) ∧
      t = withStack s v (fresh .ptable o) := by
  simp only [SpinLocks.restack] at h
  split at h
  · cases h
  · rename_i hoff
    cases h
    exact ⟨fun d hd => hoff ⟨d, hd⟩, rfl⟩

omit [Fintype C] in
/-- The stack of a slot that is not in use may be freed or set up. -/
theorem Sane.restack (h : Sane s) {np : ProcId} {gs : List (Frame C)}
    (hnp : ¬ Active (s.client.table.proc np).state) (hoff : ∀ d, s.current d ≠ .proc np)
    (hb : ∀ p, s.client.table.control p ≠ .stacked np ∧ s.client.table.control p ≠ .copied np) :
    Sane (withStack s (.proc np) gs) := by
  have hstk : ∀ v, v ≠ Thread.proc np → (withStack s (.proc np) gs).stack v = s.stack v :=
    fun v hv => Function.update_of_ne hv ..
  have hsched : ∀ d : C, Thread.sched d ≠ .proc np := fun _ => nofun
  have hch : ∀ {d p}, Chosen s d p → Chosen (withStack s (.proc np) gs) d p :=
    fun hd => hd.other rfl (hstk _ (hsched _)) rfl rfl hd.state
  refine ⟨h.table, fun d => ?_, ?_, ?_, ?_, h.user⟩
  · exact (h.place d).other rfl (hstk _ (hoff d)) (hstk _ (hsched d)) fun _ => hch
  · intro p hp hrun
    obtain ⟨d, hd⟩ := h.chosen p hp hrun
    exact ⟨d, hch hd⟩
  · intro p hp hact
    rw [hstk]
    · exact h.waits p hp hact
    · rintro ⟨⟩
      exact hnp hact
  · intro p np' hctl
    rw [hstk]
    · exact h.built p np' hctl
    · rintro ⟨⟩
      exact absurd hctl (not_or.mpr (hb p))

omit [Fintype C] in
/-- A step of fork outside ptable.lock, or its last one: only the new slot changes. -/
theorem Sane.work (hb : Begins s c p f fs x is) (h : Sane s)
    (hinj : Function.Injective s.current) {u : PTable} {np : ProcId}
    (hres : (s.client.table.control p).reserved = some np) (htable : TableOk u)
    (hproc : ∀ q, q ≠ np → u.proc q = s.client.table.proc q)
    (hctl : ∀ q, q ≠ p → u.control q = s.client.table.control q)
    (hrun : (u.proc np).state ≠ .running)
    (hwaits : Active (u.proc np).state → Unborn (s.stack (.proc np)))
    (hbuilt : ∀ np', u.control p = .stacked np' ∨ u.control p = .copied np' →
      np' = np ∧ Unborn (s.stack (.proc np)))
    {code : Scheduling.Code C} (hrunning : (s.client.table.proc p).state = .running)
    (hexp : Expects .running (kind (u.control p) fs) code) (hbelow : Below (u.control p) fs) :
    Sane ({ s with client := s.client.setTable u }.put c m (f.next code :: fs)) := by
  have hembryo := h.table.embryo p np hres
  have hnp : np ≠ p := h.unborn_ne hb.current hembryo
  have hnon : ∀ d, s.current d ≠ .proc np := by
    intro d hd
    exact h.unborn_ne hd hembryo rfl
  have hp := h.place c
  rw [hb.current] at hp
  have hsched : ∀ d, Thread.sched d ≠ s.current c := by
    intro d
    rw [hb.current]
    nofun
  have hother : ∀ v, v ≠ s.current c → ({ s with client := s.client.setTable u }.put c m
      (f.next code :: fs) : State C).stack v = s.stack v := fun v hv => Function.update_of_ne hv ..
  refine h.act hinj (k := s.client.setTable u) rfl htable (fun _ _ => ⟨rfl, rfl⟩) ?_ ?_ ?_ ?_ ?_
    ?_ ?_
  · intro d p' hd hcur
    have hp' : p' ≠ p := by
      rintro rfl
      exact hd (hinj (hcur.trans hb.current.symm))
    have hn' : p' ≠ np := by
      rintro rfl
      exact hnon d hcur
    exact ⟨congrArg _ (hproc p' hn'), hctl p' hp'⟩
  · intro d p' _ hch
    have hn' : p' ≠ np := by
      rintro rfl
      have := hch.state.symm.trans hembryo
      cases this
    exact (congrArg _ (hproc p' hn')).trans hch.state
  · rw [hb.current]
    refine ⟨hp.proc, hp.cr3, ?_, ?_, ?_⟩
    · exact (settled_congr (congrArg _ (hproc p hnp.symm))).mpr hp.settled
    · have hst : (u.proc p).state = .running := (congrArg _ (hproc p hnp.symm)).trans hrunning
      refine ⟨f.next code, fs, ?_, ?_, hbelow, fun hn => absurd hst hn⟩
      · rw [← hb.current]
        exact put_stack_self (s := { s with client := s.client.setTable u })
      · refine (acts_start rfl).mpr ?_
        change Expects (u.proc p).state _ _
        rw [hst]
        exact hexp
    · rw [hother _ (hsched c)]
      exact hp.parked
  · intro p' hoff hr
    have hn' : p' ≠ np := by
      rintro rfl
      exact hrun hr
    have hstate : (s.client.table.proc p').state = .running :=
      (congrArg _ (hproc p' hn')).symm.trans hr
    obtain ⟨d, hd⟩ := h.chosen p' hoff hstate
    exact ⟨d, hd.other rfl (hother _ (hsched d)) rfl rfl hr⟩
  · intro p' hoff hact
    have hp' : p' ≠ p := by
      rintro rfl
      exact hoff c hb.current
    change Waits (u.control p') _
    rw [hctl p' hp']
    by_cases hn' : p' = np
    · subst hn'
      obtain ⟨g, hg, hgp, hgc⟩ := hwaits hact
      refine ⟨g, [], hg, (acts_start hgp).mpr ?_, trivial⟩
      rw [hgc, h.user p' (hembryo ▸ not_active_embryo)]
      exact ⟨fun _ => rfl, rfl, .inr rfl⟩
    · refine h.waits p' hoff ?_
      rw [← hproc p' hn']
      exact hact
  · intro p' np' hc'
    by_cases hp' : p' = p
    · subst hp'
      obtain ⟨rfl, hu⟩ := hbuilt np' hc'
      exact ⟨hnon c, hu⟩
    · change u.control p' = _ ∨ u.control p' = _ at hc'
      rw [hctl p' hp'] at hc'
      exact ⟨h.built_ne hc', h.built p' np' hc'⟩
  · intro p' hact
    by_cases hp' : p' = p
    · subst hp'
      refine absurd ?_ hact
      refine .inl ((congrArg _ (hproc p' hnp.symm)).trans hrunning)
    · change u.control p' = .user
      rw [hctl p' hp']
      by_cases hn' : p' = np
      · rw [hn']
        exact h.user np (hembryo ▸ not_active_embryo)
      · refine h.user p' ?_
        rw [← hproc p' hn']
        exact hact

theorem Begins.expand (hb : Begins s c p f fs x is) (h : Sane s)
    (hl : SpinLocks.Invariant (kernel pages) s) (hback : x ≠ .back) {code : Scheduling.Code C}
    (hexp : ∀ q k, Expects q k (.op x :: is) → Expects q k code) :
    Sane (s.put c m (f.next code :: fs)) := by
  refine h.expand hl.injective (hb.current ▸ hb.stack) hb.phase hb.code hback ?_ ?_
  · intro d hd
    rw [hb.current] at hd
    cases hd
  · intro _ _ q k hq
    rw [hb.code] at hq
    exact hexp q k hq

/-- The state after an operation that frees no stack and sets none up. -/
theorem plain_state {k : Kernel C} {code : Scheduling.Code C} {e : Scheduling.Effect C}
    (he : plain k code = .ok e)
    (ht : SpinLocks.restack ({ s with client := e.client }.put c m (f.next (e.code ++ is) :: fs))
      .ptable e.stack = .ok t) :
    t = { s with client := k }.put c m (f.next (code ++ is) :: fs) := by
  cases plain_eq_ok he
  cases ht
  rfl

omit [DecidableEq C] [Fintype C] in
theorem wait_none {tb : PTable} (hz : ProcessTable.zombieChild tb p = none) :
    ProcessTable.wait tb p = setControl tb p .user ∨
      ProcessTable.wait tb p = setControl (updateProc tb p fun q =>
        { q with chan := some (.proc p), state := .sleeping }) p .waiting := by
  unfold ProcessTable.wait
  rw [hz]
  dsimp only
  split
  · exact .inl rfl
  · exact .inr rfl

theorem look_op (hb : Begins s c p f fs .look is) (h : Sane s)
    (hl : SpinLocks.Invariant (kernel pages) s) {e : Scheduling.Effect C}
    (he : exec c .look s.client = .ok e)
    (ht : SpinLocks.restack ({ s with client := e.client }.put c m (f.next (e.code ++ is) :: fs))
      .ptable e.stack = .ok t) : Sane t := by
  rw [exec, curproc_eq hb.proc, ok_bind] at he
  obtain ⟨u, hu, he⟩ := bind_eq_ok.mp he
  have hstep := tableOp_eq_ok hu
  obtain ⟨hq, hk, hnext⟩ := hb.expects
  obtain ⟨rfl, hctl⟩ : fs = [] ∧ (s.client.table.control p = .user ∨
      s.client.table.control p = .waiting) := by
    rcases hk with hk | hk
    · exact ⟨(kind_eq_some hk).1, .inl (kind_eq_some hk).2⟩
    · exact ⟨(kind_eq_some hk).1, .inr (kind_eq_some hk).2⟩
  have hok := ProcessTable.step_tableOk (e := .wait p) h.table ⟨hq, hctl⟩ hstep
  have hlk := hb.locked fun _ => rfl
  have hstill := still_wait (t := s.client.table) (p := p)
  cases hstep
  split at he
  · rename_i child hz
    have hw : ProcessTable.wait s.client.table p =
        setControl (ProcessTable.reap s.client.table child) p .user := by
      simp [ProcessTable.wait, hz]
    have hzs := ProcessTable.zombieChild_state hz
    have hne : p ≠ child := by
      rintro rfl
      rw [hq] at hzs
      cases hzs
    rw [hw] at he hok hstill
    unfold Scheduling.reap at he
    split at he
    · cases he
    cases he
    obtain ⟨hoff, rfl⟩ := restack_eq_ok ht
    have hproc : ((setControl (ProcessTable.reap s.client.table child) p .user).proc p) =
        s.client.table.proc p := Function.update_of_ne hne ..
    have hchild : ((setControl (ProcessTable.reap s.client.table child) p .user).proc
        child).state = .unused := by
      change (Function.update s.client.table.proc child _ child).state = _
      rw [Function.update_self]
    have hctl' : (setControl (ProcessTable.reap s.client.table child) p .user).control p =
        .user := Function.update_self ..
    have hexp : Expects ((setControl (ProcessTable.reap s.client.table child) p .user).proc
        p).state (some ((setControl (ProcessTable.reap s.client.table child) p .user).control p))
          (release .ptable ++ is) := by
      rw [hproc, hq, hctl']
      exact ⟨fun _ => rfl, hnext⟩
    have hsane := h.ownSection (m := m) hl hb.current hb.stack hb.code hlk hstill hok
      (hproc ▸ ProcessTable.settled_of_running hq) hexp trivial
      (by rw [hctl']; rintro np (hnp | hnp) <;> cases hnp) fun _ => hctl'
    refine hsane.restack (hchild ▸ not_active_unused) hoff fun p' => ?_
    have hemb : ∀ k : Control, k.reserved = some child →
        (setControl (ProcessTable.reap s.client.table child) p .user).control p' ≠ k := by
      intro k hk hc
      have := hok.embryo p' child (hc ▸ hk)
      rw [hchild] at this
      cases this
    exact ⟨hemb _ rfl, hemb _ rfl⟩
  · rename_i hz
    cases plain_state he ht
    rcases wait_none hz with hw | hw
    · rw [hw] at hok hstill ⊢
      have hctl' : (setControl s.client.table p .user).control p = .user :=
        Function.update_self ..
      refine h.ownSection hl hb.current hb.stack hb.code hlk hstill hok
        (ProcessTable.settled_of_running hq) ?_ trivial ?_ fun _ => hctl'
      · rw [hctl', if_neg (by simp)]
        change Expects (s.client.table.proc p).state _ _
        rw [hq]
        exact ⟨fun _ => rfl, hnext⟩
      · rw [hctl']
        rintro np (hnp | hnp) <;> cases hnp
    · rw [hw] at hok hstill ⊢
      have hctl' : (setControl (updateProc s.client.table p fun q =>
        { q with chan := some (.proc p), state := .sleeping }) p .waiting).control p =
          .waiting := Function.update_self ..
      have hstate : ((setControl (updateProc s.client.table p fun q =>
          { q with chan := some (.proc p), state := .sleeping }) p .waiting).proc p).state =
          .sleeping := by
        simp [setControl, updateProc]
      refine h.ownSection hl hb.current hb.stack hb.code hlk hstill hok ?_ ?_ trivial ?_ ?_
      · rw [Settled, hstate]
        decide
      · rw [hctl', if_pos rfl, hstate, List.append_assoc]
        exact expects_sched (.inr (.inl rfl)) fun _ => ⟨rfl, rfl, .inr rfl, hnext⟩
      · rw [hctl']
        rintro np (hnp | hnp) <;> cases hnp
      · rw [hstate]
        exact fun ha => absurd (.inr (.inr rfl)) ha

theorem alloc_op {kstack pgdir : ℕ} (hb : Begins s c p f fs (.alloc kstack pgdir) is) (h : Sane s)
    (hl : SpinLocks.Invariant (kernel pages) s) {e : Scheduling.Effect C}
    (he : exec c (.alloc kstack pgdir) s.client = .ok e)
    (ht : SpinLocks.restack ({ s with client := e.client }.put c m (f.next (e.code ++ is) :: fs))
      .ptable e.stack = .ok t) : Sane t := by
  rw [exec, curproc_eq hb.proc, ok_bind] at he
  obtain ⟨u, hu, he⟩ := bind_eq_ok.mp he
  have hstep := tableOp_eq_ok hu
  obtain ⟨hq, hk, hnext⟩ := hb.expects
  obtain ⟨rfl, hctl⟩ := kind_eq_some hk
  have hok := ProcessTable.step_tableOk (e := .forkAlloc p) h.table ⟨hq, hctl⟩ hstep
  have hlk := hb.locked fun _ => rfl
  have hstill := still_forkAlloc (t := s.client.table) (p := p)
  cases hstep
  cases plain_state he ht
  cases hf : ProcessTable.findProc fun p => (s.client.table.proc p).state == .unused with
  | none =>
    have hw : ProcessTable.forkAlloc s.client.table p = s.client.table := by
      simp [ProcessTable.forkAlloc, ProcessTable.allocproc, hf]
    rw [hw] at hok hstill ⊢
    refine hb.own h hl hlk hstill hok rfl (ProcessTable.settled_of_running hq) ?_ fun _ => hctl
    rw [hctl, if_pos rfl, hq]
    exact ⟨fun _ => rfl, hnext⟩
  | some np =>
    have hn : (s.client.table.proc np).state = .unused := by
      simpa using ProcessTable.findProc_some hf
    have hne : p ≠ np := by
      rintro rfl
      rw [hq] at hn
      cases hn
    have hctl' : (ProcessTable.forkAlloc s.client.table p).control p = .allocated np := by
      simp [ProcessTable.forkAlloc, ProcessTable.allocproc, hf, setControl]
    have hproc : (ProcessTable.forkAlloc s.client.table p).proc p = s.client.table.proc p := by
      simp [ProcessTable.forkAlloc, ProcessTable.allocproc, hf, setControl, updateProc,
        Function.update_of_ne hne]
    refine h.ownSection hl hb.current hb.stack hb.code hlk hstill hok
      (hproc ▸ ProcessTable.settled_of_running hq) ?_ trivial ?_ ?_
    · rw [hproc, hq, hctl', if_neg (by simp), List.append_assoc]
      exact ⟨fun _ => rfl, rfl, ⟨np, rfl⟩, hnext⟩
    · rw [hctl']
      rintro np (hnp | hnp) <;> cases hnp
    · rw [hproc, hq]
      exact fun ha => absurd active_running ha

omit [DecidableEq C] [Fintype C] in
/-- A slot that fork has reserved is the work of one process. -/
theorem Sane.reserved (h : Sane s) {np q : ProcId} {k : Control}
    (hp : (s.client.table.control p).reserved = some np) (hk : k.reserved = some np)
    (hne : s.client.table.control p ≠ k) : s.client.table.control q ≠ k := by
  intro hq
  refine hne ?_
  rw [h.table.distinct p q np hp (hq ▸ hk)]
  exact hq

theorem stack_op {kstack pgdir : ℕ} (hb : Begins s c p f fs (.stack kstack pgdir) is) (h : Sane s)
    (hl : SpinLocks.Invariant (kernel pages) s) {e : Scheduling.Effect C}
    (he : exec c (.stack kstack pgdir) s.client = .ok e)
    (ht : SpinLocks.restack ({ s with client := e.client }.put c m (f.next (e.code ++ is) :: fs))
      .ptable e.stack = .ok t) : Sane t := by
  rw [exec, curproc_eq hb.proc, ok_bind] at he
  obtain ⟨u, hu, he⟩ := bind_eq_ok.mp he
  have hstep := tableOp_eq_ok hu
  obtain ⟨hq, ⟨np, hk⟩, hnext⟩ := hb.expects
  obtain ⟨rfl, hctl⟩ := kind_eq_some hk
  have hok := ProcessTable.step_tableOk (e := .forkStack p kstack) h.table ⟨hq, np, hctl⟩ hstep
  have hres : (s.client.table.control p).reserved = some np := by
    rw [hctl]
    rfl
  have hembryo := h.table.embryo p np hres
  have hnp : np ≠ p := h.unborn_ne hb.current hembryo
  cases hstep
  by_cases hz : kstack = 0
  · have hw : ProcessTable.forkStack s.client.table p kstack =
        setControl (updateProc s.client.table np fun q =>
          { q with kstack := 0, state := .unused }) p .user := by
      simp [ProcessTable.forkStack, hctl, hz]
    have hctl' : (ProcessTable.forkStack s.client.table p kstack).control p = .user := by
      rw [hw]
      exact Function.update_self ..
    rw [hctl'] at he
    cases plain_state he ht
    refine Sane.work hb h hl.injective hres hok ?_ ?_ ?_ ?_ ?_ hq ?_ trivial
    · intro q hne
      rw [hw]
      exact Function.update_of_ne hne ..
    · intro q hne
      rw [hw]
      exact Function.update_of_ne hne ..
    · rw [hw]
      simp [setControl, updateProc]
    · rw [hw]
      simp [setControl, updateProc, not_active_unused]
    · rw [hctl']
      rintro np (hnp | hnp) <;> cases hnp
    · rw [hctl']
      exact hnext
  · have hw : ProcessTable.forkStack s.client.table p kstack =
        setControl (updateProc s.client.table np fun q => { q with kstack := kstack }) p
          (.stacked np) := by
      simp [ProcessTable.forkStack, hctl, hz]
    have hctl' : (ProcessTable.forkStack s.client.table p kstack).control p = .stacked np := by
      rw [hw]
      exact Function.update_self ..
    rw [hctl'] at he
    cases he
    obtain ⟨hoff, rfl⟩ := restack_eq_ok ht
    have hsane : Sane (withStack s (.proc np) (fresh .ptable (some forkret))) := by
      refine h.restack (hembryo ▸ not_active_embryo) hoff fun q => ⟨?_, ?_⟩
      · exact h.reserved hres rfl (by rw [hctl]; simp)
      · exact h.reserved hres rfl (by rw [hctl]; simp)
    have hne : Thread.proc p ≠ Thread.proc (C := C) np := fun e => hnp (Thread.proc.inj e).symm
    have hb' : Begins (withStack s (.proc np) (fresh .ptable (some forkret))) c p f []
        (.stack kstack pgdir) is :=
      ⟨hb.current, (Function.update_of_ne hne ..).trans hb.stack, hb.phase, hb.code, hb.proc,
        hb.expects, hb.below, hb.typed⟩
    have hunborn : Unborn ((withStack s (.proc np) (fresh .ptable (some forkret))).stack
        (.proc np)) := ⟨_, Function.update_self .., rfl, rfl⟩
    rw [← put_withStack (hb.current ▸ hne.symm)]
    refine Sane.work hb' hsane hl.injective hres hok ?_ ?_ ?_ ?_ ?_ hq ?_ trivial
    · intro q hne
      rw [hw]
      exact Function.update_of_ne hne ..
    · intro q hne
      rw [hw]
      exact Function.update_of_ne hne ..
    · rw [hw]
      simp [setControl, updateProc, hembryo]
    · exact fun _ => hunborn
    · rw [hctl']
      rintro np' (hnp' | hnp')
      · cases hnp'
        exact ⟨rfl, hunborn⟩
      · cases hnp'
    · rw [hctl']
      exact ⟨rfl, ⟨np, rfl⟩, hnext⟩

theorem memory_op {pgdir : ℕ} (hb : Begins s c p f fs (.memory pgdir) is) (h : Sane s)
    (hl : SpinLocks.Invariant (kernel pages) s) {e : Scheduling.Effect C}
    (he : exec c (.memory pgdir) s.client = .ok e)
    (ht : SpinLocks.restack ({ s with client := e.client }.put c m (f.next (e.code ++ is) :: fs))
      .ptable e.stack = .ok t) : Sane t := by
  rw [exec, curproc_eq hb.proc, ok_bind] at he
  obtain ⟨u, hu, he⟩ := bind_eq_ok.mp he
  have hstep := tableOp_eq_ok hu
  obtain ⟨hq, ⟨np, hk⟩, hnext⟩ := hb.expects
  obtain ⟨rfl, hctl⟩ := kind_eq_some hk
  have hok := ProcessTable.step_tableOk (e := .forkMemory p pgdir) h.table ⟨hq, np, hctl⟩ hstep
  have hres : (s.client.table.control p).reserved = some np := by
    rw [hctl]
    rfl
  have hunborn := h.built p np (.inl hctl)
  cases hstep
  by_cases hz : pgdir = 0
  · have hw : ProcessTable.forkMemory s.client.table p pgdir =
        setControl (updateProc s.client.table np fun q =>
          { q with pgdir := 0, kstack := 0, state := .unused }) p .user := by
      simp [ProcessTable.forkMemory, hctl, hz]
    have hctl' : (ProcessTable.forkMemory s.client.table p pgdir).control p = .user := by
      rw [hw]
      exact Function.update_self ..
    have hstate : ((ProcessTable.forkMemory s.client.table p pgdir).proc np).state = .unused := by
      rw [hw]
      simp [setControl, updateProc]
    rw [hctl, hctl'] at he
    cases he
    obtain ⟨hoff, rfl⟩ := restack_eq_ok ht
    refine Sane.restack (Sane.work hb h hl.injective hres hok ?_ ?_ ?_ ?_ ?_ hq ?_ trivial)
      (hstate ▸ not_active_unused) hoff fun q => ?_
    · intro q hne
      rw [hw]
      exact Function.update_of_ne hne ..
    · intro q hne
      rw [hw]
      exact Function.update_of_ne hne ..
    · rw [hstate]
      simp
    · rw [hstate]
      exact fun ha => absurd ha not_active_unused
    · rw [hctl']
      rintro np (hnp | hnp) <;> cases hnp
    · rw [hctl']
      exact hnext
    · have hemb : ∀ k : Control, k.reserved = some np →
          (ProcessTable.forkMemory s.client.table p pgdir).control q ≠ k := by
        intro k hk hc
        have := hok.embryo q np (hc ▸ hk)
        rw [hstate] at this
        cases this
      exact ⟨hemb _ rfl, hemb _ rfl⟩
  · have hw : ProcessTable.forkMemory s.client.table p pgdir =
        setControl (updateProc s.client.table np fun q =>
          { q with pgdir := pgdir, parent := some p }) p (.copied np) := by
      simp [ProcessTable.forkMemory, hctl, hz]
    have hctl' : (ProcessTable.forkMemory s.client.table p pgdir).control p = .copied np := by
      rw [hw]
      exact Function.update_self ..
    rw [hctl'] at he
    cases plain_state he ht
    have hembryo := h.table.embryo p np hres
    refine Sane.work hb h hl.injective hres hok ?_ ?_ ?_ ?_ ?_ hq ?_ trivial
    · intro q hne
      rw [hw]
      exact Function.update_of_ne hne ..
    · intro q hne
      rw [hw]
      exact Function.update_of_ne hne ..
    · rw [hw]
      simp [setControl, updateProc, hembryo]
    · exact fun _ => hunborn
    · rw [hctl']
      rintro np' (hnp' | hnp')
      · cases hnp'
      · cases hnp'
        exact ⟨rfl, hunborn⟩
    · rw [hctl']
      exact ⟨rfl, ⟨np, rfl⟩, fun _ => rfl, hnext⟩

theorem ready_op (hb : Begins s c p f fs .ready is) (h : Sane s)
    (hl : SpinLocks.Invariant (kernel pages) s) {e : Scheduling.Effect C}
    (he : exec c .ready s.client = .ok e)
    (ht : SpinLocks.restack ({ s with client := e.client }.put c m (f.next (e.code ++ is) :: fs))
      .ptable e.stack = .ok t) : Sane t := by
  rw [exec, curproc_eq hb.proc, ok_bind] at he
  obtain ⟨u, hu, he⟩ := bind_eq_ok.mp he
  have hstep := tableOp_eq_ok hu
  obtain ⟨hq, ⟨np, hk⟩, hnext⟩ := hb.expects
  obtain ⟨rfl, hctl⟩ := kind_eq_some hk
  have hok := ProcessTable.step_tableOk (e := .forkFinish p) h.table ⟨hq, np, hctl⟩ hstep
  have hres : (s.client.table.control p).reserved = some np := by
    rw [hctl]
    rfl
  cases hstep
  have hw : ProcessTable.forkFinish s.client.table p =
      setControl (updateProc s.client.table np fun q => { q with state := .runnable }) p
        .user := by
    simp [ProcessTable.forkFinish, hctl]
  have hctl' : (ProcessTable.forkFinish s.client.table p).control p = .user := by
    rw [hw]
    exact Function.update_self ..
  cases plain_state he ht
  refine Sane.work hb h hl.injective hres hok ?_ ?_ ?_ ?_ ?_ hq ?_ trivial
  · intro q hne
    rw [hw]
    exact Function.update_of_ne hne ..
  · intro q hne
    rw [hw]
    exact Function.update_of_ne hne ..
  · rw [hw]
    simp [setControl, updateProc]
  · exact fun _ => h.built p np (.inr hctl)
  · rw [hctl']
    rintro np (hnp | hnp) <;> cases hnp
  · rw [hctl']
    exact hnext

theorem giveUp_op (hb : Begins s c p f fs .giveUp is) (h : Sane s)
    (hl : SpinLocks.Invariant (kernel pages) s) {e : Scheduling.Effect C}
    (he : exec c .giveUp s.client = .ok e)
    (ht : SpinLocks.restack ({ s with client := e.client }.put c m (f.next (e.code ++ is) :: fs))
      .ptable e.stack = .ok t) : Sane t := by
  have hexp := hb.expects
  rw [exec, curproc_eq hb.proc] at he
  cases plain_state he ht
  have hself : (updateProc s.client.table p fun q => { q with state := .runnable }).proc p =
      { s.client.table.proc p with state := .runnable } := Function.update_self ..
  refine hb.own h hl (hb.locked fun _ => rfl) (still_own _)
    (ProcessTable.step_tableOk (e := .yield p) h.table hexp.1 rfl) rfl ?_ ?_ ?_
  · rw [hself]
    simp [Settled]
  · rw [hself]
    exact hexp.2
  · rw [hself]
    exact fun ha => absurd (.inr (.inl rfl)) ha

theorem fallAsleep_op {chan lk : ℕ} (hb : Begins s c p f fs (.fallAsleep chan lk) is) (h : Sane s)
    (hl : SpinLocks.Invariant (kernel pages) s) {e : Scheduling.Effect C}
    (he : exec c (.fallAsleep chan lk) s.client = .ok e)
    (ht : SpinLocks.restack ({ s with client := e.client }.put c m (f.next (e.code ++ is) :: fs))
      .ptable e.stack = .ok t) : Sane t := by
  have hexp := hb.expects
  rw [exec, curproc_eq hb.proc, ok_bind] at he
  obtain ⟨u, hu, he⟩ := bind_eq_ok.mp he
  cases plain_state he ht
  have hstep := tableOp_eq_ok hu
  obtain ⟨-, hctl⟩ := kind_eq_some hexp.2.1
  have hok := ProcessTable.step_tableOk (e := .sleep p chan) h.table ⟨hexp.1, hctl⟩ hstep
  cases hstep
  have hself : (updateProc s.client.table p fun q =>
      { q with chan := some (.other chan), state := .sleeping }).proc p =
      { s.client.table.proc p with chan := some (.other chan), state := .sleeping } :=
    Function.update_self ..
  refine hb.own h hl (hb.locked fun _ => rfl) (still_own _) hok rfl ?_ ?_ ?_
  · rw [hself]
    simp [Settled]
  · rw [hself]
    exact hexp.2.2
  · rw [hself]
    exact fun ha => absurd (.inr (.inr rfl)) ha

theorem clearChan_op (hb : Begins s c p f fs .clearChan is) (h : Sane s)
    (hl : SpinLocks.Invariant (kernel pages) s) {e : Scheduling.Effect C}
    (he : exec c .clearChan s.client = .ok e)
    (ht : SpinLocks.restack ({ s with client := e.client }.put c m (f.next (e.code ++ is) :: fs))
      .ptable e.stack = .ok t) : Sane t := by
  have hexp := hb.expects
  rw [exec, curproc_eq hb.proc] at he
  cases plain_state he ht
  have hself : (updateProc s.client.table p fun q => { q with chan := none }).proc p =
      { s.client.table.proc p with chan := none } := Function.update_self ..
  have hset := ProcessTable.settled_of_running hexp.1
  refine hb.own h hl (hb.locked fun _ => rfl) (still_own _)
    ((ProcessTable.calm_of_settled rfl rfl hset hset).tableOk h.table) rfl ?_ ?_ ?_
  · rw [hself]
    exact hset
  · rw [hself]
    exact hexp.2
  · rw [hself]
    exact fun ha => absurd (.inl hexp.1) ha

theorem wakeup1_op {chan : ℕ} (hb : Begins s c p f fs (.wakeup1 chan) is) (h : Sane s)
    (hl : SpinLocks.Invariant (kernel pages) s) {e : Scheduling.Effect C}
    (he : exec c (.wakeup1 chan) s.client = .ok e)
    (ht : SpinLocks.restack ({ s with client := e.client }.put c m (f.next (e.code ++ is) :: fs))
      .ptable e.stack = .ok t) : Sane t := by
  have hexp := hb.expects
  obtain ⟨u, hu, he⟩ := bind_eq_ok.mp he
  cases plain_state he ht
  have hstep := tableOp_eq_ok hu
  have hok := ProcessTable.step_tableOk (e := .wakeup chan) h.table trivial hstep
  cases hstep
  have hstill : Still none s.client.table _ := still_wakeup1 (some (.other chan))
  have hrun := (hstill.running p (by simp)).mpr hexp.1
  refine hb.own h hl (by simpa [pre] using hb.typed) hstill.weaken hok rfl
    (ProcessTable.settled_of_running hrun) ?_ fun ha => absurd (.inl hrun) ha
  rw [hrun, ← hexp.1]
  exact hexp.2

theorem mark_op {pid : ℤ} (hb : Begins s c p f fs (.mark pid) is) (h : Sane s)
    (hl : SpinLocks.Invariant (kernel pages) s) {e : Scheduling.Effect C}
    (he : exec c (.mark pid) s.client = .ok e)
    (ht : SpinLocks.restack ({ s with client := e.client }.put c m (f.next (e.code ++ is) :: fs))
      .ptable e.stack = .ok t) : Sane t := by
  have hexp := hb.expects
  rw [exec, curproc_eq hb.proc, ok_bind] at he
  obtain ⟨u, hu, he⟩ := bind_eq_ok.mp he
  cases plain_state he ht
  have hstep := tableOp_eq_ok hu
  obtain ⟨-, hctl⟩ := kind_eq_some hexp.2.1
  have hok := ProcessTable.step_tableOk (e := .kill p pid) h.table ⟨hexp.1, hctl⟩ hstep
  cases hstep
  have hstill : Still none s.client.table _ := still_kill pid
  have hrun := (hstill.running p (by simp)).mpr hexp.1
  refine hb.own h hl (by simpa [pre] using hb.typed) hstill.weaken hok (hstill.control p (by simp))
    (ProcessTable.settled_of_running hrun) ?_ fun ha => absurd (.inl hrun) ha
  rw [hrun, ← hexp.1]
  exact hexp.2.2

theorem exit_op (hb : Begins s c p f fs .exit is) (h : Sane s)
    (hl : SpinLocks.Invariant (kernel pages) s) {e : Scheduling.Effect C}
    (he : exec c .exit s.client = .ok e)
    (ht : SpinLocks.restack ({ s with client := e.client }.put c m (f.next (e.code ++ is) :: fs))
      .ptable e.stack = .ok t) : Sane t := by
  rw [exec, curproc_eq hb.proc] at he
  change (if p = initproc then _ else _) = _ at he
  split at he
  · cases he
  · cases plain_state he ht
    refine hb.expand h hl (by simp) fun q k hq => ?_
    simp only [List.append_assoc, List.cons_append]
    exact ⟨hq.1, hq.2.1, expects_sched (.inr (.inr rfl)) fun hz => absurd rfl hz⟩

theorem die_op (hb : Begins s c p f fs .die is) (h : Sane s)
    (hl : SpinLocks.Invariant (kernel pages) s) {e : Scheduling.Effect C}
    (he : exec c .die s.client = .ok e)
    (ht : SpinLocks.restack ({ s with client := e.client }.put c m (f.next (e.code ++ is) :: fs))
      .ptable e.stack = .ok t) : Sane t := by
  have hexp := hb.expects
  rw [exec, curproc_eq hb.proc, ok_bind] at he
  obtain ⟨u, hu, he⟩ := bind_eq_ok.mp he
  cases plain_state he ht
  have hstep := tableOp_eq_ok hu
  obtain ⟨-, hctl⟩ := kind_eq_some hexp.2.1
  have hok := ProcessTable.step_tableOk (e := .exit p) h.table ⟨hexp.1, hctl⟩ hstep
  have hcontrol : u.control p = s.client.table.control p := by
    rw [(exit_eq_ok hstep).2]
    have hwake : Still none s.client.table (ProcessTable.wakeup1 s.client.table
        ((s.client.table.proc p).parent.map .proc)) := still_wakeup1 _
    exact (hwake.trans still_reparent).control p (by simp)
  have hstate : (u.proc p).state = .zombie := by
    rw [(exit_eq_ok hstep).2]
    simp [updateProc]
  refine hb.own h hl (hb.locked fun _ => rfl) (still_exit hstep) hok hcontrol ?_ ?_ ?_
  · simp [Settled, hstate]
  · rw [hstate]
    exact hexp.2.2
  · exact fun _ => hctl

theorem proc_op (hb : Begins s c p f fs x is) (h : Sane s)
    (hl : SpinLocks.Invariant (kernel pages) s) {e : Scheduling.Effect C}
    (he : exec c x s.client = .ok e)
    (ht : SpinLocks.restack ({ s with client := e.client }.put c m (f.next (e.code ++ is) :: fs))
      .ptable e.stack = .ok t) : Sane t := by
  have hexp := hb.expects
  cases x with
  | scheduler | loop | scan ps | back | zombieExit => exact hexp.elim
  | clock =>
    simp only [exec, hb.proc, hexp.1, if_true] at he
    cases plain_state he ht
    exact hb.expand h hl (by simp) fun q k hq => expects_yield hq.1 hq.2
  | giveUp => exact giveUp_op hb h hl he ht
  | notRunning =>
    rw [exec, curproc_eq hb.proc] at he
    change (if (s.client.table.proc p).state = .running then _ else _) = _ at he
    rw [if_neg hexp.1] at he
    cases plain_state he ht
    exact hb.expand h hl (by simp) fun q k hq => hq.2
  | sleep chan lk =>
    simp only [exec, hb.proc] at he
    cases plain_state he ht
    refine hb.expand h hl (by simp) fun q k hq => ?_
    rw [List.append_assoc]
    exact expects_sleepWith hq.1 hq.2.1 hq.2.2
  | fallAsleep chan lk => exact fallAsleep_op hb h hl he ht
  | clearChan => exact clearChan_op hb h hl he ht
  | wakeup chan =>
    cases plain_state he ht
    exact hb.expand h hl (by simp) fun q k hq => ⟨hq.1, fun _ => hq.1, hq.2⟩
  | wakeup1 chan => exact wakeup1_op hb h hl he ht
  | kill pid =>
    cases plain_state he ht
    exact hb.expand h hl (by simp) fun q k hq => ⟨hq.1, hq.2.1, fun _ => hq.1, hq.2.2⟩
  | mark pid => exact mark_op hb h hl he ht
  | exit => exact exit_op hb h hl he ht
  | die => exact die_op hb h hl he ht
  | wait =>
    cases plain_state he ht
    refine hb.expand h hl (by simp) fun q k hq => ?_
    obtain ⟨rfl, rfl, hq⟩ := hq
    exact ⟨rfl, .inl rfl, hq⟩
  | look => exact look_op hb h hl he ht
  | fork kstack pgdir =>
    cases plain_state he ht
    refine hb.expand h hl (by simp) fun q k hq => ?_
    obtain ⟨rfl, rfl, hq⟩ := hq
    exact ⟨rfl, rfl, hq⟩
  | alloc kstack pgdir => exact alloc_op hb h hl he ht
  | stack kstack pgdir => exact stack_op hb h hl he ht
  | memory pgdir => exact memory_op hb h hl he ht
  | ready => exact ready_op hb h hl he ht

omit [DecidableEq C] [Fintype C] in
theorem idleStack_head (h : IdleStack (f :: fs)) : Idle fs.isEmpty f.code := by
  cases fs with
  | nil => exact h
  | cons g fs => exact h.1

/-- The scheduler of a processor gives it to the process p. -/
theorem run_op {ps : List ProcId} (h : Sane s) (hl : SpinLocks.Invariant (kernel pages) s)
    (hcur : s.current c = .sched c) (hstack : s.stack (.sched c) = [f])
    (hc : f.code = [.op (.scan (p :: ps))]) (hlk : Lock.ptable ∈ f.locks)
    (hq : (s.client.table.proc p).state = .runnable) :
    Sane ({ s with client := s.client.run c p }.put c m
      [f.next [.switchTo (.proc p), .op .back, .op (.scan ps)]]) := by
  have hheld : Lock.ptable ∈ s.held c := held_of_stack (hcur ▸ hstack) ▸ hlk
  have hno : ∀ d p, ¬ Chosen s d p := by
    intro d p hch
    have hdc := hl.locks.unique _ _ _ (chosen_held hl hch) hheld
    exact not_chosen (hcur ▸ hstack) hc (fun _ => nofun) (hdc ▸ hch)
  have hoff : ∀ d, s.current d ≠ .proc p := by
    intro d hd
    have hdc : d ≠ c := by
      rintro rfl
      rw [hcur] at hd
      cases hd
    rw [others_running h hl hheld hdc hd] at hq
    cases hq
  have hself : ((s.client.run c p).table.proc p).state = .running := by
    change (Function.update s.client.table.proc p _ p).state = _
    rw [Function.update_self]
  have hof : ∀ q, q ≠ p → (s.client.run c p).table.proc q = s.client.table.proc q :=
    fun q hne => Function.update_of_ne hne ..
  have hsettled : Settled (s.client.table.proc p) := by simp [Settled, hq]
  have hsettled' : Settled { s.client.table.proc p with state := .running } := by simp [Settled]
  have hcalm : ProcessTable.Calm s.client.table (updateProc s.client.table p fun q =>
    { q with state := .running }) := ProcessTable.calm_of_settled rfl rfl hsettled hsettled'
  have hchosen : Chosen ({ s with client := s.client.run c p }.put c m
      [f.next [.switchTo (.proc p), .op .back, .op (.scan ps)]]) c p := by
    refine ⟨hcur, ⟨f.next [.switchTo (.proc p), .op .back, .op (.scan ps)], ps, ?_, rfl, rfl⟩,
      Function.update_self .., Function.update_self .., hself, hoff⟩
    rw [← hcur]
    exact put_stack_self (s := { s with client := s.client.run c p })
  refine h.act hl.injective (k := s.client.run c p) rfl (hcalm.tableOk h.table) ?_ ?_ ?_ ?_ ?_ ?_
    ?_ ?_
  · intro d hd
    exact ⟨Function.update_of_ne hd .., Function.update_of_ne hd ..⟩
  · intro d q _ hd
    have hne : q ≠ p := by
      rintro rfl
      exact hoff d hd
    exact ⟨congrArg _ (hof q hne), rfl⟩
  · intro d q _ hch
    exact (hno d q hch).elim
  · rw [hcur]
    exact ⟨rfl, .chosen p hchosen⟩
  · intro q hqoff hrun
    by_cases hne : q = p
    · exact ⟨c, hne ▸ hchosen⟩
    · rw [hof q hne] at hrun
      obtain ⟨d, hd⟩ := h.chosen q hqoff hrun
      exact (hno d q hd).elim
  · intro q hqoff hact
    refine h.waits q hqoff ?_
    by_cases hne : q = p
    · rw [hne, hq]
      exact .inr (.inl rfl)
    · rw [hof q hne] at hact
      exact hact
  · intro q np hctl
    exact ⟨h.built_ne hctl, h.built q np hctl⟩
  · intro q hact
    by_cases hne : q = p
    · rw [hne, hself] at hact
      exact absurd (.inl rfl) hact
    · rw [hof q hne] at hact
      exact h.user q hact

/-- The scheduler of a processor takes it back from a process. -/
theorem back_op {ps : List ProcId} (h : Sane s) (hl : SpinLocks.Invariant (kernel pages) s)
    (hcur : s.current c = .sched c) (hstack : s.stack (.sched c) = [f])
    (hc : f.code = [.op .back, .op (.scan ps)]) (hlk : Lock.ptable ∈ f.locks) {k : Kernel C}
    (htable : k.table = s.client.table) (hproc : k.proc = Function.update s.client.proc c none)
    (hcr3 : k.cr3 = Function.update s.client.cr3 c none) :
    Sane ({ s with client := k }.put c m [f.next [.op (.scan ps)]]) := by
  have hheld : Lock.ptable ∈ s.held c := held_of_stack (hcur ▸ hstack) ▸ hlk
  have hno : ∀ d p, ¬ Chosen s d p := by
    intro d p hch
    have hdc := hl.locks.unique _ _ _ (chosen_held hl hch) hheld
    exact not_chosen (hcur ▸ hstack) hc (fun _ => nofun) (hdc ▸ hch)
  refine h.act hl.injective (k := k) rfl (htable ▸ h.table) ?_ ?_ ?_ ?_ ?_ ?_ ?_ ?_
  · intro d hd
    rw [hproc, hcr3]
    exact ⟨Function.update_of_ne hd .., Function.update_of_ne hd ..⟩
  · intro d p _ _
    rw [htable]
    exact ⟨rfl, rfl⟩
  · intro d p _ hch
    exact (hno d p hch).elim
  · rw [hcur]
    refine ⟨rfl, .idle ?_ ?_ ?_⟩
    · rw [← hcur, put_stack_self (s := { s with client := k })]
      exact ⟨rfl, rfl⟩
    · change k.proc c = none
      rw [hproc]
      exact Function.update_self ..
    · change k.cr3 c = none
      rw [hcr3]
      exact Function.update_self ..
  · intro p hoff hrun
    obtain ⟨d, hd⟩ := h.chosen p hoff (htable ▸ hrun)
    exact (hno d p hd).elim
  · rw [htable]
    exact h.waits
  · rw [htable]
    exact fun p np hctl => ⟨h.built_ne hctl, h.built p np hctl⟩
  · rw [htable]
    exact h.user

theorem sched_op (h : Sane s) (hl : SpinLocks.Invariant (kernel pages) s)
    (hcur : s.current c = .sched c) (hstack : s.stack (.sched c) = f :: fs)
    (hp : f.phase = .start) (hc : f.code = .op x :: is) (htyped : pre x f.locks f.pushed = true)
    {e : Scheduling.Effect C} (he : exec c x s.client = .ok e)
    (ht : SpinLocks.restack ({ s with client := e.client }.put c m (f.next (e.code ++ is) :: fs))
      .ptable e.stack = .ok t) : Sane t := by
  have hno : ∀ {q : ProcId}, s.current c ≠ .proc q := by
    intro q
    rw [hcur]
    simp
  have hexpand : x ≠ .back → ∀ code, (∀ b, Idle b (.op x :: is) → Idle b code) →
      Sane (s.put c m (f.next code :: fs)) := by
    intro hback code hidle
    refine h.expand hl.injective (hcur ▸ hstack) hp hc hback ?_ fun p hp => absurd hp hno
    rw [hc]
    exact fun _ _ => hidle
  have hlocks : ∀ n, (decide (f.locks = [.ptable]) && decide (n = 0)) = true →
      Lock.ptable ∈ f.locks := by
    intro n hn
    rw [Bool.and_eq_true, decide_eq_true_eq] at hn
    rw [hn.1]
    exact List.mem_cons_self
  have hplace := h.place c
  rw [hcur] at hplace
  obtain ⟨-, hplace⟩ := hplace
  cases hplace with
  | chosen p hch => exact (not_chosen (hcur ▸ hstack) hc (fun _ => by simp) hch).elim
  | back hb =>
    obtain ⟨g, ps, hg, -, hcode⟩ := hb
    rw [hstack] at hg
    cases hg
    rw [hc] at hcode
    cases hcode
    cases plain_state he ht
    exact back_op h hl hcur hstack hc (hlocks _ htyped) rfl rfl rfl
  | idle hi hproc hcr3 =>
    rw [hstack] at hi
    have hidle := idleStack_head hi
    rw [hc] at hidle
    cases x with
    | scheduler =>
      have hsame : Function.update s.client.proc c none = s.client.proc := by
        rw [← hproc]
        exact Function.update_eq_self ..
      cases plain_state he ht
      rw [hsame]
      exact hexpand (by simp) _ fun b hb => ⟨hb.1, hb.2⟩
    | loop =>
      cases plain_state he ht
      exact hexpand (by simp) _ fun b hb => ⟨hb.1, hb.2⟩
    | scan ps =>
      obtain ⟨hbottom, rfl⟩ := hidle
      obtain rfl := List.isEmpty_iff.mp hbottom
      cases ps with
      | nil =>
        cases plain_state he ht
        exact hexpand (by simp) _ fun b hb => ⟨hb.1, rfl⟩
      | cons p ps =>
        simp only [exec] at he
        split at he
        · cases plain_state he ht
          exact hexpand (by simp) _ fun b hb => ⟨hb.1, rfl⟩
        · rename_i hq
          split at he
          · cases he
          · cases he
          · cases plain_state he ht
            exact run_op h hl hcur hstack hc (hlocks _ htyped) (not_not.mp hq)
    | clock =>
      simp only [exec, hproc] at he
      cases plain_state he ht
      exact hexpand (by simp) _ fun b hb => hb
    | wakeup chan =>
      cases plain_state he ht
      exact hexpand (by simp) _ fun b hb => hb
    | wakeup1 chan =>
      obtain ⟨u, hu, he⟩ := bind_eq_ok.mp he
      cases plain_state he ht
      have hstep := tableOp_eq_ok hu
      have hok := ProcessTable.step_tableOk (e := .wakeup chan) h.table trivial hstep
      cases hstep
      have hstill : Still none s.client.table _ := still_wakeup1 (some (.other chan))
      refine h.locked hl (hcur ▸ hstack) hc (by simpa [pre] using htyped)
        (by simp) hstill hok ?_ (by simp) (by simp)
      rw [hcur]
      refine ⟨rfl, .idle ?_ hproc hcr3⟩
      rw [← hcur]
      change IdleStack (Function.update s.stack (s.current c) _ (s.current c))
      rw [Function.update_self]
      cases fs with
      | nil => exact hidle
      | cons g fs => exact ⟨hidle, hi.2⟩
    | back | giveUp | notRunning | sleep | fallAsleep | clearChan | kill | mark | exit | die
    | zombieExit | wait | look | fork | alloc | stack | memory | ready => exact hidle.elim

theorem Sane.begins (h : Sane s) (hcur : s.current c = .proc p)
    (hstack : s.stack (.proc p) = f :: fs) (hp : f.phase = .start) (hc : f.code = .op x :: is)
    (hrun : Running (kernel pages) (s.cpu c) f) : Begins s c p f fs x is := by
  have hplace := h.place c
  rw [hcur] at hplace
  obtain ⟨g, gs, hg, hacts, hbelow, -⟩ := hplace.stack
  rw [hstack] at hg
  cases hg
  have htyped := hrun.typed hp
  rw [hc] at htyped
  refine ⟨hcur, hstack, hp, hc, hplace.proc, ?_, hbelow, htyped.1⟩
  rw [← hc]
  exact (acts_start hp).mp hacts

theorem execute_sane (h : Sane s) (hl : SpinLocks.Invariant (kernel pages) s)
    (hstack : s.stack (s.current c) = f :: fs)
    (ht : execute (kernel pages) s c f fs = .ok t) : Sane t := by
  obtain ⟨f', fs', hstack', hrun, -⟩ := hl.running c
  rw [hstack] at hstack'
  cases hstack'
  cases execute_outcome ht with
  | spin lk is hc => exact h
  | move lock m f' hm => exact h.move hl.injective hstack hm
  | leave e is _ hc hp ht => exact h.leave hl hstack hc hp ht
  | enter u is _ hc hp ht => exact h.enter hl hstack hc hp ht
  | op x is e _ hc hp he ht =>
    have htyped := hrun.typed hp
    rw [hc] at htyped
    have hplace := h.place c
    cases hcur : s.current c with
    | sched d =>
      rw [hcur] at hplace hstack
      obtain ⟨rfl, -⟩ := hplace
      exact sched_op h hl hcur hstack hp hc htyped.1 he ht
    | proc p =>
      rw [hcur] at hstack
      exact proc_op (h.begins hcur hstack hp hc hrun) h hl he ht

theorem expects_request {ctl : Control} {r : Request Lock Op}
    (hr : allowed (kernel pages) (.proc p : Thread C) fs.isEmpty f r = true)
    (h : Expects q (kind ctl fs) ([] : Scheduling.Code C)) :
    Expects q (kind ctl fs) (r.code : Scheduling.Code C) := by
  obtain ⟨hq, hk⟩ := h
  cases r with
  | acquire lk | pushcli | popcli => exact ⟨hq, hk⟩
  | release lk => exact ⟨fun _ => hq, hq, hk⟩
  | op x =>
    have hx : entry (.proc p : Thread C) fs.isEmpty x = true := (Bool.and_eq_true _ _ ▸ hr).2
    have huser : fs.isEmpty = true → kind ctl fs = some .user := by
      intro hb
      obtain rfl := List.isEmpty_iff.mp hb
      exact hk.resolve_left nofun
    cases x with
    | wakeup chan | clock => exact ⟨hq, hq, hk⟩
    | sleep chan lk | kill pid | exit | wait | fork kstack pgdir =>
      have hb : fs.isEmpty = true := by
        cases hfs : fs.isEmpty
        · rw [hfs] at hx
          cases hx
        · rfl
      exact ⟨hq, huser hb, hq, hk⟩
    | scheduler | loop | scan | back | giveUp | notRunning | fallAsleep | clearChan | wakeup1
    | mark | die | zombieExit | look | alloc | stack | memory | ready =>
      cases hfs : fs.isEmpty <;> rw [hfs] at hx <;> cases hx

theorem idle_request {b : Bool} {r : Request Lock Op}
    (hr : allowed (kernel pages) (.sched d : Thread C) b f r = true)
    (h : Idle b ([] : Scheduling.Code C)) : Idle b (r.code : Scheduling.Code C) := by
  cases r with
  | acquire lk | release lk | pushcli | popcli => exact h
  | op x =>
    have hx : entry (.sched d : Thread C) b x = true := (Bool.and_eq_true _ _ ▸ hr).2
    cases x with
    | wakeup chan | clock => exact h
    | sleep | kill | exit | wait | fork | scheduler | loop | scan | back | giveUp | notRunning
    | fallAsleep | clearChan | wakeup1 | mark | die | zombieExit | look | alloc | stack | memory
    | ready => cases hx

omit [Fintype C] in
theorem start_of_nil {flag : Bool} [Fintype C] (h : Here (kernel pages) flag f)
    (hc : f.code = []) : f.phase = .start := by
  unfold Here at h
  rw [hc] at h
  split at h
  · assumption
  all_goals first | (rename_i heq; cases heq) | exact h.elim

theorem interrupted_stopped (h : SpinLocks.Interrupted (kernel pages) f) :
    (∀ e, f.phase ≠ .away e) ∧ ∀ i is, f.code = i :: is →
      (∀ u, i ≠ .switchTo u) ∧ i ≠ .op .back := by
  have hlocks : f.locks ≠ [(kernel (C := C) pages).ptable] := by
    rw [locks_of_depth h.depth]
    exact nofun
  have hhere := h.here
  refine ⟨fun e he => ?_, fun i is hc => ⟨?_, ?_⟩⟩
  · unfold Here at hhere
    split at hhere <;> simp_all
  · rintro u rfl
    unfold Here at hhere
    rw [hc] at hhere
    split at hhere <;> simp_all [Typed]
  · rintro rfl
    unfold Here at hhere
    rw [hc] at hhere
    split at hhere <;> simp_all [Typed]
    have hpre : (decide (f.locks = [.ptable]) && decide (f.pushed = 0)) = true := hhere.1
    rw [Bool.and_eq_true, decide_eq_true_eq] at hpre
    exact hlocks hpre.1

theorem step_sane (h : Sane s) (hl : SpinLocks.Invariant (kernel pages) s)
    {e : SpinLocks.Event C Lock Op} (ht : SpinLocks.step (kernel pages) s e = .ok t) :
    Sane t := by
  cases e with
  | step c =>
    obtain ⟨f, fs, hstack, -⟩ := hl.running c
    simp only [SpinLocks.step, hstack] at ht
    exact execute_sane h hl hstack ht
  | call c r =>
    obtain ⟨f, fs, hstack, hrun, -⟩ := hl.running c
    simp only [SpinLocks.step, hstack] at ht
    split at ht
    · rename_i hr
      obtain ⟨hnil, hr⟩ := Bool.and_eq_true _ _ ▸ hr
      have hc := List.isEmpty_iff.mp hnil
      cases ht
      refine h.quiet hl.injective hstack ?_ ?_ ?_
      · intro i is hi
        rw [hc] at hi
        cases hi
      · intro d hd hi
        rw [hd] at hr
        cases fs with
        | nil => exact idle_request hr (hc ▸ hi)
        | cons g fs => exact ⟨idle_request hr (hc ▸ hi.1), hi.2⟩
      · intro p hcur q ctl hacts hbelow hlk
        rw [hcur] at hr
        have hexp := (acts_start (start_of_nil hrun.here hc)).mp hacts
        rw [hc] at hexp
        exact ⟨(acts_start rfl).mpr (expects_request hr hexp), hbelow, hlk⟩
    · cases ht
  | interrupt c =>
    obtain ⟨f, fs, hstack, hrun, -⟩ := hl.running c
    simp only [SpinLocks.step, hstack] at ht
    split at ht
    · rename_i hm
      cases ht
      have hint := hrun.interrupted hm
      obtain ⟨haway, hhead⟩ := interrupted_stopped hint
      refine h.quiet hl.injective hstack hhead ?_ ?_
      · intro d hd hi
        exact ⟨rfl, hi⟩
      · intro p hcur q ctl hacts hbelow hlk
        have hq : q = .running := by
          by_contra hn
          have := hlk hn
          rw [locks_of_depth hint.depth] at this
          cases this
        subst hq
        exact ⟨(acts_start rfl).mpr ⟨rfl, .inl rfl⟩, ⟨(acts_iff haway).mp hacts, hbelow⟩,
          fun hn => absurd rfl hn⟩
    · cases ht
  | iret c =>
    obtain ⟨f, fs, hstack, hrun, hbelow⟩ := hl.running c
    simp only [SpinLocks.step, hstack] at ht
    cases fs with
    | nil => cases ht
    | cons g fs =>
      simp only at ht
      split at ht
      · rename_i hr
        simp only [Bool.and_eq_true] at hr
        have hc := List.isEmpty_iff.mp hr.1.1
        cases ht
        have hint := interrupted_stopped (hbelow g List.mem_cons_self)
        refine h.quiet hl.injective hstack ?_ (fun _ _ hi => hi.2) ?_
        · intro i is hi
          rw [hc] at hi
          cases hi
        · intro p hcur q ctl hacts hbelow hlk
          have hexp := (acts_start (start_of_nil hrun.here hc)).mp hacts
          rw [hc] at hexp
          obtain ⟨rfl, -⟩ := hexp
          exact ⟨(acts_iff hint.1).mpr hbelow.1, hbelow.2, fun hn => absurd rfl hn⟩
      · cases ht

theorem initial_sane (pages : FirstPages) : Sane (initial (kernel (C := C) pages)) := by
  have hstate : ∀ p, ((initial (kernel (C := C) pages)).client.table.proc p).state =
      if p = initproc then .runnable else .unused := by
    intro p
    change (if p = initproc then _ else _ : ProcessTable.Proc).state = _
    split <;> rfl
  refine ⟨ProcessTable.userinit_tableOk pages, fun c => ⟨rfl, .idle ?_ rfl rfl⟩, ?_, ?_, ?_,
    fun _ _ => rfl⟩
  · change IdleStack (if ∃ d, Thread.sched d = Thread.sched c then _ else _)
    rw [if_pos ⟨c, rfl⟩]
    exact ⟨rfl, rfl⟩
  · intro p _ hrun
    rw [hstate] at hrun
    split at hrun <;> cases hrun
  · intro p _ hact
    rw [hstate] at hact
    split at hact
    · rename_i hp
      subst hp
      refine ⟨⟨forkret, .start, [.ptable], 0, none⟩, [], ?_, ⟨fun _ => rfl, rfl, .inr rfl⟩,
        trivial⟩
      have hno : ¬ ∃ d : C, Thread.sched d = Thread.proc initproc := by
        rintro ⟨d, hd⟩
        cases hd
      exact if_neg hno
    · exact absurd hact not_active_unused
  · rintro p np (h | h) <;> cases h

theorem reachable_sane (h : Reachable (SpinLocks.step (kernel pages)) (initial (kernel pages)) s) :
    Sane s ∧ SpinLocks.Invariant (kernel pages) s := by
  have hstep : ∀ (s : State C) e t, Sane s ∧ SpinLocks.Invariant (kernel pages) s →
      SpinLocks.step (kernel pages) s e = .ok t →
        Sane t ∧ SpinLocks.Invariant (kernel pages) t := fun s e t hs ht =>
    ⟨step_sane hs.1 hs.2 ht, step_invariant (kernel_sound pages) hs.2 ht⟩
  exact GuardedRuns.reachable_invariant hstep
    ⟨initial_sane pages, initial_invariant (kernel_sound pages)⟩ h

def loaded : FirstPages := ⟨20480, 24576, Nat.succ_ne_zero _, Nat.succ_ne_zero _⟩

def twoKernels : Client (Fin 2) (Thread (Fin 2)) Lock Op (Kernel (Fin 2)) := kernel loaded

def cpu0 : Fin 2 := ⟨0, Nat.two_pos⟩

def cpu1 : Fin 2 := ⟨1, Nat.one_lt_two⟩

/-- The first processor has started init, which goes back to user code. -/
def initRuns : List (SpinLocks.Event (Fin 2) Lock Op) := List.replicate 27 (.step cpu0)

/-- Init forks, and the second processor takes the child. -/
def childRuns : List (SpinLocks.Event (Fin 2) Lock Op) :=
  initRuns ++ .call cpu0 (.op (.fork 28672 32768)) :: List.replicate 53 (.step cpu0) ++
    List.replicate 28 (.step cpu1)

end Operations

end SchedulingSafety
