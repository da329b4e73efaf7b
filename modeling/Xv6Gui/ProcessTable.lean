import Xv6Gui.WindowManagerState
import Xv6Gui.GuardedRuns
import Mathlib.Data.List.FinRange

/-!
# The process table

fork, exit, wait, kill and the scheduler of proc.c, one critical section a step; a process
in the middle of fork or asleep in wait keeps its place in `control`. Addresses are numbers,
0 for null. Files, trap frame, context and name do not decide which slots are in use.
-/
namespace ProcessTable

open WindowManagerState GuardedRuns

inductive ProcState where
  | unused | embryo | sleeping | runnable | running | zombie
  deriving DecidableEq, Repr

inductive Chan where
  | proc (p : ProcId)
  | other (chan : ℕ)
  deriving DecidableEq, Repr

structure Proc where
  state : ProcState
  pid : ℤ
  kstack : ℕ
  pgdir : ℕ
  parent : Option ProcId
  chan : Option Chan
  killed : Bool
  deriving DecidableEq, Repr

/-- Where a process is in the kernel between two of its sections: in fork with the new slot
reserved, given a stack or given a copy of the memory, or in the loop of wait. -/
inductive Control where
  | user
  | allocated (np : ProcId)
  | stacked (np : ProcId)
  | copied (np : ProcId)
  | waiting
  deriving DecidableEq, Repr

structure PTable where
  proc : ProcId → Proc
  nextpid : ℤ
  control : ProcId → Control

/-- What the first `kalloc` and `setupkvm` return; `userinit` panics on null. -/
structure FirstPages where
  kstack : ℕ
  pgdir : ℕ
  kstack_ne : kstack ≠ 0
  pgdir_ne : pgdir ≠ 0

def initproc : ProcId := 0

def zeroProc : Proc := ⟨.unused, 0, 0, 0, none, none, false⟩

/-- The table after `userinit`, which takes the first slot. -/
def userinit (pages : FirstPages) : PTable where
  proc p := if p = initproc then ⟨.runnable, 1, pages.kstack, pages.pgdir, none, none, false⟩
    else zeroProc
  nextpid := 2
  control _ := .user

def updateProc (s : PTable) (p : ProcId) (f : Proc → Proc) : PTable :=
  { s with proc := Function.update s.proc p (f (s.proc p)) }

def setControl (s : PTable) (p : ProcId) (c : Control) : PTable :=
  { s with control := Function.update s.control p c }

/-- The first slot, in the order of the table, that a loop stops at. -/
def findProc (P : ProcId → Bool) : Option ProcId := (List.finRange nproc).find? P

def switchuvm (s : PTable) : Option ProcId → Except Fault Unit
  | none => .error (.panic "switchuvm: no process")
  | some p =>
    if (s.proc p).kstack = 0 then .error (.panic "switchuvm: no kstack")
    else if (s.proc p).pgdir = 0 then .error (.panic "switchuvm: no pgdir")
    else .ok ()

/-- The locked section of `allocproc`. -/
def allocproc (s : PTable) : Option (ProcId × PTable) :=
  (findProc fun p => (s.proc p).state == .unused).map fun np =>
    (np, { updateProc s np fun q => { q with state := .embryo, pid := s.nextpid } with
      nextpid := i32 (s.nextpid + 1) })

def forkAlloc (s : PTable) (p : ProcId) : PTable :=
  match allocproc s with
  | none => s
  | some (np, s) => setControl s p (.allocated np)

/-- The stack `kalloc` returned, null when there is none. -/
def forkStack (s : PTable) (p : ProcId) (kstack : ℕ) : PTable :=
  match s.control p with
  | .allocated np =>
    if kstack = 0 then
      setControl (updateProc s np fun q => { q with kstack := 0, state := .unused }) p .user
    else setControl (updateProc s np fun q => { q with kstack := kstack }) p (.stacked np)
  | _ => s

/-- The page directory `copyuvm` returned, null when memory ran out. -/
def forkMemory (s : PTable) (p : ProcId) (pgdir : ℕ) : PTable :=
  match s.control p with
  | .stacked np =>
    if pgdir = 0 then
      setControl (updateProc s np fun q =>
        { q with pgdir := 0, kstack := 0, state := .unused }) p .user
    else
      setControl (updateProc s np fun q => { q with pgdir := pgdir, parent := some p }) p
        (.copied np)
  | _ => s

def forkFinish (s : PTable) (p : ProcId) : PTable :=
  match s.control p with
  | .copied np => setControl (updateProc s np fun q => { q with state := .runnable }) p .user
  | _ => s

def wakeup1 (s : PTable) (chan : Option Chan) : PTable :=
  { s with proc := fun p =>
      if (s.proc p).state = .sleeping ∧ (s.proc p).chan = chan
      then { s.proc p with state := .runnable } else s.proc p }

/-- The zombie child that a pass of wait's loop finds. -/
def zombieChild (s : PTable) (p : ProcId) : Option ProcId :=
  findProc fun q => (s.proc q).parent == some p && (s.proc q).state == .zombie

def passChildren (s : PTable) (p : ProcId) : PTable :=
  { s with proc := fun q =>
      if (s.proc q).parent = some p then { s.proc q with parent := some initproc }
      else s.proc q }

/-- Pass abandoned children to init, and wake it if one of them is a zombie. -/
def reparent (s : PTable) (p : ProcId) : PTable :=
  if (zombieChild s p).isSome then wakeup1 (passChildren s p) (some (.proc initproc))
  else passChildren s p

def exit (s : PTable) (p : ProcId) : Except Fault PTable :=
  if p = initproc then .error (.panic "init exiting")
  else
    let s := wakeup1 s ((s.proc p).parent.map .proc)
    let s := reparent s p
    .ok (updateProc s p fun q => { q with state := .zombie })

def reap (s : PTable) (c : ProcId) : PTable :=
  updateProc s c fun q =>
    { q with kstack := 0, pid := 0, parent := none, killed := false, state := .unused }

/-- One pass of wait's loop, up to the return or the sleep. -/
def wait (s : PTable) (p : ProcId) : PTable :=
  match zombieChild s p with
  | some c => setControl (reap s c) p .user
  | none =>
    let havekids := (findProc fun q => (s.proc q).parent == some p).isSome
    if ¬havekids ∨ (s.proc p).killed then setControl s p .user
    else setControl (updateProc s p fun q =>
      { q with chan := some (.proc p), state := .sleeping }) p .waiting

def kill (s : PTable) (pid : ℤ) : PTable :=
  match findProc fun q => (s.proc q).pid == pid with
  | none => s
  | some q => updateProc s q fun q =>
      { q with killed := true, state := if q.state = .sleeping then .runnable else q.state }

/-- The scheduler resumes `p`, which clears its channel if it comes out of `sleep`. -/
def schedule (s : PTable) (p : ProcId) : Except Fault PTable := do
  switchuvm s (some p)
  return updateProc s p fun q => { q with state := .running, chan := none }

/-- The page directory of the new image, null when exec fails before it commits. -/
def exec (s : PTable) (p : ProcId) (pgdir : ℕ) : Except Fault PTable :=
  if pgdir = 0 then .ok s
  else do
    let s := updateProc s p fun q => { q with pgdir := pgdir }
    switchuvm s (some p)
    return s

inductive Event where
  | schedule (p : ProcId)
  | yield (p : ProcId)
  | sleep (p : ProcId) (chan : ℕ)
  | wakeup (chan : ℕ)
  | kill (p : ProcId) (pid : ℤ)
  | forkAlloc (p : ProcId)
  | forkStack (p : ProcId) (kstack : ℕ)
  | forkMemory (p : ProcId) (pgdir : ℕ)
  | forkFinish (p : ProcId)
  | exec (p : ProcId) (pgdir : ℕ)
  | exit (p : ProcId)
  | wait (p : ProcId)
  deriving DecidableEq

def InUser (s : PTable) (p : ProcId) : Prop :=
  (s.proc p).state = .running ∧ s.control p = .user

instance (s : PTable) (p : ProcId) : Decidable (InUser s p) :=
  inferInstanceAs (Decidable (_ ∧ _))

/-- A process takes a step of its own only while it runs and from its own place. -/
def Enabled (s : PTable) : Event → Prop
  | .schedule p => (s.proc p).state = .runnable
  | .yield p => (s.proc p).state = .running
  | .sleep p _ | .kill p _ | .forkAlloc p | .exec p _ | .exit p => InUser s p
  | .wakeup _ => True
  | .forkStack p _ => (s.proc p).state = .running ∧ ∃ np, s.control p = .allocated np
  | .forkMemory p _ => (s.proc p).state = .running ∧ ∃ np, s.control p = .stacked np
  | .forkFinish p => (s.proc p).state = .running ∧ ∃ np, s.control p = .copied np
  | .wait p => (s.proc p).state = .running ∧ (s.control p = .user ∨ s.control p = .waiting)

instance (s : PTable) : (e : Event) → Decidable (Enabled s e)
  | .schedule _ | .yield _ => inferInstanceAs (Decidable (_ = _))
  | .sleep p _ | .kill p _ | .forkAlloc p | .exec p _ | .exit p =>
    inferInstanceAs (Decidable (InUser s p))
  | .wakeup _ => inferInstanceAs (Decidable True)
  | .forkStack _ _ | .forkMemory _ _ | .forkFinish _ | .wait _ =>
    inferInstanceAs (Decidable (_ ∧ _))

def step (s : PTable) : Event → Except Fault PTable
  | .schedule p => schedule s p
  | .yield p => .ok (updateProc s p fun q => { q with state := .runnable })
  | .sleep p chan => .ok (updateProc s p fun q =>
      { q with chan := some (.other chan), state := .sleeping })
  | .wakeup chan => .ok (wakeup1 s (some (.other chan)))
  | .kill _ pid => .ok (kill s pid)
  | .forkAlloc p => .ok (forkAlloc s p)
  | .forkStack p kstack => .ok (forkStack s p kstack)
  | .forkMemory p pgdir => .ok (forkMemory s p pgdir)
  | .forkFinish p => .ok (forkFinish s p)
  | .exec p pgdir => exec s p pgdir
  | .exit p => exit s p
  | .wait p => .ok (wait s p)

section Invariant

variable {s t u : PTable} {p q np : ProcId} {e : Event}

def Control.reserved : Control → Option ProcId
  | .allocated np | .stacked np | .copied np => some np
  | .user | .waiting => none

/-- A slot that fork has completed and wait has not reaped. -/
def Settled (q : Proc) : Prop := q.state ≠ .unused ∧ q.state ≠ .embryo

structure TableOk (s : PTable) : Prop where
  settled : ∀ p, Settled (s.proc p) → (s.proc p).kstack ≠ 0 ∧ (s.proc p).pgdir ≠ 0
  embryo : ∀ p np, (s.control p).reserved = some np → (s.proc np).state = .embryo
  stack : ∀ p np, s.control p = .stacked np ∨ s.control p = .copied np →
    (s.proc np).kstack ≠ 0
  memory : ∀ p np, s.control p = .copied np → (s.proc np).pgdir ≠ 0
  distinct : ∀ p q np, (s.control p).reserved = some np → (s.control q).reserved = some np →
    p = q

/-- No slot enters or leaves use, and no fork makes progress. -/
structure Calm (s t : PTable) : Prop where
  kstack : ∀ q, (t.proc q).kstack = (s.proc q).kstack
  pgdir : ∀ q, (t.proc q).pgdir = (s.proc q).pgdir
  unused : ∀ q, (t.proc q).state = .unused ↔ (s.proc q).state = .unused
  embryo : ∀ q, (t.proc q).state = .embryo ↔ (s.proc q).state = .embryo
  control : ∀ q, t.control q = s.control q ∨
    (s.control q).reserved = none ∧ (t.control q).reserved = none

theorem Calm.refl (s : PTable) : Calm s s :=
  ⟨fun _ => rfl, fun _ => rfl, fun _ => Iff.rfl, fun _ => Iff.rfl, fun _ => Or.inl rfl⟩

theorem Calm.trans (h : Calm s t) (k : Calm t u) : Calm s u where
  kstack q := (k.kstack q).trans (h.kstack q)
  pgdir q := (k.pgdir q).trans (h.pgdir q)
  unused q := (k.unused q).trans (h.unused q)
  embryo q := (k.embryo q).trans (h.embryo q)
  control q := by
    rcases k.control q with hk | ⟨hk, hk'⟩ <;> rcases h.control q with hh | ⟨hh, hh'⟩
    · exact Or.inl (hk.trans hh)
    · exact Or.inr ⟨hh, hk ▸ hh'⟩
    · exact Or.inr ⟨hh ▸ hk, hk'⟩
    · exact Or.inr ⟨hh, hk'⟩

theorem Calm.settled_iff (h : Calm s t) (q : ProcId) : Settled (t.proc q) ↔ Settled (s.proc q) :=
  and_congr (not_congr (h.unused q)) (not_congr (h.embryo q))

theorem Calm.tableOk (h : Calm s t) (hs : TableOk s) : TableOk t := by
  have hres : ∀ {q np}, (t.control q).reserved = some np → t.control q = s.control q :=
    fun {q np} hq => (h.control q).resolve_right fun hn => by simp [hn.2] at hq
  refine ⟨?_, ?_, ?_, ?_, ?_⟩
  · intro p hp
    rw [h.kstack, h.pgdir]
    exact hs.settled p ((h.settled_iff p).mp hp)
  · intro p np hp
    exact (h.embryo np).mpr (hs.embryo p np (hres hp ▸ hp))
  · intro p np hp
    have hc : (t.control p).reserved = some np := by rcases hp with hp | hp <;> rw [hp] <;> rfl
    rw [h.kstack]
    exact hs.stack p np (hres hc ▸ hp)
  · intro p np hp
    have hc : (t.control p).reserved = some np := by rw [hp]; rfl
    rw [h.pgdir]
    exact hs.memory p np (hres hc ▸ hp)
  · intro p q np hp hq
    exact hs.distinct p q np (hres hp ▸ hp) (hres hq ▸ hq)

/-- The state of `p` may change, but not into or out of a slot that is not settled. -/
theorem calm_updateProc {f : Proc → Proc} (hk : (f (s.proc p)).kstack = (s.proc p).kstack)
    (hp : (f (s.proc p)).pgdir = (s.proc p).pgdir)
    (hu : (f (s.proc p)).state = .unused ↔ (s.proc p).state = .unused)
    (he : (f (s.proc p)).state = .embryo ↔ (s.proc p).state = .embryo) :
    Calm s (updateProc s p f) := by
  have hof : ∀ {q}, q ≠ p → (updateProc s p f).proc q = s.proc q := fun hq =>
    Function.update_of_ne hq _ _
  have hself : (updateProc s p f).proc p = f (s.proc p) := Function.update_self _ _ _
  refine ⟨fun q => ?_, fun q => ?_, fun q => ?_, fun q => ?_, fun _ => Or.inl rfl⟩ <;>
    by_cases hq : q = p
  · rw [hq, hself, hk]
  · rw [hof hq]
  · rw [hq, hself, hp]
  · rw [hof hq]
  · rw [hq, hself, hu]
  · rw [hof hq]
  · rw [hq, hself, he]
  · rw [hof hq]

theorem calm_wakeup1 (s : PTable) (chan : Option Chan) : Calm s (wakeup1 s chan) := by
  refine ⟨fun q => ?_, fun q => ?_, fun q => ?_, fun q => ?_, fun _ => Or.inl rfl⟩ <;>
    simp only [wakeup1] <;> split <;> simp_all

theorem calm_passChildren (s : PTable) (p : ProcId) : Calm s (passChildren s p) := by
  refine ⟨fun q => ?_, fun q => ?_, fun q => ?_, fun q => ?_, fun _ => Or.inl rfl⟩ <;>
    simp only [passChildren] <;> split <;> rfl

theorem calm_reparent (s : PTable) (p : ProcId) : Calm s (reparent s p) := by
  simp only [reparent]
  split
  · exact (calm_passChildren s p).trans (calm_wakeup1 _ _)
  · exact calm_passChildren s p

theorem calm_of_settled {f : Proc → Proc} (hk : (f (s.proc p)).kstack = (s.proc p).kstack)
    (hp : (f (s.proc p)).pgdir = (s.proc p).pgdir) (h : Settled (s.proc p))
    (h' : Settled (f (s.proc p))) : Calm s (updateProc s p f) :=
  calm_updateProc hk hp (iff_of_false h'.1 h.1) (iff_of_false h'.2 h.2)

theorem calm_setControl {c : Control} (hs : (s.control p).reserved = none)
    (hc : c.reserved = none) : Calm s (setControl s p c) := by
  refine { Calm.refl s with control := ?_ }
  intro q
  by_cases hq : q = p
  · subst hq
    refine Or.inr ⟨hs, ?_⟩
    rw [show (setControl s q c).control q = c from Function.update_self _ _ _, hc]
  · exact Or.inl (Function.update_of_ne hq _ _)

/-- All that a step can do to the slots in use. -/
inductive Effect (s : PTable) : Event → PTable → Prop where
  | calm {e : Event} {t : PTable} : Calm s t → Effect s e t
  | allocated {p np : ProcId} : (s.proc np).state = .unused →
      Effect s (.forkAlloc p) { setControl (updateProc s np fun q =>
        { q with state := .embryo, pid := s.nextpid }) p (.allocated np) with
        nextpid := i32 (s.nextpid + 1) }
  | noStack {p np : ProcId} {kstack : ℕ} : s.control p = .allocated np →
      Effect s (.forkStack p kstack)
        (setControl (updateProc s np fun q => { q with kstack := 0, state := .unused }) p .user)
  | stacked {p np : ProcId} {kstack : ℕ} : s.control p = .allocated np → kstack ≠ 0 →
      Effect s (.forkStack p kstack)
        (setControl (updateProc s np fun q => { q with kstack := kstack }) p (.stacked np))
  | noMemory {p np : ProcId} {pgdir : ℕ} : s.control p = .stacked np →
      Effect s (.forkMemory p pgdir) (setControl (updateProc s np fun q =>
        { q with pgdir := 0, kstack := 0, state := .unused }) p .user)
  | copied {p np : ProcId} {pgdir : ℕ} : s.control p = .stacked np → pgdir ≠ 0 →
      Effect s (.forkMemory p pgdir) (setControl (updateProc s np fun q =>
        { q with pgdir := pgdir, parent := some p }) p (.copied np))
  | forked {p np : ProcId} : s.control p = .copied np →
      Effect s (.forkFinish p)
        (setControl (updateProc s np fun q => { q with state := .runnable }) p .user)
  | execed {p : ProcId} {pgdir : ℕ} : InUser s p → pgdir ≠ 0 →
      Effect s (.exec p pgdir) (updateProc s p fun q => { q with pgdir := pgdir })
  | reaped {p c : ProcId} : zombieChild s p = some c →
      Effect s (.wait p) (setControl (reap s c) p .user)

theorem findProc_some {P : ProcId → Bool} (h : findProc P = some p) : P p = true :=
  List.find?_some h

theorem zombieChild_state (h : zombieChild s p = some q) : (s.proc q).state = .zombie := by
  have hq := findProc_some h
  simp only [Bool.and_eq_true, beq_iff_eq] at hq
  exact hq.2

theorem settled_of_running (h : (s.proc p).state = .running) : Settled (s.proc p) := by
  simp [Settled, h]

theorem wait_effect (h : Enabled s (.wait p)) : Effect s (.wait p) (wait s p) := by
  have hres : (s.control p).reserved = none := by rcases h.2 with hc | hc <;> rw [hc] <;> rfl
  rw [wait]
  split
  · next c hc => exact .reaped hc
  · dsimp only
    split
    · exact .calm (calm_setControl hres rfl)
    · refine .calm (Calm.trans (calm_of_settled rfl rfl (settled_of_running h.1) ?_)
        (calm_setControl hres rfl))
      simp [Settled]

theorem exit_calm (h : InUser s p) (ht : exit s p = .ok t) : Calm s t := by
  simp only [exit] at ht
  split at ht
  · cases ht
  · have hcalm := (calm_wakeup1 s ((s.proc p).parent.map .proc)).trans (calm_reparent _ p)
    cases ht
    refine hcalm.trans (calm_of_settled rfl rfl ?_ (by simp [Settled]))
    exact (hcalm.settled_iff p).mpr (settled_of_running h.1)

theorem kill_calm (pid : ℤ) : Calm s (kill s pid) := by
  simp only [kill]
  split
  · exact Calm.refl s
  · refine calm_updateProc rfl rfl ?_ ?_ <;> dsimp only <;> split <;> simp_all

theorem step_effect (h : Enabled s e) (ht : step s e = .ok t) : Effect s e t := by
  cases e with
  | schedule p =>
    obtain ⟨_, _, ht⟩ := bind_eq_ok.mp ht
    cases ht
    have hp : (s.proc p).state = .runnable := h
    exact .calm (calm_of_settled rfl rfl (by simp [Settled, hp]) (by simp [Settled]))
  | yield p =>
    cases ht
    exact .calm (calm_of_settled rfl rfl (settled_of_running h) (by simp [Settled]))
  | sleep p chan =>
    cases ht
    exact .calm (calm_of_settled rfl rfl (settled_of_running h.1) (by simp [Settled]))
  | wakeup chan =>
    cases ht
    exact .calm (calm_wakeup1 s _)
  | kill p pid =>
    cases ht
    exact .calm (kill_calm pid)
  | forkAlloc p =>
    cases ht
    simp only [forkAlloc, allocproc]
    cases hf : findProc fun p => (s.proc p).state == .unused with
    | none => exact .calm (Calm.refl s)
    | some np => exact .allocated (by simpa using findProc_some hf)
  | forkStack p kstack =>
    obtain ⟨_, np, hc⟩ := h
    cases ht
    simp only [forkStack, hc]
    split
    · exact .noStack hc
    · next hk => exact .stacked hc hk
  | forkMemory p pgdir =>
    obtain ⟨_, np, hc⟩ := h
    cases ht
    simp only [forkMemory, hc]
    split
    · exact .noMemory hc
    · next hd => exact .copied hc hd
  | forkFinish p =>
    obtain ⟨_, np, hc⟩ := h
    cases ht
    simp only [forkFinish, hc]
    exact .forked hc
  | exec p pgdir =>
    rw [step, exec] at ht
    split at ht
    · cases ht
      exact .calm (Calm.refl s)
    · next hd =>
      obtain ⟨_, _, ht⟩ := bind_eq_ok.mp ht
      cases ht
      exact .execed h hd
  | exit p => exact .calm (exit_calm h ht)
  | wait p =>
    cases ht
    exact wait_effect h

/-- Work of one process on one slot, with nobody else at work there. -/
theorem tableOk_update (h : TableOk s) (f : Proc → Proc) (c : Control) (n : ℤ)
    (hother : ∀ q, q ≠ p → (s.control q).reserved ≠ some np)
    (hsettled : Settled (f (s.proc np)) →
      (f (s.proc np)).kstack ≠ 0 ∧ (f (s.proc np)).pgdir ≠ 0)
    (hembryo : ∀ m, c.reserved = some m → m = np ∧ (f (s.proc np)).state = .embryo)
    (hstack : c ≠ .allocated np → c.reserved = some np → (f (s.proc np)).kstack ≠ 0)
    (hmemory : c = .copied np → (f (s.proc np)).pgdir ≠ 0) :
    TableOk { setControl (updateProc s np f) p c with nextpid := n } := by
  have hself : (updateProc s np f).proc np = f (s.proc np) := Function.update_self _ _ _
  have hof : ∀ {q}, q ≠ np → (updateProc s np f).proc q = s.proc q := fun hq =>
    Function.update_of_ne hq _ _
  have hctl : Function.update s.control p c p = c := Function.update_self _ _ _
  have hctlof : ∀ {q}, q ≠ p → Function.update s.control p c q = s.control q := fun hq =>
    Function.update_of_ne hq _ _
  have hfar : ∀ {q m}, q ≠ p → (s.control q).reserved = some m → m ≠ np := fun hq hm he =>
    hother _ hq (he ▸ hm)
  refine ⟨?_, ?_, ?_, ?_, ?_⟩
  · intro q hq
    change Settled ((updateProc s np f).proc q) at hq
    change ((updateProc s np f).proc q).kstack ≠ 0 ∧ ((updateProc s np f).proc q).pgdir ≠ 0
    by_cases he : q = np
    · rw [he, hself] at hq ⊢
      exact hsettled hq
    · rw [hof he] at hq ⊢
      exact h.settled q hq
  · intro q m hm
    change (Function.update s.control p c q).reserved = some m at hm
    change ((updateProc s np f).proc m).state = .embryo
    by_cases he : q = p
    · rw [he, hctl] at hm
      obtain ⟨rfl, hs⟩ := hembryo m hm
      rwa [hself]
    · rw [hctlof he] at hm
      rw [hof (hfar he hm)]
      exact h.embryo q m hm
  · intro q m hm
    change Function.update s.control p c q = .stacked m ∨
      Function.update s.control p c q = .copied m at hm
    change ((updateProc s np f).proc m).kstack ≠ 0
    by_cases he : q = p
    · rw [he, hctl] at hm
      have hm' : c.reserved = some m := by rcases hm with hm | hm <;> rw [hm] <;> rfl
      obtain ⟨rfl, _⟩ := hembryo m hm'
      rw [hself]
      exact hstack (by rcases hm with hm | hm <;> simp [hm]) hm'
    · rw [hctlof he] at hm
      have hm' : (s.control q).reserved = some m := by rcases hm with hm | hm <;> rw [hm] <;> rfl
      rw [hof (hfar he hm')]
      exact h.stack q m hm
  · intro q m hm
    change Function.update s.control p c q = .copied m at hm
    change ((updateProc s np f).proc m).pgdir ≠ 0
    by_cases he : q = p
    · rw [he, hctl] at hm
      obtain ⟨rfl, _⟩ := hembryo m (by rw [hm]; rfl)
      rw [hself]
      exact hmemory hm
    · rw [hctlof he] at hm
      rw [hof (hfar he (by rw [hm]; rfl))]
      exact h.memory q m hm
  · intro q r m hq hr
    change (Function.update s.control p c q).reserved = some m at hq
    change (Function.update s.control p c r).reserved = some m at hr
    by_cases hqp : q = p <;> by_cases hrp : r = p
    · rw [hqp, hrp]
    · rw [hqp, hctl] at hq
      rw [hctlof hrp] at hr
      exact absurd (hembryo m hq).1 (hfar hrp hr)
    · rw [hrp, hctl] at hr
      rw [hctlof hqp] at hq
      exact absurd (hembryo m hr).1 (hfar hqp hq)
    · rw [hctlof hqp] at hq
      rw [hctlof hrp] at hr
      exact h.distinct q r m hq hr

theorem reserved_alone (h : TableOk s) (hp : (s.control p).reserved = some np) :
    ∀ q, q ≠ p → (s.control q).reserved ≠ some np :=
  fun q hq hn => hq (h.distinct q p np hn hp)

theorem unreserved_alone (h : TableOk s) (hn : (s.proc np).state ≠ .embryo) :
    ∀ q, q ≠ p → (s.control q).reserved ≠ some np :=
  fun q _ hr => hn (h.embryo q np hr)

theorem effect_tableOk (h : TableOk s) (he : Effect s e t) : TableOk t := by
  have hfree : ∀ m : ProcId, Control.user.reserved = some m → False := fun _ hm => by cases hm
  cases he with
  | calm hc => exact hc.tableOk h
  | allocated hn =>
    refine tableOk_update h (fun q => { q with state := .embryo, pid := s.nextpid })
      (.allocated _) _ (unreserved_alone h (by simp [hn])) ?_ ?_
      (fun hne _ => absurd rfl hne) (fun hm => by cases hm)
    · intro hs
      exact absurd rfl hs.2
    · intro m hm
      cases hm
      exact ⟨rfl, rfl⟩
  | noStack hc =>
    exact tableOk_update h (fun q => { q with kstack := 0, state := .unused }) .user s.nextpid
      (reserved_alone h (by rw [hc]; rfl))
      (fun hs => absurd rfl hs.1) (fun m hm => (hfree m hm).elim) (fun _ hm => (hfree _ hm).elim)
      (fun hm => by cases hm)
  | @stacked p np kstack hc hk =>
    have hembryo := h.embryo p np (by rw [hc]; rfl)
    refine tableOk_update h (fun q => { q with kstack := kstack }) (.stacked np) s.nextpid
      (reserved_alone h (by rw [hc]; rfl)) (fun hs => absurd hembryo hs.2) ?_
      (fun _ _ => hk) (fun hm => by cases hm)
    intro m hm
    cases hm
    exact ⟨rfl, hembryo⟩
  | noMemory hc =>
    exact tableOk_update h (fun q => { q with pgdir := 0, kstack := 0, state := .unused }) .user
      s.nextpid (reserved_alone h (by rw [hc]; rfl))
      (fun hs => absurd rfl hs.1) (fun m hm => (hfree m hm).elim) (fun _ hm => (hfree _ hm).elim)
      (fun hm => by cases hm)
  | @copied p np pgdir hc hd =>
    have hembryo := h.embryo p np (by rw [hc]; rfl)
    refine tableOk_update h (fun q => { q with pgdir := pgdir, parent := some p }) (.copied np)
      s.nextpid (reserved_alone h (by rw [hc]; rfl)) (fun hs => absurd hembryo hs.2)
      (fun m hm => ?_)
      (fun _ _ => h.stack p np (Or.inl hc)) (fun _ => hd)
    cases hm
    exact ⟨rfl, hembryo⟩
  | @forked p np hc =>
    exact tableOk_update h (fun q => { q with state := .runnable }) .user s.nextpid
      (reserved_alone h (by rw [hc]; rfl))
      (fun _ => ⟨h.stack p np (Or.inr hc), h.memory p np hc⟩)
      (fun m hm => (hfree m hm).elim)
      (fun _ hm => (hfree _ hm).elim) (fun hm => by cases hm)
  | @execed p pgdir hu hd =>
    have hrun := settled_of_running hu.1
    have huser : updateProc s p (fun q => { q with pgdir := pgdir }) =
        setControl (updateProc s p fun q => { q with pgdir := pgdir }) p .user := by
      simp [setControl, updateProc, ← hu.2]
    rw [huser]
    exact tableOk_update h (fun q => { q with pgdir := pgdir }) .user s.nextpid
      (unreserved_alone h hrun.2) (fun _ => ⟨(h.settled p hrun).1, hd⟩)
      (fun m hm => (hfree m hm).elim) (fun _ hm => (hfree _ hm).elim) (fun hm => by cases hm)
  | reaped hz =>
    have hstate := zombieChild_state hz
    exact tableOk_update h (fun q => { q with
      kstack := 0, pid := 0, parent := none, killed := false, state := .unused }) .user s.nextpid
      (unreserved_alone h (by simp [hstate]))
      (fun hs => absurd rfl hs.1) (fun m hm => (hfree m hm).elim) (fun _ hm => (hfree _ hm).elim)
      (fun hm => by cases hm)

theorem step_tableOk (h : TableOk s) (he : Enabled s e) (ht : step s e = .ok t) : TableOk t :=
  effect_tableOk h (step_effect he ht)

/-- A slot in use stays in use unless `wait` reaps it. -/
theorem step_settled (h : TableOk s) (he : Enabled s e) (ht : step s e = .ok t)
    (hq : Settled (s.proc q)) (hw : ∀ p, e = .wait p → zombieChild s p ≠ some q) :
    Settled (t.proc q) := by
  have hwork : ∀ {np : ProcId} {v : Proc}, q ≠ np → Settled (Function.update s.proc np v q) :=
    fun hne => by rwa [Function.update_of_ne hne]
  have hembryo : ∀ {p np : ProcId}, (s.control p).reserved = some np → q ≠ np :=
    fun hp he => hq.2 (he ▸ h.embryo _ _ hp)
  cases step_effect he ht with
  | calm hc => exact (hc.settled_iff q).mpr hq
  | allocated hn => exact hwork fun he => hq.1 (he ▸ hn)
  | noStack hc => exact hwork (hembryo (by rw [hc]; rfl))
  | stacked hc _ => exact hwork (hembryo (by rw [hc]; rfl))
  | noMemory hc => exact hwork (hembryo (by rw [hc]; rfl))
  | copied hc _ => exact hwork (hembryo (by rw [hc]; rfl))
  | forked hc => exact hwork (hembryo (by rw [hc]; rfl))
  | @execed p pgdir hu _ =>
    by_cases hqp : q = p
    · subst hqp
      change Settled (Function.update s.proc q { s.proc q with pgdir := pgdir } q)
      rw [Function.update_self]
      exact hq
    · exact hwork hqp
  | reaped hz => exact hwork fun he => hw _ rfl (he ▸ hz)

theorem userinit_tableOk (pages : FirstPages) : TableOk (userinit pages) where
  settled p hp := by
    by_cases h : p = initproc
    · subst h
      exact ⟨pages.kstack_ne, pages.pgdir_ne⟩
    · exact absurd (by simp [userinit, h, zeroProc]) hp.1
  embryo p np hp := by cases hp
  stack p np hp := by rcases hp with hp | hp <;> cases hp
  memory p np hp := by cases hp
  distinct p q np hp := by cases hp

/-- The scheduler never switches to a process without stack or memory. -/
theorem schedule_ok (h : TableOk s) (he : Enabled s (.schedule p)) :
    ∃ t, step s (.schedule p) = .ok t := by
  have hp : (s.proc p).state = .runnable := he
  obtain ⟨hk, hd⟩ := h.settled p (by simp [Settled, hp])
  exact ⟨_, by simp [step, schedule, switchuvm, hk, hd]; rfl⟩

end Invariant

end ProcessTable
