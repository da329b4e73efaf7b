import Xv6Gui.ProcessTable
import Xv6Gui.SpinLocks

/-!
# Processes on several processors

The scheduler of each processor and the kernel side of each process are threads of the machine
of `SpinLocks`: scheduler, sched, yield, sleep, wakeup, fork, exit, wait and kill in the steps
between which another processor may act. What a section under ptable.lock does to the process
table is the section of `ProcessTable`, whose `control` is history here. A page directory is
named by its slot, the kernel's by none.
-/
namespace Scheduling

open WindowManagerState (ProcId nproc)
open ProcessTable (PTable ProcState Control Chan FirstPages updateProc setControl initproc)
open SpinLocks GuardedRuns

variable {C : Type} [DecidableEq C]

inductive Lock where
  | ptable
  | other (lk : ℕ)
  deriving DecidableEq, Repr

inductive Thread (C : Type) where
  | sched (c : C)
  | proc (p : ProcId)
  deriving DecidableEq

/-- Where a section of proc.c begins that other processors may see as a whole. `fork` is given
what kalloc and copyuvm will return. -/
inductive Op where
  | scheduler
  | loop
  | scan (ps : List ProcId)
  | back
  | clock
  | giveUp
  | notRunning
  | sleep (chan : ℕ) (lk : ℕ)
  | fallAsleep (chan : ℕ) (lk : ℕ)
  | clearChan
  | wakeup (chan : ℕ)
  | wakeup1 (chan : ℕ)
  | kill (pid : ℤ)
  | mark (pid : ℤ)
  | exit
  | die
  | zombieExit
  | wait
  | look
  | fork (kstack pgdir : ℕ)
  | alloc (kstack pgdir : ℕ)
  | stack (kstack pgdir : ℕ)
  | memory (pgdir : ℕ)
  | ready
  deriving DecidableEq

structure Kernel (C : Type) where
  table : PTable
  proc : C → Option ProcId
  cr3 : C → Option ProcId

abbrev Code (C : Type) := SpinLocks.Code (Thread C) Lock Op

abbrev Effect (C : Type) := SpinLocks.Effect (Thread C) Lock Op (Kernel C)

/-- myproc() makes no other access that anyone sees. -/
def myproc : Code C := [.pushcli, .popcli]

def sched : Code C := myproc ++
  [.pushcli, .test .ptable .sched, .checkNcli, .op .notRunning, .checkFlag, .switchBack]

def yield : Code C := acquire .ptable ++ myproc ++ .op .giveUp :: sched ++ release .ptable

/-- sleep(chan, lk) after its two tests, for a lock other than ptable.lock. -/
def sleepWith (chan lk : ℕ) : Code C :=
  acquire .ptable ++ release (.other lk) ++ .op (.fallAsleep chan lk) :: sched ++
    .op .clearChan :: release .ptable ++ acquire (.other lk)

/-- A new process starts in forkret. -/
def forkret : Code C := release .ptable

def slots : List ProcId := List.finRange nproc

def Kernel.setTable (s : Kernel C) (t : PTable) : Kernel C := { s with table := t }

def Kernel.clearChan (s : Kernel C) (p : ProcId) : Kernel C :=
  s.setTable (updateProc s.table p fun q => { q with chan := none })

/-- c->proc = p, switchuvm(p) and p->state = RUNNING. -/
def Kernel.run (s : Kernel C) (c : C) (p : ProcId) : Kernel C where
  table := updateProc s.table p fun q => { q with state := .running }
  proc := Function.update s.proc c (some p)
  cr3 := Function.update s.cr3 c (some p)

def tableOp (s : Kernel C) (e : ProcessTable.Event) : Except Fault PTable :=
  match ProcessTable.step s.table e with
  | .ok t => .ok t
  | .error (.panic text) => .error (.panic text)
  | .error _ => .error .nullPointer

def curproc (s : Kernel C) (c : C) : Except Fault ProcId :=
  match s.proc c with
  | some p => .ok p
  | none => .error .nullPointer

def plain (s : Kernel C) (code : Code C) : Except Fault (Effect C) := .ok ⟨s, code, none⟩

/-- A freed page directory must not be loaded on any processor. -/
def reap [Fintype C] (s : Kernel C) (child : ProcId) (t : PTable) : Except Fault (Effect C) :=
  if ∃ c, s.cr3 c = some child then .error .inUse
  else .ok ⟨s.setTable t, release .ptable, some (.proc child, none)⟩

def exec [Fintype C] (c : C) (x : Op) (s : Kernel C) : Except Fault (Effect C) :=
  match x with
  | .scheduler => plain { s with proc := Function.update s.proc c none } [.op .loop]
  | .loop => plain s (.sti :: acquire .ptable ++ [.op (.scan slots)])
  | .scan [] => plain s (release .ptable ++ [.op .loop])
  | .scan (p :: ps) =>
    if (s.table.proc p).state ≠ .runnable then plain s [.op (.scan ps)]
    else
      match ProcessTable.switchuvm s.table (some p) with
      | .error (.panic text) => .error (.panic text)
      | .error _ => .error .nullPointer
      | .ok () => plain (s.run c p) [.switchTo (.proc p), .op .back, .op (.scan ps)]
  | .back => plain { s with
      proc := Function.update s.proc c none, cr3 := Function.update s.cr3 c none } []
  | .clock =>
    match s.proc c with
    | none => plain s []
    | some p => plain s (if (s.table.proc p).state = .running then yield else [])
  | .giveUp => do
    let p ← curproc s c
    plain (s.setTable (updateProc s.table p fun q => { q with state := .runnable })) []
  | .notRunning => do
    let p ← curproc s c
    if (s.table.proc p).state = .running then .error (.panic "sched running")
    plain s []
  | .sleep chan lk =>
    match s.proc c with
    | none => .error (.panic "sleep")
    | some _ => plain s (myproc ++ sleepWith chan lk)
  | .fallAsleep chan _ => do
    let p ← curproc s c
    let t ← tableOp s (.sleep p chan)
    plain (s.setTable t) []
  | .clearChan => do
    let p ← curproc s c
    plain (s.clearChan p) []
  | .wakeup chan => plain s (acquire .ptable ++ .op (.wakeup1 chan) :: release .ptable)
  | .wakeup1 chan => do
    let t ← tableOp s (.wakeup chan)
    plain (s.setTable t) []
  | .kill pid => plain s (acquire .ptable ++ .op (.mark pid) :: release .ptable)
  | .mark pid => do
    let p ← curproc s c
    let t ← tableOp s (.kill p pid)
    plain (s.setTable t) []
  | .exit => do
    let p ← curproc s c
    if p = initproc then .error (.panic "init exiting")
    plain s (myproc ++ acquire .ptable ++ .op .die :: sched ++ [.op .zombieExit])
  | .die => do
    let p ← curproc s c
    let t ← tableOp s (.exit p)
    plain (s.setTable t) []
  | .zombieExit => .error (.panic "zombie exit")
  | .wait => plain s (myproc ++ acquire .ptable ++ [.op .look])
  | .look => do
    let p ← curproc s c
    let t ← tableOp s (.wait p)
    match ProcessTable.zombieChild s.table p with
    | some child => reap s child t
    | none =>
      plain (s.setTable t) (if t.control p = .waiting
        then sched ++ [.op .clearChan, .op .look] else release .ptable)
  | .fork kstack pgdir => plain s (myproc ++ acquire .ptable ++ [.op (.alloc kstack pgdir)])
  | .alloc kstack pgdir => do
    let p ← curproc s c
    let t ← tableOp s (.forkAlloc p)
    plain (s.setTable t) (release .ptable ++
      if t.control p = .user then [] else [.op (.stack kstack pgdir)])
  | .stack kstack pgdir => do
    let p ← curproc s c
    let t ← tableOp s (.forkStack p kstack)
    match t.control p with
    | .stacked np => .ok ⟨s.setTable t, [.op (.memory pgdir)], some (.proc np, some forkret)⟩
    | _ => plain (s.setTable t) []
  | .memory pgdir => do
    let p ← curproc s c
    let t ← tableOp s (.forkMemory p pgdir)
    match s.table.control p, t.control p with
    | _, .copied _ =>
      plain (s.setTable t) (acquire .ptable ++ .op .ready :: release .ptable)
    | .stacked np, _ => .ok ⟨s.setTable t, [], some (.proc np, none)⟩
    | _, _ => plain (s.setTable t) []
  | .ready => do
    let p ← curproc s c
    let t ← tableOp s (.forkFinish p)
    plain (s.setTable t) []

/-- The locks that an operation is started with. The callers of exit, wait and fork hold none and
those of sleep hold the lock that they give to it and no other; what comes inside a section is
started with ptable.lock. -/
def pre (x : Op) (ls : List Lock) (n : ℕ) : Bool :=
  match x with
  | .scheduler | .loop | .clock | .exit | .wait | .fork _ _ | .stack _ _ | .memory _ =>
    ls = [] && n = 0
  | .scan _ | .back | .giveUp | .fallAsleep _ _ | .clearChan | .die | .look | .alloc _ _ =>
    ls = [.ptable] && n = 0
  | .wakeup1 _ | .mark _ | .ready => .ptable ∈ ls
  | .sleep _ lk => ls = [.other lk] && n = 0
  | .notRunning | .wakeup _ | .kill _ | .zombieExit => true

def post (x : Op) (ls : List Lock) : List Lock :=
  match x with
  | .scan _ | .look | .alloc _ _ | .zombieExit => []
  | _ => ls

/-- Processes make system calls; a handler above kernel code wakes processes up, and after the
clock's interrupt yields. -/
def entry : Thread C → Bool → Op → Bool
  | _, _, .wakeup _ => true
  | _, _, .clock => true
  | .proc _, true, .sleep _ _ => true
  | .proc _, true, .kill _ => true
  | .proc _, true, .exit => true
  | .proc _, true, .wait => true
  | .proc _, true, .fork _ _ => true
  | _, _, _ => false

/-- The kernel as userinit and mpmain leave it. -/
def kernel [Fintype C] (pages : FirstPages) : Client C (Thread C) Lock Op (Kernel C) where
  ptable := .ptable
  scheduler := .sched
  exec := exec
  pre := pre
  post := post
  entry := entry
  boot := [.op .scheduler]
  first
    | .proc p => if p = initproc then some forkret else none
    | .sched _ => none
  start := ⟨ProcessTable.userinit pages, fun _ => none, fun _ => none⟩

/-! ### The code pairs its calls -/

section Typed

variable [Fintype C] {pages : FirstPages} {ls : List Lock} {n : ℕ} {is : Code C}

theorem typed_sched (h : Typed (kernel pages) [.ptable] 0 is) :
    Typed (kernel pages) [.ptable] 0 (sched ++ is) :=
  ⟨Nat.one_pos, Nat.one_pos, List.mem_cons_self, fun _ => ⟨rfl, rfl, Nat.one_pos, rfl, rfl, h⟩⟩

theorem typed_myproc (h : Typed (kernel pages) ls n is) :
    Typed (kernel pages) ls n (myproc ++ is) := ⟨Nat.succ_pos _, h⟩

theorem typed_op {x : Op} (hpre : pre x ls n = true) (h : Typed (kernel pages) (post x ls) n is) :
    Typed (kernel pages) ls n (.op x :: is) := ⟨hpre, h⟩

theorem typed_yield (h : Typed (kernel pages) [] 0 is) :
    Typed (kernel pages) [] 0 (yield ++ is) := by
  unfold yield
  rw [List.append_assoc, List.append_assoc, List.append_assoc]
  refine typed_acquire fun _ => typed_myproc (typed_op rfl (typed_sched ?_))
  exact typed_release fun _ => h

theorem typed_sleepWith {chan lk : ℕ} (h : Typed (kernel pages) [.other lk] 0 is) :
    Typed (kernel pages) [.other lk] 0 (sleepWith chan lk ++ is) := by
  have herase : [Lock.ptable, .other lk].erase (.other lk) = [Lock.ptable] := by
    simp
  have herase' : [Lock.ptable].erase .ptable = [] := rfl
  unfold sleepWith
  simp only [List.append_assoc, List.cons_append]
  refine typed_acquire fun _ => typed_release fun _ => ?_
  rw [herase]
  refine typed_op rfl (typed_sched (typed_op rfl ?_))
  refine typed_release fun _ => typed_acquire fun _ => h

omit [DecidableEq C] [Fintype C] in
theorem plain_eq_ok {s : Kernel C} {code : Code C} {e : Effect C} (h : plain s code = .ok e) :
    e = ⟨s, code, none⟩ := by
  cases h
  rfl

omit [DecidableEq C] [Fintype C] in
theorem eq_of_pre {held : List Lock} (h : (decide (ls = held) && decide (n = 0)) = true) :
    ls = held ∧ n = 0 := by
  simpa using h

/-- A section of one operation under ptable.lock. -/
theorem typed_section {x : Op} (hpre : pre x (.ptable :: ls) n = true)
    (hpost : post x (.ptable :: ls) = .ptable :: ls) (ht : Typed (kernel pages) ls n is) :
    Typed (kernel pages) ls n (acquire .ptable ++ .op x :: release .ptable ++ is) := by
  refine typed_acquire fun _ => typed_op hpre ?_
  rw [hpost]
  refine typed_release fun _ => ?_
  rw [List.erase_cons_head]
  exact ht

theorem scan_typed {ps : List ProcId} {c : C} {s : Kernel C} {e : Effect C}
    (h : exec c (.scan ps) s = .ok e) (hpre : pre (.scan ps) ls n = true)
    (ht : Typed (kernel pages) [] n is) : Typed (kernel pages) ls n (e.code ++ is) := by
  obtain ⟨rfl, rfl⟩ := eq_of_pre hpre
  unfold exec at h
  cases ps with
  | nil =>
    cases plain_eq_ok h
    exact typed_release fun _ => typed_op rfl ht
  | cons p ps =>
    dsimp only at h
    split at h
    · cases plain_eq_ok h
      exact typed_op rfl ht
    · split at h
      · cases h
      · cases h
      · cases plain_eq_ok h
        exact ⟨rfl, rfl, typed_op rfl (typed_op rfl ht)⟩

theorem clock_typed {c : C} {s : Kernel C} {e : Effect C}
    (h : exec c .clock s = .ok e) (hpre : pre .clock ls n = true)
    (ht : Typed (kernel pages) ls n is) : Typed (kernel pages) ls n (e.code ++ is) := by
  obtain ⟨rfl, rfl⟩ := eq_of_pre hpre
  unfold exec at h
  dsimp only at h
  split at h
  · cases plain_eq_ok h
    exact ht
  · cases plain_eq_ok h
    split
    · exact typed_yield ht
    · exact ht

theorem sleep_typed {chan lk : ℕ} {c : C} {s : Kernel C} {e : Effect C}
    (h : exec c (.sleep chan lk) s = .ok e) (hpre : pre (.sleep chan lk) ls n = true)
    (ht : Typed (kernel pages) ls n is) : Typed (kernel pages) ls n (e.code ++ is) := by
  obtain ⟨rfl, rfl⟩ := eq_of_pre hpre
  unfold exec at h
  dsimp only at h
  split at h
  · cases h
  · cases plain_eq_ok h
    exact typed_myproc (typed_sleepWith ht)

theorem exit_typed {c : C} {s : Kernel C} {e : Effect C}
    (h : exec c .exit s = .ok e) (hpre : pre .exit ls n = true)
    (ht : Typed (kernel pages) ls n is) : Typed (kernel pages) ls n (e.code ++ is) := by
  obtain ⟨rfl, rfl⟩ := eq_of_pre hpre
  obtain ⟨p, -, h⟩ := bind_eq_ok.mp h
  split at h
  · cases h
  · cases plain_eq_ok h
    simp only [List.append_assoc, List.cons_append]
    exact typed_myproc (typed_acquire fun _ => typed_op rfl (typed_sched (typed_op rfl ht)))

theorem look_typed {c : C} {s : Kernel C} {e : Effect C}
    (h : exec c .look s = .ok e) (hpre : pre .look ls n = true)
    (ht : Typed (kernel pages) [] n is) : Typed (kernel pages) ls n (e.code ++ is) := by
  obtain ⟨rfl, rfl⟩ := eq_of_pre hpre
  obtain ⟨p, -, h⟩ := bind_eq_ok.mp h
  obtain ⟨t, -, h⟩ := bind_eq_ok.mp h
  split at h
  · unfold reap at h
    split at h
    · cases h
    · cases h
      exact typed_release fun _ => ht
  · cases plain_eq_ok h
    split
    · exact typed_sched (typed_op rfl (typed_op rfl ht))
    · exact typed_release fun _ => ht

theorem alloc_typed {kstack pgdir : ℕ} {c : C} {s : Kernel C} {e : Effect C}
    (h : exec c (.alloc kstack pgdir) s = .ok e) (hpre : pre (.alloc kstack pgdir) ls n = true)
    (ht : Typed (kernel pages) [] n is) : Typed (kernel pages) ls n (e.code ++ is) := by
  obtain ⟨rfl, rfl⟩ := eq_of_pre hpre
  obtain ⟨p, -, h⟩ := bind_eq_ok.mp h
  obtain ⟨t, -, h⟩ := bind_eq_ok.mp h
  cases plain_eq_ok h
  refine typed_release fun _ => ?_
  split
  · exact ht
  · exact typed_op rfl ht

theorem stack_typed {kstack pgdir : ℕ} {c : C} {s : Kernel C} {e : Effect C}
    (h : exec c (.stack kstack pgdir) s = .ok e) (hpre : pre (.stack kstack pgdir) ls n = true)
    (ht : Typed (kernel pages) ls n is) : Typed (kernel pages) ls n (e.code ++ is) := by
  obtain ⟨rfl, rfl⟩ := eq_of_pre hpre
  obtain ⟨p, -, h⟩ := bind_eq_ok.mp h
  obtain ⟨t, -, h⟩ := bind_eq_ok.mp h
  split at h
  · cases h
    exact typed_op rfl ht
  · cases plain_eq_ok h
    exact ht

theorem memory_typed {pgdir : ℕ} {c : C} {s : Kernel C} {e : Effect C}
    (h : exec c (.memory pgdir) s = .ok e) (hpre : pre (.memory pgdir) ls n = true)
    (ht : Typed (kernel pages) ls n is) : Typed (kernel pages) ls n (e.code ++ is) := by
  obtain ⟨rfl, rfl⟩ := eq_of_pre hpre
  obtain ⟨p, -, h⟩ := bind_eq_ok.mp h
  obtain ⟨t, -, h⟩ := bind_eq_ok.mp h
  split at h
  · cases plain_eq_ok h
    exact typed_section rfl rfl ht
  · cases h
    exact ht
  · cases plain_eq_ok h
    exact ht

theorem exec_typed {c : C} {x : Op} {s : Kernel C} {e : Effect C} (h : exec c x s = .ok e)
    (hpre : pre x ls n = true) (ht : Typed (kernel pages) (post x ls) n is) :
    Typed (kernel pages) ls n (e.code ++ is) := by
  cases x with
  | scheduler =>
    cases plain_eq_ok h
    exact typed_op hpre ht
  | loop =>
    cases plain_eq_ok h
    obtain ⟨rfl, rfl⟩ := eq_of_pre hpre
    exact ⟨rfl, rfl, typed_acquire fun _ => typed_op rfl ht⟩
  | scan ps => exact scan_typed h hpre ht
  | back =>
    cases plain_eq_ok h
    exact ht
  | clock => exact clock_typed h hpre ht
  | giveUp | clearChan =>
    obtain ⟨p, -, h⟩ := bind_eq_ok.mp h
    cases plain_eq_ok h
    exact ht
  | notRunning =>
    obtain ⟨p, -, h⟩ := bind_eq_ok.mp h
    split at h
    · cases h
    · cases plain_eq_ok h
      exact ht
  | sleep chan lk => exact sleep_typed h hpre ht
  | fallAsleep chan lk | mark pid | die | ready =>
    obtain ⟨p, -, h⟩ := bind_eq_ok.mp h
    obtain ⟨t, -, h⟩ := bind_eq_ok.mp h
    cases plain_eq_ok h
    exact ht
  | wakeup chan | kill pid =>
    cases plain_eq_ok h
    exact typed_section (by simp [pre]) rfl ht
  | wakeup1 chan =>
    obtain ⟨t, -, h⟩ := bind_eq_ok.mp h
    cases plain_eq_ok h
    exact ht
  | exit => exact exit_typed h hpre ht
  | zombieExit => cases h
  | wait | fork kstack pgdir =>
    cases plain_eq_ok h
    obtain ⟨rfl, rfl⟩ := eq_of_pre hpre
    exact typed_myproc (typed_acquire fun _ => typed_op rfl ht)
  | look => exact look_typed h hpre ht
  | alloc kstack pgdir => exact alloc_typed h hpre ht
  | stack kstack pgdir => exact stack_typed h hpre ht
  | memory pgdir => exact memory_typed h hpre ht

omit [DecidableEq C] [Fintype C] in
theorem plain_stack {s : Kernel C} {code : Code C} {e : Effect C} (h : plain s code = .ok e) :
    e.stack = none := by
  cases h
  rfl

/-- The stacks that an operation sets up or frees: those of new processes, and of zombies. -/
inductive Restacks (s : Kernel C) (x : Op) : Option (Thread C × Option (Code C)) → Prop where
  | none : Restacks s x none
  | reaped (child : ProcId) (hx : x = .look) (h : (s.table.proc child).state = .zombie) :
      Restacks s x (some (.proc child, none))
  | built (p np : ProcId) {k g : ℕ} (hx : x = .stack k g)
      (h : (s.table.control p).reserved = some np) : Restacks s x (some (.proc np, some forkret))
  | freed (p np : ProcId) {g : ℕ} (hx : x = .memory g)
      (h : (s.table.control p).reserved = some np) : Restacks s x (some (.proc np, none))

omit [DecidableEq C] [Fintype C] in
theorem plain_restacks {s s' : Kernel C} {x : Op} {code : Code C} {e : Effect C}
    (h : plain s' code = .ok e) : Restacks s x e.stack := by
  rw [plain_stack h]
  exact .none

omit [DecidableEq C] [Fintype C] in
theorem tableOp_eq_ok {k : Kernel C} {e : ProcessTable.Event} {u : PTable}
    (h : tableOp k e = .ok u) : ProcessTable.step k.table e = .ok u := by
  unfold tableOp at h
  split at h
  · cases h
    assumption
  · cases h
  · cases h

theorem forkStack_reserved {t : PTable} {p np : ProcId} {kstack : ℕ}
    (h : (ProcessTable.forkStack t p kstack).control p = .stacked np) :
    (t.control p).reserved = some np := by
  unfold ProcessTable.forkStack at h
  split at h
  · rename_i np' hctl
    rw [hctl]
    split at h
    · simp [setControl] at h
    · simp only [setControl, Function.update_self] at h
      cases h
      rfl
  · rw [h]
    rfl

theorem exec_restacks {c : C} {x : Op} {s : Kernel C} {e : Effect C}
    (h : exec c x s = .ok e) : Restacks s x e.stack := by
  cases x with
  | stack kstack pgdir =>
    obtain ⟨p, -, h⟩ := bind_eq_ok.mp h
    obtain ⟨t', ht, h⟩ := bind_eq_ok.mp h
    split at h
    · rename_i np hctl
      cases h
      cases tableOp_eq_ok ht
      exact .built p np rfl (forkStack_reserved hctl)
    · exact plain_restacks h
  | memory pgdir =>
    obtain ⟨p, -, h⟩ := bind_eq_ok.mp h
    obtain ⟨t', -, h⟩ := bind_eq_ok.mp h
    split at h
    · exact plain_restacks h
    · rename_i np hctl _
      cases h
      exact .freed p np rfl (by rw [hctl]; rfl)
    · exact plain_restacks h
  | look =>
    obtain ⟨p, -, h⟩ := bind_eq_ok.mp h
    obtain ⟨t', -, h⟩ := bind_eq_ok.mp h
    split at h
    · rename_i child hz
      unfold reap at h
      split at h
      · cases h
      · cases h
        exact .reaped child rfl (ProcessTable.zombieChild_state hz)
    · exact plain_restacks h
  | scan ps =>
    cases ps with
    | nil => exact plain_restacks h
    | cons p ps =>
      simp only [exec] at h
      split at h
      · exact plain_restacks h
      · split at h
        · cases h
        · cases h
        · exact plain_restacks h
  | clock =>
    simp only [exec] at h
    split at h <;> exact plain_restacks h
  | sleep chan lk =>
    simp only [exec] at h
    split at h
    · cases h
    · exact plain_restacks h
  | notRunning =>
    obtain ⟨p, -, h⟩ := bind_eq_ok.mp h
    split at h
    · cases h
    · exact plain_restacks h
  | exit =>
    obtain ⟨p, -, h⟩ := bind_eq_ok.mp h
    split at h
    · cases h
    · exact plain_restacks h
  | zombieExit => cases h
  | scheduler | loop | back | wakeup chan | kill pid | wait | fork kstack pgdir =>
    exact plain_restacks h
  | giveUp | clearChan =>
    obtain ⟨p, -, h⟩ := bind_eq_ok.mp h
    exact plain_restacks h
  | wakeup1 chan =>
    obtain ⟨t', -, h⟩ := bind_eq_ok.mp h
    exact plain_restacks h
  | fallAsleep chan lk | mark pid | die | alloc kstack pgdir | ready =>
    obtain ⟨p, -, h⟩ := bind_eq_ok.mp h
    obtain ⟨t', -, h⟩ := bind_eq_ok.mp h
    exact plain_restacks h

/-- A stack is only ever set up for a new process. -/
theorem exec_restacked {c : C} {x : Op} {s : Kernel C} {e : Effect C} {t : Thread C}
    (h : exec c x s = .ok e) (hs : e.stack = some (t, some is)) : is = forkret := by
  have hr := exec_restacks h
  rw [hs] at hr
  cases hr
  rfl

theorem release_typed (pages : FirstPages) :
    Typed (kernel (C := C) pages) [.ptable] 0 (release .ptable) := by
  have htyped : Typed (kernel (C := C) pages) [.ptable] 0 (release .ptable ++ []) :=
    typed_release fun _ => trivial
  exact htyped

theorem kernel_sound (pages : FirstPages) : (kernel (C := C) pages).Sound where
  exec _ _ _ _ _ _ _ he hpre ht := exec_typed he hpre ht
  stack _ _ _ _ _ _ he hs := by
    rw [exec_restacked he hs]
    exact release_typed pages
  scheduler _ _ h := Thread.sched.inj h
  boot := ⟨rfl, trivial⟩
  first t is h := by
    cases t with
    | sched c => cases h
    | proc p =>
      change (if p = initproc then some forkret else none) = some is at h
      split at h
      · cases h
        exact release_typed pages
      · cases h

end Typed
end Scheduling
