import Mathlib.Data.Fintype.Basic
import Mathlib.Data.List.Nodup
import Mathlib.Logic.Function.Basic
import Xv6Gui.GuardedRuns

/-!
# Spin locks, interrupts and kernel threads

Each access that `pushcli`, `popcli`, `holding`, `acquire`, `release` and `sched` make to
shared memory or to the interrupt flag is a step, and between two steps any other processor
may take one. An interrupt may come wherever the flag is set; its handler runs on a frame
above the code it has stopped, which may go on later on another processor. What the kernel
does with its locks is a parameter, the client: its operations change a state of their own
and tell which code is to run next.
-/
namespace SpinLocks

open GuardedRuns

variable {C T L X σ : Type} [DecidableEq C] [DecidableEq T] [DecidableEq L]

/-- A step may end in a panic, may be impossible where it is tried, may follow a null pointer,
or may switch to a thread that runs or has no stack, or free what a processor uses. -/
inductive Fault where
  | panic (text : String)
  | disabled
  | nullPointer
  | inUse
  deriving DecidableEq, Repr

structure Spinlock (C : Type) where
  locked : Bool
  cpu : Option C

structure Cpu where
  ncli : ℤ
  intena : Bool
  flagIF : Bool
  deriving DecidableEq, Repr

/-- The functions that call `holding` and panic upon what it returns. -/
inductive Caller where
  | acquire | release | sched
  deriving DecidableEq, Repr

def Caller.refuses : Caller → Bool → Option String
  | .acquire, true => some "acquire"
  | .release, false => some "release"
  | .sched, false => some "sched ptable.lock"
  | _, _ => none

/-- `test` is the body of `holding` after its pushcli, with the test of its caller; `take` is
the loop of acquire and the store to lk->cpu; `give` is the two stores of release;
`switchBack` is the part of sched that saves intena, calls swtch and puts intena back;
`switchTo` is the call of swtch in scheduler. -/
inductive Instr (T L X : Type) where
  | pushcli
  | popcli
  | test (lk : L) (k : Caller)
  | take (lk : L)
  | give (lk : L)
  | sti
  | checkNcli
  | checkFlag
  | switchBack
  | switchTo (t : T)
  | op (x : X)
  deriving DecidableEq

/-- How far the first instruction of a frame has come, with the local variables it has set. -/
inductive Phase where
  | start
  | flags (eflags : Bool)
  | masked (eflags : Bool)
  | seen (locked : Bool)
  | result (r : Bool)
  | verdict (r : Bool)
  | taken
  | cleared
  | leaving (intena : Bool)
  | away (intena : Bool)
  deriving DecidableEq, Repr

/-- A function in execution. The locks it holds, the pushcli calls it has not undone and the
flag that its outermost pushcli has cleared are history. -/
structure Frame (T L X : Type) where
  code : List (Instr T L X)
  phase : Phase
  locks : List L
  pushed : ℕ
  entry : Option Bool
  deriving DecidableEq

abbrev Code (T L X : Type) := List (Instr T L X)

def acquire (lk : L) : Code T L X := [.pushcli, .pushcli, .test lk .acquire, .take lk]

def release (lk : L) : Code T L X := [.pushcli, .test lk .release, .give lk, .popcli]

/-- What a client's operation does: its new state, the code to run next, and a stack that is
freed, or set up for a new thread. -/
structure Effect (T L X σ : Type) where
  client : σ
  code : Code T L X
  stack : Option (T × Option (Code T L X))

/-- The kernel code over the locks. An operation needs some locks and leaves some, and the
lock `ptable` is the one held whenever a thread switches to another. Each processor starts
with its scheduler thread, and `first` tells which other threads have been set up by then;
`entry` tells which operations a thread starts with no frame below, or in a handler. -/
structure Client (C T L X σ : Type) where
  ptable : L
  scheduler : C → T
  exec : C → X → σ → Except Fault (Effect T L X σ)
  pre : X → List L → ℕ → Bool
  post : X → List L → List L
  entry : T → Bool → X → Bool
  boot : Code T L X
  first : T → Option (Code T L X)
  start : σ

structure State (C T L X σ : Type) where
  lock : L → Spinlock C
  cpu : C → Cpu
  current : C → T
  stack : T → List (Frame T L X)
  client : σ

inductive Request (L X : Type) where
  | acquire (lk : L)
  | release (lk : L)
  | pushcli
  | popcli
  | op (x : X)

inductive Event (C L X : Type) where
  | step (c : C)
  | call (c : C) (r : Request L X)
  | interrupt (c : C)
  | iret (c : C)

def Request.code : Request L X → Code T L X
  | .acquire lk => SpinLocks.acquire lk
  | .release lk => SpinLocks.release lk
  | .pushcli => [.pushcli]
  | .popcli => [.popcli]
  | .op x => [.op x]

def popcli (m : Cpu) : Except Fault Cpu :=
  if m.flagIF then .error (.panic "popcli - interruptible")
  else if m.ncli - 1 < 0 then .error (.panic "popcli")
  else .ok { m with ncli := m.ncli - 1, flagIF := m.ncli - 1 = 0 && m.intena }

def mycpu (m : Cpu) : Except Fault Unit :=
  if m.flagIF then .error (.panic "mycpu called with interrupts enabled\n") else .ok ()

def State.put (s : State C T L X σ) (c : C) (m : Cpu) (fs : List (Frame T L X)) :
    State C T L X σ :=
  { s with cpu := Function.update s.cpu c m
           stack := Function.update s.stack (s.current c) fs }

def State.setLock (s : State C T L X σ) (lk : L) (v : Spinlock C) : State C T L X σ :=
  { s with lock := Function.update s.lock lk v }

def Frame.next (f : Frame T L X) (is : Code T L X) : Frame T L X :=
  { f with code := is, phase := .start }

variable [Fintype C]

def onCpu (s : State C T L X σ) (t : T) : Prop := ∃ c, s.current c = t

instance (s : State C T L X σ) (t : T) : Decidable (onCpu s t) :=
  inferInstanceAs (Decidable (∃ c, s.current c = t))

/-- A switch of processor c from the thread whose frames become fs to the thread t. -/
def swtch (s : State C T L X σ) (c : C) (fs : List (Frame T L X)) (t : T) :
    Except Fault (State C T L X σ) :=
  if onCpu s t ∨ (s.stack t).isEmpty then .error .inUse
  else .ok { s with current := Function.update s.current c t
                    stack := Function.update s.stack (s.current c) fs }

/-- The frames of a stack that is free, or that has been set up to run some code. -/
def fresh (ptable : L) : Option (Code T L X) → List (Frame T L X)
  | none => []
  | some is => [⟨is, .start, [ptable], 0, none⟩]

def restack (s : State C T L X σ) (ptable : L) :
    Option (T × Option (Code T L X)) → Except Fault (State C T L X σ)
  | none => .ok s
  | some (t, code) =>
    if onCpu s t then .error .inUse
    else .ok { s with stack := Function.update s.stack t (fresh ptable code) }

/-- One step of the frame f on processor c, above the frames fs. -/
def execute (K : Client C T L X σ) (s : State C T L X σ) (c : C) (f : Frame T L X)
    (fs : List (Frame T L X)) : Except Fault (State C T L X σ) :=
  let m := s.cpu c
  match f.code, f.phase with
  | .pushcli :: _, .start => .ok (s.put c m ({ f with phase := .flags m.flagIF } :: fs))
  | .pushcli :: _, .flags e =>
    .ok (s.put c { m with flagIF := false }
      ({ f with phase := .masked e
                entry := if m.ncli = 0 then some m.flagIF else f.entry } :: fs))
  | .pushcli :: is, .masked e => do
    mycpu m
    .ok (s.put c { m with intena := if m.ncli = 0 then e else m.intena, ncli := m.ncli + 1 }
      ({ f.next is with pushed := f.pushed + 1 } :: fs))
  | .popcli :: is, .start => do
    let m' ← popcli m
    .ok (s.put c m' ({ f.next is with
      pushed := f.pushed - 1
      entry := if m'.ncli = 0 then none else f.entry } :: fs))
  | .test lk _ :: _, .start =>
    .ok (s.put c m ({ f with phase := .seen (s.lock lk).locked } :: fs))
  | .test lk _ :: _, .seen locked => do
    mycpu m
    .ok (s.put c m ({ f with phase := .result (locked && (s.lock lk).cpu = some c) } :: fs))
  | .test _ _ :: _, .result r => do
    let m' ← popcli m
    .ok (s.put c m' ({ f with
      phase := .verdict r
      pushed := f.pushed - 1
      entry := if m'.ncli = 0 then none else f.entry } :: fs))
  | .test _ k :: is, .verdict r =>
    match k.refuses r with
    | some text => .error (.panic text)
    | none => .ok (s.put c m (f.next is :: fs))
  | .take lk :: _, .start =>
    if (s.lock lk).locked then .ok s
    else .ok ((s.setLock lk { s.lock lk with locked := true }).put c m
      ({ f with phase := .taken, locks := lk :: f.locks, pushed := f.pushed - 1 } :: fs))
  | .take lk :: is, .taken => do
    mycpu m
    .ok ((s.setLock lk { s.lock lk with cpu := some c }).put c m (f.next is :: fs))
  | .give lk :: _, .start =>
    .ok ((s.setLock lk { s.lock lk with cpu := none }).put c m ({ f with phase := .cleared } :: fs))
  | .give lk :: is, .cleared =>
    .ok ((s.setLock lk { s.lock lk with locked := false }).put c m
      ({ f.next is with locks := f.locks.erase lk, pushed := f.pushed + 1 } :: fs))
  | .sti :: is, .start => .ok (s.put c { m with flagIF := true } (f.next is :: fs))
  | .checkNcli :: is, .start => do
    mycpu m
    if m.ncli = 1 then .ok (s.put c m (f.next is :: fs)) else .error (.panic "sched locks")
  | .checkFlag :: is, .start =>
    if m.flagIF then .error (.panic "sched interruptible")
    else .ok (s.put c m (f.next is :: fs))
  | .switchBack :: _, .start => do
    mycpu m
    .ok (s.put c m ({ f with phase := .leaving m.intena } :: fs))
  | .switchBack :: _, .leaving e => do
    mycpu m
    swtch s c ({ f with phase := .away e } :: fs) (K.scheduler c)
  | .switchBack :: is, .away e => do
    mycpu m
    .ok (s.put c { m with intena := e } (f.next is :: fs))
  -- The thread that leaves next may leave another flag in intena, so scheduler's entry is lost.
  | .switchTo t :: is, .start => swtch s c ({ f.next is with entry := none } :: fs) t
  | .op x :: is, .start => do
    let e ← K.exec c x s.client
    restack ({ s with client := e.client }.put c m (f.next (e.code ++ is) :: fs)) K.ptable
      e.stack
  | _, _ => .error .disabled

/-- What the code of a frame may do once it has returned to the client. -/
def allowed (K : Client C T L X σ) (t : T) (bottom : Bool) (f : Frame T L X) :
    Request L X → Bool
  | .popcli => 0 < f.pushed
  | .op x => K.pre x f.locks f.pushed && K.entry t bottom x
  | _ => true

def step (K : Client C T L X σ) (s : State C T L X σ) :
    Event C L X → Except Fault (State C T L X σ)
  | .step c =>
    match s.stack (s.current c) with
    | [] => .error .disabled
    | f :: fs => execute K s c f fs
  | .call c r =>
    match s.stack (s.current c) with
    | [] => .error .disabled
    | f :: fs =>
      if f.code.isEmpty && allowed K (s.current c) fs.isEmpty f r then
        .ok (s.put c (s.cpu c) (f.next r.code :: fs))
      else .error .disabled
  | .interrupt c =>
    if (s.cpu c).flagIF then
      .ok (s.put c { s.cpu c with flagIF := false }
        (⟨[], .start, [], 0, none⟩ :: s.stack (s.current c)))
    else .error .disabled
  | .iret c =>
    match s.stack (s.current c) with
    | f :: g :: fs =>
      if f.code.isEmpty && f.locks.isEmpty && f.pushed = 0 then
        .ok (s.put c { s.cpu c with flagIF := true } (g :: fs))
      else .error .disabled
    | _ => .error .disabled

def initial (K : Client C T L X σ) : State C T L X σ where
  lock _ := ⟨false, none⟩
  cpu _ := ⟨0, false, false⟩
  current := K.scheduler
  stack t := if ∃ c, K.scheduler c = t then [⟨K.boot, .start, [], 0, none⟩]
    else fresh K.ptable (K.first t)
  client := K.start

/-- The instructions that only the processor and the locks are concerned with. -/
def Instr.plain : Instr T L X → Prop
  | .pushcli | .popcli | .test _ _ | .take _ | .sti | .checkNcli | .checkFlag => True
  | _ => False

/-- The instructions that are not the client's. -/
def Instr.own : Instr T L X → Prop
  | .op _ | .switchTo _ => False
  | _ => True

/-! ### Code that pairs its calls

`Typed K ls n is` says that the code `is`, started with the locks `ls` held and n calls of
pushcli to undo, undoes only what it has done, and switches only with ptable.lock and
nothing else. -/

def Caller.passes : Caller → Prop → Prop
  | .acquire, held => ¬ held
  | _, held => held

def Caller.needs : Caller → Prop → Prop
  | .sched, held => held
  | _, _ => True

def Typed (K : Client C T L X σ) : List L → ℕ → Code T L X → Prop
  | _, _, [] => True
  | ls, n, .pushcli :: is => Typed K ls (n + 1) is
  | ls, n, .popcli :: is => 0 < n ∧ Typed K ls (n - 1) is
  | ls, n, .test lk k :: is =>
    0 < n ∧ k.needs (lk ∈ ls) ∧ (k.passes (lk ∈ ls) → Typed K ls (n - 1) is)
  | ls, n, .take lk :: is => 0 < n ∧ lk ∉ ls ∧ Typed K (lk :: ls) (n - 1) is
  | ls, n, .give lk :: is => lk ∈ ls ∧ Typed K (ls.erase lk) (n + 1) is
  | ls, n, .sti :: is => ls = [] ∧ n = 0 ∧ Typed K ls n is
  | ls, n, .checkNcli :: is => ls.length + n = 1 ∧ Typed K ls n is
  | ls, n, .checkFlag :: is => 0 < ls.length + n ∧ Typed K ls n is
  | ls, n, .switchBack :: is => ls = [K.ptable] ∧ n = 0 ∧ Typed K ls n is
  | ls, n, .switchTo _ :: is => ls = [K.ptable] ∧ n = 0 ∧ Typed K ls n is
  | ls, n, .op x :: is => K.pre x ls n ∧ Typed K (K.post x ls) n is

/-- The operations of the client pair the calls of the code they ask for. -/
structure Client.Sound (K : Client C T L X σ) : Prop where
  exec : ∀ c x s e ls n is, K.exec c x s = .ok e → K.pre x ls n →
    Typed K (K.post x ls) n is → Typed K ls n (e.code ++ is)
  stack : ∀ c x s e t is, K.exec c x s = .ok e → e.stack = some (t, some is) →
    Typed K [K.ptable] 0 is
  scheduler : Function.Injective K.scheduler
  boot : Typed K [] 0 K.boot
  first : ∀ t is, K.first t = some is → Typed K [K.ptable] 0 is

section Typed

variable {K : Client C T L X σ} {ls : List L} {n : ℕ} {is : Code T L X} {lk : L}

omit [DecidableEq C] [DecidableEq T] [Fintype C] in
theorem typed_acquire (h : lk ∉ ls → Typed K (lk :: ls) n is) :
    Typed K ls n (acquire lk ++ is) :=
  ⟨Nat.succ_pos _, trivial, fun hn => ⟨Nat.succ_pos _, hn, h hn⟩⟩

omit [DecidableEq C] [DecidableEq T] [Fintype C] in
theorem typed_release (h : lk ∈ ls → Typed K (ls.erase lk) n is) :
    Typed K ls n (release lk ++ is) :=
  ⟨Nat.succ_pos _, trivial, fun hlk => ⟨hlk, Nat.succ_pos _, h hlk⟩⟩

end Typed

/-- What a frame knows where it is, under an interrupt flag. -/
def Here (K : Client C T L X σ) (flag : Bool) (f : Frame T L X) : Prop :=
  match f.phase, f.code with
  | .start, is => Typed K f.locks f.pushed is
  | .flags e, .pushcli :: is => e = flag ∧ Typed K f.locks (f.pushed + 1) is
  | .masked _, .pushcli :: is => flag = false ∧ Typed K f.locks (f.pushed + 1) is
  | .seen r, .test lk k :: is =>
    0 < f.pushed ∧ (lk ∈ f.locks → r = true) ∧ k.needs (lk ∈ f.locks) ∧
      (k.passes (lk ∈ f.locks) → Typed K f.locks (f.pushed - 1) is)
  | .result r, .test lk k :: is =>
    0 < f.pushed ∧ (r = true ↔ lk ∈ f.locks) ∧ k.needs (lk ∈ f.locks) ∧
      (k.passes (lk ∈ f.locks) → Typed K f.locks (f.pushed - 1) is)
  | .verdict r, .test lk k :: is =>
    (r = true ↔ lk ∈ f.locks) ∧ k.needs (lk ∈ f.locks) ∧
      (k.passes (lk ∈ f.locks) → Typed K f.locks f.pushed is)
  | .taken, .take lk :: is => lk ∈ f.locks ∧ Typed K f.locks f.pushed is
  | .cleared, .give lk :: is => lk ∈ f.locks ∧ Typed K (f.locks.erase lk) (f.pushed + 1) is
  | .leaving _, .switchBack :: is =>
    f.locks = [K.ptable] ∧ f.pushed = 0 ∧ Typed K f.locks f.pushed is
  | .away _, .switchBack :: is =>
    f.locks = [K.ptable] ∧ f.pushed = 0 ∧ Typed K f.locks f.pushed is
  | _, _ => False

def Frame.depth (f : Frame T L X) : ℕ := f.locks.length + f.pushed

/-- The flag that the outermost pushcli has cleared is the one that will be restored. -/
def Restores (intena : Bool) (f : Frame T L X) : Prop :=
  ∀ b, f.entry = some b →
    match f.phase with
    | .masked e => if f.depth = 0 then e = b else intena = b
    | .leaving e => e = b ∧ intena = b
    | .away e => e = b
    | _ => 0 < f.depth ∧ intena = b

/-- The top frame of the thread that runs on a processor. -/
structure Running (K : Client C T L X σ) (m : Cpu) (f : Frame T L X) : Prop where
  ncli : m.ncli = f.depth
  masked : 0 < f.depth → m.flagIF = false
  nodup : f.locks.Nodup
  here : Here K m.flagIF f
  restores : Restores m.intena f

/-- A frame below another. -/
structure Interrupted (K : Client C T L X σ) (f : Frame T L X) : Prop where
  depth : f.depth = 0
  here : Here K true f
  entry : f.entry = none

/-- The top frame of a thread that waits to be switched to. -/
structure Suspended (K : Client C T L X σ) (f : Frame T L X) : Prop where
  locks : f.locks = [K.ptable]
  pushed : f.pushed = 0
  here : Here K false f
  phase : (f.phase = .start ∧ f.entry = none) ∨
    ∃ e, f.phase = .away e ∧ ∀ b, f.entry = some b → e = b

def heldBy : List (Frame T L X) → List L
  | [] => []
  | f :: _ => f.locks

/-- The locks whose field cpu tells the processor of this frame. -/
def Frame.recorded (f : Frame T L X) : List L :=
  match f.phase, f.code with
  | .taken, .take lk :: _ => f.locks.erase lk
  | .cleared, .give lk :: _ => f.locks.erase lk
  | _, _ => f.locks

def recordedBy : List (Frame T L X) → List L
  | [] => []
  | f :: _ => f.recorded

def State.held (s : State C T L X σ) (c : C) : List L := heldBy (s.stack (s.current c))

def State.recorded (s : State C T L X σ) (c : C) : List L := recordedBy (s.stack (s.current c))

/-- The two fields of each lock against the locks that the processors hold. -/
structure Locks (lock : L → Spinlock C) (held recorded : C → List L) : Prop where
  locked : ∀ lk, (lock lk).locked = true ↔ ∃ c, lk ∈ held c
  unique : ∀ lk c d, lk ∈ held c → lk ∈ held d → c = d
  owner : ∀ lk c, (lock lk).cpu = some c ↔ lk ∈ recorded c

structure Invariant (K : Client C T L X σ) (s : State C T L X σ) : Prop where
  injective : Function.Injective s.current
  running : ∀ c, ∃ f fs, s.stack (s.current c) = f :: fs ∧ Running K (s.cpu c) f ∧
    ∀ g ∈ fs, Interrupted K g
  suspended : ∀ t, ¬ onCpu s t → ∀ f fs, s.stack t = f :: fs → Suspended K f ∧
    ∀ g ∈ fs, Interrupted K g
  locks : Locks s.lock s.held s.recorded

omit [DecidableEq C] [DecidableEq T] [Fintype C] in
theorem Frame.recorded_start {f : Frame T L X} (h : f.phase = .start) : f.recorded = f.locks := by
  unfold Frame.recorded
  rw [h]

section Locks

variable {lock : L → Spinlock C} {held recorded : C → List L} {lk : L} {c : C}

omit [Fintype C] in
theorem Locks.take (h : Locks lock held recorded) (hfree : (lock lk).locked = false) :
    Locks (Function.update lock lk { lock lk with locked := true })
      (Function.update held c (lk :: held c)) recorded := by
  have hnone : ∀ d, lk ∉ held d := by
    intro d hd
    have := (h.locked lk).mpr ⟨d, hd⟩
    rw [hfree] at this
    cases this
  have hmem : ∀ k d, k ∈ Function.update held c (lk :: held c) d ↔
      k ∈ held d ∨ (k = lk ∧ d = c) := by
    intro k d
    by_cases hd : d = c
    · subst hd
      rw [Function.update_self, List.mem_cons]
      tauto
    · rw [Function.update_of_ne hd]
      tauto
  constructor
  · intro k
    by_cases hk : k = lk
    · subst hk
      rw [Function.update_self]
      exact ⟨fun _ => ⟨c, (hmem k c).mpr (.inr ⟨rfl, rfl⟩)⟩, fun _ => rfl⟩
    · rw [Function.update_of_ne hk, h.locked]
      simp only [hmem, hk, false_and, or_false]
  · intro k d d' hd hd'
    rcases (hmem k d).mp hd with hold | ⟨hk, hc⟩
    · rcases (hmem k d').mp hd' with hold' | ⟨hk', -⟩
      · exact h.unique k d d' hold hold'
      · exact absurd (hk' ▸ hold) (hnone d)
    · rcases (hmem k d').mp hd' with hold' | ⟨-, hc'⟩
      · exact absurd (hk ▸ hold') (hnone d')
      · rw [hc, hc']
  · intro k d
    by_cases hk : k = lk
    · subst hk
      rw [Function.update_self]
      exact h.owner k d
    · rw [Function.update_of_ne hk]
      exact h.owner k d

omit [Fintype C] in
theorem Locks.free (h : Locks lock held recorded) (hlk : lk ∈ held c) (hnd : (held c).Nodup)
    (hrec : lk ∉ recorded c) :
    Locks (Function.update lock lk { lock lk with locked := false })
      (Function.update held c ((held c).erase lk)) recorded := by
  have hmem : ∀ k d, k ∈ Function.update held c ((held c).erase lk) d ↔
      k ∈ held d ∧ k ≠ lk := by
    intro k d
    by_cases hd : d = c
    · subst hd
      rw [Function.update_self, hnd.mem_erase_iff]
      tauto
    · rw [Function.update_of_ne hd]
      refine ⟨fun hk => ⟨hk, ?_⟩, And.left⟩
      rintro rfl
      exact hd (h.unique k d c hk hlk)
  constructor
  · intro k
    by_cases hk : k = lk
    · subst hk
      rw [Function.update_self]
      simp [hmem]
    · rw [Function.update_of_ne hk, h.locked]
      simp only [hmem, ne_eq, hk, not_false_eq_true, and_true]
  · intro k d d' hd hd'
    exact h.unique k d d' ((hmem k d).mp hd).1 ((hmem k d').mp hd').1
  · intro k d
    by_cases hk : k = lk
    · subst hk
      rw [Function.update_self]
      exact h.owner k d
    · rw [Function.update_of_ne hk]
      exact h.owner k d

omit [Fintype C] in
/-- The store to lk->cpu by the processor that has taken the lock. -/
theorem Locks.record (h : Locks lock held recorded) (hlk : lk ∈ held c)
    (hothers : ∀ d, d ≠ c → ∀ k ∈ recorded d, k ∈ held d)
    (hrec : recorded c = (held c).erase lk) :
    Locks (Function.update lock lk { lock lk with cpu := some c }) held
      (Function.update recorded c (held c)) := by
  constructor
  · intro k
    by_cases hk : k = lk
    · subst hk
      rw [Function.update_self]
      exact h.locked k
    · rw [Function.update_of_ne hk]
      exact h.locked k
  · exact h.unique
  · intro k d
    by_cases hk : k = lk
    · subst hk
      rw [Function.update_self]
      by_cases hd : d = c
      · subst hd
        rw [Function.update_self]
        exact ⟨fun _ => hlk, fun _ => rfl⟩
      · rw [Function.update_of_ne hd]
        constructor
        · rintro ⟨⟩
          exact absurd rfl hd
        · intro hk
          exact absurd (h.unique k d c (hothers d hd k hk) hlk) hd
    · rw [Function.update_of_ne hk, h.owner]
      by_cases hd : d = c
      · subst hd
        rw [Function.update_self, hrec, List.mem_erase_of_ne hk]
      · rw [Function.update_of_ne hd]

omit [Fintype C] in
/-- The store that clears lk->cpu, by the processor recorded there. -/
theorem Locks.forget (h : Locks lock held recorded) (hlk : lk ∈ recorded c)
    (hnd : (recorded c).Nodup) (hothers : ∀ d, d ≠ c → lk ∉ recorded d) :
    Locks (Function.update lock lk { lock lk with cpu := none }) held
      (Function.update recorded c ((recorded c).erase lk)) := by
  constructor
  · intro k
    by_cases hk : k = lk
    · subst hk
      rw [Function.update_self]
      exact h.locked k
    · rw [Function.update_of_ne hk]
      exact h.locked k
  · exact h.unique
  · intro k d
    by_cases hk : k = lk
    · subst hk
      rw [Function.update_self]
      by_cases hd : d = c
      · subst hd
        rw [Function.update_self, hnd.mem_erase_iff]
        simp
      · rw [Function.update_of_ne hd]
        simpa using hothers d hd
    · rw [Function.update_of_ne hk, h.owner]
      by_cases hd : d = c
      · subst hd
        rw [Function.update_self, List.mem_erase_of_ne hk]
      · rw [Function.update_of_ne hd]

end Locks

/-! ### One step of the running frame -/

section Steps

variable {K : Client C T L X σ} {m m' : Cpu} {f : Frame T L X} {is : Code T L X} {lk : L}
  {k : Caller} {b e r : Bool}

omit [DecidableEq C] [DecidableEq T] [Fintype C]

theorem here_start (hp : f.phase = .start) :
    Here K b f ↔ Typed K f.locks f.pushed f.code := by
  simp [Here, hp]

theorem Running.typed (h : Running K m f) (hp : f.phase = .start) :
    Typed K f.locks f.pushed f.code := (here_start hp).mp h.here

omit [DecidableEq L] in
theorem Restores.intena (h : Restores m.intena f) (hp : f.phase = .start) {b : Bool}
    (hb : f.entry = some b) : 0 < f.depth ∧ m.intena = b := by
  have := h b hb
  rw [hp] at this
  exact this

theorem Running.next (h : Running K m f) (hp : f.phase = .start)
    (ht : Typed K f.locks f.pushed is) : Running K m (f.next is) where
  ncli := h.ncli
  masked := h.masked
  nodup := h.nodup
  here := ht
  restores := fun _ hb => h.restores.intena hp hb

theorem Running.readeflags (h : Running K m f) (hp : f.phase = .start)
    (hc : f.code = .pushcli :: is) : Running K m { f with phase := .flags m.flagIF } where
  ncli := h.ncli
  masked := h.masked
  nodup := h.nodup
  here := by
    have := h.typed hp
    rw [hc] at this
    simpa [Here, hc, Typed] using this
  restores := fun _ hb => h.restores.intena hp hb

theorem Running.cli (h : Running K m f) (hp : f.phase = .flags e) (hc : f.code = .pushcli :: is) :
    Running K { m with flagIF := false }
      { f with phase := .masked e
               entry := if m.ncli = 0 then some m.flagIF else f.entry } where
  ncli := h.ncli
  masked := fun _ => rfl
  nodup := h.nodup
  here := by
    have hhere := h.here
    simp only [Here, hp, hc] at hhere
    simpa [Here, hc] using hhere.2
  restores := by
    have hhere := h.here
    simp only [Here, hp, hc] at hhere
    intro b hb
    by_cases hz : m.ncli = 0
    · have hd : f.depth = 0 := by
        have := h.ncli
        omega
      simp only [hz, if_true, Option.some.injEq] at hb
      change if f.depth = 0 then e = b else _
      rw [if_pos hd, ← hb]
      exact hhere.1
    · have hd : f.depth ≠ 0 := by
        have := h.ncli
        omega
      simp only [hz, if_false] at hb
      have := h.restores b hb
      rw [hp] at this
      change if f.depth = 0 then _ else m.intena = b
      rw [if_neg hd]
      exact this.2

theorem Running.count (h : Running K m f) (hp : f.phase = .masked e)
    (hc : f.code = .pushcli :: is) :
    Running K { m with intena := if m.ncli = 0 then e else m.intena, ncli := m.ncli + 1 }
      { f.next is with pushed := f.pushed + 1 } := by
  have hhere := h.here
  simp only [Here, hp, hc] at hhere
  have hn : m.ncli = f.depth := h.ncli
  constructor
  · change m.ncli + 1 = ((f.locks.length + (f.pushed + 1) : ℕ) : ℤ)
    rw [hn]
    unfold Frame.depth
    omega
  · exact fun _ => hhere.1
  · exact h.nodup
  · exact hhere.2
  · intro b hb
    have := h.restores b hb
    rw [hp] at this
    refine ⟨Nat.succ_pos _, ?_⟩
    by_cases hz : f.depth = 0
    · rw [hz] at hn
      simpa [hz, hn] using this
    · have hnz : m.ncli ≠ 0 := by omega
      simpa [hz, hnz] using this

omit [DecidableEq L] in
/-- popcli of a frame that has a pushcli to undo. -/
theorem popcli_running (hd : m.ncli = f.depth) (hpos : 0 < f.pushed) (hm : m.flagIF = false) :
    popcli m = .ok { m with ncli := m.ncli - 1, flagIF := m.ncli - 1 = 0 && m.intena } := by
  have : ¬ m.ncli - 1 < 0 := by
    unfold Frame.depth at hd
    omega
  simp [SpinLocks.popcli, hm, this]

omit [DecidableEq L] in
theorem popcli_eq_ok (h : popcli m = .ok m') :
    m.flagIF = false ∧ 0 < m.ncli ∧
      m' = { m with ncli := m.ncli - 1, flagIF := m.ncli - 1 = 0 && m.intena } := by
  unfold SpinLocks.popcli at h
  split at h
  · cases h
  · rename_i hm
    split at h
    · cases h
    · cases h
      exact ⟨by simpa using hm, by omega, rfl⟩

/-- popcli, wherever it stands, with what the frame knows afterwards. -/
theorem Running.pop (h : Running K m f) (hpos : 0 < f.pushed) (ho : popcli m = .ok m')
    {code : Code T L X} {p : Phase} (hp : p = .start ∨ ∃ r, p = .verdict r)
    (hold : f.phase = .start ∨ ∃ r, f.phase = .result r)
    (hhere : ∀ flag, Here K flag { f with
      code := code, phase := p, pushed := f.pushed - 1, entry := none }) :
    Running K m' { f with
      code := code, phase := p, pushed := f.pushed - 1
      entry := if m'.ncli = 0 then none else f.entry } := by
  obtain ⟨hm, -, rfl⟩ := popcli_eq_ok ho
  have hn : m.ncli = f.locks.length + f.pushed := by
    have := h.ncli
    unfold Frame.depth at this
    omega
  constructor
  · change m.ncli - 1 = ((f.locks.length + (f.pushed - 1) : ℕ) : ℤ)
    omega
  · intro hd
    have : m.ncli - 1 ≠ 0 := by
      change 0 < f.locks.length + (f.pushed - 1) at hd
      omega
    simp [this]
  · exact h.nodup
  · exact hhere _
  · intro b hb
    by_cases hz : m.ncli - 1 = 0
    · simp [hz] at hb
    · simp only [hz, if_false] at hb
      have hb' := h.restores b hb
      have hint : m.intena = b := by
        rcases hold with hold | ⟨r, hold⟩
        · rw [hold] at hb'
          exact hb'.2
        · rw [hold] at hb'
          exact hb'.2
      have hd : 0 < f.locks.length + (f.pushed - 1) := by omega
      rcases hp with rfl | ⟨r, rfl⟩
      · exact ⟨hd, hint⟩
      · exact ⟨hd, hint⟩

theorem Running.look (h : Running K m f) (hp : f.phase = .start) (hc : f.code = .test lk k :: is)
    (hr : lk ∈ f.locks → r = true) : Running K m { f with phase := .seen r } where
  ncli := h.ncli
  masked := h.masked
  nodup := h.nodup
  here := by
    have := h.typed hp
    rw [hc] at this
    simp only [Here, hc]
    exact ⟨this.1, hr, this.2⟩
  restores := fun _ hb => h.restores.intena hp hb

theorem Running.compare (h : Running K m f) (hp : f.phase = .seen e)
    (hc : f.code = .test lk k :: is) (hr : lk ∈ f.locks → e = true → r = true)
    (hr' : r = true → lk ∈ f.locks) : Running K m { f with phase := .result r } where
  ncli := h.ncli
  masked := h.masked
  nodup := h.nodup
  here := by
    have := h.here
    simp only [Here, hp, hc] at this ⊢
    exact ⟨this.1, ⟨hr', fun hlk => hr hlk (this.2.1 hlk)⟩, this.2.2⟩
  restores := by
    intro b hb
    have := h.restores b hb
    rw [hp] at this
    exact this

theorem Running.decide (h : Running K m f) (hp : f.phase = .result r)
    (hc : f.code = .test lk k :: is) (ho : SpinLocks.popcli m = .ok m') :
    Running K m' { f with
      phase := .verdict r
      pushed := f.pushed - 1
      entry := if m'.ncli = 0 then none else f.entry } := by
  have hhere := h.here
  simp only [Here, hp, hc] at hhere
  refine h.pop hhere.1 ho (.inr ⟨r, rfl⟩) (.inr ⟨r, hp⟩) ?_
  intro flag
  simp only [Here, hc]
  exact hhere.2

theorem Caller.passes_of_refuses {held : Prop} (h : k.refuses r = none) (hr : r = true ↔ held) :
    k.passes held := by
  cases k <;> cases r <;> simp_all [Caller.refuses, Caller.passes]

theorem Running.pass (h : Running K m f) (hp : f.phase = .verdict r)
    (hc : f.code = .test lk k :: is) (hk : k.refuses r = none) : Running K m (f.next is) where
  ncli := h.ncli
  masked := h.masked
  nodup := h.nodup
  here := by
    have hhere := h.here
    simp only [Here, hp, hc] at hhere
    exact hhere.2.2 (Caller.passes_of_refuses hk hhere.1)
  restores := by
    intro b hb
    have := h.restores b hb
    rw [hp] at this
    exact this

theorem Running.taken (h : Running K m f) (hp : f.phase = .start) (hc : f.code = .take lk :: is) :
    Running K m { f with
      phase := .taken, locks := lk :: f.locks, pushed := f.pushed - 1 } := by
  have ht := h.typed hp
  rw [hc] at ht
  obtain ⟨hpos, hnot, ht⟩ := ht
  have hd : (lk :: f.locks).length + (f.pushed - 1) = f.depth := by
    unfold Frame.depth
    rw [List.length_cons]
    omega
  constructor
  · rw [h.ncli]
    exact congrArg Nat.cast hd.symm
  · exact fun hpos' => h.masked (hd ▸ hpos')
  · exact List.nodup_cons.mpr ⟨hnot, h.nodup⟩
  · simp only [Here, hc]
    exact ⟨List.mem_cons_self, ht⟩
  · intro b hb
    have := h.restores.intena hp hb
    exact ⟨this.1.trans_eq hd.symm, this.2⟩

theorem Running.record (h : Running K m f) (hp : f.phase = .taken) (hc : f.code = .take lk :: is) :
    Running K m (f.next is) where
  ncli := h.ncli
  masked := h.masked
  nodup := h.nodup
  here := by
    have hhere := h.here
    simp only [Here, hp, hc] at hhere
    exact hhere.2
  restores := by
    intro b hb
    have := h.restores b hb
    rw [hp] at this
    exact this

theorem Running.clear (h : Running K m f) (hp : f.phase = .start) (hc : f.code = .give lk :: is) :
    Running K m { f with phase := .cleared } where
  ncli := h.ncli
  masked := h.masked
  nodup := h.nodup
  here := by
    have := h.typed hp
    rw [hc] at this
    simp only [Here, hc]
    exact this
  restores := fun _ hb => h.restores.intena hp hb

theorem Running.given (h : Running K m f) (hp : f.phase = .cleared) (hc : f.code = .give lk :: is) :
    Running K m { f.next is with locks := f.locks.erase lk, pushed := f.pushed + 1 } := by
  have hhere := h.here
  simp only [Here, hp, hc] at hhere
  have hlen := List.length_erase_of_mem hhere.1
  have hpos := List.length_pos_of_mem hhere.1
  have hd : (f.locks.erase lk).length + (f.pushed + 1) = f.depth := by
    unfold Frame.depth
    omega
  constructor
  · rw [h.ncli]
    exact congrArg Nat.cast hd.symm
  · exact fun hpos' => h.masked (hd ▸ hpos')
  · exact h.nodup.erase lk
  · exact hhere.2
  · intro b hb
    have := h.restores b hb
    rw [hp] at this
    exact ⟨this.1.trans_eq hd.symm, this.2⟩

theorem Running.setFlag (h : Running K m f) (hp : f.phase = .start) (hc : f.code = .sti :: is) :
    Running K { m with flagIF := true } (f.next is) := by
  have ht := h.typed hp
  rw [hc] at ht
  obtain ⟨hl, hn, ht⟩ := ht
  have hd : f.depth = 0 := by
    unfold Frame.depth
    rw [hl, hn]
    rfl
  refine ⟨h.ncli, fun hpos => ?_, h.nodup, ht, fun _ hb => h.restores.intena hp hb⟩
  change 0 < f.depth at hpos
  omega

theorem Running.save (h : Running K m f) (hp : f.phase = .start)
    (hc : f.code = .switchBack :: is) : Running K m { f with phase := .leaving m.intena } where
  ncli := h.ncli
  masked := h.masked
  nodup := h.nodup
  here := by
    have := h.typed hp
    rw [hc] at this
    simp only [Here, hc]
    exact this
  restores := fun _ hb => ⟨(h.restores.intena hp hb).2, (h.restores.intena hp hb).2⟩

theorem Running.restore (h : Running K m f) (hp : f.phase = .away e)
    (hc : f.code = .switchBack :: is) :
    Running K { m with intena := e } (f.next is) := by
  have hhere := h.here
  simp only [Here, hp, hc] at hhere
  refine ⟨h.ncli, h.masked, h.nodup, hhere.2.2, ?_⟩
  intro b hb
  have := h.restores b hb
  rw [hp] at this
  refine ⟨?_, this⟩
  change 0 < f.locks.length + f.pushed
  rw [hhere.1, List.length_singleton]
  omega

/-- A thread whose turn comes on any processor with ptable.lock and nothing else. -/
theorem Suspended.running (h : Suspended K f) (hn : m.ncli = 1) (hm : m.flagIF = false) :
    Running K m f := by
  have hd : f.depth = 1 := by
    unfold Frame.depth
    rw [h.locks, h.pushed]
    rfl
  refine ⟨by rw [hn, hd]; rfl, fun _ => hm, ?_, hm ▸ h.here, ?_⟩
  · rw [h.locks]
    exact List.nodup_singleton _
  · intro b hb
    rcases h.phase with ⟨hp, he⟩ | ⟨e, hp, he⟩
    · rw [he] at hb
      cases hb
    · rw [hp]
      exact he b hb

end Steps

/-! ### One step of the machine -/

section Machine

variable {K : Client C T L X σ} {s t : State C T L X σ} {c d : C} {m : Cpu}
  {f g : Frame T L X} {fs : List (Frame T L X)} {lk : L}

omit [DecidableEq L] [Fintype C] in
@[simp] theorem put_current (s : State C T L X σ) (c : C) (m : Cpu) (fs : List (Frame T L X)) :
    (s.put c m fs).current = s.current := rfl

omit [DecidableEq L] [Fintype C] in
theorem put_stack_self : (s.put c m fs).stack (s.current c) = fs := Function.update_self ..

omit [DecidableEq L] [Fintype C] in
theorem put_stack_of_ne {u : T} (hu : u ≠ s.current c) : (s.put c m fs).stack u = s.stack u :=
  Function.update_of_ne hu ..

omit [DecidableEq L] [Fintype C] in
/-- What is read off the running frames changes only for the processor whose frames change. -/
theorem put_running (read : List (Frame T L X) → List L) (hinj : Function.Injective s.current) :
    (fun d => read ((s.put c m fs).stack ((s.put c m fs).current d))) =
      Function.update (fun d => read (s.stack (s.current d))) c (read fs) := by
  funext d
  by_cases hd : d = c
  · subst hd
    rw [Function.update_self, put_current, put_stack_self]
  · rw [Function.update_of_ne hd, put_current, put_stack_of_ne fun h => hd (hinj h)]

omit [DecidableEq L] [Fintype C] in
theorem held_put (hinj : Function.Injective s.current) :
    (s.put c m (f :: fs)).held = Function.update s.held c f.locks := put_running heldBy hinj

omit [Fintype C] in
theorem recorded_put (hinj : Function.Injective s.current) :
    (s.put c m (f :: fs)).recorded = Function.update s.recorded c f.recorded :=
  put_running recordedBy hinj

omit [DecidableEq C] [DecidableEq T] [DecidableEq L] [Fintype C] in
theorem held_of_stack (h : s.stack (s.current c) = f :: fs) : s.held c = f.locks := by
  unfold State.held
  rw [h]
  rfl

omit [DecidableEq C] [DecidableEq T] [Fintype C] in
theorem recorded_of_stack (h : s.stack (s.current c) = f :: fs) : s.recorded c = f.recorded := by
  unfold State.recorded
  rw [h]
  rfl

omit [Fintype C] in
/-- What a step of one processor on its own frames has to show; `t` may differ from `s` in the
locks and in the client's state. -/
theorem Invariant.put (h : Invariant K s) (hcur : t.current = s.current) (hcpu : t.cpu = s.cpu)
    (hst : t.stack = s.stack) (hr : Running K m f) (hfs : ∀ g ∈ fs, Interrupted K g)
    (hl : Locks t.lock (Function.update s.held c f.locks)
      (Function.update s.recorded c f.recorded)) :
    Invariant K (t.put c m (f :: fs)) := by
  have hheld : t.held = s.held := by
    funext d
    unfold State.held
    rw [hcur, hst]
  have hrec : t.recorded = s.recorded := by
    funext d
    unfold State.recorded
    rw [hcur, hst]
  have hinj : Function.Injective t.current := hcur ▸ h.injective
  constructor
  · exact hinj
  · intro d
    by_cases hd : d = c
    · subst hd
      refine ⟨f, fs, put_stack_self, ?_, hfs⟩
      change Running K (Function.update t.cpu d m d) f
      rw [Function.update_self]
      exact hr
    · obtain ⟨g, gs, hg, hrun, hgs⟩ := h.running d
      refine ⟨g, gs, ?_, ?_, hgs⟩
      · rw [put_current, put_stack_of_ne fun h => hd (hinj h), hst, hcur]
        exact hg
      · change Running K (Function.update t.cpu c m d) g
        rw [Function.update_of_ne hd, hcpu]
        exact hrun
  · intro u hu g gs hg
    have hne : u ≠ t.current c := fun h => hu ⟨c, h.symm⟩
    rw [put_stack_of_ne hne, hst] at hg
    refine h.suspended u ?_ g gs hg
    rintro ⟨d, hd⟩
    exact hu ⟨d, by rw [put_current, hcur]; exact hd⟩
  · rw [held_put hinj, recorded_put hinj, hheld, hrec]
    exact hl

omit [Fintype C] in
/-- A step that leaves the locks alone. -/
theorem Invariant.quiet (h : Invariant K s) (hcur : t.current = s.current)
    (hcpu : t.cpu = s.cpu) (hst : t.stack = s.stack) (hlock : t.lock = s.lock)
    (hr : Running K m f) (hfs : ∀ g ∈ fs, Interrupted K g) (hheld : f.locks = s.held c)
    (hrec : f.recorded = s.recorded c) : Invariant K (t.put c m (f :: fs)) := by
  refine h.put hcur hcpu hst hr hfs ?_
  rw [hheld, hrec, Function.update_eq_self, Function.update_eq_self, hlock]
  exact h.locks

/-- A switch away from a thread that is left with ptable.lock and nothing else. -/
theorem Invariant.swtch {u : T} (h : Invariant K s) (hold : Running K (s.cpu c) f)
    (hstack : s.stack (s.current c) = f :: fs) (hg : Suspended K g)
    (hfs : ∀ g ∈ fs, Interrupted K g) (hlocks : f.locks = [K.ptable]) (hpushed : f.pushed = 0)
    (hrec : f.recorded = f.locks) (ht : swtch s c (g :: fs) u = .ok t) : Invariant K t := by
  unfold SpinLocks.swtch at ht
  split at ht
  · cases ht
  rename_i hfree
  obtain ⟨hoff, hne⟩ := not_or.mp hfree
  cases ht
  have hcu : s.current c ≠ u := fun e => hoff ⟨c, e⟩
  obtain ⟨g', gs, hg'⟩ : ∃ g' gs, s.stack u = g' :: gs := by
    cases hu : s.stack u with
    | nil => simp [hu] at hne
    | cons g' gs => exact ⟨g', gs, rfl⟩
  obtain ⟨hsus, hgs⟩ := h.suspended u hoff g' gs hg'
  have hd : f.depth = 1 := by
    unfold Frame.depth
    rw [hlocks, hpushed]
    rfl
  have hn : (s.cpu c).ncli = 1 := by
    rw [hold.ncli, hd]
    rfl
  have hstk : ∀ v, v ≠ s.current c →
      Function.update s.stack (s.current c) (g :: fs) v = s.stack v :=
    fun v hv => Function.update_of_ne hv ..
  have hcurd : ∀ d, d ≠ c → Function.update s.current c u d = s.current d :=
    fun d hd => Function.update_of_ne hd ..
  have hdne : ∀ d, d ≠ c → s.current d ≠ s.current c := fun d hd e => hd (h.injective e)
  have hrecg : g'.recorded = [K.ptable] := by
    rcases hsus.phase with ⟨hp, -⟩ | ⟨e, hp, -⟩
    · rw [Frame.recorded_start hp, hsus.locks]
    · unfold Frame.recorded
      rw [hp]
      exact hsus.locks
  constructor
  · intro d d' hdd
    change Function.update s.current c u d = Function.update s.current c u d' at hdd
    by_cases hd : d = c
    · by_cases hd' : d' = c
      · rw [hd, hd']
      · rw [hd, Function.update_self, hcurd d' hd'] at hdd
        exact absurd ⟨d', hdd.symm⟩ hoff
    · by_cases hd' : d' = c
      · rw [hd', Function.update_self, hcurd d hd] at hdd
        exact absurd ⟨d, hdd⟩ hoff
      · rw [hcurd d hd, hcurd d' hd'] at hdd
        exact h.injective hdd
  · intro d
    by_cases hdc : d = c
    · subst hdc
      refine ⟨g', gs, ?_, hsus.running hn (hold.masked (by omega)), hgs⟩
      change Function.update s.stack _ _ (Function.update s.current d u d) = _
      rw [Function.update_self, hstk u hcu.symm, hg']
    · obtain ⟨k, ks, hk, hrun, hks⟩ := h.running d
      refine ⟨k, ks, ?_, hrun, hks⟩
      change Function.update s.stack _ _ (Function.update s.current c u d) = _
      rw [hcurd d hdc, hstk _ (hdne d hdc), hk]
  · intro v hv k ks hk
    change Function.update s.stack _ _ v = _ at hk
    by_cases hvc : v = s.current c
    · rw [hvc, Function.update_self] at hk
      cases hk
      exact ⟨hg, hfs⟩
    · rw [hstk v hvc] at hk
      refine h.suspended v ?_ k ks hk
      rintro ⟨d, hdv⟩
      refine hv ⟨d, ?_⟩
      change Function.update s.current c u d = v
      rw [hcurd d, hdv]
      rintro rfl
      exact hvc hdv.symm
  · have hheld : ({ s with current := Function.update s.current c u
                           stack := Function.update s.stack (s.current c) (g :: fs) }
        : State C T L X σ).held = s.held := by
      funext d
      unfold State.held
      by_cases hdc : d = c
      · subst hdc
        change heldBy (Function.update s.stack _ _ (Function.update s.current d u d)) = _
        rw [Function.update_self, hstk u hcu.symm, hg', hstack]
        exact hsus.locks.trans hlocks.symm
      · change heldBy (Function.update s.stack _ _ (Function.update s.current c u d)) = _
        rw [hcurd d hdc, hstk _ (hdne d hdc)]
    have hrecs : ({ s with current := Function.update s.current c u
                           stack := Function.update s.stack (s.current c) (g :: fs) }
        : State C T L X σ).recorded = s.recorded := by
      funext d
      unfold State.recorded
      by_cases hdc : d = c
      · subst hdc
        change recordedBy (Function.update s.stack _ _ (Function.update s.current d u d)) = _
        rw [Function.update_self, hstk u hcu.symm, hg', hstack]
        exact hrecg.trans (hlocks.symm.trans hrec.symm)
      · change recordedBy (Function.update s.stack _ _ (Function.update s.current c u d)) = _
        rw [hcurd d hdc, hstk _ (hdne d hdc)]
    rw [hheld, hrecs]
    exact h.locks

omit [DecidableEq T] [DecidableEq C] [Fintype C] in
theorem recorded_of_phase (ht : f.phase ≠ .taken) (hc : f.phase ≠ .cleared) :
    f.recorded = f.locks := by
  unfold Frame.recorded
  split
  · rename_i hp _
    exact absurd hp ht
  · rename_i hp _
    exact absurd hp hc
  · rfl

omit [DecidableEq C] [DecidableEq T] [Fintype C] in
/-- The locks that a processor is recorded for are locks it holds. -/
theorem Invariant.recorded_sub (h : Invariant K s) (d : C) :
    ∀ k ∈ s.recorded d, k ∈ s.held d := by
  obtain ⟨g, gs, hg, hrun, -⟩ := h.running d
  rw [recorded_of_stack hg, held_of_stack hg]
  unfold Frame.recorded
  split
  · exact fun k hk => List.mem_of_mem_erase hk
  · exact fun k hk => List.mem_of_mem_erase hk
  · exact fun k hk => hk

omit [DecidableEq C] in
theorem Invariant.restack (h : Invariant K s) {e : Option (T × Option (Code T L X))}
    (hcode : ∀ u is, e = some (u, some is) → Typed K [K.ptable] 0 is)
    (ht : restack s K.ptable e = .ok t) : Invariant K t := by
  unfold SpinLocks.restack at ht
  split at ht
  · cases ht
    exact h
  · rename_i u code
    split at ht
    · cases ht
    rename_i hoff
    cases ht
    have hne : ∀ d, s.current d ≠ u := fun d e => hoff ⟨d, e⟩
    have hstk : ∀ d, Function.update s.stack u (fresh K.ptable code) (s.current d) =
        s.stack (s.current d) := fun d => Function.update_of_ne (hne d) ..
    refine ⟨h.injective, ?_, ?_, ?_⟩
    · intro d
      obtain ⟨g, gs, hg, hrun⟩ := h.running d
      exact ⟨g, gs, (hstk d).trans hg, hrun⟩
    · intro v hv k ks hk
      change Function.update s.stack _ _ v = _ at hk
      by_cases hvu : v = u
      · subst hvu
        rw [Function.update_self] at hk
        cases code with
        | none => cases hk
        | some is =>
          cases hk
          exact ⟨⟨rfl, rfl, hcode _ _ rfl, .inl ⟨rfl, rfl⟩⟩, by simp⟩
      · rw [Function.update_of_ne hvu] at hk
        exact h.suspended v hv k ks hk
    · have hheld : ({ s with stack := Function.update s.stack u (fresh K.ptable code) }
          : State C T L X σ).held = s.held := by
        funext d
        exact congrArg heldBy (hstk d)
      have hrecs : ({ s with stack := Function.update s.stack u (fresh K.ptable code) }
          : State C T L X σ).recorded = s.recorded := by
        funext d
        exact congrArg recordedBy (hstk d)
      rw [hheld, hrecs]
      exact h.locks

omit [DecidableEq C] [DecidableEq T] [Fintype C] in
theorem Invariant.top (h : Invariant K s) (hstack : s.stack (s.current c) = f :: fs) :
    Running K (s.cpu c) f ∧ ∀ g ∈ fs, Interrupted K g := by
  obtain ⟨f', fs', hstack', hrun, hfs⟩ := h.running c
  rw [hstack] at hstack'
  cases hstack'
  exact ⟨hrun, hfs⟩

omit [Fintype C] in
/-- A step of the running frame that neither takes nor gives a lock. -/
theorem Invariant.same (h : Invariant K s) (hstack : s.stack (s.current c) = f :: fs)
    (hr : Running K m g) (hlocks : g.locks = f.locks) (hf : f.recorded = f.locks)
    (hg : g.recorded = g.locks) : Invariant K (s.put c m (g :: fs)) := by
  refine h.quiet rfl rfl rfl rfl hr (h.top hstack).2 ?_ ?_
  · rw [hlocks, held_of_stack hstack]
  · rw [hg, hlocks, recorded_of_stack hstack, hf]

omit [Fintype C] in
/-- The second read of holding: the field cpu names this processor exactly if it holds the
lock. -/
theorem Invariant.compare {is : Code T L X} {k : Caller} {e : Bool} (h : Invariant K s)
    (hstack : s.stack (s.current c) = f :: fs) (hc : f.code = .test lk k :: is)
    (hp : f.phase = .seen e) :
    Invariant K (s.put c (s.cpu c)
      ({ f with phase := .result (e && (s.lock lk).cpu = some c) } :: fs)) := by
  have hsame : f.recorded = f.locks := recorded_of_phase (by simp [hp]) (by simp [hp])
  have howner : (s.lock lk).cpu = some c ↔ lk ∈ f.locks := by
    rw [h.locks.owner, recorded_of_stack hstack, hsame]
  refine h.same hstack ((h.top hstack).1.compare hp hc ?_ ?_) rfl hsame
    (recorded_of_phase nofun nofun)
  · intro hlk hl
    simp [hl, howner.mpr hlk]
  · intro hr
    simp only [Bool.and_eq_true, decide_eq_true_eq] at hr
    exact howner.mp hr.2

omit [Fintype C] in
/-- The xchg of acquire that finds the lock free. -/
theorem Invariant.take {is : Code T L X} (h : Invariant K s)
    (hstack : s.stack (s.current c) = f :: fs) (hc : f.code = .take lk :: is)
    (hp : f.phase = .start) (hfree : (s.lock lk).locked = false) :
    Invariant K ((s.setLock lk { s.lock lk with locked := true }).put c (s.cpu c)
      ({ f with phase := .taken, locks := lk :: f.locks, pushed := f.pushed - 1 } :: fs)) := by
  obtain ⟨hrun, hfs⟩ := h.top hstack
  refine h.put rfl rfl rfl (hrun.taken hp hc) hfs ?_
  have hr : ({ f with phase := .taken, locks := lk :: f.locks, pushed := f.pushed - 1 }
      : Frame T L X).recorded = s.recorded c := by
    rw [recorded_of_stack hstack, Frame.recorded_start hp]
    unfold Frame.recorded
    simp [hc]
  rw [hr, Function.update_eq_self, ← held_of_stack hstack]
  exact h.locks.take hfree

omit [Fintype C] in
/-- The store to lk->cpu in acquire. -/
theorem Invariant.record {is : Code T L X} (h : Invariant K s)
    (hstack : s.stack (s.current c) = f :: fs) (hc : f.code = .take lk :: is)
    (hp : f.phase = .taken) :
    Invariant K ((s.setLock lk { s.lock lk with cpu := some c }).put c (s.cpu c)
      (f.next is :: fs)) := by
  obtain ⟨hrun, hfs⟩ := h.top hstack
  have hheld := held_of_stack hstack
  refine h.put rfl rfl rfl (hrun.record hp hc) hfs ?_
  have hhere := hrun.here
  simp only [Here, hp, hc] at hhere
  rw [Frame.recorded_start (f := f.next is) rfl]
  change Locks _ (Function.update s.held c f.locks) (Function.update s.recorded c f.locks)
  rw [← hheld, Function.update_eq_self]
  refine h.locks.record (hheld ▸ hhere.1) (fun d _ => h.recorded_sub d) ?_
  rw [recorded_of_stack hstack, hheld]
  unfold Frame.recorded
  simp [hp, hc]

omit [Fintype C] in
/-- The store of release that clears lk->cpu. -/
theorem Invariant.clear {is : Code T L X} (h : Invariant K s)
    (hstack : s.stack (s.current c) = f :: fs) (hc : f.code = .give lk :: is)
    (hp : f.phase = .start) :
    Invariant K ((s.setLock lk { s.lock lk with cpu := none }).put c (s.cpu c)
      ({ f with phase := .cleared } :: fs)) := by
  obtain ⟨hrun, hfs⟩ := h.top hstack
  have hheld := held_of_stack hstack
  have hrec : s.recorded c = f.locks :=
    (recorded_of_stack hstack).trans (Frame.recorded_start hp)
  have htyped := hrun.typed hp
  rw [hc] at htyped
  refine h.put rfl rfl rfl (hrun.clear hp hc) hfs ?_
  have hr : ({ f with phase := .cleared } : Frame T L X).recorded = (s.recorded c).erase lk := by
    rw [hrec]
    unfold Frame.recorded
    simp [hc]
  rw [hr]
  change Locks _ (Function.update s.held c f.locks) _
  rw [← hheld, Function.update_eq_self]
  refine h.locks.forget (hrec ▸ htyped.1) (hrec ▸ hrun.nodup) ?_
  intro d hd hlk
  exact hd (h.locks.unique lk d c (h.recorded_sub d lk hlk) (hheld ▸ htyped.1))

omit [Fintype C] in
/-- The store of release that frees the lock. -/
theorem Invariant.give {is : Code T L X} (h : Invariant K s)
    (hstack : s.stack (s.current c) = f :: fs) (hc : f.code = .give lk :: is)
    (hp : f.phase = .cleared) :
    Invariant K ((s.setLock lk { s.lock lk with locked := false }).put c (s.cpu c)
      ({ f.next is with locks := f.locks.erase lk, pushed := f.pushed + 1 } :: fs)) := by
  obtain ⟨hrun, hfs⟩ := h.top hstack
  have hheld := held_of_stack hstack
  have hhere := hrun.here
  simp only [Here, hp, hc] at hhere
  refine h.put rfl rfl rfl (hrun.given hp hc) hfs ?_
  have hrec : s.recorded c = f.locks.erase lk := by
    rw [recorded_of_stack hstack]
    unfold Frame.recorded
    simp [hp, hc]
  have hr : ({ f.next is with locks := f.locks.erase lk, pushed := f.pushed + 1 }
      : Frame T L X).recorded = s.recorded c := by
    rw [Frame.recorded_start rfl, hrec]
  rw [hr, Function.update_eq_self, ← hheld]
  refine h.locks.free (hheld ▸ hhere.1) (hheld ▸ hrun.nodup) ?_
  rw [hrec, hrun.nodup.mem_erase_iff]
  simp

/-- The swtch of sched. -/
theorem Invariant.leave {is : Code T L X} {e : Bool} (h : Invariant K s)
    (hstack : s.stack (s.current c) = f :: fs) (hc : f.code = .switchBack :: is)
    (hp : f.phase = .leaving e)
    (ht : SpinLocks.swtch s c ({ f with phase := .away e } :: fs) (K.scheduler c) = .ok t) :
    Invariant K t := by
  obtain ⟨hrun, hfs⟩ := h.top hstack
  have hhere := hrun.here
  simp only [Here, hp, hc] at hhere
  have hsus : Suspended K { f with phase := .away e } := by
    refine ⟨hhere.1, hhere.2.1, ?_, .inr ⟨e, rfl, ?_⟩⟩
    · simp only [Here, hc]
      exact hhere
    · intro b hb
      have := hrun.restores b hb
      rw [hp] at this
      exact this.1
  exact h.swtch hrun hstack hsus hfs hhere.1 hhere.2.1
    (recorded_of_phase (by simp [hp]) (by simp [hp])) ht

/-- The swtch of scheduler. -/
theorem Invariant.enter {u : T} {is : Code T L X} (h : Invariant K s)
    (hstack : s.stack (s.current c) = f :: fs) (hc : f.code = .switchTo u :: is)
    (hp : f.phase = .start)
    (ht : SpinLocks.swtch s c ({ f.next is with entry := none } :: fs) u = .ok t) :
    Invariant K t := by
  obtain ⟨hrun, hfs⟩ := h.top hstack
  have htyped := hrun.typed hp
  rw [hc] at htyped
  have hsus : Suspended K { f.next is with entry := none } :=
    ⟨htyped.1, htyped.2.1, htyped.2.2, .inl ⟨rfl, rfl⟩⟩
  exact h.swtch hrun hstack hsus hfs htyped.1 htyped.2.1 (Frame.recorded_start hp) ht

/-- An operation of the client. -/
theorem Invariant.op {x : X} {is : Code T L X} {e : Effect T L X σ} (hK : K.Sound)
    (h : Invariant K s) (hstack : s.stack (s.current c) = f :: fs) (hc : f.code = .op x :: is)
    (hp : f.phase = .start) (he : K.exec c x s.client = .ok e)
    (ht : SpinLocks.restack ({ s with client := e.client }.put c (s.cpu c)
      (f.next (e.code ++ is) :: fs)) K.ptable e.stack = .ok t) : Invariant K t := by
  obtain ⟨hrun, hfs⟩ := h.top hstack
  have htyped := hrun.typed hp
  rw [hc] at htyped
  refine Invariant.restack ?_ (fun u is' hs => hK.stack c x _ e u is' he hs) ht
  refine h.quiet rfl rfl rfl rfl
    (hrun.next hp (hK.exec c x _ e _ _ is he htyped.1 htyped.2)) hfs
    (held_of_stack hstack).symm ?_
  rw [recorded_of_stack hstack, Frame.recorded_start hp]
  exact Frame.recorded_start rfl

theorem execute_invariant (hK : K.Sound) (h : Invariant K s)
    (hstack : s.stack (s.current c) = f :: fs) (ht : execute K s c f fs = .ok t) :
    Invariant K t := by
  obtain ⟨hrun, -⟩ := h.top hstack
  have hsame : f.phase ≠ .taken → f.phase ≠ .cleared → f.recorded = f.locks := recorded_of_phase
  unfold execute at ht
  split at ht
  · rename_i hc hp
    cases ht
    exact h.same hstack (hrun.readeflags hp hc) rfl (hsame (by simp [hp]) (by simp [hp]))
      (recorded_of_phase nofun nofun)
  · rename_i hc hp
    cases ht
    exact h.same hstack (hrun.cli hp hc) rfl (hsame (by simp [hp]) (by simp [hp]))
      (recorded_of_phase nofun nofun)
  · rename_i hc hp
    obtain ⟨-, -, ht⟩ := bind_eq_ok.mp ht
    cases ht
    exact h.same hstack (hrun.count hp hc) rfl (hsame (by simp [hp]) (by simp [hp]))
      (Frame.recorded_start rfl)
  · rename_i hc hp
    obtain ⟨m', hm', ht⟩ := bind_eq_ok.mp ht
    cases ht
    have htyped := hrun.typed hp
    rw [hc] at htyped
    exact h.same hstack (hrun.pop htyped.1 hm' (.inl rfl) (.inl hp) fun _ => htyped.2) rfl
      (hsame (by simp [hp]) (by simp [hp])) (Frame.recorded_start rfl)
  · rename_i lk k is hc hp
    cases ht
    refine h.same hstack (hrun.look hp hc fun hlk => ?_) rfl
      (hsame (by simp [hp]) (by simp [hp])) (recorded_of_phase nofun nofun)
    exact (h.locks.locked lk).mpr ⟨c, held_of_stack hstack ▸ hlk⟩
  · rename_i hc hp
    obtain ⟨-, -, ht⟩ := bind_eq_ok.mp ht
    cases ht
    exact h.compare hstack hc hp
  · rename_i hc hp
    obtain ⟨m', hm', ht⟩ := bind_eq_ok.mp ht
    cases ht
    exact h.same hstack (hrun.decide hp hc hm') rfl (hsame (by simp [hp]) (by simp [hp]))
      (recorded_of_phase nofun nofun)
  · rename_i hc hp
    split at ht
    · cases ht
    · rename_i hk
      cases ht
      exact h.same hstack (hrun.pass hp hc hk) rfl (hsame (by simp [hp]) (by simp [hp]))
        (Frame.recorded_start rfl)
  · rename_i hc hp
    split at ht
    · cases ht
      exact h
    · rename_i hfree
      cases ht
      exact h.take hstack hc hp (by simpa using hfree)
  · rename_i hc hp
    obtain ⟨-, -, ht⟩ := bind_eq_ok.mp ht
    cases ht
    exact h.record hstack hc hp
  · rename_i hc hp
    cases ht
    exact h.clear hstack hc hp
  · rename_i hc hp
    cases ht
    exact h.give hstack hc hp
  · rename_i hc hp
    cases ht
    exact h.same hstack (hrun.setFlag hp hc) rfl (hsame (by simp [hp]) (by simp [hp]))
      (Frame.recorded_start rfl)
  · rename_i hc hp
    obtain ⟨-, -, ht⟩ := bind_eq_ok.mp ht
    split at ht
    · cases ht
      have htyped := hrun.typed hp
      rw [hc] at htyped
      exact h.same hstack (hrun.next hp htyped.2) rfl (hsame (by simp [hp]) (by simp [hp]))
        (Frame.recorded_start rfl)
    · cases ht
  · rename_i hc hp
    change (if (s.cpu c).flagIF = true then _ else _) = _ at ht
    split at ht
    · cases ht
    · cases ht
      have htyped := hrun.typed hp
      rw [hc] at htyped
      exact h.same hstack (hrun.next hp htyped.2) rfl (hsame (by simp [hp]) (by simp [hp]))
        (Frame.recorded_start rfl)
  · rename_i hc hp
    obtain ⟨-, -, ht⟩ := bind_eq_ok.mp ht
    cases ht
    exact h.same hstack (hrun.save hp hc) rfl (hsame (by simp [hp]) (by simp [hp]))
      (recorded_of_phase nofun nofun)
  · rename_i hc hp
    obtain ⟨-, -, ht⟩ := bind_eq_ok.mp ht
    exact h.leave hstack hc hp ht
  · rename_i hc hp
    obtain ⟨-, -, ht⟩ := bind_eq_ok.mp ht
    cases ht
    exact h.same hstack (hrun.restore hp hc) rfl (hsame (by simp [hp]) (by simp [hp]))
      (Frame.recorded_start rfl)
  · rename_i hc hp
    exact h.enter hstack hc hp ht
  · rename_i hc hp
    obtain ⟨e, he, ht⟩ := bind_eq_ok.mp ht
    exact h.op hK hstack hc hp he ht
  · cases ht

omit [DecidableEq C] [DecidableEq T] [Fintype C] in
theorem request_typed {u : T} {bottom : Bool} {r : Request L X}
    (h : allowed K u bottom f r = true) :
    Typed K f.locks f.pushed r.code := by
  cases r with
  | acquire lk =>
    have htyped : Typed K f.locks f.pushed (acquire lk ++ []) := typed_acquire fun _ => trivial
    exact htyped
  | release lk =>
    have htyped : Typed K f.locks f.pushed (release lk ++ []) := typed_release fun _ => trivial
    exact htyped
  | pushcli => trivial
  | popcli => exact ⟨by simpa [allowed] using h, trivial⟩
  | op x =>
    simp only [allowed, Bool.and_eq_true] at h
    exact ⟨h.1, trivial⟩

omit [DecidableEq C] [DecidableEq T] [DecidableEq L] [Fintype C] in
theorem locks_of_depth (h : f.depth = 0) : f.locks = [] := by
  unfold Frame.depth at h
  exact List.length_eq_zero_iff.mp (by omega)

omit [DecidableEq C] [DecidableEq T] [Fintype C] in
theorem recorded_of_depth (h : f.depth = 0) : f.recorded = [] := by
  unfold Frame.recorded
  rw [locks_of_depth h]
  split <;> rfl

omit [DecidableEq C] [DecidableEq T] [Fintype C] in
theorem Running.interrupted (h : Running K m f) (hm : m.flagIF = true) : Interrupted K f := by
  have hd : f.depth = 0 := by
    by_contra hd
    have := h.masked (by omega)
    rw [hm] at this
    cases this
  have hhere := h.here
  rw [hm] at hhere
  refine ⟨hd, hhere, ?_⟩
  cases he : f.entry with
  | none => rfl
  | some b =>
    have hr := h.restores b he
    have hone : f.locks ≠ [K.ptable] := by
      rw [locks_of_depth hd]
      exact nofun
    unfold Here at hhere
    split at hhere <;> rename_i hp _ <;> simp_all

omit [DecidableEq C] [DecidableEq T] [Fintype C] in
theorem Interrupted.running (h : Interrupted K f) (hn : m.ncli = 0) (hm : m.flagIF = true) :
    Running K m f := by
  refine ⟨by rw [hn, h.depth]; rfl, fun hpos => ?_, ?_, hm ▸ h.here, ?_⟩
  · rw [h.depth] at hpos
    cases hpos
  · rw [locks_of_depth h.depth]
    exact List.nodup_nil
  · intro b hb
    rw [h.entry] at hb
    cases hb

theorem step_invariant (hK : K.Sound) (h : Invariant K s) {e : Event C L X}
    (ht : step K s e = .ok t) : Invariant K t := by
  cases e with
  | step c =>
    obtain ⟨f, fs, hstack, -⟩ := h.running c
    simp only [step, hstack] at ht
    exact execute_invariant hK h hstack ht
  | call c r =>
    obtain ⟨f, fs, hstack, hrun, hfs⟩ := h.running c
    simp only [step, hstack] at ht
    split at ht
    · rename_i hr
      obtain ⟨hnil, hr⟩ := Bool.and_eq_true_iff.mp hr
      have hc := List.isEmpty_iff.mp hnil
      cases ht
      have hp : f.phase = .start := by
        have := hrun.here
        unfold Here at this
        split at this <;> simp_all
      refine h.quiet rfl rfl rfl rfl (hrun.next hp (request_typed hr)) hfs
        (held_of_stack hstack).symm ?_
      rw [recorded_of_stack hstack, Frame.recorded_start hp]
      exact Frame.recorded_start rfl
    · cases ht
  | interrupt c =>
    obtain ⟨f, fs, hstack, hrun, hfs⟩ := h.running c
    simp only [step] at ht
    split at ht
    · rename_i hm
      cases ht
      have hint := hrun.interrupted hm
      rw [hstack]
      refine h.quiet rfl rfl rfl rfl ⟨?_, fun _ => rfl, List.nodup_nil, trivial, nofun⟩ ?_ ?_ ?_
      · rw [hrun.ncli, hint.depth]
        rfl
      · exact List.forall_mem_cons.mpr ⟨hint, hfs⟩
      · rw [held_of_stack hstack, locks_of_depth hint.depth]
      · rw [recorded_of_stack hstack, recorded_of_depth hint.depth]
        rfl
    · cases ht
  | iret c =>
    obtain ⟨f, fs, hstack, hrun, hfs⟩ := h.running c
    simp only [step, hstack] at ht
    cases fs with
    | nil => cases ht
    | cons g gs =>
      simp only at ht
      split at ht
      · rename_i hr
        simp only [Bool.and_eq_true, List.isEmpty_iff, decide_eq_true_eq] at hr
        cases ht
        obtain ⟨hg, hgs⟩ := List.forall_mem_cons.mp hfs
        have hd : f.depth = 0 := by
          unfold Frame.depth
          rw [hr.1.2, hr.2]
          rfl
        refine h.quiet rfl rfl rfl rfl (hg.running ?_ rfl) hgs ?_ ?_
        · rw [hrun.ncli, hd]
          rfl
        · rw [held_of_stack hstack, locks_of_depth hg.depth, hr.1.2]
        · rw [recorded_of_stack hstack, recorded_of_depth hd, recorded_of_depth hg.depth]
      · cases ht

omit [DecidableEq C] in
theorem initial_invariant (hK : K.Sound) : Invariant K (initial K) := by
  have hstack : ∀ c, (initial K).stack (K.scheduler c) = [⟨K.boot, .start, [], 0, none⟩] :=
    fun c => if_pos ⟨c, rfl⟩
  have hheld : ∀ c, (initial K).held c = [] := fun c => held_of_stack (hstack c)
  have hrec : ∀ c, (initial K).recorded c = [] := fun c => recorded_of_stack (hstack c)
  constructor
  · exact hK.scheduler
  · intro c
    refine ⟨_, _, hstack c, ⟨rfl, nofun, List.nodup_nil, hK.boot, nofun⟩, by simp⟩
  · intro t ht f fs hf
    have : (initial K).stack t = fresh K.ptable (K.first t) := if_neg ht
    rw [this] at hf
    cases hfirst : K.first t with
    | none =>
      rw [hfirst] at hf
      cases hf
    | some is =>
      rw [hfirst] at hf
      cases hf
      exact ⟨⟨rfl, rfl, hK.first t is hfirst, .inl ⟨rfl, rfl⟩⟩, by simp⟩
  · constructor
    · intro lk
      change false = true ↔ ∃ c, lk ∈ (initial K).held c
      simp [hheld]
    · intro lk c d hc
      rw [hheld] at hc
      cases hc
    · intro lk c
      change none = some c ↔ lk ∈ (initial K).recorded c
      simp [hrec]

theorem reachable_invariant (hK : K.Sound) (h : Reachable (step K) (initial K) s) :
    Invariant K s :=
  GuardedRuns.reachable_invariant (fun _ _ _ h ht => step_invariant hK h ht)
    (initial_invariant hK) h

/-- The processor spins in acquire. -/
def waits (s : State C T L X σ) (c : C) (lk : L) : Prop :=
  ∃ f fs is, s.stack (s.current c) = f :: fs ∧ f.code = .take lk :: is ∧ f.phase = .start ∧
    (s.lock lk).locked = true

omit [DecidableEq C] [DecidableEq T] [Fintype C] in
theorem Invariant.masked (h : Invariant K s) (hc : s.held c ≠ []) : (s.cpu c).flagIF = false := by
  obtain ⟨f, fs, hstack, hrun, -⟩ := h.running c
  rw [held_of_stack hstack] at hc
  refine hrun.masked ?_
  have := List.length_pos_iff.mpr hc
  unfold Frame.depth
  omega

/-- At most one processor holds a lock, with its interrupts off, and one that spins in acquire
has its interrupts off as well and waits for another one, which holds the lock. -/
theorem locks_exclude (K : Client C T L X σ) (hK : K.Sound) {s : State C T L X σ}
    (h : Reachable (step K) (initial K) s) :
    (∀ lk c d, lk ∈ s.held c → lk ∈ s.held d → c = d) ∧
      (∀ c, s.held c ≠ [] → (s.cpu c).flagIF = false) ∧
      ∀ c lk, waits s c lk → (s.cpu c).flagIF = false ∧
        ∃ d, d ≠ c ∧ lk ∈ s.held d ∧ (s.cpu d).flagIF = false := by
  have hinv := reachable_invariant hK h
  refine ⟨hinv.locks.unique, fun c => hinv.masked, ?_⟩
  rintro c lk ⟨f, fs, is, hstack, hc, hp, hlocked⟩
  obtain ⟨f', fs', hstack', hrun, -⟩ := hinv.running c
  rw [hstack] at hstack'
  cases hstack'
  have htyped := hrun.typed hp
  rw [hc] at htyped
  obtain ⟨hpos, hnot, -⟩ := htyped
  refine ⟨hrun.masked (Nat.add_pos_right _ hpos), ?_⟩
  obtain ⟨d, hd⟩ := (hinv.locks.locked lk).mp hlocked
  refine ⟨d, ?_, hd, hinv.masked (List.ne_nil_of_mem hd)⟩
  rintro rfl
  rw [held_of_stack hstack] at hd
  exact hnot hd

/-- Two processors that take and release one lock, and no operation of a client. -/
def twoProcessors : Client (Fin 2) (Fin 2) Unit Empty Unit where
  ptable := ()
  scheduler := id
  exec _ x _ := nomatch x
  pre x _ _ := nomatch x
  post x _ := nomatch x
  entry _ _ x := nomatch x
  boot := .sti :: (acquire () ++ release ())
  first _ := none
  start := ()

theorem twoProcessors_sound : twoProcessors.Sound where
  exec _ x := nomatch x
  stack _ x := nomatch x
  scheduler := Function.injective_id
  boot := ⟨rfl, rfl, by decide, trivial, fun h => ⟨by decide, h, by decide, trivial, fun _ =>
    ⟨by decide, by decide, trivial⟩⟩⟩
  first _ _ h := nomatch h

theorem locks_exclude_taken : ∃ s, Reachable (step twoProcessors) (initial twoProcessors) s ∧
    () ∈ s.held 0 ∧ (s.cpu 0).flagIF = false ∧ () ∉ s.held 1 := by
  obtain ⟨s, hs, hheld⟩ := execution_of_map (step twoProcessors) (initial twoProcessors)
    (List.replicate 13 (.step 0)) (fun s => s.held 0) (b := [()]) (by decide +kernel)
  have hmem : () ∈ s.held 0 := by simp [hheld]
  obtain ⟨hunique, hmasked, -⟩ := locks_exclude twoProcessors twoProcessors_sound ⟨_, hs⟩
  refine ⟨s, ⟨_, hs⟩, hmem, hmasked 0 (by simp [hheld]), fun h => ?_⟩
  cases hunique () 0 1 hmem h

/-- The client's operation that the processor has come to panics. -/
def clientPanics (K : Client C T L X σ) (s : State C T L X σ) (c : C) (text : String) : Prop :=
  ∃ f fs x is, s.stack (s.current c) = f :: fs ∧ f.code = .op x :: is ∧ f.phase = .start ∧
    K.exec c x s.client = .error (.panic text)

/-- A frame is about to act upon what holding has returned. -/
def judges (s : State C T L X σ) (c : C) (lk : L) (k : Caller) : Prop :=
  ∃ f fs is r, s.stack (s.current c) = f :: fs ∧ f.code = .test lk k :: is ∧
    f.phase = .verdict r

omit [DecidableEq C] [DecidableEq T] [DecidableEq L] [Fintype C] in
theorem mycpu_ok (hm : m.flagIF = false) : mycpu m = .ok () := by
  simp [mycpu, hm]

omit [DecidableEq L] in
theorem swtch_ne_panic {u : T} {text : String} : swtch s c fs u ≠ .error (.panic text) := by
  unfold SpinLocks.swtch
  split <;> nofun

omit [DecidableEq C] [DecidableEq L] in
theorem restack_ne_panic {ptable : L} {o : Option (T × Option (Code T L X))} {text : String} :
    restack s ptable o ≠ .error (.panic text) := by
  unfold SpinLocks.restack
  split
  · nofun
  · split <;> nofun

omit [DecidableEq C] [DecidableEq T] [Fintype C] in
theorem Running.verdict {k : Caller} {r : Bool} {is : Code T L X} (h : Running K m f)
    (hp : f.phase = .verdict r) (hc : f.code = .test lk k :: is) :
    (r = true ↔ lk ∈ f.locks) ∧ k.needs (lk ∈ f.locks) := by
  have hhere := h.here
  simp only [Here, hp, hc] at hhere
  exact ⟨hhere.1, hhere.2.1⟩

theorem mycpu_passes {α : Type} {m : Cpu} {g : Unit → Except Fault α} {e : Fault}
    (hoff : m.flagIF = false) (h : (mycpu m >>= g) = .error e) : g () = .error e := by
  rw [mycpu_ok hoff] at h
  exact h

omit [DecidableEq C] [DecidableEq T] [Fintype C] in
theorem Running.popcli_passes {α : Type} {m : Cpu} {g : Cpu → Except Fault α} {e : Fault}
    (h : Running K m f) (hpos : 0 < f.pushed) (hp : (popcli m >>= g) = .error e) :
    ∃ m', g m' = .error e := by
  rw [popcli_running h.ncli hpos (h.masked (Nat.add_pos_right _ hpos))] at hp
  exact ⟨_, hp⟩

theorem execute_panics {text : String} (h : Running K (s.cpu c) f)
    (hstack : s.stack (s.current c) = f :: fs) (hp : execute K s c f fs = .error (.panic text)) :
    clientPanics K s c text ∨
      (text = "acquire" ∧ ∃ lk, judges s c lk .acquire ∧ lk ∈ s.held c) ∨
      (text = "release" ∧ ∃ lk, judges s c lk .release ∧ lk ∉ s.held c) := by
  have hhere := h.here
  unfold execute at hp
  split at hp
  · cases hp
  · cases hp
  · rename_i hc hph
    simp only [Here, hph, hc] at hhere
    cases mycpu_passes hhere.1 hp
  · rename_i hc hph
    have htyped := h.typed hph
    rw [hc] at htyped
    obtain ⟨m, hm⟩ := h.popcli_passes htyped.1 hp
    cases hm
  · cases hp
  · rename_i hc hph
    simp only [Here, hph, hc] at hhere
    cases mycpu_passes (h.masked (Nat.add_pos_right _ hhere.1)) hp
  · rename_i hc hph
    simp only [Here, hph, hc] at hhere
    obtain ⟨m, hm⟩ := h.popcli_passes hhere.1 hp
    cases hm
  · rename_i lk k is r hc hph
    obtain ⟨hr, hneeds⟩ := h.verdict hph hc
    have hjudges : judges s c lk k := ⟨f, fs, is, r, hstack, hc, hph⟩
    rw [← held_of_stack hstack] at hr hneeds
    split at hp
    · rename_i text' hrefuse
      cases hp
      cases k with
      | acquire =>
        cases r with
        | true => exact .inr (.inl ⟨(Option.some.inj hrefuse).symm, lk, hjudges, hr.mp rfl⟩)
        | false => cases hrefuse
      | release =>
        cases r with
        | true => cases hrefuse
        | false =>
          exact .inr (.inr ⟨(Option.some.inj hrefuse).symm, lk, hjudges, fun hlk =>
            Bool.false_ne_true (hr.mpr hlk)⟩)
      | sched =>
        have hlk : lk ∈ s.held c := hneeds
        rw [hr.mpr hlk] at hrefuse
        cases hrefuse
    · cases hp
  · split at hp <;> cases hp
  · rename_i hc hph
    simp only [Here, hph, hc] at hhere
    cases mycpu_passes (h.masked (Nat.add_pos_left (List.length_pos_of_mem hhere.1) _)) hp
  · cases hp
  · cases hp
  · cases hp
  · rename_i hc hph
    have htyped := h.typed hph
    rw [hc] at htyped
    have hd : f.depth = 1 := htyped.1
    have hp := mycpu_passes (h.masked (by omega)) hp
    rw [if_pos (by rw [h.ncli, hd]; rfl)] at hp
    cases hp
  · rename_i hc hph
    have htyped := h.typed hph
    rw [hc] at htyped
    change (if (s.cpu c).flagIF = true then _ else _) = _ at hp
    rw [h.masked htyped.1] at hp
    cases hp
  · rename_i hc hph
    have htyped := h.typed hph
    rw [hc] at htyped
    have hd : 0 < f.depth := Nat.add_pos_left (by rw [htyped.1]; exact Nat.one_pos) _
    cases mycpu_passes (h.masked hd) hp
  · rename_i hc hph
    simp only [Here, hph, hc] at hhere
    have hd : 0 < f.depth := Nat.add_pos_left (by rw [hhere.1]; exact Nat.one_pos) _
    have hp := mycpu_passes (h.masked hd) hp
    exact (swtch_ne_panic hp).elim
  · rename_i hc hph
    simp only [Here, hph, hc] at hhere
    have hd : 0 < f.depth := Nat.add_pos_left (by rw [hhere.1]; exact Nat.one_pos) _
    cases mycpu_passes (h.masked hd) hp
  · exact (swtch_ne_panic hp).elim
  · rename_i x is hc hph
    rcases bind_eq_error.mp hp with hm | ⟨_, -, hm⟩
    · exact .inl ⟨f, fs, x, is, hstack, hc, hph, hm⟩
    · exact (restack_ne_panic hm).elim
  · cases hp

/-- holding tells the truth whatever the other processors do meanwhile, so acquire panics on a
lock of this processor, release on a lock it does not hold, and none of the panics of mycpu,
popcli and sched is reached. -/
theorem panics_exact (K : Client C T L X σ) (hK : K.Sound) {s : State C T L X σ}
    (h : Reachable (step K) (initial K) s) :
    (∀ c lk, judges s c lk .acquire →
      (step K s (.step c) = .error (.panic "acquire") ↔ lk ∈ s.held c)) ∧
    (∀ c lk, judges s c lk .release →
      (step K s (.step c) = .error (.panic "release") ↔ lk ∉ s.held c)) ∧
    ∀ e text, step K s e = .error (.panic text) → ∃ c, e = .step c ∧
      (clientPanics K s c text ∨
        (text = "acquire" ∧ ∃ lk, judges s c lk .acquire ∧ lk ∈ s.held c) ∨
        (text = "release" ∧ ∃ lk, judges s c lk .release ∧ lk ∉ s.held c)) := by
  have hinv := reachable_invariant hK h
  refine ⟨?_, ?_, ?_⟩
  · rintro c lk ⟨f, fs, is, r, hstack, hc, hp⟩
    obtain ⟨f', fs', hstack', hrun, -⟩ := hinv.running c
    rw [hstack] at hstack'
    cases hstack'
    rw [held_of_stack hstack, ← (hrun.verdict hp hc).1]
    simp only [step, hstack, execute, hc, hp]
    cases r <;> simp [Caller.refuses]
  · rintro c lk ⟨f, fs, is, r, hstack, hc, hp⟩
    obtain ⟨f', fs', hstack', hrun, -⟩ := hinv.running c
    rw [hstack] at hstack'
    cases hstack'
    rw [held_of_stack hstack, ← (hrun.verdict hp hc).1]
    simp only [step, hstack, execute, hc, hp]
    cases r <;> simp [Caller.refuses]
  · intro e text he
    cases e with
    | step c =>
      obtain ⟨f, fs, hstack, hrun, -⟩ := hinv.running c
      simp only [step, hstack] at he
      exact ⟨c, rfl, execute_panics hrun hstack he⟩
    | call c r =>
      obtain ⟨f, fs, hstack, -⟩ := hinv.running c
      simp only [step, hstack] at he
      split at he <;> cases he
    | interrupt c =>
      simp only [step] at he
      split at he <;> cases he
    | iret c =>
      obtain ⟨f, fs, hstack, -⟩ := hinv.running c
      simp only [step, hstack] at he
      cases fs with
      | nil => cases he
      | cons g gs =>
        simp only at he
        split at he <;> cases he

/-- Neither a lock that is not recorded yet, nor a switch. -/
def Phase.inside : Phase → Prop
  | .taken | .away _ => False
  | _ => True

theorem Phase.inside.not_away {ph : Phase} (h : ph.inside) (e : Bool) : ph ≠ .away e := by
  rintro rfl
  exact h

/-- How a step that is no switch and no operation of the client changes its frame. -/
inductive Move (f f' : Frame T L X) : Prop where
  | within (i : Instr T L X) (is : Code T L X) (hhead : f.code = i :: is) (hi : i.own)
      (hcode : f'.code = f.code) (hlocks : f'.locks = f.locks)
      (hp : f.phase.inside) (hp' : f'.phase.inside)
  | past (i : Instr T L X) (hcode : f.code = i :: f'.code) (hi : i.plain)
      (hp : ∀ e, f.phase ≠ .away e) (ht : ∀ lk, i = .take lk → f.phase = .taken)
      (hlocks : f'.locks = f.locks) (hp' : f'.phase = .start)
  | take (lk : L) (is : Code T L X) (hhead : f.code = .take lk :: is) (hcode : f'.code = f.code)
      (hp : f.phase = .start) (hlocks : f'.locks = lk :: f.locks) (hp' : f'.phase = .taken)
  | give (lk : L) (hcode : f.code = .give lk :: f'.code) (hp : f.phase = .cleared)
      (hlocks : f'.locks = f.locks.erase lk) (hp' : f'.phase = .start)
  | back (e : Bool) (hcode : f.code = .switchBack :: f'.code) (hp : f.phase = .away e)
      (hlocks : f'.locks = f.locks) (hp' : f'.phase = .start)

/-- All that a step of the frame f, above the frames fs, can lead to. -/
inductive Outcome (K : Client C T L X σ) (s : State C T L X σ) (c : C) (f : Frame T L X)
    (fs : List (Frame T L X)) : State C T L X σ → Prop where
  | spin (lk : L) (is : Code T L X) (hc : f.code = .take lk :: is) : Outcome K s c f fs s
  | move (lock : L → Spinlock C) (m : Cpu) (f' : Frame T L X) (h : Move f f') :
      Outcome K s c f fs ({ s with lock := lock }.put c m (f' :: fs))
  | leave (e : Bool) (is : Code T L X) (t : State C T L X σ) (hc : f.code = .switchBack :: is)
      (hp : f.phase = .leaving e)
      (ht : SpinLocks.swtch s c ({ f with phase := .away e } :: fs) (K.scheduler c) = .ok t) :
      Outcome K s c f fs t
  | enter (u : T) (is : Code T L X) (t : State C T L X σ) (hc : f.code = .switchTo u :: is)
      (hp : f.phase = .start)
      (ht : SpinLocks.swtch s c ({ f.next is with entry := none } :: fs) u = .ok t) :
      Outcome K s c f fs t
  | op (x : X) (is : Code T L X) (e : Effect T L X σ) (t : State C T L X σ)
      (hc : f.code = .op x :: is) (hp : f.phase = .start) (he : K.exec c x s.client = .ok e)
      (ht : SpinLocks.restack ({ s with client := e.client }.put c (s.cpu c)
        (f.next (e.code ++ is) :: fs)) K.ptable e.stack = .ok t) : Outcome K s c f fs t

theorem execute_outcome (ht : execute K s c f fs = .ok t) : Outcome K s c f fs t := by
  unfold execute at ht
  split at ht
  · rename_i hc hp
    cases ht
    exact .move s.lock _ _ (.within _ _ hc trivial rfl rfl (by simp [Phase.inside, hp]) trivial)
  · rename_i hc hp
    cases ht
    exact .move s.lock _ _ (.within _ _ hc trivial rfl rfl (by simp [Phase.inside, hp]) trivial)
  · rename_i hc hp
    obtain ⟨-, -, ht⟩ := bind_eq_ok.mp ht
    cases ht
    exact .move s.lock _ _ (.past _ hc trivial (by simp [hp]) (by simp [hp]) rfl rfl)
  · rename_i hc hp
    obtain ⟨m', -, ht⟩ := bind_eq_ok.mp ht
    cases ht
    exact .move s.lock _ _ (.past _ hc trivial (by simp [hp]) (by simp [hp]) rfl rfl)
  · rename_i hc hp
    cases ht
    exact .move s.lock _ _ (.within _ _ hc trivial rfl rfl (by simp [Phase.inside, hp]) trivial)
  · rename_i hc hp
    obtain ⟨-, -, ht⟩ := bind_eq_ok.mp ht
    cases ht
    exact .move s.lock _ _ (.within _ _ hc trivial rfl rfl (by simp [Phase.inside, hp]) trivial)
  · rename_i hc hp
    obtain ⟨m', -, ht⟩ := bind_eq_ok.mp ht
    cases ht
    exact .move s.lock _ _ (.within _ _ hc trivial rfl rfl (by simp [Phase.inside, hp]) trivial)
  · rename_i hc hp
    split at ht
    · cases ht
    · cases ht
      exact .move s.lock _ _ (.past _ hc trivial (by simp [hp]) (by simp [hp]) rfl rfl)
  · rename_i hc hp
    split at ht
    · cases ht
      exact .spin _ _ hc
    · cases ht
      exact .move _ _ _ (.take _ _ hc rfl hp rfl rfl)
  · rename_i hc hp
    obtain ⟨-, -, ht⟩ := bind_eq_ok.mp ht
    cases ht
    exact .move _ _ _ (.past _ hc trivial (by simp [hp]) (by simp [hp]) rfl rfl)
  · rename_i hc hp
    cases ht
    exact .move _ _ _ (.within _ _ hc trivial rfl rfl (by simp [Phase.inside, hp]) trivial)
  · rename_i hc hp
    cases ht
    exact .move _ _ _ (.give _ hc hp rfl rfl)
  · rename_i hc hp
    cases ht
    exact .move s.lock _ _ (.past _ hc trivial (by simp [hp]) (by simp [hp]) rfl rfl)
  · rename_i hc hp
    obtain ⟨-, -, ht⟩ := bind_eq_ok.mp ht
    split at ht
    · cases ht
      exact .move s.lock _ _ (.past _ hc trivial (by simp [hp]) (by simp [hp]) rfl rfl)
    · cases ht
  · rename_i hc hp
    change (if (s.cpu c).flagIF = true then _ else _) = _ at ht
    split at ht
    · cases ht
    · cases ht
      exact .move s.lock _ _ (.past _ hc trivial (by simp [hp]) (by simp [hp]) rfl rfl)
  · rename_i hc hp
    obtain ⟨-, -, ht⟩ := bind_eq_ok.mp ht
    cases ht
    exact .move s.lock _ _ (.within _ _ hc trivial rfl rfl (by simp [Phase.inside, hp]) trivial)
  · rename_i is e hc hp
    obtain ⟨-, -, ht⟩ := bind_eq_ok.mp ht
    exact .leave e is t hc hp ht
  · rename_i hc hp
    obtain ⟨-, -, ht⟩ := bind_eq_ok.mp ht
    cases ht
    exact .move s.lock _ _ (.back _ hc hp rfl rfl)
  · rename_i u is hc hp
    exact .enter u is t hc hp ht
  · rename_i x is hc hp
    obtain ⟨e, he, ht⟩ := bind_eq_ok.mp ht
    exact .op x is e t hc hp he ht
  · cases ht

omit [DecidableEq L] [Fintype C] in
@[simp] theorem put_cpu_self : (s.put c m fs).cpu c = m := Function.update_self ..

omit [DecidableEq L] in
theorem swtch_cpu {u : T} (h : swtch s c fs u = .ok t) : t.cpu = s.cpu := by
  unfold SpinLocks.swtch at h
  split at h <;> cases h
  rfl

omit [DecidableEq C] [DecidableEq L] in
theorem restack_cpu {ptable : L} {o : Option (T × Option (Code T L X))}
    (h : restack s ptable o = .ok t) : t.cpu = s.cpu := by
  unfold SpinLocks.restack at h
  split at h
  · cases h
    rfl
  · split at h <;> cases h
    rfl

/-- All that a step of the frame f can do to its processor. -/
inductive Flags (f : Frame T L X) (m : Cpu) : Cpu → Prop where
  | keep : Flags f m m
  | mask : Flags f m { m with flagIF := false }
  | unmask : Flags f m { m with flagIF := true }
  | push (e : Bool) :
      Flags f m { m with intena := if m.ncli = 0 then e else m.intena, ncli := m.ncli + 1 }
  | pop (m' : Cpu) (hpop : popcli m = .ok m')
      (hp : f.phase = .start ∨ ∃ r, f.phase = .result r) : Flags f m m'
  | back (e : Bool) (is : Code T L X) (hc : f.code = .switchBack :: is)
      (hp : f.phase = .away e) : Flags f m { m with intena := e }

theorem execute_flags (ht : execute K s c f fs = .ok t) : Flags f (s.cpu c) (t.cpu c) := by
  unfold execute at ht
  split at ht
  · cases ht
    rw [put_cpu_self]
    exact .keep
  · cases ht
    rw [put_cpu_self]
    exact .mask
  · rename_i e _ _
    obtain ⟨-, -, ht⟩ := bind_eq_ok.mp ht
    cases ht
    rw [put_cpu_self]
    exact .push e
  · rename_i hp
    obtain ⟨m', hm', ht⟩ := bind_eq_ok.mp ht
    cases ht
    rw [put_cpu_self]
    exact .pop m' hm' (.inl hp)
  · cases ht
    rw [put_cpu_self]
    exact .keep
  · obtain ⟨-, -, ht⟩ := bind_eq_ok.mp ht
    cases ht
    rw [put_cpu_self]
    exact .keep
  · rename_i r _ hp
    obtain ⟨m', hm', ht⟩ := bind_eq_ok.mp ht
    cases ht
    rw [put_cpu_self]
    exact .pop m' hm' (.inr ⟨r, hp⟩)
  · split at ht
    · cases ht
    · cases ht
      rw [put_cpu_self]
      exact .keep
  · split at ht
    · cases ht
      exact .keep
    · cases ht
      rw [put_cpu_self]
      exact .keep
  · obtain ⟨-, -, ht⟩ := bind_eq_ok.mp ht
    cases ht
    rw [put_cpu_self]
    exact .keep
  · cases ht
    rw [put_cpu_self]
    exact .keep
  · cases ht
    rw [put_cpu_self]
    exact .keep
  · cases ht
    rw [put_cpu_self]
    exact .unmask
  · obtain ⟨-, -, ht⟩ := bind_eq_ok.mp ht
    split at ht
    · cases ht
      rw [put_cpu_self]
      exact .keep
    · cases ht
  · change (if (s.cpu c).flagIF = true then _ else _) = _ at ht
    split at ht
    · cases ht
    · cases ht
      rw [put_cpu_self]
      exact .keep
  · obtain ⟨-, -, ht⟩ := bind_eq_ok.mp ht
    cases ht
    rw [put_cpu_self]
    exact .keep
  · obtain ⟨-, -, ht⟩ := bind_eq_ok.mp ht
    rw [swtch_cpu ht]
    exact .keep
  · rename_i is e hc hp
    obtain ⟨-, -, ht⟩ := bind_eq_ok.mp ht
    cases ht
    rw [put_cpu_self]
    exact .back e is hc hp
  · rw [swtch_cpu ht]
    exact .keep
  · obtain ⟨e, -, ht⟩ := bind_eq_ok.mp ht
    rw [restack_cpu ht, put_cpu_self]
    exact .keep
  · cases ht

omit [DecidableEq L] [Fintype C] in
theorem put_cpu_of_ne (hd : d ≠ c) : (s.put c m fs).cpu d = s.cpu d :=
  Function.update_of_ne hd ..

/-- No other processor is touched. -/
theorem execute_cpu_of_ne (ht : execute K s c f fs = .ok t) (hd : d ≠ c) :
    t.cpu d = s.cpu d := by
  cases execute_outcome ht with
  | spin => rfl
  | move lock m f' _ => exact put_cpu_of_ne hd
  | leave _ _ _ _ _ ht => rw [swtch_cpu ht]
  | enter _ _ _ _ _ ht => rw [swtch_cpu ht]
  | op _ _ _ _ _ _ _ ht =>
    rw [restack_cpu ht]
    exact put_cpu_of_ne hd

/-- Only popcli lowers the depth of a processor. -/
theorem execute_lowers (ht : execute K s c f fs = .ok t)
    (hlow : (t.cpu c).ncli < (s.cpu c).ncli) :
    popcli (s.cpu c) = .ok (t.cpu c) ∧ (f.phase = .start ∨ ∃ r, f.phase = .result r) := by
  have hflags := execute_flags ht
  generalize t.cpu c = m at hflags hlow ⊢
  cases hflags with
  | pop m' hpop hp => exact ⟨hpop, hp⟩
  | push e =>
    dsimp only at hlow
    omega
  | _ => exact absurd hlow (lt_irrefl _)

/-- The frame is back from the swtch of sched and is about to restore intena. -/
def Frame.back (f : Frame T L X) : Bool :=
  match f.code, f.phase with
  | .switchBack :: _, .away _ => true
  | _, _ => false

/-- The processor is within some pushcli and its thread is not just back in sched. -/
def KeepsIntena (s : State C T L X σ) (c : C) : Prop :=
  (s.cpu c).ncli ≠ 0 ∧ ∀ f ∈ (s.stack (s.current c)).head?, f.back = false

instance (s : State C T L X σ) (c : C) : Decidable (KeepsIntena s c) :=
  inferInstanceAs (Decidable (_ ∧ _))

omit [DecidableEq L] [Fintype C] in
theorem put_intena (hm : m.intena = (s.cpu d).intena) :
    ((s.put d m fs).cpu c).intena = (s.cpu c).intena := by
  by_cases hd : c = d
  · rw [hd, put_cpu_self, hm]
  · rw [put_cpu_of_ne hd]

/-- intena changes only in an outermost pushcli and in sched. -/
theorem step_intena {e : Event C L X} (hk : KeepsIntena s c) (ht : step K s e = .ok t) :
    (t.cpu c).intena = (s.cpu c).intena := by
  cases e with
  | step d =>
    simp only [step] at ht
    split at ht
    · cases ht
    · rename_i f fs hstack
      by_cases hd : c = d
      · subst hd
        have hback : f.back = false := hk.2 f (by rw [hstack]; rfl)
        have hflags := execute_flags ht
        generalize t.cpu c = m at hflags ⊢
        cases hflags with
        | pop m' hpop hp =>
          obtain ⟨-, -, rfl⟩ := popcli_eq_ok hpop
          rfl
        | push e => exact if_neg hk.1
        | back e is hc hp => simp [Frame.back, hc, hp] at hback
        | _ => rfl
      · rw [execute_cpu_of_ne ht hd]
  | call d r =>
    simp only [step] at ht
    split at ht
    · cases ht
    · split at ht <;> cases ht
      exact put_intena rfl
  | interrupt d =>
    simp only [step] at ht
    split at ht <;> cases ht
    exact put_intena rfl
  | iret d =>
    simp only [step] at ht
    split at ht
    · split at ht <;> cases ht
      exact put_intena rfl
    · cases ht

theorem run_intena {es : List (Event C L X)} (hes : Execution (step K) s es t)
    (hk : Along (step K) (fun v _ => KeepsIntena v c) s es) :
    (t.cpu c).intena = (s.cpu c).intena := by
  induction hes with
  | nil => rfl
  | cons he _ ih => rw [ih (hk.2 _ he), step_intena hk.1 he]

omit [DecidableEq C] [DecidableEq T] [Fintype C] in
/-- What the outermost pushcli of the running frame has found is in intena. -/
theorem Invariant.intena {b : Bool} (h : Invariant K s)
    (hstack : s.stack (s.current c) = f :: fs) (hk : KeepsIntena s c) (hb : f.entry = some b) :
    (s.cpu c).intena = b := by
  obtain ⟨hrun, -⟩ := h.top hstack
  have hback : f.back = false := hk.2 f (by rw [hstack]; rfl)
  have hdepth : f.depth ≠ 0 := by
    intro hd
    apply hk.1
    rw [hrun.ncli, hd]
    rfl
  have hrestores := hrun.restores b hb
  have hhere := hrun.here
  cases hp : f.phase with
  | masked e =>
    rw [hp] at hrestores
    simpa [hdepth] using hrestores
  | away e =>
    unfold Here at hhere
    rw [hp] at hhere
    split at hhere <;> simp_all [Frame.back]
  | _ =>
    rw [hp] at hrestores
    exact hrestores.2

theorem panics_exact_release : ∃ s,
    Reachable (step twoProcessors) (initial twoProcessors) s ∧ judges s 0 () .release ∧
      () ∈ s.held 0 ∧ step twoProcessors s (.step 0) ≠ .error (.panic "release") := by
  obtain ⟨s, hs, hf⟩ := execution_of_map (step twoProcessors) (initial twoProcessors)
    (List.replicate 19 (.step 0)) (fun s => s.stack (s.current 0))
    (b := [⟨[.test () .release, .give (), .popcli], .verdict true, [()], 0, some true⟩])
    (by decide +kernel)
  have hjudges : judges s 0 () .release := ⟨_, _, _, _, hf, rfl, rfl⟩
  have hmem : () ∈ s.held 0 := by
    rw [held_of_stack hf]
    exact List.mem_cons_self
  refine ⟨s, ⟨_, hs⟩, hjudges, hmem, fun h => ?_⟩
  exact ((panics_exact twoProcessors twoProcessors_sound ⟨_, hs⟩).2.1 0 () hjudges).mp h hmem

/-- A popcli that ends the depth of a processor sets the flag that an outermost pushcli has
found and cleared. With no events between, it is the pushcli of the thread itself, whatever
interrupts and turns of sched have come since and on whichever processor it runs by then.
Otherwise it is one of a thread that ran here, as in scheduler, which so leaves the interrupts
as the thread that has called sched last had found them. -/
theorem flag_restored (K : Client C T L X σ) (hK : K.Sound) {s t u : State C T L X σ}
    (h : Reachable (step K) (initial K) s) {c : C} {f : Frame T L X} {fs : List (Frame T L X)}
    {b : Bool} (hstack : s.stack (s.current c) = f :: fs) (hb : f.entry = some b)
    {es : List (Event C L X)} (hes : Execution (step K) s es t)
    (hkeeps : Along (step K) (fun v _ => KeepsIntena v c) s es)
    (hu : step K t (.step c) = .ok u) (hone : (t.cpu c).ncli = 1) (hzero : (u.cpu c).ncli = 0) :
    (t.cpu c).flagIF = false ∧ (u.cpu c).flagIF = b := by
  have hinv := reachable_invariant hK h
  have hinv' := GuardedRuns.execution_invariant (fun _ _ _ h ht => step_invariant hK h ht) hes hinv
  obtain ⟨g, gs, hg, -⟩ := hinv'.running c
  simp only [step, hg] at hu
  obtain ⟨hpop, hphase⟩ := execute_lowers hu (by omega)
  obtain ⟨hm, -, heq⟩ := popcli_eq_ok hpop
  have hlast : KeepsIntena t c := by
    refine ⟨by omega, fun g' hg' => ?_⟩
    rw [hg] at hg'
    cases hg'
    unfold Frame.back
    rcases hphase with hp | ⟨r, hp⟩ <;> simp [hp]
  have hfirst : KeepsIntena s c := by
    cases hes with
    | nil => exact hlast
    | cons => exact hkeeps.1
  have hintena : (t.cpu c).intena = b :=
    (run_intena hes hkeeps).trans (hinv.intena hstack hfirst hb)
  refine ⟨hm, ?_⟩
  rw [heq, ← hintena]
  simp [hone]

/-- One processor, its scheduler and a thread that calls sched. Both turns of the scheduler's
loop run the thread. -/
def yielding : Client Unit Bool Unit Unit Unit where
  ptable := ()
  scheduler _ := false
  exec _ _ s := .ok ⟨s, [.checkNcli, .checkFlag, .switchBack], none⟩
  pre _ ls n := ls = [()] && n = 0
  post _ ls := ls
  entry t _ _ := t
  boot := .sti :: (acquire () ++ .switchTo true :: (release () ++
    .sti :: (acquire () ++ .switchTo true :: release ())))
  first t := if t then some (release ()) else none
  start := ()

theorem yielding_release : Typed yielding [()] 0 (release ()) := by
  have h : Typed yielding [()] 0 (release () ++ []) := typed_release fun _ => trivial
  exact h

theorem yielding_sound : yielding.Sound where
  exec c x s e ls n is he hpre hpost := by
    cases he
    simp only [yielding, Bool.and_eq_true, decide_eq_true_eq] at hpre
    obtain ⟨rfl, rfl⟩ := hpre
    exact ⟨rfl, Nat.one_pos, rfl, rfl, hpost⟩
  stack c x s e t is he hstack := by
    cases he
    cases hstack
  scheduler _ _ _ := rfl
  boot := ⟨rfl, rfl, typed_acquire fun _ => ⟨rfl, rfl, typed_release fun _ => ⟨rfl, rfl,
    typed_acquire fun _ => ⟨rfl, rfl, yielding_release⟩⟩⟩⟩
  first t is h := by
    cases t with
    | false => cases h
    | true =>
      cases h
      exact yielding_release

/-- A handler calls acquire, which finds the flag off, and comes to the swtch of sched. -/
def handlerCallsSched : List (Event Unit Unit Unit) :=
  List.replicate 24 (.step ()) ++ [.interrupt (), .call () (.acquire ())] ++
    List.replicate 12 (.step ()) ++ [.call () (.op ())] ++ List.replicate 4 (.step ())

/-- The swtch, and the release of scheduler up to its popcli. -/
def schedulerReleases : List (Event Unit Unit Unit) := List.replicate 10 (.step ())

/-- A release of the thread that has found the interrupts on leaves them on. The scheduler has
found them on as well, but its release leaves them off after the handler's call of sched. -/
theorem flag_restored_release :
    (∃ t u, Reachable (step twoProcessors) (initial twoProcessors) t ∧
      step twoProcessors t (.step 0) = .ok u ∧ (t.cpu 0).flagIF = false ∧
      (u.cpu 0).flagIF = true) ∧
    ∃ t u, Reachable (step yielding) (initial yielding) t ∧ t.current () = false ∧
      step yielding t (.step ()) = .ok u ∧ (u.cpu ()).ncli = 0 ∧
      (u.cpu ()).flagIF = false := by
  constructor
  · obtain ⟨t, ht, hf⟩ := execution_of_map (step twoProcessors) (initial twoProcessors)
      (List.replicate 22 (.step 0))
      (fun s => (s.stack (s.current 0), (s.cpu 0).ncli,
        (step twoProcessors s (.step 0)).map fun t => (t.cpu 0).ncli))
      (b := ([⟨[.popcli], .start, [], 1, some true⟩], 1, .ok 0)) (by decide +kernel)
    obtain ⟨hstack, hrest⟩ := Prod.mk.inj hf
    obtain ⟨hone, hmap⟩ := Prod.mk.inj hrest
    obtain ⟨u, hu, hzero⟩ := map_eq_ok.mp hmap
    obtain ⟨hoff, hon⟩ := flag_restored twoProcessors twoProcessors_sound ⟨_, ht⟩ hstack
      rfl (.nil t) trivial hu hone hzero
    exact ⟨t, u, ⟨_, ht⟩, hu, hoff, hon⟩
  · obtain ⟨s, hs, hf⟩ := execution_of_map (step yielding) (initial yielding) handlerCallsSched
      (fun s => decide ((s.stack (s.current ())).head? =
          some ⟨[.switchBack], .leaving false, [()], 0, some false⟩ ∧
        Along (step yielding) (fun v _ => KeepsIntena v ()) s schedulerReleases ∧
        ((run (step yielding) s schedulerReleases).map fun t => (t.current (), (t.cpu ()).ncli,
          (step yielding t (.step ())).map fun u => (u.cpu ()).ncli)) = .ok (false, 1, .ok 0)))
      (b := true) (by decide +kernel)
    obtain ⟨hhead, hkeeps, hrun⟩ := of_decide_eq_true hf
    obtain ⟨fs, hstack⟩ := List.head?_eq_some_iff.mp hhead
    obtain ⟨t, ht, hlast⟩ := map_eq_ok.mp hrun
    obtain ⟨hcurrent, hrest⟩ := Prod.mk.inj hlast
    obtain ⟨hone, hmap⟩ := Prod.mk.inj hrest
    obtain ⟨u, hu, hzero⟩ := map_eq_ok.mp hmap
    have hes := execution_of_run ht
    obtain ⟨-, hoff⟩ := flag_restored yielding yielding_sound ⟨_, hs⟩ hstack rfl hes
      hkeeps hu hone hzero
    exact ⟨t, u, ⟨_, hs.append hes⟩, hcurrent, hu, hzero, hoff⟩

end Machine

end SpinLocks
