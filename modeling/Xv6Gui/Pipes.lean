import Xv6Gui.RingQueue
import Xv6Gui.GuardedRuns

/-!
# Pipes

pipewrite, piperead and pipeclose of pipe.c, and kill. A section under the lock of the pipe is
one step, which ends at a return or at a sleep; a process that is woken goes on from the
loop it sleeps in. The counters run freely over 32 bits and the slot is the counter modulo
the size of the buffer.
-/
namespace Pipes

open RingQueue

abbrev pipeSize : ℕ := 512

instance neZero_pipeSize : NeZero pipeSize := ⟨by decide⟩

structure Pipe where
  data : Fin pipeSize → UInt8
  nread : BitVec 32
  nwrite : BitVec 32
  readopen : Bool
  writeopen : Bool

def Pipe.Full (p : Pipe) : Prop := p.nwrite = p.nread + BitVec.ofNat 32 pipeSize

def Pipe.Empty (p : Pipe) : Prop := p.nread = p.nwrite

instance (p : Pipe) : Decidable p.Full := inferInstanceAs (Decidable (_ = _))
instance (p : Pipe) : Decidable p.Empty := inferInstanceAs (Decidable (_ = _))

/-- `p->data[p->nwrite++ % PIPESIZE] = c` -/
def Pipe.store (p : Pipe) (c : UInt8) : Pipe :=
  { p with data := Function.update p.data (cell pipeSize p.nwrite.toNat) c, nwrite := p.nwrite + 1 }

/-- `p->data[p->nread++ % PIPESIZE]` -/
def Pipe.next (p : Pipe) : UInt8 := p.data (cell pipeSize p.nread.toNat)

def Pipe.advance (p : Pipe) : Pipe := { p with nread := p.nread + 1 }

/-- How a section ends. -/
inductive Outcome where
  | returns (result : ℤ)
  | sleeps
  deriving DecidableEq, Repr

structure WriteSection where
  pipe : Pipe
  stored : List UInt8
  rest : List UInt8
  outcome : Outcome
  wakesReaders : Bool

/-- The loop of `pipewrite` over the bytes that are left, up to the return or the sleep. -/
def pipewrite (killed : Bool) (n : ℕ) (p : Pipe) : List UInt8 → WriteSection
  | [] => ⟨p, [], [], .returns n, true⟩
  | c :: rest =>
    if p.Full then
      if p.readopen = false ∨ killed = true then ⟨p, [], c :: rest, .returns (-1), false⟩
      else ⟨p, [], c :: rest, .sleeps, true⟩
    else
      let w := pipewrite killed n (p.store c) rest
      { w with stored := c :: w.stored }

structure ReadSection where
  pipe : Pipe
  bytes : List UInt8
  outcome : Outcome
  wakesWriters : Bool

/-- The copy loop of `piperead`. -/
def copyOut (p : Pipe) : ℕ → Pipe × List UInt8
  | 0 => (p, [])
  | n + 1 =>
    if p.Empty then (p, [])
    else
      let r := copyOut p.advance n
      (r.1, p.next :: r.2)

def piperead (killed : Bool) (n : ℕ) (p : Pipe) : ReadSection :=
  if p.Empty ∧ p.writeopen = true then
    if killed = true then ⟨p, [], .returns (-1), false⟩
    else ⟨p, [], .sleeps, false⟩
  else
    let r := copyOut p n
    ⟨r.1, r.2, .returns r.2.length, true⟩

/-- The call a process is in, with the length it asked for and the bytes left to write. -/
inductive Call where
  | none
  | reading (n : ℕ)
  | writing (n : ℕ) (rest : List UInt8)
  deriving DecidableEq

def Call.reads : Call → Bool
  | .reading _ => true
  | .none | .writing _ _ => false

def Call.writes : Call → Bool
  | .writing _ _ => true
  | .none | .reading _ => false

structure Proc where
  call : Call
  asleep : Bool
  killed : Bool
  deriving DecidableEq

/-- The pipe with its page and its users, and what the calls have stored and returned. -/
structure System (P : Type) where
  pipe : Pipe
  allocated : Bool
  proc : P → Proc
  stored : List UInt8
  returned : List UInt8

inductive PipeFault where
  | freedPage
  deriving DecidableEq, Repr

variable {P : Type}

/-- A section on a page that has been freed faults. -/
def onPage (s t : System P) : Except PipeFault (System P) :=
  if s.allocated then .ok t else .error .freedPage

/-- `wakeup(&p->nread)` and `wakeup(&p->nwrite)`, by the calls that sleep on the channel. -/
def wakeup (s : System P) (sleeps : Call → Bool) : System P :=
  { s with proc := fun p =>
      if sleeps (s.proc p).call then { s.proc p with asleep := false } else s.proc p }

/-- The page is freed when the second end is closed. -/
def pipeclose (s : System P) (writable : Bool) : System P :=
  let s := if writable then wakeup { s with pipe := { s.pipe with writeopen := false } } Call.reads
    else wakeup { s with pipe := { s.pipe with readopen := false } } Call.writes
  { s with allocated := s.pipe.readopen || s.pipe.writeopen }

variable [DecidableEq P]

def setCall (s : System P) (p : P) (call : Call) (asleep : Bool) : System P :=
  { s with proc := Function.update s.proc p { s.proc p with call := call, asleep := asleep } }

def writeSection (s : System P) (p : P) (n : ℕ) (rest : List UInt8) : System P :=
  let w := pipewrite (s.proc p).killed n s.pipe rest
  let s := if w.wakesReaders then wakeup s Call.reads else s
  let s := { s with pipe := w.pipe, stored := s.stored ++ w.stored }
  match w.outcome with
  | .returns _ => setCall s p .none false
  | .sleeps => setCall s p (.writing n w.rest) true

def readSection (s : System P) (p : P) (n : ℕ) : System P :=
  let r := piperead (s.proc p).killed n s.pipe
  let s := if r.wakesWriters then wakeup s Call.writes else s
  let s := { s with pipe := r.pipe, returned := s.returned ++ r.bytes }
  match r.outcome with
  | .returns _ => setCall s p .none false
  | .sleeps => setCall s p (.reading n) true

def kill (s : System P) (p : P) : System P :=
  { s with proc := Function.update s.proc p { s.proc p with killed := true, asleep := false } }

inductive Event (P : Type) where
  | write (p : P) (bytes : List UInt8)
  | read (p : P) (n : ℕ)
  | resume (p : P)
  | close (writable : Bool)
  | kill (p : P)

def Enabled (s : System P) : Event P → Prop
  | .write p _ | .read p _ => (s.proc p).call = .none
  | .resume p => (s.proc p).call ≠ .none ∧ (s.proc p).asleep = false
  | .close _ | .kill _ => True

instance (s : System P) : (e : Event P) → Decidable (Enabled s e)
  | .write _ _ | .read _ _ => inferInstanceAs (Decidable (_ = _))
  | .resume _ => inferInstanceAs (Decidable (_ ∧ _))
  | .close _ | .kill _ => inferInstanceAs (Decidable True)

def step (s : System P) : Event P → Except PipeFault (System P)
  | .write p bytes => onPage s (writeSection s p bytes.length bytes)
  | .read p n => onPage s (readSection s p n)
  | .resume p =>
    match (s.proc p).call with
    | .none => .ok s
    | .reading n => onPage s (readSection s p n)
    | .writing n rest => onPage s (writeSection s p n rest)
  | .close writable => onPage s (pipeclose s writable)
  | .kill p => .ok (kill s p)

/-- After `pipealloc`, whatever the page held before. -/
def start (P : Type) (data : Fin pipeSize → UInt8) : System P where
  pipe := ⟨data, 0, 0, true, true⟩
  allocated := true
  proc _ := ⟨.none, false, false⟩
  stored := []
  returned := []

/-- The bytes stored and not yet read, as the counters say. -/
def Pipe.fill (p : Pipe) : ℕ := (p.nwrite - p.nread).toNat

def Pipe.contents (p : Pipe) : List UInt8 := segment p.data p.nread.toNat p.fill

section Counters

variable {p : Pipe} {c : UInt8}

@[simp] theorem length_contents (p : Pipe) : p.contents.length = p.fill := length_segment _ _ _

theorem full_iff : p.Full ↔ p.fill = pipeSize := by
  simp only [Pipe.Full, Pipe.fill, pipeSize]
  constructor
  · intro h
    rw [h]
    bv_omega
  · intro h
    bv_omega

theorem empty_iff : p.Empty ↔ p.fill = 0 := by
  simp only [Pipe.Empty, Pipe.fill]
  constructor
  · intro h
    rw [h]
    bv_omega
  · intro h
    bv_omega

theorem fill_store (h : p.fill < pipeSize) : (p.store c).fill = p.fill + 1 := by
  simp only [Pipe.fill, Pipe.store, pipeSize] at h ⊢
  bv_omega

theorem fill_advance (h : p.fill ≠ 0) : p.advance.fill + 1 = p.fill := by
  simp only [Pipe.fill, Pipe.advance] at h ⊢
  bv_omega

/-- The size of the buffer divides the range of the counters. -/
theorem slot_nwrite (p : Pipe) : p.nwrite.toNat % pipeSize =
    (p.nread.toNat + p.fill) % pipeSize := by
  have h : p.nwrite.toNat = (p.nread.toNat + p.fill) % 4294967296 := by
    simp only [Pipe.fill]
    bv_omega
  rw [h, Nat.mod_mod_of_dvd _ (by decide)]

theorem slot_nread_succ (p : Pipe) : p.advance.nread.toNat % pipeSize =
    (p.nread.toNat + 1) % pipeSize := by
  have h : p.advance.nread.toNat = (p.nread.toNat + 1) % 4294967296 := by
    simp only [Pipe.advance]
    bv_omega
  rw [h, Nat.mod_mod_of_dvd _ (by decide)]

theorem contents_store (h : p.fill < pipeSize) :
    (p.store c).contents = p.contents ++ [c] := by
  have hcell : cell pipeSize p.nwrite.toNat = cell pipeSize (p.nread.toNat + p.fill) :=
    Fin.ext (slot_nwrite p)
  simp only [Pipe.contents, fill_store h]
  change segment (Function.update p.data (cell pipeSize p.nwrite.toNat) c) p.nread.toNat
    (p.fill + 1) = _
  rw [hcell]
  exact segment_push h c

theorem contents_advance (h : p.fill ≠ 0) : p.contents = p.next :: p.advance.contents := by
  simp only [Pipe.contents, ← fill_advance h, segment_cons, Pipe.next]
  rw [segment_mod p.data (slot_nread_succ p).symm]
  rfl

end Counters

section Sections

variable {p : Pipe} {killed : Bool} {n : ℕ} {bytes : List UInt8}

/-- What a section of `pipewrite` does: it stores a prefix of the bytes behind the contents,
and stops before the last of them only at a full buffer. -/
structure WriteSpec (killed : Bool) (n : ℕ) (p : Pipe) (bytes : List UInt8)
    (w : WriteSection) : Prop where
  split : w.stored ++ w.rest = bytes
  contents : w.pipe.contents = p.contents ++ w.stored
  fill : w.pipe.fill ≤ pipeSize
  readopen : w.pipe.readopen = p.readopen
  writeopen : w.pipe.writeopen = p.writeopen
  finished : w.rest = [] → w.outcome = .returns n ∧ w.wakesReaders = true
  failed : w.rest ≠ [] → p.readopen = false ∨ killed = true →
    w.pipe.Full ∧ w.outcome = .returns (-1) ∧ w.wakesReaders = false
  slept : w.rest ≠ [] → ¬(p.readopen = false ∨ killed = true) →
    w.pipe.Full ∧ w.outcome = .sleeps ∧ w.wakesReaders = true

theorem pipewrite_spec (killed : Bool) (n : ℕ) (h : p.fill ≤ pipeSize) (bytes : List UInt8) :
    WriteSpec killed n p bytes (pipewrite killed n p bytes) := by
  induction bytes generalizing p with
  | nil =>
    exact ⟨rfl, (List.append_nil _).symm, h, rfl, rfl, fun _ => ⟨rfl, rfl⟩,
      fun hr => absurd rfl hr, fun hr => absurd rfl hr⟩
  | cons c rest ih =>
    simp only [pipewrite]
    split
    · next hfull =>
      split
      · next hfails =>
        exact ⟨rfl, (List.append_nil _).symm, h, rfl, rfl, nofun,
          fun _ _ => ⟨hfull, rfl, rfl⟩, fun _ hn => absurd hfails hn⟩
      · next hfails =>
        exact ⟨rfl, (List.append_nil _).symm, h, rfl, rfl, nofun,
          fun _ hn => absurd hn hfails, fun _ _ => ⟨hfull, rfl, rfl⟩⟩
    · next hfull =>
      have hlt : p.fill < pipeSize := lt_of_le_of_ne h fun he => hfull (full_iff.mpr he)
      have hw := ih (p := p.store c) (by rw [fill_store hlt]; omega)
      refine ⟨?_, ?_, hw.fill, hw.readopen, hw.writeopen, hw.finished, hw.failed, hw.slept⟩
      · simp only [List.cons_append, hw.split]
      · simp only [hw.contents, contents_store hlt, List.append_assoc, List.singleton_append]

theorem copyOut_contents (p : Pipe) (n : ℕ) :
    (copyOut p n).2 ++ (copyOut p n).1.contents = p.contents := by
  induction n generalizing p with
  | zero => rfl
  | succ n ih =>
    simp only [copyOut]
    split
    · rfl
    · next he =>
      have hne : p.fill ≠ 0 := fun h => he (empty_iff.mpr h)
      simp only [List.cons_append, ih, contents_advance hne]

theorem piperead_contents (killed : Bool) (n : ℕ) (p : Pipe) :
    (piperead killed n p).bytes ++ (piperead killed n p).pipe.contents = p.contents := by
  simp only [piperead]
  split
  · split <;> rfl
  · exact copyOut_contents p n

omit [DecidableEq P] in
theorem onPage_eq_ok {s t u : System P} (h : onPage s t = .ok u) : u = t := by
  simp only [onPage] at h
  split at h <;> cases h
  rfl

theorem writeSection_pipe (s : System P) (q : P) (n : ℕ) (rest : List UInt8) :
    (writeSection s q n rest).pipe = (pipewrite (s.proc q).killed n s.pipe rest).pipe := by
  simp only [writeSection]
  split <;> rfl

theorem readSection_pipe (s : System P) (q : P) (n : ℕ) :
    (readSection s q n).pipe = (piperead (s.proc q).killed n s.pipe).pipe := by
  simp only [readSection]
  split <;> rfl

end Sections

end Pipes
