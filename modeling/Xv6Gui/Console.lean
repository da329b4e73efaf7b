import Xv6Gui.RingQueue

/-!
# Console input

consoleintr and consoleread of console.c. The interrupt handler edits the last line of one
ring behind the write index, and the readers take what lies before it. A call of consoleintr
and a section of consoleread under the lock are one step each; a section ends at a return or
at a sleep. Output is left out.
-/
namespace Console

open RingQueue

abbrev inputBuf : ℕ := 128

instance neZero_inputBuf : NeZero inputBuf := ⟨by decide⟩

structure Input where
  buf : Fin inputBuf → UInt8
  r : BitVec 32
  w : BitVec 32
  e : BitVec 32

def C (x : Char) : ℕ := x.toNat - 64

def newline : ℕ := 10

def carriageReturn : ℕ := 13

def delete : ℕ := 127

def Input.at (i : Input) (index : BitVec 32) : UInt8 := i.buf (cell inputBuf index.toNat)

def Input.store (i : Input) (c : ℕ) : Input :=
  { i with buf := Function.update i.buf (cell inputBuf i.e.toNat) (UInt8.ofNat c), e := i.e + 1 }

def Input.commit (i : Input) : Input := { i with w := i.e }

/-- The loop of the kill key, for as many characters as have not been committed. -/
def killLine (i : Input) : ℕ → Input
  | 0 => i
  | n + 1 =>
    if i.e ≠ i.w ∧ (i.at (i.e - 1)).toNat ≠ newline then killLine { i with e := i.e - 1 } n
    else i

/-- One character that `getc` has returned. -/
def handle (i : Input) (c : ℕ) : Input :=
  if c = C 'P' then i
  else if c = C 'U' then killLine i (i.e - i.w).toNat
  else if c = C 'H' ∨ c = delete then
    if i.e ≠ i.w then { i with e := i.e - 1 } else i
  else if c ≠ 0 ∧ (i.e - i.r).toNat < inputBuf then
    let c := if c = carriageReturn then newline else c
    let i := i.store c
    if c = newline ∨ c = C 'D' ∨ i.e = i.r + BitVec.ofNat 32 inputBuf then i.commit else i
  else i

inductive Outcome where
  | returns (result : ℤ)
  | sleeps
  deriving DecidableEq, Repr

/-- What a section of `consoleread` took off the ring, what it stored through `dst` and how
much it still wants. -/
structure ReadSection where
  input : Input
  took : List UInt8
  stored : List UInt8
  n : ℕ
  outcome : Outcome

/-- `consoleread` from the head of its loop to the return or the sleep. -/
def consoleread (killed : Bool) (target : ℕ) (i : Input) : ℕ → ReadSection
  | 0 => ⟨i, [], [], 0, .returns target⟩
  | n + 1 =>
    if i.r = i.w then
      if killed then ⟨i, [], [], n + 1, .returns (-1)⟩ else ⟨i, [], [], n + 1, .sleeps⟩
    else
      let c := i.at i.r
      let j := { i with r := i.r + 1 }
      if c.toNat = C 'D' then
        -- ^D stays in the ring for the next call when this one has something to return
        if n + 1 < target then
          ⟨{ j with r := j.r - 1 }, [], [], n + 1, .returns (target - (n + 1))⟩
        else ⟨j, [c], [], n + 1, .returns (target - (n + 1))⟩
      else if c.toNat = newline then ⟨j, [c], [c], n, .returns (target - n)⟩
      else
        let s := consoleread killed target j n
        { s with took := c :: s.took, stored := c :: s.stored }

structure Call where
  n : ℕ
  target : ℕ
  dst : List UInt8
  deriving DecidableEq

structure Proc where
  call : Option Call
  asleep : Bool
  killed : Bool
  deriving DecidableEq

structure Return (P : Type) where
  proc : P
  result : ℤ
  dst : List UInt8
  deriving DecidableEq

/-- The console and its readers, with what has been committed, what has been taken off the
ring and by whom, and what the calls have returned. -/
structure System (P : Type) where
  input : Input
  proc : P → Proc
  committed : List UInt8
  taken : List (P × UInt8)
  returned : List (Return P)

inductive Event (P : Type) where
  /-- `consoleintr`, with the characters that `getc` returns before -1 -/
  | intr (cs : List ℕ)
  | read (p : P) (n : ℤ)
  | resume (p : P)
  | kill (p : P)

variable {P : Type}

def wakeup (s : System P) : System P :=
  { s with proc := fun p => { s.proc p with asleep := false } }

/-- One character, with the wakeup when it moves the write index. -/
def typed (s : System P) (c : ℕ) : System P :=
  let i := handle s.input c
  let s' := { s with
    input := i
    committed := s.committed ++ segment i.buf s.input.w.toNat (i.w - s.input.w).toNat }
  if i.w = s.input.w then s' else wakeup s'

def consoleintr (s : System P) (cs : List ℕ) : System P := cs.foldl typed s

variable [DecidableEq P]

def setProc (s : System P) (p : P) (call : Option Call) (asleep : Bool) : System P :=
  { s with proc := Function.update s.proc p { s.proc p with call := call, asleep := asleep } }

def readSection (s : System P) (p : P) (c : Call) : System P :=
  let r := consoleread (s.proc p).killed c.target s.input c.n
  let dst := c.dst ++ r.stored
  let s := { s with input := r.input, taken := s.taken ++ r.took.map fun b => (p, b) }
  match r.outcome with
  | .returns result =>
    setProc { s with returned := s.returned ++ [⟨p, result, dst⟩] } p none false
  | .sleeps => setProc s p (some ⟨r.n, c.target, dst⟩) true

def kill (s : System P) (p : P) : System P :=
  { s with proc := Function.update s.proc p { s.proc p with killed := true, asleep := false } }

/-- A process begins a call when it is in none, and goes on with one when it has been woken. -/
def step (s : System P) : Event P → System P
  | .intr cs => consoleintr s cs
  | .read p n =>
    match (s.proc p).call with
    | none => readSection s p ⟨n.toNat, n.toNat, []⟩
    | some _ => s
  | .resume p =>
    match (s.proc p).call, (s.proc p).asleep with
    | some c, false => readSection s p c
    | _, _ => s
  | .kill p => kill s p

/-- The input is in zeroed memory. -/
def start (P : Type) : System P where
  input := ⟨fun _ => 0, 0, 0, 0⟩
  proc _ := ⟨none, false, false⟩
  committed := []
  taken := []
  returned := []

/-- What has been committed and not been read. -/
def Input.ready (i : Input) : List UInt8 := segment i.buf i.r.toNat (i.w - i.r).toNat

def takenBy (s : System P) (p : P) : List UInt8 :=
  (s.taken.filter fun t => t.1 = p).map Prod.snd

def returnsOf (s : System P) (p : P) : List (Return P) := s.returned.filter fun t => t.proc = p

/-- What the calls of `p` have stored, the one that it is in included. -/
def received (s : System P) (p : P) : List UInt8 :=
  ((returnsOf s p).map Return.dst).flatten ++ (((s.proc p).call.map Call.dst).getD [])

end Console
