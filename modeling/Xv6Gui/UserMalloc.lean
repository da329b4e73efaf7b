import Xv6Gui.CircularLists
import Xv6Gui.GuardedRuns
import Xv6Gui.WindowManagerState
import Xv6Gui.WordMemory

/-!
# The allocator of user programs

umalloc.c over the memory of a process. A block starts with a header of two words, the address of
the next free block and the size in units of eight bytes.
-/
namespace UserMalloc

open WordMemory GuardedRuns CircularLists
open WindowManagerState (Fault)

def ptr (mem : Memory) (p : ℕ) : ℕ := (word mem p).toNat

def size (mem : Memory) (p : ℕ) : ℕ := (word mem (p + 4)).toNat

def setPtr (mem : Memory) (p v : ℕ) : Memory := storeWord mem p (BitVec.ofNat 32 v)

def setSize (mem : Memory) (p v : ℕ) : Memory := storeWord mem (p + 4) (BitVec.ofNat 32 v)

/-- `p + n` for a pointer to headers -/
def skip (p n : ℕ) : ℕ := (p + 8 * n) % 4294967296

/-- Where the loop of `free` stops, at its condition or at the `break`. -/
def Place (mem : Memory) (bp p : ℕ) : Prop :=
  p < bp ∧ bp < ptr mem p ∨ ptr mem p ≤ p ∧ (p < bp ∨ bp < ptr mem p)

instance (mem : Memory) (bp : ℕ) : DecidablePred (Place mem bp) :=
  fun _ => inferInstanceAs (Decidable (_ ∨ _))

/-- Join `bp` to the block that follows, or link it. -/
def mergeNext (mem : Memory) (p bp : ℕ) : Memory :=
  if skip bp (size mem bp) = ptr mem p then
    let m := setSize mem bp (size mem bp + size mem (ptr mem p))
    setPtr m bp (ptr m (ptr m p))
  else setPtr mem bp (ptr mem p)

/-- Join `bp` to the block `p` before it, or link it. -/
def mergePrev (mem : Memory) (p bp : ℕ) : Memory :=
  if skip p (size mem p) = bp then
    let m := setSize mem p (size mem p + size mem bp)
    setPtr m p (ptr m bp)
  else setPtr mem p bp

structure Heap where
  mem : Memory
  freep : ℕ

/-- The loop looks at no more than `n` headers. -/
def free (n : ℕ) (h : Heap) (ap : ℕ) : Except Fault Heap :=
  let bp := ap - 8
  match seek (Place h.mem bp) (ptr h.mem) n h.freep with
  | none => .error .diverges
  | some p => .ok ⟨mergePrev (mergeNext h.mem p bp) p bp, p⟩

/-- A call of `sbrk`, which failed or returned an address. -/
structure Call where
  bytes : ℤ
  result : Option ℕ

structure State extends Heap where
  calls : List Call

section Allocation

variable (base : ℕ) (sbrk : List Call → ℤ → Option ℕ)

def morecore (n : ℕ) (s : State) (nu : ℕ) : Except Fault (ℕ × State) :=
  let nu := if nu < 4096 then 4096 else nu
  let bytes := (BitVec.ofNat 32 (nu * 8)).toInt
  match sbrk s.calls bytes with
  | none => .ok (0, { s with calls := ⟨bytes, none⟩ :: s.calls })
  | some p =>
    free n ⟨setSize s.mem p nu, s.freep⟩ (p + 8) >>= fun h =>
      .ok (h.freep, ⟨h, ⟨bytes, some p⟩ :: s.calls⟩)

/-- The block `p` is taken off the list, or its tail is handed out. -/
def take (s : State) (nunits prevp p : ℕ) : ℕ × State :=
  if size s.mem p = nunits then
    (p + 8, { s with mem := setPtr s.mem prevp (ptr s.mem p), freep := prevp })
  else
    let m := setSize s.mem p (size s.mem p - nunits)
    let q := skip p (size m p)
    (q + 8, { s with mem := setSize m q nunits, freep := prevp })

def nunits (nbytes : Word) : ℕ := (nbytes.toNat + 7) % 4294967296 / 8 + 1

/-- The loop of `malloc`, for as many headers as the numeral says. -/
def mallocLoop (n nunits : ℕ) : ℕ → State → ℕ → ℕ → Except Fault (ℕ × State)
  | 0, _, _, _ => .error .diverges
  | k + 1, s, prevp, p =>
    if nunits ≤ size s.mem p then .ok (take s nunits prevp p)
    else if p = s.freep then
      morecore sbrk n s nunits >>= fun r =>
        if r.1 = 0 then .ok (0, r.2)
        else mallocLoop n nunits k r.2 r.1 (ptr r.2.mem r.1)
    else mallocLoop n nunits k s p (ptr s.mem p)

def malloc (n : ℕ) (s : State) (nbytes : Word) : Except Fault (ℕ × State) :=
  let s := if s.freep = 0 then
      { s with mem := setSize (setPtr s.mem base base) base 0, freep := base }
    else s
  mallocLoop sbrk n (nunits nbytes) n s s.freep (ptr s.mem s.freep)

end Allocation

end UserMalloc
