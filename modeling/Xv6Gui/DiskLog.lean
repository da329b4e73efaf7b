import Xv6Gui.GuardedRuns
import Mathlib.Data.List.FinRange
import Mathlib.Data.List.Nodup
import Mathlib.Logic.Function.Basic
import Mathlib.Data.Int.Basic

/-!
# The log on disk

The parts of log.c that read and write blocks, one block write a step. `cache` is what
`bread` returns: the disk's own content, except where a buffer has been modified since. The
header block is a block like any other, whose first `int`s are the count and the block
numbers.
-/
namespace DiskLog

open GuardedRuns

abbrev maxOpBlocks : ℕ := 10

/-- `LOGSIZE`, which is `MAXOPBLOCKS*3`. -/
abbrev logSize : ℕ := 30

/-- The number of `int`s in a block of `BSIZE` bytes. -/
abbrev blockInts : ℕ := 512

/-- The number of log blocks that mkfs writes into the superblock. -/
abbrev nlog : ℤ := logSize

inductive Fault where
  | outOfBounds (i : ℤ)
  | panic (text : String)
  deriving DecidableEq, Repr

/-- The content of a block, as its `int`s. -/
abbrev Block := Fin blockInts → ℤ

structure LogHeader where
  n : ℤ
  block : Fin logSize → ℤ

/-- Where the log lies on the disk, from the superblock. -/
structure LogArea where
  start : ℤ
  size : ℤ

structure Store where
  disk : ℤ → Block
  cache : ℤ → Block
  lh : LogHeader

/-- An access to `lh.block[i]`. -/
def LogHeader.entry (lh : LogHeader) (i : ℕ) : Except Fault ℤ :=
  if h : i < logSize then .ok (lh.block ⟨i, h⟩) else .error (.outOfBounds i)

/-- The header block read as a `struct logheader`. -/
def headerOf (b : Block) : LogHeader :=
  ⟨b 0, fun i => b ⟨i.val + 1, lt_of_le_of_lt i.isLt (by decide)⟩⟩

/-- The header block with a header written over its front. -/
def putHeader (b : Block) (lh : LogHeader) : Block := fun i =>
  if i = 0 then lh.n
  else if h : i.val - 1 < logSize ∧ ((i.val - 1 : ℕ) : ℤ) < lh.n then lh.block ⟨i.val - 1, h.1⟩
  else b i

def bwrite (s : Store) (b : ℤ) (data : Block) : Store :=
  { s with disk := Function.update s.disk b data, cache := Function.update s.cache b data }

variable (log : LogArea)

/-- The body of the loop of `install_trans`. -/
def copyHome (s : Store) (tail : ℕ) : Except Fault Store := do
  let dst ← s.lh.entry tail
  return bwrite s dst (s.cache (log.start + tail + 1))

def readHead (s : Store) : Except Fault Store :=
  let hb := headerOf (s.cache log.start)
  if hb.n > logSize then .error (.outOfBounds logSize)
  else .ok { s with
    lh := ⟨hb.n, fun i => if (i.val : ℤ) < hb.n then hb.block i else s.lh.block i⟩ }

def writeHead (s : Store) : Except Fault Store :=
  if s.lh.n > logSize then .error (.outOfBounds logSize)
  else .ok (bwrite s log.start (putHeader (s.cache log.start) s.lh))

/-- The body of the loop of `write_log`. -/
def copyToLog (s : Store) (tail : ℕ) : Except Fault Store := do
  let src ← s.lh.entry tail
  return bwrite s (log.start + tail + 1) (s.cache src)

/-- `log.lh.n = 0; write_head()` -/
def clearHead (s : Store) : Except Fault Store :=
  writeHead log { s with lh := { s.lh with n := 0 } }

/-- Where a process is in `commit`. -/
inductive CommitPc where
  | enter
  | writeLog (tail : ℕ)
  | writeHead
  | installTrans (tail : ℕ)
  | clearHead
  | returned
  deriving DecidableEq, Repr

def commitStep (s : Store) : CommitPc → Except Fault (CommitPc × Store)
  | .enter => .ok (if s.lh.n > 0 then .writeLog 0 else .returned, s)
  | .writeLog tail =>
    if (tail : ℤ) < s.lh.n then do
      let s ← copyToLog log s tail
      return (.writeLog (tail + 1), s)
    else .ok (.writeHead, s)
  | .writeHead => do
    let s ← writeHead log s
    return (.installTrans 0, s)
  | .installTrans tail =>
    if (tail : ℤ) < s.lh.n then do
      let s ← copyHome log s tail
      return (.installTrans (tail + 1), s)
    else .ok (.clearHead, s)
  | .clearHead => do
    let s ← clearHead log s
    return (.returned, s)
  | .returned => .ok (.returned, s)

/-- Where the boot is in `recover_from_log`. -/
inductive RecoverPc where
  | readHead
  | installTrans (tail : ℕ)
  | clearHead
  | returned
  deriving DecidableEq, Repr

def recoverStep (s : Store) : RecoverPc → Except Fault (RecoverPc × Store)
  | .readHead => do
    let s ← readHead log s
    return (.installTrans 0, s)
  | .installTrans tail =>
    if (tail : ℤ) < s.lh.n then do
      let s ← copyHome log s tail
      return (.installTrans (tail + 1), s)
    else .ok (.clearHead, s)
  | .clearHead => do
    let s ← clearHead log s
    return (.returned, s)
  | .returned => .ok (.returned, s)

/-- The block numbers the header lists. -/
def LogHeader.blocks (lh : LogHeader) : List ℤ :=
  ((List.finRange logSize).filter fun i => decide ((i.val : ℤ) < lh.n)).map lh.block

/-- The position at which the header lists a block. -/
def LogHeader.slot (lh : LogHeader) (b : ℤ) : Option (Fin logSize) :=
  (List.finRange logSize).find? fun i => decide ((i.val : ℤ) < lh.n ∧ lh.block i = b)

variable {log} {s t : Store} {lh lh' : LogHeader} {b : ℤ} {i : Fin logSize} {tail : ℕ}

theorem LogHeader.mem_blocks :
    b ∈ lh.blocks ↔ ∃ i : Fin logSize, (i.val : ℤ) < lh.n ∧ lh.block i = b := by
  simp [LogHeader.blocks]

theorem LogHeader.slot_some (h : lh.slot b = some i) : (i.val : ℤ) < lh.n ∧ lh.block i = b := by
  have hi := List.find?_some h
  exact of_decide_eq_true hi

theorem LogHeader.slot_none : lh.slot b = none ↔ b ∉ lh.blocks := by
  simp [LogHeader.slot, LogHeader.mem_blocks]

/-- Equal positions hold equal blocks; the header lists no block twice. -/
theorem LogHeader.block_injective (h : lh.blocks.Nodup) {i j : Fin logSize}
    (hi : (i.val : ℤ) < lh.n) (hj : (j.val : ℤ) < lh.n) (he : lh.block i = lh.block j) : i = j :=
  List.inj_on_of_nodup_map h (by simpa using hi) (by simpa using hj) he

/-- The headers list the same blocks in the same order. -/
structure Agrees (lh lh' : LogHeader) : Prop where
  n : lh.n = lh'.n
  block : ∀ i : Fin logSize, (i.val : ℤ) < lh'.n → lh.block i = lh'.block i

theorem Agrees.refl (lh : LogHeader) : Agrees lh lh := ⟨rfl, fun _ _ => rfl⟩

theorem Agrees.slot (h : Agrees lh lh') : lh.slot = lh'.slot := by
  funext b
  simp only [LogHeader.slot]
  congr 1
  funext i
  rw [h.n]
  by_cases hi : (i.val : ℤ) < lh'.n
  · rw [h.block i hi]
  · simp [hi]

theorem slot_empty (h : lh.n = 0) (b : ℤ) : lh.slot b = none := by
  rw [LogHeader.slot_none, LogHeader.mem_blocks]
  rintro ⟨i, hi, _⟩
  omega

theorem headerOf_putHeader (b : Block) (lh : LogHeader) :
    Agrees (headerOf (putHeader b lh)) lh := by
  refine ⟨by simp [headerOf, putHeader], ?_⟩
  intro i hi
  simp [headerOf, putHeader, hi]

theorem entry_eq {i : ℕ} (h : i < logSize) : lh.entry i = .ok (lh.block ⟨i, h⟩) := dif_pos h

theorem copyHome_eq (h : tail < logSize) :
    copyHome log s tail =
      .ok (bwrite s (s.lh.block ⟨tail, h⟩) (s.cache (log.start + tail + 1))) := by
  simp [copyHome, entry_eq h]

theorem copyToLog_eq (h : tail < logSize) :
    copyToLog log s tail =
      .ok (bwrite s (log.start + tail + 1) (s.cache (s.lh.block ⟨tail, h⟩))) := by
  simp [copyToLog, entry_eq h]

theorem writeHead_eq (h : s.lh.n ≤ logSize) :
    writeHead log s = .ok (bwrite s log.start (putHeader (s.cache log.start) s.lh)) :=
  if_neg (by omega)

theorem clearHead_eq (log : LogArea) (s : Store) :
    clearHead log s = .ok (bwrite { s with lh := { s.lh with n := 0 } } log.start
      (putHeader (s.cache log.start) { s.lh with n := 0 })) :=
  writeHead_eq (s := { s with lh := { s.lh with n := 0 } }) (Int.natCast_nonneg logSize)

@[simp] theorem bwrite_disk_self (s : Store) (b : ℤ) (data : Block) :
    (bwrite s b data).disk b = data := Function.update_self _ _ _

@[simp] theorem bwrite_cache_self (s : Store) (b : ℤ) (data : Block) :
    (bwrite s b data).cache b = data := Function.update_self _ _ _

theorem bwrite_disk_of_ne {b c : ℤ} (h : c ≠ b) (data : Block) :
    (bwrite s b data).disk c = s.disk c := Function.update_of_ne h _ _

theorem bwrite_cache_of_ne {b c : ℤ} (h : c ≠ b) (data : Block) :
    (bwrite s b data).cache c = s.cache c := Function.update_of_ne h _ _

end DiskLog
