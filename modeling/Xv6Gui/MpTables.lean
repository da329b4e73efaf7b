import Xv6Gui.GuardedRuns
import Xv6Gui.WordMemory
import Mathlib.Data.Int.Basic
import Mathlib.Logic.Function.Basic

/-!
# The MP configuration table

mp.c looks for the configuration table of the BIOS and reads its entries. An entry is of one of
five types, which tell how long it is. The loop of mpinit leaves an entry of another type where
it is, and looks at it again.
-/
namespace MpTables

open WordMemory GuardedRuns

inductive Fault where
  | panic (text : String)
  | diverges
  deriving DecidableEq, Repr

def ncpuMax : ℕ := 8

/-- What mpinit writes; `imcr` tells whether external interrupts have been masked. -/
structure Machine where
  ncpu : ℕ
  apicid : ℕ → Byte
  ioapicid : Byte
  lapic : Word
  ismp : Bool
  imcr : Bool

/-- `p + n` for a pointer to bytes -/
def ptr (p n : ℕ) : ℕ := (p + n) % 4294967296

def p2v (a : ℕ) : ℕ := ptr a 0x80000000

section Search

variable (mem : Memory)

def half (p : ℕ) : ℕ := (mem (ptr p 1)).toNat * 256 + (mem p).toNat

/-- The bytes that `memcmp` looks at. -/
def bytes (p n : ℕ) : List Byte := (List.range n).map fun i => mem (ptr p i)

def sum (addr len : ℕ) : Byte := (bytes mem addr len).foldl (· + ·) 0

/-- Look for an MP structure in the `len` bytes at `a`. -/
def mpsearch1 (a len : ℕ) : Option ℕ :=
  ((List.range (len / 16)).map fun i => ptr (p2v a) (16 * i)).find? fun p =>
    bytes mem p 4 = [0x5F, 0x4D, 0x50, 0x5F] ∧ sum mem p 16 = 0

def mpsearch : Option ℕ :=
  let bda := p2v 0x400
  let p := half mem (ptr bda 0x0E) * 16
  let first := if p ≠ 0 then mpsearch1 mem p 1024
    else mpsearch1 mem ((half mem (ptr bda 0x13) * 1024 + 4294966272) % 4294967296) 1024
  first.or (mpsearch1 mem 0xF0000 0x10000)

/-- The MP structure and the table, if there is one that is right. -/
def mpconfig : Option (ℕ × ℕ) :=
  match mpsearch mem with
  | none => none
  | some mp =>
    if word mem (ptr mp 4) = 0 then none
    else
      let conf := p2v (word mem (ptr mp 4)).toNat
      if bytes mem conf 4 ≠ [0x50, 0x43, 0x4D, 0x50] then none
      else if mem (ptr conf 6) ≠ 1 ∧ mem (ptr conf 6) ≠ 4 then none
      else if sum mem conf (half mem (ptr conf 4)) ≠ 0 then none
      else some (mp, conf)

end Search

section Entries

variable (mem : Memory) (e : ℕ)

/-- The loop of `mpinit`, for as many rounds as the numeral says. -/
def mpinitLoop : ℕ → ℕ → Machine → Except Fault Machine
  | 0, _, _ => .error .diverges
  | n + 1, p, s =>
    if p < e then
      if mem p = 0 then
        mpinitLoop n (ptr p 20) (if s.ncpu < ncpuMax
          then { s with
            apicid := Function.update s.apicid s.ncpu (mem (ptr p 1)), ncpu := s.ncpu + 1 }
          else s)
      else if mem p = 2 then mpinitLoop n (ptr p 8) { s with ioapicid := mem (ptr p 1) }
      else if mem p = 1 ∨ mem p = 3 ∨ mem p = 4 then mpinitLoop n (ptr p 8) s
      else mpinitLoop n p { s with ismp := false }
    else .ok s

def mpinit (n : ℕ) (s : Machine) : Except Fault Machine :=
  match mpconfig mem with
  | none => .error (.panic "Expect to run on an SMP")
  | some (mp, conf) =>
    mpinitLoop mem (ptr conf (half mem (ptr conf 4))) n (ptr conf 44)
        { s with ismp := true, lapic := word mem (ptr conf 36) } >>= fun s =>
      if s.ismp = false then .error (.panic "Didn't find a suitable machine")
      else .ok { s with imcr := s.imcr || decide (mem (ptr mp 12) ≠ 0) }

end Entries

/-- The types of entries that the table may hold. -/
inductive Entry where
  | proc
  | bus
  | ioapic
  | iointr
  | lintr
  deriving DecidableEq, Repr

def Entry.type : Entry → Byte
  | .proc => 0
  | .bus => 1
  | .ioapic => 2
  | .iointr => 3
  | .lintr => 4

def Entry.size : Entry → ℕ
  | .proc => 20
  | .bus | .ioapic | .iointr | .lintr => 8

/-- The entries follow each other from `p` on, up to the end `e` of the table. -/
def Laid (mem : Memory) (e : ℕ) : ℕ → List Entry → Prop
  | p, [] => ¬p < e
  | p, x :: l => p < e ∧ mem p = x.type ∧ Laid mem e (ptr p x.size) l

instance decidableLaid (mem : Memory) (e : ℕ) :
    (p : ℕ) → (l : List Entry) → Decidable (Laid mem e p l)
  | p, [] => inferInstanceAs (Decidable (¬p < e))
  | p, x :: l =>
    have := decidableLaid mem e (ptr p x.size) l
    inferInstanceAs (Decidable (p < e ∧ mem p = x.type ∧ Laid mem e (ptr p x.size) l))

/-- The table is a sequence of entries of the five types. -/
def WellTyped (mem : Memory) (conf : ℕ) : Prop :=
  ∃ l, Laid mem (ptr conf (half mem (ptr conf 4))) (ptr conf 44) l

variable {mem : Memory} {e p n : ℕ} {s : Machine} {x : Entry} {l : List Entry}

/-- What the loop takes from an entry. -/
def Machine.record (s : Machine) (mem : Memory) (p : ℕ) : Entry → Machine
  | .proc => if s.ncpu < ncpuMax
      then { s with
        apicid := Function.update s.apicid s.ncpu (mem (ptr p 1)), ncpu := s.ncpu + 1 }
      else s
  | .ioapic => { s with ioapicid := mem (ptr p 1) }
  | .bus | .iointr | .lintr => s

theorem record_ismp (s : Machine) (mem : Memory) (p : ℕ) (x : Entry) :
    (s.record mem p x).ismp = s.ismp := by
  cases x with
  | proc =>
    rw [Machine.record]
    split <;> rfl
  | bus => rfl
  | ioapic => rfl
  | iointr => rfl
  | lintr => rfl

theorem mpinitLoop_entry (hp : p < e) (hx : mem p = x.type) :
    mpinitLoop mem e (n + 1) p s = mpinitLoop mem e n (ptr p x.size) (s.record mem p x) := by
  rw [mpinitLoop, if_pos hp, hx]
  cases x with
  | proc => rfl
  | bus => rfl
  | ioapic => rfl
  | iointr => rfl
  | lintr => rfl

/-- The loop does not get past an entry of another type. -/
theorem mpinitLoop_stuck (hp : p < e) (hx : ∀ x : Entry, mem p ≠ x.type) :
    mpinitLoop mem e n p s = .error .diverges := by
  induction n generalizing s with
  | zero => rfl
  | succ n ih =>
    have hproc : mem p ≠ 0 := hx .proc
    have hioapic : mem p ≠ 2 := hx .ioapic
    have hrest : ¬(mem p = 1 ∨ mem p = 3 ∨ mem p = 4) := by
      rintro (h | h | h)
      · exact hx .bus h
      · exact hx .iointr h
      · exact hx .lintr h
    rw [mpinitLoop, if_pos hp, if_neg hproc, if_neg hioapic, if_neg hrest]
    exact ih

theorem mpinitLoop_laid (h : Laid mem e p l) :
    ∃ t, mpinitLoop mem e (l.length + 1) p s = .ok t ∧ t.ismp = s.ismp := by
  induction l generalizing p s with
  | nil => exact ⟨s, if_neg h, rfl⟩
  | cons x l ih =>
    obtain ⟨hp, hx, hrest⟩ := h
    obtain ⟨t, hrun, ht⟩ := @ih (ptr p x.size) (s.record mem p x) hrest
    rw [List.length_cons, mpinitLoop_entry hp hx]
    exact ⟨t, hrun, ht.trans (record_ismp s mem p x)⟩

theorem laid_of_mpinitLoop (h : mpinitLoop mem e n p s ≠ .error .diverges) :
    ∃ l, Laid mem e p l := by
  induction n generalizing p s with
  | zero => exact absurd rfl h
  | succ n ih =>
    by_cases hp : p < e
    case neg => exact ⟨[], hp⟩
    case pos =>
      by_cases hknown : ∃ x : Entry, mem p = x.type
      case pos =>
        obtain ⟨x, hx⟩ := hknown
        rw [mpinitLoop_entry hp hx] at h
        obtain ⟨l, hl⟩ := ih h
        exact ⟨x :: l, hp, hx, hl⟩
      case neg => exact absurd (mpinitLoop_stuck hp fun x hx => hknown ⟨x, hx⟩) h

/-- Among the tables that mpconfig accepts, mpinit gets through those of the five types. -/
theorem mpinit_iff (mem : Memory) (s : Machine) :
    (∃ n, mpinit mem n s ≠ .error .diverges) ↔
      ∀ mp conf, mpconfig mem = some (mp, conf) → WellTyped mem conf := by
  constructor
  case mp =>
    rintro ⟨n, h⟩ mp conf hconf
    apply laid_of_mpinitLoop (n := n)
      (s := { s with ismp := true, lapic := word mem (ptr conf 36) })
    intro hloop
    apply h
    simp only [mpinit, hconf, hloop, error_bind]
  case mpr =>
    intro h
    cases hconf : mpconfig mem with
    | none =>
      refine ⟨0, ?_⟩
      rw [mpinit, hconf]
      nofun
    | some r =>
      obtain ⟨l, hl⟩ := h r.1 r.2 hconf
      obtain ⟨t, hrun, ht⟩ :=
        mpinitLoop_laid (s := { s with ismp := true, lapic := word mem (ptr r.2 36) }) hl
      refine ⟨l.length + 1, ?_⟩
      have htrue : ¬true = false := by decide
      simp only [mpinit, hconf, hrun, ok_bind, ht, if_neg htrue]
      nofun

/-- A BIOS with a table of one byte behind the header. -/
def bios (checksum type : Byte) : Memory :=
  writeBytes (writeBytes (writeBytes (fun _ => 0) 0x8000040E [0x80])
    0x80000800 [0x5F, 0x4D, 0x50, 0x5F, 0, 0x10, 0, 0, 1, 4, 0x90])
    0x80001000 ([0x50, 0x43, 0x4D, 0x50, 45, 0, 1, checksum] ++ List.replicate 36 0 ++ [type])

theorem mpconfig_bios : mpconfig (bios 0x9D 5) = some (0x80000800, 0x80001000) := by decide +kernel

/-- The table that mpconfig accepts holds an entry of type 5. -/
theorem mpinit_unknown_entry :
    ¬∀ (mem : Memory) (s : Machine), ∃ n, mpinit mem n s ≠ .error .diverges := by
  intro h
  obtain ⟨n, hn⟩ := h (bios 0x9D 5) ⟨0, fun _ => 0, 0, 0, false, false⟩
  have hend : ptr 0x80001000 44 <
      ptr 0x80001000 (half (bios 0x9D 5) (ptr 0x80001000 4)) := by decide +kernel
  have htype : ∀ x : Entry, bios 0x9D 5 (ptr 0x80001000 44) ≠ x.type := by
    intro x
    cases x <;> decide +kernel
  apply hn
  simp only [mpinit, mpconfig_bios, mpinitLoop_stuck hend htype, error_bind]

end MpTables
