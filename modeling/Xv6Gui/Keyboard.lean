import Mathlib.Algebra.Ring.Parity
import Xv6Gui.WindowManagerState
import Xv6Gui.WordMemory

/-!
# Modifier keys

kbdgetc turns scan codes into messages and keeps the modifiers in one word. Whatever was typed,
a bit of it tells whether the last event of the keys of that modifier was a press, or whether
the key that switches it has been pressed an odd number of times.
-/
namespace Keyboard

open WordMemory
open WindowManagerState (MsgType)

def shiftBit : Word := 1
def ctl : Word := 2
def alt : Word := 4
def capslock : Word := 8
def numlock : Word := 16
def scrolllock : Word := 32
def e0esc : Word := 64

def shiftcode (data : Byte) : Word :=
  if data = 0x1D then ctl
  else if data = 0x2A then shiftBit
  else if data = 0x36 then shiftBit
  else if data = 0x38 then alt
  else if data = 0x9D then ctl
  else if data = 0xB8 then alt
  else 0

def togglecode (data : Byte) : Word :=
  if data = 0x3A then capslock
  else if data = 0x45 then numlock
  else if data = 0x46 then scrolllock
  else 0

/-- The entries of the three maps that are given with their index. -/
def extended (enter slash home data : Byte) : Byte :=
  if data = 0x9C then enter
  else if data = 0xB5 then slash
  else if data = 0xC8 then 0xE2
  else if data = 0xD0 then 0xE3
  else if data = 0xC9 then 0xE6
  else if data = 0xD1 then 0xE7
  else if data = 0xCB then 0xE4
  else if data = 0xCD then 0xE5
  else if data = home then 0xE0
  else if data = 0xCF then 0xE1
  else if data = 0xD2 then 0xE8
  else if data = 0xD3 then 0xE9
  else 0

def normalmap (data : Byte) : Byte :=
  ([0, 27, 49, 50, 51, 52, 53, 54, 55, 56, 57, 48, 45, 61, 8, 9,
    113, 119, 101, 114, 116, 121, 117, 105, 111, 112, 91, 93, 10, 0, 97, 115,
    100, 102, 103, 104, 106, 107, 108, 59, 39, 96, 0, 92, 122, 120, 99, 118,
    98, 110, 109, 44, 46, 47, 0, 42, 0, 32, 0, 0, 0, 0, 0, 0,
    0, 0, 0, 0, 0, 0, 0, 55, 56, 57, 45, 52, 53, 54, 43, 49,
    50, 51, 48, 46, 0, 0, 0, 0][data.toNat]?).getD (extended 10 47 0xC7 data)

def shiftmap (data : Byte) : Byte :=
  ([0, 27, 33, 64, 35, 36, 37, 94, 38, 42, 40, 41, 95, 43, 8, 9,
    81, 87, 69, 82, 84, 89, 85, 73, 79, 80, 123, 125, 10, 0, 65, 83,
    68, 70, 71, 72, 74, 75, 76, 58, 34, 126, 0, 124, 90, 88, 67, 86,
    66, 78, 77, 60, 62, 63, 0, 42, 0, 32, 0, 0, 0, 0, 0, 0,
    0, 0, 0, 0, 0, 0, 0, 55, 56, 57, 45, 52, 53, 54, 43, 49,
    50, 51, 48, 46, 0, 0, 0, 0][data.toNat]?).getD (extended 10 47 0xC7 data)

/-- Home is entered at the code of the key without its escape. -/
def ctlmap (data : Byte) : Byte :=
  ([0, 0, 0, 0, 0, 0, 0, 0, 0, 0, 0, 0, 0, 0, 0, 0,
    17, 23, 5, 18, 20, 25, 21, 9, 15, 16, 0, 0, 13, 0, 1, 19,
    4, 6, 7, 8, 10, 11, 12, 0, 0, 0, 0, 28, 26, 24, 3, 22,
    2, 14, 13, 0, 0, 239, 0, 0][data.toNat]?).getD (extended 13 239 0x47 data)

/-- `charcode[shift & (CTL | SHIFT)]` -/
def charcode (shift : Word) : Byte → Byte :=
  if shift &&& (ctl ||| shiftBit) = 0 then normalmap
  else if shift &&& (ctl ||| shiftBit) = shiftBit then shiftmap
  else ctlmap

structure KeyMessage where
  type : MsgType
  key : Byte
  shift : Word
  deriving DecidableEq

structure Reading where
  value : ℤ
  shift : Word
  sent : Option KeyMessage

def switchCase (c : Byte) : Byte :=
  if 97 ≤ c ∧ c ≤ 122 then c - 32
  else if 65 ≤ c ∧ c ≤ 90 then c + 32
  else c

/-- A key goes down, with its code behind the escape. -/
def pressed (shift : Word) (data : Byte) : Reading :=
  let shift := (shift ||| shiftcode data) ^^^ togglecode data
  let c := charcode shift data
  ⟨if shift &&& capslock ≠ 0 then (switchCase c).toNat else c.toNat, shift,
    some ⟨.keyDown, normalmap data, shift⟩⟩

/-- `none` stands for a controller without a byte. -/
def kbdgetc (shift : Word) : Option Byte → Reading
  | none => ⟨-1, shift, none⟩
  | some data =>
    if data = 0xE0 then ⟨0, shift ||| e0esc, none⟩
    else if data &&& 0x80 ≠ 0 then
      let data := if shift &&& e0esc ≠ 0 then data else data &&& 0x7F
      let shift := shift &&& ~~~(shiftcode data ||| e0esc)
      ⟨0, shift, some ⟨.keyUp, normalmap data, shift⟩⟩
    else if shift &&& e0esc ≠ 0 then pressed (shift &&& ~~~e0esc) (data ||| 0x80)
    else pressed shift data

/-- shift after the interrupts with these bytes. -/
def shiftAfter (bytes : List Byte) : Word :=
  bytes.foldl (fun shift b => (kbdgetc shift (some b)).shift) 0

/-! ### What was typed -/

inductive Key where
  | press (code : Byte)
  | release (code : Byte)
  deriving DecidableEq

def Key.code : Key → Byte
  | .press k => k
  | .release k => k

def Key.type : Key → MsgType
  | .press _ => .keyDown
  | .release _ => .keyUp

/-- The event that a byte completes; the keys behind an escape have codes of their own. -/
def event (escaped : Bool) (b : Byte) : Option Key :=
  if b = 0xE0 then none
  else if b &&& 0x80 ≠ 0 then some (.release (if escaped then b else b &&& 0x7F))
  else some (.press (if escaped then b ||| 0x80 else b))

def escaped (bytes : List Byte) : Bool := bytes.getLast? == some 0xE0

def typedFrom : Bool → List Byte → List Key
  | _, [] => []
  | e, b :: bytes => (event e b).toList ++ typedFrom (b == 0xE0) bytes

def typed (bytes : List Byte) : List Key := typedFrom false bytes

/-- Keys with the bit in shiftcode hold it, those with the bit in togglecode switch it. -/
def Holding (i : ℕ) (keys : List Key) : Prop :=
  ∃ k, (keys.filter fun e => (shiftcode e.code).getLsbD i).getLast? = some (.press k)

def switches (i : ℕ) (keys : List Key) : ℕ :=
  keys.countP fun e => e.type == .keyDown && (togglecode e.code).getLsbD i

def Active (i : ℕ) (keys : List Key) : Prop := Holding i keys ∨ Odd (switches i keys)

section Keys

variable {i : ℕ} {k k' b : Byte} {s : Word} {e : Bool} {keys : List Key} {bytes : List Byte}

theorem shiftcode_cases (k : Byte) :
    shiftcode k = 0 ∨ shiftcode k = shiftBit ∨ shiftcode k = ctl ∨ shiftcode k = alt := by
  unfold shiftcode
  split_ifs <;> simp

theorem togglecode_cases (k : Byte) : togglecode k = 0 ∨ togglecode k = capslock ∨
    togglecode k = numlock ∨ togglecode k = scrolllock := by
  unfold togglecode
  split_ifs <;> simp

theorem apart_of_and {m m' : Word} (h : m &&& m' = 0) (hm : m.getLsbD i = true) :
    m'.getLsbD i = false := by
  have hbit := congrArg (BitVec.getLsbD · i) h
  simpa [hm] using hbit

/-- No bit is both held and switched. -/
theorem held_not_switched (h : (shiftcode k).getLsbD i = true) :
    (togglecode k').getLsbD i = false := by
  refine apart_of_and ?_ h
  rcases shiftcode_cases k with hk | hk | hk | hk <;>
    rcases togglecode_cases k' with hk' | hk' | hk' | hk' <;> rw [hk, hk'] <;> decide

theorem escape_not_held (k : Byte) : (shiftcode k).getLsbD 6 = false := by
  rcases shiftcode_cases k with hk | hk | hk | hk <;> rw [hk] <;> decide

theorem escape_not_switched (k : Byte) : (togglecode k).getLsbD 6 = false := by
  rcases togglecode_cases k with hk | hk | hk | hk <;> rw [hk] <;> decide

theorem not_holding (h : ∀ k, (shiftcode k).getLsbD i = false) : ¬ Holding i keys := by
  rintro ⟨k, hk⟩
  have hnil : keys.filter (fun e => (shiftcode e.code).getLsbD i) = [] :=
    List.filter_eq_nil_iff.mpr fun e _ => by rw [h]; exact Bool.false_ne_true
  rw [hnil] at hk
  cases hk

theorem switches_eq_zero (h : ∀ k, (togglecode k).getLsbD i = false) : switches i keys = 0 :=
  List.countP_eq_zero.mpr fun e _ => by rw [h, Bool.and_false]; exact Bool.false_ne_true

theorem not_active_escape : ¬ Active 6 keys := by
  rintro (h | h)
  · exact not_holding escape_not_held h
  · rw [switches_eq_zero escape_not_switched] at h
    exact absurd h (by decide)

theorem active_release : Active i (keys ++ [.release k]) ↔
    Active i keys ∧ (shiftcode k).getLsbD i = false := by
  have hcount : switches i (keys ++ [.release k]) = switches i keys := by
    rw [switches, List.countP_append]
    rfl
  rw [Active, Active, hcount, Holding, List.filter_append]
  cases hk : (shiftcode k).getLsbD i with
  | false =>
    rw [List.filter_cons_of_neg (by rw [Key.code, hk]; exact Bool.false_ne_true), List.filter_nil,
      List.append_nil]
    exact (and_iff_left rfl).symm
  | true =>
    rw [List.filter_cons_of_pos (by rw [Key.code, hk]), List.filter_nil, List.getLast?_concat,
      switches_eq_zero fun k' => held_not_switched hk]
    refine iff_of_false ?_ fun h => Bool.true_eq_false_eq_False h.2
    rintro (⟨_, h⟩ | h)
    · cases h
    · exact absurd h (by decide)

theorem active_press : Active i (keys ++ [.press k]) ↔
    ((Active i keys ∨ (shiftcode k).getLsbD i = true) ↔ (togglecode k).getLsbD i = false) := by
  cases hk : (shiftcode k).getLsbD i with
  | true =>
    refine iff_of_true (.inl ⟨k, ?_⟩) (iff_of_true (.inr rfl) (held_not_switched hk))
    rw [List.filter_append, List.filter_cons_of_pos (by rw [Key.code, hk]), List.filter_nil,
      List.getLast?_concat]
  | false =>
    have hfilter : (keys ++ [Key.press k]).filter (fun e => (shiftcode e.code).getLsbD i) =
        keys.filter fun e => (shiftcode e.code).getLsbD i := by
      rw [List.filter_append,
        List.filter_cons_of_neg (by rw [Key.code, hk]; exact Bool.false_ne_true), List.filter_nil,
        List.append_nil]
    rw [Active, Active, Holding, Holding, hfilter, switches, switches, List.countP_append,
      or_iff_left Bool.false_ne_true]
    cases ht : (togglecode k).getLsbD i with
    | false =>
      have hzero : [Key.press k].countP
          (fun e => e.type == .keyDown && (togglecode e.code).getLsbD i) = 0 := by
        rw [List.countP_cons_of_neg (by rw [Key.code, ht]; simp), List.countP_nil]
      rw [hzero, Nat.add_zero]
      exact (iff_true_right rfl).symm
    | true =>
      have hone : [Key.press k].countP
          (fun e => e.type == .keyDown && (togglecode e.code).getLsbD i) = 1 := by
        rw [List.countP_cons_of_pos (by rw [Key.code, ht]; rfl), List.countP_nil]
      have hnone : ¬ Holding i keys := by
        refine not_holding fun k' => ?_
        by_contra hk'
        rw [held_not_switched (Bool.not_eq_false _ ▸ hk')] at ht
        cases ht
      rw [hone, Nat.odd_add_one]
      rw [Holding] at hnone
      rw [or_iff_right hnone, or_iff_right hnone]
      exact (iff_false_right (by decide)).symm

theorem typedFrom_append (e : Bool) (bytes : List Byte) (b : Byte) :
    typedFrom e (bytes ++ [b]) = typedFrom e bytes ++
      (event ((bytes.getLast?.map (· == 0xE0)).getD e) b).toList := by
  induction bytes generalizing e with
  | nil => exact List.append_nil _
  | cons a bytes ih =>
    rw [List.cons_append, typedFrom, ih, typedFrom, List.append_assoc]
    cases bytes with
    | nil => rfl
    | cons c cs =>
      simp only [List.getLast?_cons, Option.map_some, Option.getD_some]

theorem typed_append (bytes : List Byte) (b : Byte) :
    typed (bytes ++ [b]) = typed bytes ++ (event (escaped bytes) b).toList := by
  rw [typed, typedFrom_append, escaped, typed]
  cases bytes.getLast? with
  | none => rfl
  | some a => rfl

theorem getLsbD_clear (m : Word) : (s &&& ~~~m).getLsbD i = (s.getLsbD i && !m.getLsbD i) := by
  rw [BitVec.getLsbD_and, BitVec.getLsbD_not]
  by_cases hi : i < 32
  · rw [decide_eq_true hi, Bool.true_and]
  · rw [BitVec.getLsbD_of_ge s i (Nat.le_of_not_lt hi), Bool.false_and, Bool.false_and]

theorem getLsbD_e0esc : e0esc.getLsbD i = decide (i = 6) := by
  have hpow : e0esc = BitVec.twoPow 32 6 := by decide
  rw [hpow, BitVec.getLsbD_twoPow]
  exact decide_eq_decide.mpr eq_comm

theorem and_e0esc : s &&& e0esc ≠ 0 ↔ s.getLsbD 6 = true := by
  constructor
  · intro h
    by_contra hbit
    refine h (BitVec.eq_of_getLsbD_eq fun j _ => ?_)
    rw [BitVec.getLsbD_and, getLsbD_e0esc]
    by_cases hj : j = 6
    · rw [hj, Bool.eq_false_of_not_eq_true hbit, Bool.false_and]
      exact BitVec.getLsbD_zero.symm
    · rw [decide_eq_false hj, Bool.and_false]
      exact BitVec.getLsbD_zero.symm
  · intro hbit h
    have hsix : (s &&& e0esc).getLsbD 6 = true := by
      rw [BitVec.getLsbD_and, hbit, getLsbD_e0esc]
      rfl
    rw [h] at hsix
    exact absurd hsix (by decide)

theorem shiftAfter_append (bytes : List Byte) (b : Byte) :
    shiftAfter (bytes ++ [b]) = (kbdgetc (shiftAfter bytes) (some b)).shift := by
  rw [shiftAfter, List.foldl_append]
  rfl

theorem pressed_active (h : ∀ i, s.getLsbD i = true ↔ Active i keys) (k : Byte) (i : ℕ) :
    (pressed s k).shift.getLsbD i = true ↔ Active i (keys ++ [.press k]) := by
  have hbits : (pressed s k).shift.getLsbD i =
      ((s.getLsbD i || (shiftcode k).getLsbD i) ^^ (togglecode k).getLsbD i) := by
    rw [pressed, BitVec.getLsbD_xor, BitVec.getLsbD_or]
  rw [active_press, ← h, hbits]
  cases s.getLsbD i <;> cases (shiftcode k).getLsbD i <;> cases (togglecode k).getLsbD i <;> decide

theorem released_active (h : ∀ i, (s &&& ~~~e0esc).getLsbD i = true ↔ Active i keys) (k : Byte)
    (i : ℕ) : (s &&& ~~~(shiftcode k ||| e0esc)).getLsbD i = true ↔
      Active i (keys ++ [.release k]) := by
  rw [active_release, ← h, getLsbD_clear, getLsbD_clear, BitVec.getLsbD_or]
  cases s.getLsbD i <;> cases (shiftcode k).getLsbD i <;> cases e0esc.getLsbD i <;> decide

/-- What holds of shift after these bytes. -/
def Tracks (bytes : List Byte) : Prop :=
  ∀ i, (shiftAfter bytes).getLsbD i = true ↔
    (i = 6 ∧ escaped bytes = true) ∨ Active i (typed bytes)

theorem Tracks.escape (h : Tracks bytes) : shiftAfter bytes &&& e0esc ≠ 0 ↔ escaped bytes = true :=
  and_e0esc.trans ((h 6).trans ⟨fun h => h.elim And.right fun h => absurd h not_active_escape,
    fun h => .inl ⟨rfl, h⟩⟩)

theorem Tracks.cleared (h : Tracks bytes) (i : ℕ) :
    (shiftAfter bytes &&& ~~~e0esc).getLsbD i = true ↔ Active i (typed bytes) := by
  rw [getLsbD_clear, getLsbD_e0esc, Bool.and_eq_true, h i]
  by_cases hi : i = 6
  · subst hi
    exact iff_of_false (fun h => absurd h.2 (by decide)) not_active_escape
  · simp [hi]

theorem escaped_append (bytes : List Byte) (b : Byte) :
    escaped (bytes ++ [b]) = (b == 0xE0) := by
  rw [escaped, List.getLast?_concat]
  rfl

theorem Tracks.append (h : Tracks bytes) (b : Byte) : Tracks (bytes ++ [b]) := by
  intro i
  rw [shiftAfter_append, escaped_append, typed_append]
  by_cases hb : b = 0xE0
  · rw [kbdgetc, if_pos hb, event, if_pos hb, Option.toList_none, List.append_nil,
      BitVec.getLsbD_or, getLsbD_e0esc, Bool.or_eq_true, decide_eq_true_eq, h i, hb]
    constructor
    · rintro ((⟨hi, -⟩ | ha) | hi)
      · exact .inl ⟨hi, rfl⟩
      · exact .inr ha
      · exact .inl ⟨hi, rfl⟩
    · rintro (⟨hi, -⟩ | ha)
      · exact .inr hi
      · exact .inl (.inr ha)
  · have hnot : ¬ (i = 6 ∧ (b == 0xE0) = true) := fun h => hb (eq_of_beq h.2)
    rw [or_iff_right hnot, kbdgetc, if_neg hb, event, if_neg hb]
    by_cases hup : b &&& 0x80 ≠ 0
    · rw [if_pos hup, if_pos hup, Option.toList_some]
      simp only [h.escape]
      exact released_active h.cleared _ i
    · rw [if_neg hup, if_neg hup, Option.toList_some]
      by_cases he : escaped bytes = true
      · rw [if_pos (h.escape.mpr he), if_pos he]
        exact pressed_active h.cleared _ i
      · rw [if_neg (h.escape.not.mpr he), if_neg he]
        refine pressed_active (fun j => (h j).trans (or_iff_right ?_)) _ i
        exact fun hj => he hj.2

theorem tracks (bytes : List Byte) : Tracks bytes := by
  induction bytes using List.reverseRecOn with
  | nil =>
    intro i
    refine iff_of_false ?_ ?_
    · rw [shiftAfter, List.foldl_nil]
      exact ne_true_of_eq_false BitVec.getLsbD_zero
    · rintro (⟨-, h⟩ | ⟨k, h⟩ | h)
      · cases h
      · cases h
      · have hzero : Odd 0 := h
        exact absurd hzero (by decide)
  | append_singleton bytes b ih => exact ih.append b

/-- After any bytes, a bit of shift is set exactly if its modifier is on by what was typed, and
the next byte sends a message exactly if it completes an event, with the key of the event and
the modifiers after it. -/
theorem modifiers_exact (bytes : List Byte) (b : Byte) :
    (∀ i, (shiftAfter bytes).getLsbD i = true ↔
      (i = 6 ∧ escaped bytes = true) ∨ Active i (typed bytes)) ∧
    (kbdgetc (shiftAfter bytes) (some b)).sent = (event (escaped bytes) b).map fun e =>
      ⟨e.type, normalmap e.code, shiftAfter (bytes ++ [b])⟩ := by
  have h := tracks bytes
  refine ⟨h, ?_⟩
  rw [shiftAfter_append, kbdgetc, event]
  by_cases hb : b = 0xE0
  · rw [if_pos hb, if_pos hb]
    rfl
  · rw [if_neg hb, if_neg hb]
    by_cases hup : b &&& 0x80 ≠ 0
    · rw [if_pos hup, if_pos hup]
      simp only [h.escape]
      rfl
    · rw [if_neg hup, if_neg hup]
      by_cases he : escaped bytes = true
      · rw [if_pos (h.escape.mpr he), if_pos he]
        rfl
      · rw [if_neg (h.escape.not.mpr he), if_neg he]
        rfl

end Keys

end Keyboard
