import Xv6Gui.TransducerRuns
import Xv6Gui.WindowManagerState
import Mathlib.Logic.Function.Basic

/-!
# The mouse driver

The statics of mouse.c, the interrupt handler that assembles packets from bytes, and the
routine that turns a packet into messages. A byte from the controller is read into an `int`.
A step answers with the call of genMouseMessage it makes, if it makes one: the packet as it
stood at the call, and the messages handed to handleMessage.
-/
namespace MouseDriver

open WindowManagerState TransducerRuns

abbrev CInt := BitVec 32

/-- The static `packet`, its button and sign fields as the `int`s they are. -/
structure Packet where
  xSgn : CInt
  ySgn : CInt
  xMov : CInt
  yMov : CInt
  lBtn : CInt
  rBtn : CInt
  mBtn : CInt
  xOverflow : CInt
  yOverflow : CInt
  tick : CInt
  deriving DecidableEq, Repr

structure Mouse where
  packet : Packet
  count : ℤ
  recovery : ℤ
  lastbtn : CInt
  lastdowntick : CInt
  lastclicktick : CInt
  deriving DecidableEq, Repr

/-- A local `message` of the driver; what it has not assigned is `none`. -/
structure LocalMessage where
  msgType : Option MsgType
  params : Fin 10 → Option ℤ
  deriving DecidableEq

def zeroPacket : Packet := ⟨0, 0, 0, 0, 0, 0, 0, 0, 0, 0⟩

/-- The statics before `main`. -/
def boot : Mouse := ⟨zeroPacket, 0, 0, 0, 0, 0⟩

def mouseinit (m : Mouse) : Mouse :=
  { m with count := 0, lastclicktick := -1000, lastdowntick := -1000 }

def noParams : Fin 10 → Option ℤ := fun _ => none

def unassigned : LocalMessage := ⟨none, noParams⟩

def genMouseUpMessage (btns : CInt) : LocalMessage :=
  ⟨some .mouseUp, Function.update noParams 0 (some btns.toInt)⟩

def mouseMove (x y btns : CInt) : LocalMessage :=
  ⟨some .mouseMove,
    Function.update (Function.update (Function.update noParams 0 (some x.toInt)) 1
      (some y.toInt)) 2 (some btns.toInt)⟩

def mouseDown (btns : CInt) : LocalMessage :=
  ⟨some .mouseDown, Function.update noParams 0 (some btns.toInt)⟩

def click (t : MsgType) : LocalMessage := ⟨some t, noParams⟩

/-- One axis of a packet with its sign extended. -/
def displacement (sgn mov : CInt) : CInt :=
  if sgn ≠ 0 then 0xffffff00#32 ||| (mov &&& 0xff) else mov &&& 0xff

def Packet.btns (p : Packet) : CInt := p.lBtn ||| (p.rBtn <<< 1) ||| (p.mBtn <<< 2)

def Packet.Overflows (p : Packet) : Prop := p.xOverflow ≠ 0 ∨ p.yOverflow ≠ 0

def Packet.Moves (p : Packet) : Prop :=
  displacement p.xSgn p.xMov ≠ 0 ∨ displacement p.ySgn p.yMov ≠ 0

instance (p : Packet) : Decidable p.Overflows :=
  inferInstanceAs (Decidable (p.xOverflow ≠ 0 ∨ p.yOverflow ≠ 0))

instance (p : Packet) : Decidable p.Moves :=
  inferInstanceAs
    (Decidable (displacement p.xSgn p.xMov ≠ 0 ∨ displacement p.ySgn p.yMov ≠ 0))

/-- The packet with its displacements written back over the raw movement bytes. -/
def Packet.extended (p : Packet) : Packet :=
  { p with xMov := displacement p.xSgn p.xMov, yMov := displacement p.ySgn p.yMov }

/-- The messages are in the order they are sent. The tick differences are unsigned; the last
branch has sent an up message of its own and goes on to the common send. -/
def genMouseMessage (m : Mouse) : List LocalMessage × Mouse :=
  let p := m.packet
  if p.Overflows then ([], m)
  else
    let next := { m with packet := p.extended, lastbtn := p.btns }
    if p.Moves then
      let msg := mouseMove p.extended.xMov p.extended.yMov p.btns
      (if p.btns ≠ m.lastbtn then [genMouseUpMessage p.btns, msg] else [msg],
        { next with lastdowntick := -1000, lastclicktick := -1000 })
    else if p.btns ≠ 0 then ([mouseDown p.btns], { next with lastdowntick := p.tick })
    else if p.tick - m.lastdowntick < 30 then
      if p.tick - m.lastclicktick < 60 then
        ([click .mouseDblclick], { next with lastclicktick := -1000 })
      else
        ([click (if m.lastbtn &&& 1 ≠ 0 then .mouseLeftClick else .mouseRightClick)],
          { next with lastclicktick := p.tick })
    else ([genMouseUpMessage p.btns, unassigned], next)

/-- The first byte of a packet: overflow bits, signs and buttons. -/
def Packet.readFlags (p : Packet) (data : CInt) : Packet :=
  { p with
    yOverflow := (data >>> 7) &&& 1
    xOverflow := (data >>> 6) &&& 1
    ySgn := (data >>> 5) &&& 1
    xSgn := (data >>> 4) &&& 1
    mBtn := (data >>> 2) &&& 1
    rBtn := (data >>> 1) &&& 1
    lBtn := (data >>> 0) &&& 1 }

/-- The bytes 12, 0, 0 in a row take the counter to 2. -/
def nextRecovery (recovery : ℤ) (data : CInt) : ℤ :=
  if recovery = 0 ∧ data &&& 255 = 0 then 1
  else if recovery = 1 ∧ data &&& 255 = 0 then 2
  else if data &&& 255 = 12 then 0
  else -1

/-- The switch on the byte counter, which has counted this byte. -/
def Mouse.store (m : Mouse) (tick data : CInt) : Mouse :=
  match m.count with
  | 1 => if data &&& 8 ≠ 0 then { m with packet := m.packet.readFlags data }
    else { m with count := 0 }
  | 2 => { m with packet := { m.packet with xMov := data } }
  | 3 => { m with packet := { m.packet with yMov := data, tick := tick } }
  | _ => { m with count := 0 }

structure Call where
  packet : Packet
  messages : List LocalMessage
  deriving DecidableEq

/-- A byte of the controller and the tick of the interrupt that reads it. -/
structure TimedByte where
  tick : CInt
  byte : BitVec 8
  deriving DecidableEq, Repr

/-- One turn of the loop of mouseintr. -/
def readByte (m : Mouse) (b : TimedByte) : Option Call × Mouse :=
  let data := b.byte.setWidth 32
  let m := { m with count := m.count + 1, recovery := nextRecovery m.recovery data }
  let m := m.store b.tick data
  if m.recovery = 2 then (none, { m with count := 0, recovery := -1 })
  else if m.count = 3 then
    let m := { m with count := 0 }
    (some ⟨m.packet, (genMouseMessage m).1⟩, (genMouseMessage m).2)
  else (none, m)

/-- An interrupt: its tick, and the bytes read before the controller has no more. -/
structure Interrupt where
  tick : CInt
  bytes : List (BitVec 8)
  deriving DecidableEq, Repr

def Interrupt.timed (i : Interrupt) : List TimedByte := i.bytes.map (⟨i.tick, ·⟩)

def mouseintr (m : Mouse) (i : Interrupt) : List (Option Call) × Mouse :=
  batch readByte m i.timed

/-- The calls of genMouseMessage over a sequence of interrupts, in order. -/
def calls (m : Mouse) (is : List Interrupt) : List Call :=
  (outputs mouseintr m is).flatten.reduceOption

/-- Splitting the bytes over interrupts matters only through the ticks. -/
theorem calls_eq_readBytes (m : Mouse) (is : List Interrupt) :
    calls m is = (outputs readByte m (is.flatMap Interrupt.timed)).reduceOption := by
  have hbatch : outputs mouseintr m is =
      outputs (batch readByte) m (is.map Interrupt.timed) := by
    induction is generalizing m with
    | nil => rfl
    | cons i is ih => exact congrArg _ (ih _)
  rw [calls, hbatch, (batch_flatten _ _).1, List.flatMap]

end MouseDriver
