import Xv6Gui.MouseDriver
import Mathlib.Data.List.ReduceOption

/-!
# Packets assembled from bytes

Bit 3 of the first byte is set in every packet, so the byte counter stays aligned whatever
the interrupts' boundaries are, and the bytes 12, 0, 0 can only be one whole packet. That
packet is taken for the recovery sequence and makes no call.
-/
namespace MousePackets

open WindowManagerState TransducerRuns MouseDriver

structure MousePacket where
  flags : BitVec 8
  x : BitVec 8
  y : BitVec 8
  flagged : flags.getLsbD 3 = true
  deriving DecidableEq, Repr

def MousePacket.bytes (p : MousePacket) : List (BitVec 8) := [p.flags, p.x, p.y]

/-- The middle button pressed and no motion. -/
def recoveryPacket : MousePacket := ⟨12, 0, 0, by decide⟩

/-- What a packet says: button and overflow bits, and the two displacements. -/
structure Report where
  lBtn : CInt
  rBtn : CInt
  mBtn : CInt
  xOverflow : CInt
  yOverflow : CInt
  dx : ℤ
  dy : ℤ
  deriving DecidableEq, Repr

def bit (b : BitVec 8) (i : ℕ) : CInt := (BitVec.ofBool (b.getLsbD i)).setWidth 32

/-- The meaning of the three bytes: each displacement has nine bits, its sign in the flags. -/
def MousePacket.report (p : MousePacket) : Report where
  lBtn := bit p.flags 0
  rBtn := bit p.flags 1
  mBtn := bit p.flags 2
  xOverflow := bit p.flags 6
  yOverflow := bit p.flags 7
  dx := (BitVec.cons (p.flags.getLsbD 4) p.x).toInt
  dy := (BitVec.cons (p.flags.getLsbD 5) p.y).toInt

/-- What the driver's packet says to the genMouseMessage that is called with it. -/
def report (p : Packet) : Report where
  lBtn := p.lBtn
  rBtn := p.rBtn
  mBtn := p.mBtn
  xOverflow := p.xOverflow
  yOverflow := p.yOverflow
  dx := (displacement p.xSgn p.xMov).toInt
  dy := (displacement p.ySgn p.yMov).toInt

/-- The driver's packet after the three bytes. -/
def MousePacket.packet (p : MousePacket) (tick : CInt) : Packet where
  xSgn := bit p.flags 4
  ySgn := bit p.flags 5
  xMov := p.x.setWidth 32
  yMov := p.y.setWidth 32
  lBtn := bit p.flags 0
  rBtn := bit p.flags 1
  mBtn := bit p.flags 2
  xOverflow := bit p.flags 6
  yOverflow := bit p.flags 7
  tick := tick

theorem shift_and_one (b : BitVec 8) {i : ℕ} (hi : i < 32) :
    (b.setWidth 32 >>> i) &&& 1#32 = bit b i := by
  rw [BitVec.and_one_eq_setWidth_ofBool_getLsbD, BitVec.getLsbD_ushiftRight,
    BitVec.getLsbD_setWidth, bit, Nat.add_zero]
  simp [hi]

theorem toInt_displacement (s : Bool) (x : BitVec 8) :
    (displacement ((BitVec.ofBool s).setWidth 32) (x.setWidth 32)).toInt =
      (BitVec.cons s x).toInt := by
  revert s x
  decide +kernel

theorem report_packet (p : MousePacket) (tick : CInt) : report (p.packet tick) = p.report := by
  have hx := toInt_displacement (p.flags.getLsbD 4) p.x
  have hy := toInt_displacement (p.flags.getLsbD 5) p.y
  simp only [report, MousePacket.report, MousePacket.packet, Report.mk.injEq, true_and]
  exact ⟨hx, hy⟩

theorem setWidth_and_mask (b : BitVec 8) : b.setWidth 32 &&& 255 = b.setWidth 32 := by
  revert b
  decide +kernel

theorem setWidth_inj {b c : BitVec 8} : b.setWidth 32 = c.setWidth 32 ↔ b = c := by
  constructor
  · intro h
    simpa using congrArg (BitVec.setWidth 8) h
  · rintro rfl
    rfl

theorem nextRecovery_byte (r : ℤ) (b : BitVec 8) :
    nextRecovery r (b.setWidth 32) =
      if r = 0 ∧ b = 0#8 then 1 else if r = 1 ∧ b = 0#8 then 2 else if b = 12#8 then 0
      else -1 := by
  have hzero : b.setWidth 32 = (0 : CInt) ↔ b = 0#8 := setWidth_inj (c := 0#8)
  have htwelve : b.setWidth 32 = (12 : CInt) ↔ b = 12#8 := setWidth_inj (c := 12#8)
  simp only [nextRecovery, setWidth_and_mask, hzero, htwelve]

theorem flagged_and {b : BitVec 8} (h : b.getLsbD 3 = true) :
    b.setWidth 32 &&& 8#32 ≠ 0#32 := by
  revert h
  revert b
  decide +kernel

theorem flagged_ne_zero (p : MousePacket) : p.flags ≠ 0#8 := by
  intro h
  have := p.flagged
  rw [h] at this
  cases this

theorem readFlags_packet (q : Packet) (p : MousePacket) (tick : CInt) :
    { q.readFlags (p.flags.setWidth 32) with
      xMov := p.x.setWidth 32
      yMov := p.y.setWidth 32
      tick := tick } = p.packet tick := by
  have hbit (i : ℕ) (hi : i < 32) := shift_and_one p.flags hi
  simp only [Packet.readFlags, MousePacket.packet, Packet.mk.injEq, true_and, and_true]
  exact ⟨hbit 4 (by decide), hbit 5 (by decide), hbit 0 (by decide), hbit 1 (by decide),
    hbit 2 (by decide), hbit 6 (by decide), hbit 7 (by decide)⟩

theorem readByte_flags {m : Mouse} (hm : m.count = 0) (p : MousePacket) (tick : CInt) :
    readByte m ⟨tick, p.flags⟩ =
      (none, { m with
        packet := m.packet.readFlags (p.flags.setWidth 32)
        count := 1
        recovery := if p.flags = 12#8 then 0 else -1 }) := by
  have hr : nextRecovery m.recovery (p.flags.setWidth 32) =
      if p.flags = 12#8 then 0 else -1 := by
    simp [nextRecovery_byte, flagged_ne_zero p]
  have hne : (if p.flags = 12#8 then (0 : ℤ) else -1) ≠ 2 := by split <;> decide
  simp [readByte, Mouse.store, hm, hr, hne, flagged_and p.flagged]

theorem readByte_x {m : Mouse} (hm : m.count = 1) (hr : m.recovery ≠ 1) (b : BitVec 8)
    (tick : CInt) :
    readByte m ⟨tick, b⟩ =
      (none, { m with
        packet := { m.packet with xMov := b.setWidth 32 }
        count := 2
        recovery := nextRecovery m.recovery (b.setWidth 32) }) := by
  have hne : nextRecovery m.recovery (b.setWidth 32) ≠ 2 := by
    rw [nextRecovery_byte]
    grind
  simp [readByte, Mouse.store, hm, hne]

/-- The third byte makes the call unless it completes the recovery sequence. -/
theorem readByte_y {m : Mouse} (hm : m.count = 2) (b : BitVec 8) (tick : CInt) :
    readByte m ⟨tick, b⟩ =
      (let m := { m with
        packet := { m.packet with yMov := b.setWidth 32, tick := tick }
        count := 0
        recovery := nextRecovery m.recovery (b.setWidth 32) }
      if m.recovery = 2 then (none, { m with recovery := -1 })
      else (some ⟨m.packet, (genMouseMessage m).1⟩, (genMouseMessage m).2)) := by
  simp [readByte, Mouse.store, hm]

/-- A packet with the ticks of the interrupts that read its bytes; only the last one is kept. -/
structure Arrival where
  packet : MousePacket
  flagsTick : CInt
  xTick : CInt
  tick : CInt

def Arrival.timed (a : Arrival) : List TimedByte :=
  [⟨a.flagsTick, a.packet.flags⟩, ⟨a.xTick, a.packet.x⟩, ⟨a.tick, a.packet.y⟩]

/-- A packet and the tick that goes with it. -/
def Arrival.entry (a : Arrival) : MousePacket × CInt := (a.packet, a.tick)

/-- The driver one packet at a time. It drops the recovery packet. -/
def receive (m : Mouse) (e : MousePacket × CInt) : Option Call × Mouse :=
  if e.1 = recoveryPacket then (none, m)
  else
    let m := { m with packet := e.1.packet e.2 }
    (some ⟨m.packet, (genMouseMessage m).1⟩, (genMouseMessage m).2)

/-- What genMouseMessage remembers from earlier packets. -/
structure SameHistory (m n : Mouse) : Prop where
  lastbtn : m.lastbtn = n.lastbtn
  lastdowntick : m.lastdowntick = n.lastdowntick
  lastclicktick : m.lastclicktick = n.lastclicktick

theorem genMouseMessage_count (m : Mouse) : (genMouseMessage m).2.count = m.count := by
  simp only [genMouseMessage]
  grind

theorem genMouseMessage_congr {m n : Mouse} (hp : m.packet = n.packet)
    (h : SameHistory m n) :
    (genMouseMessage m).1 = (genMouseMessage n).1 ∧
      SameHistory (genMouseMessage m).2 (genMouseMessage n).2 := by
  simp only [genMouseMessage, hp, h.lastbtn, h.lastdowntick, h.lastclicktick]
  by_cases ho : n.packet.Overflows
  · simp only [ho, if_true]
    exact ⟨trivial, h⟩
  · simp only [ho, if_false]
    split_ifs <;> exact ⟨rfl, rfl, rfl, rfl⟩

theorem receive_congr {m n : Mouse} (h : SameHistory m n) (e : MousePacket × CInt) :
    (receive m e).1 = (receive n e).1 ∧ SameHistory (receive m e).2 (receive n e).2 := by
  by_cases he : e.1 = recoveryPacket
  · simp only [receive, if_pos he, true_and]
    exact h
  · obtain ⟨hm, hs⟩ := genMouseMessage_congr (m := { m with packet := e.1.packet e.2 })
      (n := { n with packet := e.1.packet e.2 }) rfl ⟨h.1, h.2, h.3⟩
    simp only [receive, if_neg he, Option.some.injEq]
    exact ⟨congrArg (Call.mk _) hm, hs⟩

theorem eq_recoveryPacket {p : MousePacket} :
    p = recoveryPacket ↔ p.flags = 12#8 ∧ p.x = 0#8 ∧ p.y = 0#8 := by
  obtain ⟨flags, x, y, h⟩ := p
  simp [recoveryPacket]

/-- The recovery counter reaches 2 on the third byte exactly after 12, 0, 0. -/
theorem recovery_packet (p : MousePacket) :
    nextRecovery (nextRecovery (if p.flags = 12#8 then 0 else -1) (p.x.setWidth 32))
      (p.y.setWidth 32) = 2 ↔ p = recoveryPacket := by
  rw [eq_recoveryPacket, nextRecovery_byte, nextRecovery_byte]
  grind

/-- Reading the three bytes of a packet is receiving it. -/
theorem readPacket {m : Mouse} (hm : m.count = 0) (a : Arrival) :
    outputs readByte m a.timed = [none, none, (receive m a.entry).1] ∧
      (final readByte m a.timed).count = 0 ∧
      SameHistory (final readByte m a.timed) (receive m a.entry).2 := by
  obtain ⟨k, hk, hkc, hkr, hkp, hks⟩ :
      ∃ k, readByte m ⟨a.flagsTick, a.packet.flags⟩ = (none, k) ∧ k.count = 1 ∧
        k.recovery = (if a.packet.flags = 12#8 then 0 else -1) ∧
        k.packet = m.packet.readFlags (a.packet.flags.setWidth 32) ∧ SameHistory k m :=
    ⟨_, readByte_flags hm a.packet a.flagsTick, rfl, rfl, rfl, rfl, rfl, rfl⟩
  have hkne : k.recovery ≠ 1 := by
    rw [hkr]
    split <;> decide
  obtain ⟨l, hl, hlc, hlr, hlp, hls⟩ :
      ∃ l, readByte k ⟨a.xTick, a.packet.x⟩ = (none, l) ∧ l.count = 2 ∧
        l.recovery = nextRecovery k.recovery (a.packet.x.setWidth 32) ∧
        l.packet = { k.packet with xMov := a.packet.x.setWidth 32 } ∧ SameHistory l k :=
    ⟨_, readByte_x hkc hkne a.packet.x a.xTick, rfl, rfl, rfl, rfl, rfl, rfl⟩
  have hy := readByte_y hlc a.packet.y a.tick
  rw [hlp, hkp, readFlags_packet, hlr, hkr] at hy
  have hlm : SameHistory l m := ⟨hls.1.trans hks.1, hls.2.trans hks.2, hls.3.trans hks.3⟩
  simp only [Arrival.timed, Arrival.entry, receive, outputs, final, hk, hl, hy, recovery_packet]
  by_cases ha : a.packet = recoveryPacket
  · simp only [ha, if_true, true_and]
    exact ⟨hlm.1, hlm.2, hlm.3⟩
  · simp only [ha, if_false]
    have hgen (r : ℤ) := genMouseMessage_congr
      (m := { l with packet := a.packet.packet a.tick, count := 0, recovery := r })
      (n := { m with packet := a.packet.packet a.tick }) rfl ⟨hlm.1, hlm.2, hlm.3⟩
    refine ⟨?_, genMouseMessage_count _, (hgen _).2⟩
    rw [(hgen _).1]

/-- Byte by byte or packet by packet, the driver makes the same calls. -/
theorem run_packets {m n : Mouse} (hm : m.count = 0) (h : SameHistory m n)
    (as : List Arrival) :
    (outputs readByte m (as.flatMap Arrival.timed)).reduceOption =
        (outputs receive n (as.map Arrival.entry)).reduceOption ∧
      (final readByte m (as.flatMap Arrival.timed)).count = 0 := by
  induction as generalizing m n with
  | nil => exact ⟨rfl, hm⟩
  | cons a as ih =>
    obtain ⟨hout, hcount, hsame⟩ := readPacket hm a
    obtain ⟨hcall, hnext⟩ := receive_congr h a.entry
    obtain ⟨hrest, hfinal⟩ := ih hcount ⟨hsame.1.trans hnext.1, hsame.2.trans hnext.2,
      hsame.3.trans hnext.3⟩
    rw [List.flatMap_cons, outputs_append, final_append, List.reduceOption_append, hout, hrest,
      hcall]
    refine ⟨?_, hfinal⟩
    rw [List.map_cons, outputs, ← List.reduceOption_append]
    rfl

/-- Bytes that are those of whole packets are arrivals of these packets, whatever the ticks. -/
theorem exists_arrivals (bs : List TimedByte) (ps : List MousePacket)
    (h : bs.map TimedByte.byte = ps.flatMap MousePacket.bytes) :
    ∃ as : List Arrival, as.map Arrival.packet = ps ∧ as.flatMap Arrival.timed = bs := by
  induction ps generalizing bs with
  | nil =>
    rw [List.flatMap_nil, List.map_eq_nil_iff] at h
    exact ⟨[], rfl, h.symm⟩
  | cons p ps ih =>
    obtain ⟨b₁, bs, rfl, h₁, h⟩ := List.map_eq_cons_iff.mp h
    obtain ⟨b₂, bs, rfl, h₂, h⟩ := List.map_eq_cons_iff.mp h
    obtain ⟨b₃, bs, rfl, h₃, h⟩ := List.map_eq_cons_iff.mp h
    obtain ⟨as, hps, hbs⟩ := ih bs h
    refine ⟨⟨p, b₁.tick, b₂.tick, b₃.tick⟩ :: as, by rw [List.map_cons, hps], ?_⟩
    rw [List.flatMap_cons, hbs, Arrival.timed, ← h₁, ← h₂, ← h₃]
    rfl

/-- Interrupt by interrupt or packet by packet, the driver makes the same calls. -/
theorem calls_eq_receive {is : List Interrupt} {ps : List MousePacket}
    (h : is.flatMap Interrupt.bytes = ps.flatMap MousePacket.bytes) :
    ∃ as : List Arrival, as.map Arrival.packet = ps ∧
      calls (mouseinit boot) is =
        (outputs receive (mouseinit boot) (as.map Arrival.entry)).reduceOption := by
  have hbytes : (is.flatMap Interrupt.timed).map TimedByte.byte =
      ps.flatMap MousePacket.bytes := by
    rw [← h, List.map_flatMap]
    congr 1
    funext i
    rw [Interrupt.timed, List.map_map]
    exact List.map_id _
  obtain ⟨as, has, htimed⟩ := exists_arrivals _ ps hbytes
  refine ⟨as, has, ?_⟩
  rw [calls_eq_readBytes, ← htimed]
  exact (run_packets rfl ⟨rfl, rfl, rfl⟩ as).1

/-- The calls carry the reports of the packets that are not dropped. -/
theorem map_packet_receive (m : Mouse) (es : List (MousePacket × CInt)) :
    (outputs receive m es).reduceOption.map (fun c => report c.packet) =
      ((es.map Prod.fst).filter (fun p => p ≠ recoveryPacket)).map MousePacket.report := by
  induction es generalizing m with
  | nil => rfl
  | cons e es ih =>
    rw [outputs, List.map_cons]
    by_cases he : e.1 = recoveryPacket
    · rw [List.filter_cons_of_neg (by simp [he]), ← ih (receive m e).2, receive, if_pos he]
      rfl
    · rw [List.filter_cons_of_pos (by simp [he]), List.map_cons, ← ih (receive m e).2, receive,
        if_neg he]
      exact congrArg (· :: _) (report_packet e.1 e.2)

/-- Every packet but the recovery packet makes one call of genMouseMessage, in order and with
its own report, however its bytes are split over interrupts. -/
theorem packets_reported (is : List Interrupt) (ps : List MousePacket)
    (h : is.flatMap Interrupt.bytes = ps.flatMap MousePacket.bytes) :
    (calls (mouseinit boot) is).map (fun c => report c.packet) =
      (ps.filter (fun p => p ≠ recoveryPacket)).map MousePacket.report := by
  obtain ⟨as, rfl, hcalls⟩ := calls_eq_receive h
  rw [hcalls, map_packet_receive, List.map_map]
  rfl

theorem packets_reported_split :
    (calls (mouseinit boot) [⟨5, [8]⟩, ⟨6, [1, 2, 56]⟩, ⟨9, [255, 254]⟩]).map
        (fun c => report c.packet) =
      [MousePacket.report ⟨8, 1, 2, by decide⟩, MousePacket.report ⟨56, 255, 254, by decide⟩] :=
  packets_reported _ [⟨8, 1, 2, by decide⟩, ⟨56, 255, 254, by decide⟩] rfl

/-- The middle button pressed without motion makes no call. -/
theorem middle_press_not_reported :
    ¬ ∀ (is : List Interrupt) (ps : List MousePacket),
      is.flatMap Interrupt.bytes = ps.flatMap MousePacket.bytes →
      (calls (mouseinit boot) is).map (fun c => report c.packet) =
        ps.map MousePacket.report := by
  intro h
  have hmiddle := h [⟨0, [12, 0, 0]⟩] [recoveryPacket] rfl
  revert hmiddle
  decide +kernel

end MousePackets
