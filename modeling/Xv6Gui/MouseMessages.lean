import Xv6Gui.GuardedRuns
import Xv6Gui.MousePackets

/-!
# The messages of a packet

genMouseMessage sends a click for a release that comes soon after the press. A later release
sends an up message and then a second message whose type was never assigned. Motion hides a
press: the packet that moves is reported as a move and an up message. The recovery packet is
a press of the middle button that genMouseMessage does not see.
-/
namespace MouseMessages

open WindowManagerState TransducerRuns GuardedRuns MouseDriver MousePackets

abbrev TimedPacket := MousePacket × CInt

def Overflows (p : MousePacket) : Prop := p.report.xOverflow ≠ 0 ∨ p.report.yOverflow ≠ 0

def Moves (p : MousePacket) : Prop := p.report.dx ≠ 0 ∨ p.report.dy ≠ 0

def Presses (p : MousePacket) : Prop :=
  p.report.lBtn ≠ 0 ∨ p.report.rBtn ≠ 0 ∨ p.report.mBtn ≠ 0

instance (p : MousePacket) : Decidable (Overflows p) :=
  inferInstanceAs (Decidable (p.report.xOverflow ≠ 0 ∨ p.report.yOverflow ≠ 0))

instance (p : MousePacket) : Decidable (Moves p) :=
  inferInstanceAs (Decidable (p.report.dx ≠ 0 ∨ p.report.dy ≠ 0))

instance (p : MousePacket) : Decidable (Presses p) :=
  inferInstanceAs (Decidable (p.report.lBtn ≠ 0 ∨ p.report.rBtn ≠ 0 ∨ p.report.mBtn ≠ 0))

theorem packet_moves (e : TimedPacket) : (e.1.packet e.2).Moves ↔ Moves e.1 := by
  have hreport := report_packet e.1 e.2
  rw [Packet.Moves, Moves, ← hreport, report, ← BitVec.toInt_ne, ← BitVec.toInt_ne]
  rfl

theorem bit_zero_or_one (b : BitVec 8) (i : ℕ) : bit b i = 0 ∨ bit b i = 1 := by
  rw [bit]
  cases b.getLsbD i with
  | false => exact .inl rfl
  | true => exact .inr rfl

theorem packet_btns (e : TimedPacket) : (e.1.packet e.2).btns ≠ 0 ↔ Presses e.1 := by
  simp only [Packet.btns, Presses, MousePacket.packet, MousePacket.report]
  rcases bit_zero_or_one e.1.flags 0 with hl | hl <;>
    rcases bit_zero_or_one e.1.flags 1 with hr | hr <;>
    rcases bit_zero_or_one e.1.flags 2 with hm | hm <;>
    rw [hl, hr, hm] <;> decide

theorem ne_recoveryPacket_of_moves {p : MousePacket} (hm : Moves p) : p ≠ recoveryPacket := by
  rintro rfl
  exact absurd hm (by decide)

theorem ne_recoveryPacket_of_not_presses {p : MousePacket} (hb : ¬ Presses p) :
    p ≠ recoveryPacket := by
  rintro rfl
  exact hb (by decide)

/-- What is handed to handleMessage while some bytes are read. -/
def messages (m : Mouse) (bs : List TimedByte) : List LocalMessage :=
  (outputs readByte m bs).reduceOption.flatMap Call.messages

/-- Over a sequence of interrupts these are the messages of its calls. -/
theorem messages_eq_calls (m : Mouse) (is : List Interrupt) :
    messages m (is.flatMap Interrupt.timed) = (calls m is).flatMap Call.messages := by
  rw [calls_eq_readBytes]
  rfl

theorem messages_append (m : Mouse) (bs cs : List TimedByte) :
    messages m (bs ++ cs) = messages m bs ++ messages (final readByte m bs) cs := by
  rw [messages, outputs_append, List.reduceOption_append, List.flatMap_append]
  rfl

/-- The messages of a packet. -/
def sent (m : Mouse) (e : TimedPacket) : List LocalMessage :=
  (receive m e).1.elim [] Call.messages

theorem messages_eq_sent {m : Mouse} (hm : m.count = 0) (a : Arrival) :
    messages m a.timed = sent m a.entry := by
  rw [messages, (readPacket hm a).1, sent]
  cases (receive m a.entry).1 with
  | none => rfl
  | some c => exact List.append_nil _

theorem sent_recoveryPacket (m : Mouse) {e : TimedPacket} (he : e.1 = recoveryPacket) :
    sent m e = [] := by
  rw [sent, receive, if_pos he]
  rfl

/-- The messages of a packet, by what the packet says. -/
theorem sent_messages (m : Mouse) {e : TimedPacket} (he : e.1 ≠ recoveryPacket)
    (ho : ¬ Overflows e.1) :
    sent m e =
      let p := e.1.packet e.2
      if Moves e.1 then
        let msg := mouseMove p.extended.xMov p.extended.yMov p.btns
        if p.btns ≠ m.lastbtn then [genMouseUpMessage p.btns, msg] else [msg]
      else if Presses e.1 then [mouseDown p.btns]
      else if e.2 - m.lastdowntick < 30 then
        if e.2 - m.lastclicktick < 60 then [click .mouseDblclick]
        else [click (if m.lastbtn &&& 1 ≠ 0 then .mouseLeftClick else .mouseRightClick)]
      else [genMouseUpMessage p.btns, unassigned] := by
  have hover : ¬ (e.1.packet e.2).Overflows := ho
  have htick : (e.1.packet e.2).tick = e.2 := rfl
  simp only [sent, receive, if_neg he, Option.elim_some, genMouseMessage, if_neg hover,
    packet_moves, packet_btns, htick]
  split_ifs <;> rfl

theorem messages_of_move (m : Mouse) {e : TimedPacket} (ho : ¬ Overflows e.1)
    (hm : Moves e.1) :
    ∀ msg ∈ sent m e, msg.msgType = some .mouseUp ∨ msg.msgType = some .mouseMove := by
  rw [sent_messages m (ne_recoveryPacket_of_moves hm) ho, if_pos hm]
  intro msg hmsg
  split at hmsg
  · simp only [List.mem_cons, List.not_mem_nil, or_false] at hmsg
    rcases hmsg with rfl | rfl
    · exact .inl rfl
    · exact .inr rfl
  · rw [List.mem_singleton.mp hmsg]
    exact .inr rfl

theorem messages_of_press (m : Mouse) {e : TimedPacket} (he : e.1 ≠ recoveryPacket)
    (ho : ¬ Overflows e.1) (hm : ¬ Moves e.1) (hb : Presses e.1) :
    sent m e = [mouseDown (e.1.packet e.2).btns] := by
  rw [sent_messages m he ho, if_neg hm, if_pos hb]

theorem messages_of_click (m : Mouse) {e : TimedPacket} (ho : ¬ Overflows e.1)
    (hm : ¬ Moves e.1) (hb : ¬ Presses e.1) (ht : e.2 - m.lastdowntick < 30) :
    ∃ t, sent m e = [click t] ∧
      (t = .mouseLeftClick ∨ t = .mouseRightClick ∨ t = .mouseDblclick) := by
  rw [sent_messages m (ne_recoveryPacket_of_not_presses hb) ho, if_neg hm, if_neg hb, if_pos ht]
  split_ifs with hd hl
  · exact ⟨_, rfl, .inr (.inr rfl)⟩
  · exact ⟨_, rfl, .inl rfl⟩
  · exact ⟨_, rfl, .inr (.inl rfl)⟩

theorem messages_of_late_release (m : Mouse) {e : TimedPacket} (ho : ¬ Overflows e.1)
    (hm : ¬ Moves e.1) (hb : ¬ Presses e.1) (ht : ¬ e.2 - m.lastdowntick < 30) :
    sent m e = [genMouseUpMessage (e.1.packet e.2).btns, unassigned] := by
  rw [sent_messages m (ne_recoveryPacket_of_not_presses hb) ho, if_neg hm, if_neg hb, if_neg ht]

def IsClick (msg : LocalMessage) : Prop :=
  msg.msgType = some .mouseLeftClick ∨ msg.msgType = some .mouseRightClick ∨
    msg.msgType = some .mouseDblclick

/-- Every message has a type, and a packet at rest sends a single click or up message. -/
def SendsAssigned (m : Mouse) (a : Arrival) : Prop :=
  (∀ msg ∈ messages m a.timed, msg.msgType ≠ none) ∧
    (¬ Moves a.packet → ¬ Presses a.packet → ∃ msg, messages m a.timed = [msg] ∧
      (IsClick msg ∨ msg.msgType = some .mouseUp))

/-- A packet without motion and buttons comes less than 30 ticks after the last press; motion
forgets the press, and the recovery packet is none. -/
def ReleasesInTime (m : Mouse) (a : Arrival) : Prop :=
  ¬ Moves a.packet → ¬ Presses a.packet → a.tick - m.lastdowntick < 30

instance (m : Mouse) (a : Arrival) : Decidable (ReleasesInTime m a) :=
  inferInstanceAs (Decidable (_ → _ → _))

theorem sendsAssigned_iff {m : Mouse} {a : Arrival} (hcount : m.count = 0)
    (ho : ¬ Overflows a.packet) : SendsAssigned m a ↔ ReleasesInTime m a := by
  rw [SendsAssigned, messages_eq_sent hcount]
  constructor
  · rintro ⟨hassigned, -⟩ hm hb
    by_contra ht
    rw [messages_of_late_release m (e := a.entry) ho hm hb ht] at hassigned
    exact hassigned unassigned (by simp) rfl
  · intro hguard
    by_cases hm : Moves a.packet
    · refine ⟨?_, fun h => absurd hm h⟩
      intro msg hmsg
      rcases messages_of_move m (e := a.entry) ho hm msg hmsg with h | h
      · simp [h]
      · simp [h]
    · by_cases hb : Presses a.packet
      · refine ⟨?_, fun _ h => absurd hb h⟩
        by_cases ha : a.packet = recoveryPacket
        · simp [sent_recoveryPacket m (e := a.entry) ha]
        · rw [messages_of_press m (e := a.entry) ha ho hm hb]
          intro msg hmsg
          rw [List.mem_singleton.mp hmsg]
          simp [mouseDown]
      · obtain ⟨t, hclick, ht⟩ := messages_of_click m (e := a.entry) ho hm hb (hguard hm hb)
        rw [hclick]
        constructor
        · intro msg hmsg
          rw [List.mem_singleton.mp hmsg]
          simp [click]
        · intro _ _
          refine ⟨_, rfl, .inl ?_⟩
          rcases ht with rfl | rfl | rfl
          · exact .inl rfl
          · exact .inr (.inl rfl)
          · exact .inr (.inr rfl)

/-- The three bytes of a packet as a step of the driver; none of them faults. -/
def deliver (m : Mouse) (a : Arrival) : Except Fault Mouse := .ok (final readByte m a.timed)

/-- In a run of packets without overflow every message has a type, and every packet at rest
sends one message, exactly if no packet at rest comes late. -/
theorem messages_assigned_iff (as : List Arrival) (has : ∀ a ∈ as, ¬ Overflows a.packet) :
    Along deliver SendsAssigned (mouseinit boot) as ↔
      Along deliver ReleasesInTime (mouseinit boot) as := by
  have hiff : ∀ (m : Mouse) (a : Arrival), m.count = 0 → ¬ Overflows a.packet →
      (SendsAssigned m a ↔ ReleasesInTime m a) :=
    fun _ _ hcount ho => sendsAssigned_iff hcount ho
  have hstep : ∀ (m : Mouse) (a : Arrival) (n : Mouse), m.count = 0 → ¬ Overflows a.packet →
      ReleasesInTime m a → deliver m a = .ok n → n.count = 0 := by
    intro m a n hcount _ _ hn
    cases hn
    exact (readPacket hcount a).2.1
  exact along_iff hiff hstep rfl (along_of_mem _ has)

/-- The middle button is pressed and released, then the left one is clicked. -/
def middleThenClick : List Arrival :=
  [⟨⟨9, 0, 0, by decide⟩, 90, 90, 90⟩, ⟨recoveryPacket, 99, 100, 100⟩,
    ⟨⟨8, 0, 0, by decide⟩, 110, 110, 110⟩, ⟨⟨9, 0, 0, by decide⟩, 300, 300, 300⟩,
    ⟨⟨8, 0, 0, by decide⟩, 310, 310, 310⟩]

theorem messages_assigned_click :
    Along deliver SendsAssigned (mouseinit boot) middleThenClick :=
  (messages_assigned_iff middleThenClick (by decide)).mpr (by decide +kernel)

/-- A button held for 100 ticks and released without motion. -/
theorem late_release_unassigned :
    ¬ ∀ as : List Arrival, (∀ a ∈ as, ¬ Overflows a.packet) →
      Along deliver SendsAssigned (mouseinit boot) as := by
  intro h
  have hrun := h [⟨⟨9, 0, 0, by decide⟩, 100, 100, 100⟩, ⟨⟨8, 0, 0, by decide⟩, 200, 200, 200⟩]
    (by decide)
  obtain ⟨hassigned, -⟩ := (hrun.2 _ rfl).1
  exact hassigned unassigned (by decide +kernel) rfl

def IsDown (msg : LocalMessage) : Prop := msg.msgType = some .mouseDown

instance (msg : LocalMessage) : Decidable (IsDown msg) :=
  inferInstanceAs (Decidable (msg.msgType = some .mouseDown))

/-- The packets from one press up to the release: no button before them, some button in each
of them, no button after them. -/
structure HeldBetween (as before held : List Arrival) : Prop where
  split : ∃ release after, as = before ++ held ++ release :: after ∧ ¬ Presses release.packet
  pressed : held ≠ []
  holds : ∀ a ∈ held, Presses a.packet
  released : ∀ a ∈ before.getLast?, ¬ Presses a.packet

/-- A down message is sent while the bytes of these packets are read. -/
def ReportsDown (m : Mouse) (held : List Arrival) : Prop :=
  ∃ msg ∈ messages m (held.flatMap Arrival.timed), IsDown msg

/-- Each press is reported by a down message before its release. -/
def PressesReported (as : List Arrival) : Prop :=
  ∀ before held, HeldBetween as before held →
    ReportsDown (final readByte (mouseinit boot) (before.flatMap Arrival.timed)) held

/-- The packet reports no motion and is not the one that is dropped. -/
def Rests (p : MousePacket) : Prop := ¬ Moves p ∧ p ≠ recoveryPacket

instance (p : MousePacket) : Decidable (Rests p) := inferInstanceAs (Decidable (_ ∧ _))

/-- From each press to its release some packet rests. -/
def PressesRest (as : List Arrival) : Prop :=
  ∀ before held, HeldBetween as before held → ∃ a ∈ held, Rests a.packet

/-- Whether a packet sends a down message does not depend on earlier packets. -/
theorem sends_down_iff (m : Mouse) {e : TimedPacket} (ho : ¬ Overflows e.1)
    (hb : Presses e.1) : (∃ msg ∈ sent m e, IsDown msg) ↔ Rests e.1 := by
  constructor
  · rintro ⟨msg, hmsg, hdown⟩
    constructor
    · intro hm
      rw [IsDown] at hdown
      rcases messages_of_move m ho hm msg hmsg with h | h
      · rw [h] at hdown
        cases hdown
      · rw [h] at hdown
        cases hdown
    · intro he
      rw [sent_recoveryPacket m he] at hmsg
      cases hmsg
  · rintro ⟨hm, he⟩
    rw [messages_of_press m he ho hm hb]
    exact ⟨_, List.mem_singleton_self _, rfl⟩

theorem reportsDown_iff {m : Mouse} (hcount : m.count = 0) {held : List Arrival}
    (ho : ∀ a ∈ held, ¬ Overflows a.packet) (hb : ∀ a ∈ held, Presses a.packet) :
    ReportsDown m held ↔ ∃ a ∈ held, Rests a.packet := by
  induction held generalizing m with
  | nil => simp [ReportsDown, messages, outputs]
  | cons a held ih =>
    obtain ⟨hoa, hos⟩ := List.forall_mem_cons.mp ho
    obtain ⟨hba, hbs⟩ := List.forall_mem_cons.mp hb
    have hrest := ih (readPacket hcount a).2.1 hos hbs
    have hfirst := sends_down_iff m (e := a.entry) hoa hba
    rw [ReportsDown, List.flatMap_cons, messages_append, messages_eq_sent hcount,
      List.exists_mem_cons_iff, ← hrest]
    simp only [List.mem_append, or_and_right, exists_or]
    exact or_congr hfirst Iff.rfl

/-- Every press is reported before its release exactly if the pointer rests in some packet
between them that is not dropped. -/
theorem presses_reported_iff (as : List Arrival) (has : ∀ a ∈ as, ¬ Overflows a.packet) :
    PressesReported as ↔ PressesRest as := by
  apply forall_congr'
  intro before
  apply forall_congr'
  intro held
  apply forall_congr'
  rintro ⟨⟨release, after, rfl, -⟩, -, hholds, -⟩
  have hover : ∀ a ∈ held, ¬ Overflows a.packet := by
    intro a ha
    apply has
    simp [ha]
  have hcount : (mouseinit boot).count = 0 := rfl
  exact reportsDown_iff (run_packets hcount ⟨rfl, rfl, rfl⟩ before).2 hover hholds

/-- Two clicks with a motion between them. -/
def twoClicks : List Arrival :=
  [⟨⟨9, 0, 0, by decide⟩, 5, 5, 5⟩, ⟨⟨8, 0, 0, by decide⟩, 6, 6, 6⟩,
    ⟨⟨8, 1, 0, by decide⟩, 7, 7, 7⟩, ⟨⟨10, 0, 0, by decide⟩, 8, 8, 9⟩,
    ⟨⟨8, 0, 0, by decide⟩, 9, 9, 9⟩]

theorem presses_reported_at_rest : PressesReported twoClicks := by
  refine (presses_reported_iff twoClicks (by decide)).mpr ?_
  rintro before held ⟨⟨release, after, hsplit, -⟩, hne, hholds, -⟩
  obtain ⟨a, ha⟩ := List.exists_mem_of_ne_nil held hne
  have hrests : ∀ b ∈ twoClicks, Presses b.packet → Rests b.packet := by decide
  refine ⟨a, ha, hrests a ?_ (hholds a ha)⟩
  rw [hsplit]
  simp [ha]

/-- A press that comes with motion and is released at once. -/
theorem moving_press_unreported :
    ¬ ∀ as : List Arrival, (∀ a ∈ as, ¬ Overflows a.packet) → PressesReported as := by
  intro h
  have hreported := h [⟨⟨9, 1, 0, by decide⟩, 5, 5, 5⟩, ⟨⟨8, 0, 0, by decide⟩, 6, 6, 6⟩]
    (by decide)
  have hdown := hreported [] [⟨⟨9, 1, 0, by decide⟩, 5, 5, 5⟩]
    ⟨⟨_, [], rfl, by decide⟩, by simp, by simp; decide, by simp⟩
  revert hdown
  rw [ReportsDown]
  decide +kernel

end MouseMessages
