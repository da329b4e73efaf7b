import Xv6Gui.WindowManager
import Xv6Gui.RingQueue
import Xv6Gui.TransducerRuns

/-!
# The message buffer is a queue

`front`, `rear` and `cnt` of a `msg_buf` are redundant. While each call runs alone they agree
and the buffer answers every sequence of calls like a bounded queue. Beside that, this module
says what a number of `dispatchMessage` calls adds to a buffer, whatever its count.
-/
namespace MessageQueues

open WindowManagerState WindowManager RingQueue TransducerRuns

/-- The queued messages, oldest first. -/
def contents (b : MsgBuf) : List Message := segment b.data b.front.val b.cnt.toNat

structure RingOk (b : MsgBuf) : Prop where
  nonneg : 0 ≤ b.cnt
  le : b.cnt ≤ msgBufSize
  rear : (b.rear.val : ℤ) = (b.front.val + b.cnt) % msgBufSize

inductive Op where
  | initMessageQueue
  | dispatchMessage (msg : Message)
  | getMessage

/-- The value a call returns and the message it stores through `result`. -/
structure Reply where
  ret : ℤ
  result : Option Message
  deriving DecidableEq

def bufStep (b : MsgBuf) : Op → Reply × MsgBuf
  | .initMessageQueue => (⟨0, none⟩, initMessageQueue b)
  | .dispatchMessage msg => (⟨(dispatchMessage b msg).1, none⟩, (dispatchMessage b msg).2)
  | .getMessage =>
    let (result, b) := getMessage b
    (⟨if result = none then 1 else 0, result⟩, b)

/-- The queue that the buffer stands for. -/
def fifoStep (q : List Message) : Op → Reply × List Message
  | .initMessageQueue => (⟨0, none⟩, [])
  | .dispatchMessage msg =>
    if q.length < msgBufSize then (⟨0, none⟩, q ++ [msg]) else (⟨1, none⟩, q)
  | .getMessage =>
    match q with
    | [] => (⟨1, none⟩, [])
    | m :: q => (⟨0, some m⟩, q)

/-- The messages accepted and returned since the last initialisation. -/
structure Ledger where
  accepted : List Message
  returned : List Message

def record (l : Ledger) : Op × Reply → Ledger
  | (.initMessageQueue, _) => ⟨[], []⟩
  | (.dispatchMessage msg, r) => if r.ret = 0 then { l with accepted := l.accepted ++ [msg] } else l
  | (.getMessage, r) => { l with returned := l.returned ++ r.result.toList }

def ledger (l : Ledger) (ops : List Op) (replies : List Reply) : Ledger :=
  (ops.zip replies).foldl record l

/-- What makes a buffer that has just been initialised a queue for the calls `ops`. -/
structure IsFifo (b : MsgBuf) (ops : List Op) : Prop where
  replies : outputs bufStep b ops = outputs fifoStep [] ops
  ring : RingOk (final bufStep b ops)
  order : (ledger ⟨[], []⟩ ops (outputs bufStep b ops)).accepted =
    (ledger ⟨[], []⟩ ops (outputs bufStep b ops)).returned ++ contents (final bufStep b ops)
  refused : ∀ op, (bufStep (final bufStep b ops) op).1.ret = 1 →
    (bufStep (final bufStep b ops) op).2 = final bufStep b ops

variable {b : MsgBuf} {m : Message} {q : List Message}

theorem advance_val (i : Fin msgBufSize) : (advance i).val = (i.val + 1) % msgBufSize := by
  have := i.isLt
  simp only [advance]
  split
  · next h => rw [show i.val + 1 = msgBufSize by omega, Nat.mod_self]; rfl
  · next h => exact (Nat.mod_eq_of_lt (by omega)).symm

theorem dispatchMessage_full (h : (msgBufSize : ℤ) ≤ b.cnt) : dispatchMessage b m = (1, b) :=
  if_pos h

theorem dispatchMessage_room (h : b.cnt < msgBufSize) :
    dispatchMessage b m = (0, { b with
      cnt := b.cnt + 1, data := Function.update b.data b.rear m, rear := advance b.rear }) :=
  if_neg (not_le.mpr h)

theorem getMessage_empty (h : b.cnt = 0) : getMessage b = (none, b) := if_pos h

theorem getMessage_some (h : b.cnt ≠ 0) :
    getMessage b =
      (some (b.data b.front), { b with cnt := b.cnt - 1, front := advance b.front }) := if_neg h

@[simp] theorem length_contents (b : MsgBuf) : (contents b).length = b.cnt.toNat :=
  length_segment _ _ _

theorem init_ringOk (b : MsgBuf) : RingOk (initMessageQueue b) :=
  ⟨Int.le_refl 0, Int.natCast_nonneg msgBufSize, rfl⟩

@[simp] theorem contents_init (b : MsgBuf) : contents (initMessageQueue b) = [] := rfl

theorem RingOk.rear_cell (h : RingOk b) :
    b.rear = cell msgBufSize (b.front.val + b.cnt.toNat) := by
  have hn := h.nonneg
  have hr : (b.rear.val : ℤ) = (b.front.val + b.cnt) % 50 := h.rear
  apply Fin.ext
  change b.rear.val = (b.front.val + b.cnt.toNat) % 50
  omega

theorem RingOk.dispatch (h : RingOk b) (hc : b.cnt < msgBufSize) :
    RingOk (dispatchMessage b m).2 ∧ contents (dispatchMessage b m).2 = contents b ++ [m] := by
  have hn := h.nonneg
  have hr : (b.rear.val : ℤ) = (b.front.val + b.cnt) % 50 := h.rear
  have ha : (advance b.rear).val = (b.rear.val + 1) % 50 := advance_val b.rear
  rw [dispatchMessage_room hc]
  constructor
  · refine ⟨by dsimp only; omega, by dsimp only; omega, ?_⟩
    change ((advance b.rear).val : ℤ) = (b.front.val + (b.cnt + 1)) % 50
    omega
  · have hcnt : (b.cnt + 1).toNat = b.cnt.toNat + 1 := by omega
    simp only [contents, h.rear_cell, hcnt]
    exact segment_push (by omega) m

theorem RingOk.take (h : RingOk b) (hc : b.cnt ≠ 0) :
    RingOk (getMessage b).2 ∧ contents b = b.data b.front :: contents (getMessage b).2 := by
  have hn := h.nonneg
  have hl := h.le
  have hr : (b.rear.val : ℤ) = (b.front.val + b.cnt) % 50 := h.rear
  have ha : (advance b.front).val = (b.front.val + 1) % 50 := advance_val b.front
  rw [getMessage_some hc]
  constructor
  · refine ⟨by dsimp only; omega, by dsimp only; omega, ?_⟩
    change (b.rear.val : ℤ) = ((advance b.front).val + (b.cnt - 1)) % 50
    omega
  · obtain ⟨k, hk⟩ : ∃ k : ℕ, b.cnt = k + 1 := ⟨(b.cnt - 1).toNat, by omega⟩
    have hcnt : b.cnt.toNat = k + 1 := by omega
    have hrest : (b.cnt - 1).toNat = k := by omega
    simp only [contents, hcnt, hrest]
    rw [segment_cons, cell_fin]
    congr 1
    refine segment_mod _ ?_ k
    change (b.front.val + 1) % 50 = (advance b.front).val % 50
    omega

/-- One call answers as the queue does and leaves the buffer's contents the queue's. -/
theorem step_refines (h : RingOk b) (op : Op) :
    (bufStep b op).1 = (fifoStep (contents b) op).1 ∧
      RingOk (bufStep b op).2 ∧ contents (bufStep b op).2 = (fifoStep (contents b) op).2 := by
  have hn := h.nonneg
  cases op with
  | initMessageQueue => exact ⟨rfl, init_ringOk b, rfl⟩
  | dispatchMessage m =>
    by_cases hc : b.cnt < msgBufSize
    · have hlen : (contents b).length < msgBufSize := by rw [length_contents]; omega
      obtain ⟨hring, hcont⟩ := h.dispatch (m := m) hc
      simp only [bufStep, fifoStep, if_pos hlen]
      exact ⟨by rw [dispatchMessage_room hc], hring, hcont⟩
    · have hlen : ¬(contents b).length < msgBufSize := by rw [length_contents]; omega
      simp only [bufStep, fifoStep, if_neg hlen, dispatchMessage_full (not_lt.mp hc)]
      exact ⟨trivial, h, trivial⟩
  | getMessage =>
    by_cases hc : b.cnt = 0
    · have hnil : contents b = [] := by simp [contents, hc]
      simp only [bufStep, getMessage_empty hc, hnil, fifoStep]
      exact ⟨rfl, h, trivial⟩
    · obtain ⟨hring, hcont⟩ := h.take hc
      simp only [hcont, bufStep, fifoStep]
      rw [getMessage_some hc] at hring ⊢
      exact ⟨by simp, hring, by simp⟩

theorem step_refused {op : Op} (h : (bufStep b op).1.ret = 1) : (bufStep b op).2 = b := by
  cases op with
  | initMessageQueue => cases h
  | dispatchMessage m =>
    by_cases hc : b.cnt < msgBufSize
    · simp [bufStep, dispatchMessage_room hc] at h
    · simp [bufStep, dispatchMessage_full (not_lt.mp hc)]
  | getMessage =>
    by_cases hc : b.cnt = 0
    · simp [bufStep, getMessage_empty hc]
    · simp [bufStep, getMessage_some hc] at h

/-- What has been accepted is what has been returned, followed by what is queued. -/
theorem ledger_fifo {l : Ledger} (h : l.accepted = l.returned ++ q) (ops : List Op) :
    (ledger l ops (outputs fifoStep q ops)).accepted =
      (ledger l ops (outputs fifoStep q ops)).returned ++ final fifoStep q ops := by
  induction ops generalizing l q with
  | nil => exact h
  | cons op ops ih =>
    change (ledger (record l (op, (fifoStep q op).1)) ops _).accepted = _
    refine ih ?_
    cases op with
    | initMessageQueue => rfl
    | dispatchMessage m =>
      by_cases hc : q.length < msgBufSize
      · simp [record, fifoStep, hc, h]
      · simp [record, fifoStep, hc, h]
    | getMessage =>
      cases q with
      | nil => simp [record, fifoStep, h]
      | cons m q => simp [record, fifoStep, h]

/-- A buffer answers any sequence of calls after its initialisation like a bounded queue. -/
theorem message_buffer_is_fifo (b : MsgBuf) (ops : List Op) : IsFifo (initMessageQueue b) ops := by
  have hstep : ∀ b q op, RingOk b ∧ contents b = q → (bufStep b op).1 = (fifoStep q op).1 ∧
      RingOk (bufStep b op).2 ∧ contents (bufStep b op).2 = (fifoStep q op).2 := by
    rintro b q op ⟨hb, rfl⟩
    exact step_refines hb op
  obtain ⟨hreplies, hring, hcontents⟩ := simulation (R := fun b q => RingOk b ∧ contents b = q)
    hstep ⟨init_ringOk b, contents_init b⟩ ops
  refine ⟨hreplies, hring, ?_, fun op => step_refused⟩
  rw [hcontents, hreplies]
  exact ledger_fifo rfl ops

/-- The buffer after `dispatchMessage` of each message in turn. -/
def post (b : MsgBuf) (ms : List Message) : MsgBuf :=
  ms.foldl (fun b m => (dispatchMessage b m).2) b

/-- The messages that lie behind the old rear, as many as the count has grown by. -/
def arrivals (b b' : MsgBuf) : List Message := segment b'.data b.rear.val (b'.cnt - b.cnt).toNat

@[simp] theorem post_nil (b : MsgBuf) : post b [] = b := rfl

theorem post_append (b : MsgBuf) (ms ms' : List Message) :
    post b (ms ++ ms') = post (post b ms) ms' :=
  List.foldl_append

theorem post_concat (b : MsgBuf) (ms : List Message) (m : Message) :
    post b (ms ++ [m]) = (dispatchMessage (post b ms) m).2 := post_append b ms [m]

/-- The count and the rear after a number of calls, of which `k` found room. -/
structure Advanced (b b' : MsgBuf) (k : ℕ) : Prop where
  cnt : b'.cnt = b.cnt + k
  rear : b'.rear = cell msgBufSize (b.rear.val + k)

theorem Advanced.arrivals {b b' : MsgBuf} {k : ℕ} (h : Advanced b b' k) :
    arrivals b b' = segment b'.data b.rear.val k := by
  have hk : (b'.cnt - b.cnt).toNat = k := by
    have := h.cnt
    omega
  rw [MessageQueues.arrivals, hk]

theorem Advanced.dispatch {b b' : MsgBuf} {k : ℕ} (h : Advanced b b' k)
    (hc : b'.cnt < msgBufSize) (m : Message) : Advanced b (dispatchMessage b' m).2 (k + 1) := by
  rw [dispatchMessage_room hc]
  constructor
  · have := h.cnt
    push_cast
    omega
  · have hr := congrArg Fin.val h.rear
    apply Fin.ext
    change (advance b'.rear).val = (b.rear.val + (k + 1)) % msgBufSize
    rw [advance_val, hr, cell_val, Nat.mod_add_mod, Nat.add_assoc]

theorem arrivals_self (b : MsgBuf) : arrivals b b = [] := by
  simp [arrivals]

/-- What arrives has been posted, even where the count has left its range. -/
theorem post_advances (ms : List Message) :
    ∃ k, Advanced b (post b ms) k ∧ ∀ x ∈ arrivals b (post b ms), x ∈ ms := by
  induction ms using List.reverseRecOn with
  | nil =>
    refine ⟨0, ⟨(Int.add_zero _).symm, (cell_fin b.rear).symm⟩, ?_⟩
    simp [arrivals_self]
  | append_singleton ms m ih =>
    obtain ⟨k, hk, hmem⟩ := ih
    rw [post_concat]
    by_cases hc : (post b ms).cnt < msgBufSize
    · have hnext := hk.dispatch hc m
      refine ⟨k + 1, hnext, ?_⟩
      rw [hnext.arrivals, dispatchMessage_room hc]
      rw [hk.arrivals] at hmem
      intro x hx
      obtain ⟨i, hi, rfl⟩ := List.mem_map.mp hx
      obtain ⟨j, hj, rfl⟩ := List.mem_range'.mp hi
      dsimp only
      by_cases hcell : cell msgBufSize (b.rear.val + 1 * j) = (post b ms).rear
      · rw [hcell, Function.update_self]
        simp
      · rw [Function.update_of_ne hcell]
        have hlt : j ≠ k := by
          rintro rfl
          exact hcell (by rw [hk.rear, Nat.one_mul])
        refine List.mem_append_left _ (hmem _ (List.mem_map.mpr ⟨_, ?_, rfl⟩))
        exact List.mem_range'.mpr ⟨j, by omega, rfl⟩
    · rw [dispatchMessage_full (not_lt.mp hc)]
      exact ⟨k, hk, fun x hx => List.mem_append_left _ (hmem x hx)⟩

theorem mem_of_mem_arrivals {ms : List Message} {x : Message} (h : x ∈ arrivals b (post b ms)) :
    x ∈ ms := by
  obtain ⟨_, _, hmem⟩ := post_advances (b := b) ms
  exact hmem x h

theorem post_advanced (ms : List Message) (hms : ms.length ≤ msgBufSize) :
    Advanced b (post b ms) (min ms.length (msgBufSize - b.cnt).toNat) ∧
      arrivals b (post b ms) = ms.take (msgBufSize - b.cnt).toNat := by
  induction ms using List.reverseRecOn with
  | nil =>
    rw [List.length_nil, Nat.zero_min]
    exact ⟨⟨(Int.add_zero _).symm, (cell_fin b.rear).symm⟩, by simp [arrivals_self]⟩
  | append_singleton ms m ih =>
    rw [List.length_append, List.length_singleton] at hms ⊢
    obtain ⟨hk, harrived⟩ := ih (by omega)
    have hcnt := hk.cnt
    rw [post_concat]
    by_cases hc : (post b ms).cnt < msgBufSize
    · have hmin : min ms.length (msgBufSize - b.cnt).toNat = ms.length := by omega
      have hmin' : min (ms.length + 1) (msgBufSize - b.cnt).toNat = ms.length + 1 := by omega
      rw [hmin] at hk
      have hnext := hk.dispatch hc m
      have hroom : ms.length + 1 ≤ (msgBufSize - b.cnt).toNat := by omega
      rw [hmin', List.take_of_length_le ((List.length_append).trans_le hroom)]
      refine ⟨hnext, ?_⟩
      rw [hk.arrivals, List.take_of_length_le (Nat.le_of_succ_le hroom)] at harrived
      rw [hnext.arrivals, dispatchMessage_room hc]
      dsimp only
      rw [hk.rear, segment_push (by omega), harrived]
    · have hle : (msgBufSize - b.cnt).toNat ≤ ms.length := by omega
      have hmin : min (ms.length + 1) (msgBufSize - b.cnt).toNat =
          min ms.length (msgBufSize - b.cnt).toNat := by omega
      rw [dispatchMessage_full (not_lt.mp hc), hmin, List.take_append_of_le_length hle]
      exact ⟨hk, harrived⟩

/-- The messages that arrive are those that find room, in order. -/
theorem arrivals_post (ms : List Message) (hms : ms.length ≤ msgBufSize) :
    arrivals b (post b ms) = ms.take (msgBufSize - b.cnt).toNat := (post_advanced ms hms).2

theorem arrivals_of_room {ms : List Message} (hms : ms.length ≤ msgBufSize)
    (hroom : b.cnt + ms.length ≤ msgBufSize) : arrivals b (post b ms) = ms := by
  rw [arrivals_post ms hms]
  apply List.take_of_length_le
  omega

theorem arrivals_of_full {ms : List Message} (hms : ms.length ≤ msgBufSize)
    (hfull : (msgBufSize : ℤ) ≤ b.cnt) : arrivals b (post b ms) = [] := by
  rw [arrivals_post ms hms, Int.toNat_of_nonpos (by omega), List.take_zero]

/-- Messages that come after a full buffer do not arrive. -/
theorem arrivals_without_room {ms ms' : List Message} (hms : (ms ++ ms').length ≤ msgBufSize)
    (hroom : (msgBufSize : ℤ) ≤ b.cnt + ms.length) :
    ∀ x ∈ arrivals b (post b (ms ++ ms')), x ∈ ms := by
  intro x hx
  rw [arrivals_post _ hms, List.take_append_of_le_length (by omega)] at hx
  exact List.mem_of_mem_take hx

end MessageQueues
