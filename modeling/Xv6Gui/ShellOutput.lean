import Xv6Gui.InputFields
import Xv6Gui.Pipes

/-!
# What the shell reads from a command

The loop of inputHandler in shell.c that collects the output of a command. Each read goes to the
end of the string read so far, and each one may fill as many bytes as the whole array has.
-/
namespace ShellOutput

open WindowManagerState GuardedRuns InputFields Pipes

/-- READBUFFERSIZE, the length of `read_buf` too. -/
abbrev readBufferSize : ℕ := 1000

/-- `memset(read_buf, 0, READBUFFERSIZE)` -/
def cleared : TextArray := ⟨List.replicate readBufferSize 0, List.length_replicate⟩

/-- The kernel copies what was read to `read_buf + i`. -/
def receive (t : TextArray) (i : ℕ) (chunk : List UInt8) : Except Fault TextArray :=
  if h : i + chunk.length ≤ readBufferSize then
    .ok ⟨t.bytes.take i ++ (chunk ++ t.bytes.drop (i + chunk.length)), by
      have hlen := t.length_bytes
      have hsize : readBufferSize = maxLongStrlen := rfl
      simp only [List.length_append, List.length_take, List.length_drop]
      omega⟩
  else .error (.outOfBounds readBufferSize)

/-- The loop, over what its reads return; the read after the last one returns 0. -/
def readLoop (lastLen : ℕ) (t : TextArray) : List (List UInt8) → Except Fault TextArray
  | [] => .ok t
  | chunk :: chunks =>
    receive t lastLen chunk >>= fun t =>
      t.string 0 >>= fun str =>
        if lastLen = str.length then .ok t else readLoop str.length t chunks

def readOutput (chunks : List (List UInt8)) : Except Fault TextArray := readLoop 0 cleared chunks

/-- Bytes that one read of the loop can return. -/
def Chunk (bytes : List UInt8) : Prop :=
  bytes ≠ [] ∧ ∃ p : Pipe, p.fill ≤ pipeSize ∧ (piperead false readBufferSize p).bytes = bytes

structure Splits (output : List UInt8) (chunks : List (List UInt8)) : Prop where
  joined : chunks.flatten = output
  read : ∀ chunk ∈ chunks, Chunk chunk

/-- The array holds the text and zeros behind it. -/
structure Collected (t : TextArray) (text : List UInt8) : Prop where
  nonzero : 0 ∉ text
  short : text.length < readBufferSize
  bytes : t.bytes = text ++ List.replicate (readBufferSize - text.length) 0

variable {t : TextArray} {text chunk : List UInt8} {chunks : List (List UInt8)}

theorem cleared_collected : Collected cleared [] :=
  ⟨List.not_mem_nil, by decide, rfl⟩

theorem Collected.holds (h : Collected t text) : Holds t text := by
  refine ⟨h.nonzero, List.replicate (readBufferSize - text.length - 1) 0, ?_⟩
  have hpos : readBufferSize - text.length = readBufferSize - text.length - 1 + 1 := by
    have := h.short
    omega
  rw [h.bytes]
  conv_lhs => rw [hpos, List.replicate_succ]

theorem Collected.receive (h : Collected t text) (h0 : 0 ∉ chunk)
    (hfit : text.length + chunk.length < readBufferSize) :
    ∃ t', receive t text.length chunk = .ok t' ∧ Collected t' (text ++ chunk) := by
  rw [ShellOutput.receive, dif_pos (Nat.le_of_lt hfit)]
  refine ⟨_, rfl, ?_, ?_, ?_⟩
  · rw [List.mem_append, not_or]
    exact ⟨h.nonzero, h0⟩
  · rwa [List.length_append]
  · simp only [h.bytes, List.take_left, List.length_append, List.drop_append, List.drop_replicate]
    rw [List.drop_eq_nil_of_le (Nat.le_add_right _ _), List.nil_append, List.append_assoc,
      Nat.add_sub_cancel_left, Nat.sub_sub]

theorem Collected.overflows (h : Collected t text) (h0 : 0 ∉ chunk)
    (hfull : readBufferSize ≤ text.length + chunk.length) (chunks : List (List UInt8)) :
    ∃ i, readLoop text.length t (chunk :: chunks) = .error (.outOfBounds i) := by
  rw [readLoop, ShellOutput.receive]
  by_cases hfit : text.length + chunk.length ≤ readBufferSize
  case pos =>
    -- the last byte of the array is used, and the string has no end
    have hend : List.drop (text.length + chunk.length) t.bytes = [] :=
      List.drop_eq_nil_of_le (t.length_bytes.le.trans hfull)
    have hnone : 0 ∉ text ++ (chunk ++ []) := by
      rw [List.append_nil, List.mem_append, not_or]
      exact ⟨h.nonzero, h0⟩
    have htake : List.take text.length t.bytes = text := by
      rw [h.bytes, List.take_left]
    simp only [dif_pos hfit, ok_bind, TextArray.string, hend, htake, Int.toNat_zero, List.drop_zero]
    rw [if_neg (by decide), if_neg hnone]
    exact ⟨_, rfl⟩
  case neg =>
    rw [dif_neg hfit]
    exact ⟨_, rfl⟩

theorem readLoop_cons (h : Collected t text) (h0 : 0 ∉ chunk) (hne : chunk ≠ [])
    (hfit : text.length + chunk.length < readBufferSize) (chunks : List (List UInt8)) :
    ∃ t', readLoop text.length t (chunk :: chunks) =
      readLoop (text ++ chunk).length t' chunks ∧ Collected t' (text ++ chunk) := by
  obtain ⟨t', hrec, hcol⟩ := h.receive h0 hfit
  have hlonger : text.length ≠ (text ++ chunk).length := by
    have := List.length_pos_of_ne_nil hne
    rw [List.length_append]
    omega
  refine ⟨t', ?_, hcol⟩
  rw [readLoop, hrec, ok_bind, hcol.holds.string_zero, ok_bind, if_neg hlonger]

/-- While the text leaves a byte for its terminator, every read extends it. -/
theorem readLoop_collects (h : Collected t text) (h0 : 0 ∉ chunks.flatten)
    (hne : ∀ c ∈ chunks, c ≠ []) (hfit : (text ++ chunks.flatten).length < readBufferSize) :
    ∃ t', readLoop text.length t chunks = .ok t' ∧ Collected t' (text ++ chunks.flatten) := by
  induction chunks generalizing t text with
  | nil =>
    refine ⟨t, rfl, ?_⟩
    rwa [List.flatten_nil, List.append_nil]
  | cons chunk chunks ih =>
    rw [List.flatten_cons, List.mem_append, not_or] at h0
    rw [List.flatten_cons, ← List.append_assoc] at hfit ⊢
    have hroom : text.length + chunk.length < readBufferSize := by
      simp only [List.length_append] at hfit
      omega
    obtain ⟨t', hstep, hcol⟩ :=
      readLoop_cons h h0.1 (hne chunk List.mem_cons_self) hroom chunks
    rw [hstep]
    exact ih hcol h0.2 (fun c hc => hne c (List.mem_cons_of_mem chunk hc)) hfit

theorem readLoop_overflows (h : Collected t text) (h0 : 0 ∉ chunks.flatten)
    (hne : ∀ c ∈ chunks, c ≠ []) (hlong : readBufferSize ≤ (text ++ chunks.flatten).length) :
    ∃ i, readLoop text.length t chunks = .error (.outOfBounds i) := by
  induction chunks generalizing t text with
  | nil =>
    rw [List.flatten_nil, List.append_nil] at hlong
    exact absurd h.short (Nat.not_lt.mpr hlong)
  | cons chunk chunks ih =>
    rw [List.flatten_cons, List.mem_append, not_or] at h0
    by_cases hroom : text.length + chunk.length < readBufferSize
    case pos =>
      obtain ⟨t', hstep, hcol⟩ :=
        readLoop_cons h h0.1 (hne chunk List.mem_cons_self) hroom chunks
      rw [List.flatten_cons, ← List.append_assoc] at hlong
      rw [hstep]
      exact ih hcol h0.2 (fun c hc => hne c (List.mem_cons_of_mem chunk hc)) hlong
    case neg => exact h.overflows h0.1 (Nat.le_of_not_lt hroom) chunks

theorem output_collected_iff (output : List UInt8) (h0 : 0 ∉ output) (chunks : List (List UInt8))
    (hsplit : Splits output chunks) :
    (∃ t, readOutput chunks = .ok t ∧ Holds t (output.take (readBufferSize - 1))) ↔
      output.length < readBufferSize := by
  obtain ⟨rfl, hread⟩ := hsplit
  have hne : ∀ c ∈ chunks, c ≠ [] := fun c hc => (hread c hc).1
  constructor
  case mp =>
    rintro ⟨t, hrun, -⟩
    by_contra hlong
    obtain ⟨i, hi⟩ := readLoop_overflows cleared_collected h0 hne (Nat.le_of_not_lt hlong)
    rw [List.length_nil] at hi
    rw [readOutput, hi] at hrun
    cases hrun
  case mpr =>
    intro hshort
    obtain ⟨t, hrun, hcol⟩ := readLoop_collects cleared_collected h0 hne hshort
    refine ⟨t, hrun, ?_⟩
    rw [List.take_of_length_le (Nat.le_sub_one_of_lt hshort)]
    exact hcol.holds

/-- A pipe that holds a single byte. -/
def pipeOf (c : UInt8) : Pipe := ⟨fun _ => c, 0, 1, true, true⟩

theorem fill_pipeOf (c : UInt8) : (pipeOf c).fill = 1 := by
  simp only [Pipe.fill, pipeOf]
  decide

theorem chunk_singleton (c : UInt8) : Chunk [c] :=
  ⟨List.cons_ne_nil _ _, pipeOf c, (fill_pipeOf c).trans_le (by decide), rfl⟩

theorem splits_replicate (n : ℕ) (c : UInt8) :
    Splits (List.replicate n c) (List.replicate n [c]) := by
  constructor
  case joined =>
    induction n with
    | zero => rfl
    | succ n ih => rw [List.replicate_succ, List.flatten_cons, ih, List.replicate_succ]; rfl
  case read =>
    intro chunk h
    rw [List.eq_of_mem_replicate h]
    exact chunk_singleton c

theorem output_collected_two_bytes :
    ∃ t, readOutput [[104], [105]] = .ok t ∧ Holds t [104, 105] := by
  have hsplit : Splits [104, 105] [[104], [105]] := by
    refine ⟨rfl, ?_⟩
    intro chunk h
    rcases List.mem_cons.mp h with rfl | h
    · exact chunk_singleton 104
    · rw [List.mem_singleton.mp h]
      exact chunk_singleton 105
  exact (output_collected_iff [104, 105] (by decide) _ hsplit).mpr (by decide)

/-- A thousand bytes leave no room for the terminator. -/
theorem output_overflows : ¬∀ output : List UInt8, 0 ∉ output → ∀ chunks, Splits output chunks →
    ∃ t, readOutput chunks = .ok t ∧ Holds t (output.take (readBufferSize - 1)) := by
  intro h
  have hsplit := splits_replicate readBufferSize 97
  have h0 : (0 : UInt8) ∉ List.replicate readBufferSize 97 := fun hm =>
    absurd (List.eq_of_mem_replicate hm) (by decide)
  obtain ⟨t, hrun, -⟩ := h _ h0 _ hsplit
  have hlong : readBufferSize ≤
      ([] ++ (List.replicate readBufferSize [(97 : UInt8)]).flatten).length := by
    rw [List.nil_append, hsplit.joined, List.length_replicate]
  have hne : ∀ c ∈ List.replicate readBufferSize [(97 : UInt8)], c ≠ [] :=
    fun c hc => (hsplit.read c hc).1
  obtain ⟨i, hi⟩ := readLoop_overflows cleared_collected (hsplit.joined ▸ h0) hne hlong
  rw [List.length_nil] at hi
  rw [readOutput, hi] at hrun
  cases hrun

end ShellOutput
