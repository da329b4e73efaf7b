import Xv6Gui.DiskLog
import Mathlib.Data.Finset.Card

/-!
# Group commit

Any number of processes call begin_op, log_write and end_op. One step is a section under
`log.lock`, the tests that log_write makes before it takes the lock, or a step of the commit
that the last end_op runs without the lock. A begin_op that goes to sleep may make its next
pass at any time. Beside the code's state a journal records which operation logged which
block, and for which commit; the code never reads this record.
-/
namespace LogGroupCommit

open DiskLog GuardedRuns

/-- Where a process is: outside of any operation, inside one, in log_write between its tests
and its locked section, or in the commit of a group. -/
inductive ProcPc where
  | outside
  | inOp
  | logging (b : ℤ)
  | committing (pc : CommitPc)
  deriving DecidableEq, Repr

structure LogState (P : Type) where
  store : Store
  outstanding : ℤ
  committing : Bool
  proc : P → ProcPc

variable {P : Type} [DecidableEq P] (area : LogArea)

def LogState.setProc (s : LogState P) (p : P) (pc : ProcPc) : LogState P :=
  { s with proc := Function.update s.proc p pc }

/-- One pass of the loop of `begin_op`; none when it goes to sleep. -/
def beginOp (s : LogState P) (p : P) : Option (LogState P) :=
  if s.committing then none
  else if s.store.lh.n + (s.outstanding + 1) * maxOpBlocks > (logSize : ℤ) then none
  else some { s.setProc p .inOp with outstanding := s.outstanding + 1 }

/-- The section of `end_op` that gives up the reservation. -/
def endOp (s : LogState P) (p : P) : Except Fault (LogState P) :=
  let outstanding := s.outstanding - 1
  if s.committing then .error (.panic "log.committing")
  else if outstanding = 0 then
    .ok { s.setProc p (.committing .enter) with outstanding := outstanding, committing := true }
  else .ok { s.setProc p .outside with outstanding := outstanding }

/-- A step of `commit`, or the last section of `end_op` once it has returned. -/
def commitNext (s : LogState P) (p : P) : CommitPc → Except Fault (LogState P)
  | .returned => .ok { s.setProc p .outside with committing := false }
  | pc => do
    let (pc', store) ← commitStep area s.store pc
    return { s.setProc p (.committing pc') with store := store }

/-- The caller has modified the buffer of block `b`; log_write tests for room. -/
def logWrite (s : LogState P) (p : P) (b : ℤ) (data : Block) : Except Fault (LogState P) :=
  let s := { s with store.cache := Function.update s.store.cache b data }
  if s.store.lh.n ≥ (logSize : ℤ) ∨ s.store.lh.n ≥ area.size - 1 then
    .error (.panic "too big a transaction")
  else if s.outstanding < 1 then .error (.panic "log_write outside of trans")
  else .ok (s.setProc p (.logging b))

/-- Where the search of `log_write` stops: at the first entry of the block or after the last. -/
def position (lh : LogHeader) (b : ℤ) : ℕ := ((lh.slot b).map Fin.val).getD lh.n.toNat

def record (lh : LogHeader) (b : ℤ) : Except Fault LogHeader :=
  let i := position lh b
  if h : i < logSize then
    .ok ⟨if (i : ℤ) = lh.n then lh.n + 1 else lh.n, Function.update lh.block ⟨i, h⟩ b⟩
  else .error (.outOfBounds i)

/-- The locked section of `log_write`. -/
def logRecord (s : LogState P) (p : P) (b : ℤ) : Except Fault (LogState P) := do
  let lh ← record s.store.lh b
  return { s.setProc p .inOp with store.lh := lh }

/-- Operation `op` logged `block` after `commit` commits. -/
structure Entry where
  op : ℕ
  block : ℤ
  commit : ℕ
  deriving DecidableEq, Repr

structure Journal (P : Type) where
  state : LogState P
  op : P → ℕ
  nextOp : ℕ
  commits : ℕ
  entries : List Entry

inductive Event (P : Type) where
  | beginOp (p : P)
  | logWrite (p : P) (b : ℤ) (data : Block)
  | logRecord (p : P)
  | endOp (p : P)
  | commit (p : P)

def ProcPc.logged : ProcPc → Option ℤ
  | .logging b => some b
  | _ => none

def ProcPc.commitPc : ProcPc → Option CommitPc
  | .committing pc => some pc
  | _ => none

/-- A process calls log_write and end_op inside an operation and begin_op outside. -/
def Enabled (s : Journal P) : Event P → Prop
  | .beginOp p => s.state.proc p = .outside
  | .logWrite p _ _ | .endOp p => s.state.proc p = .inOp
  | .logRecord p => (s.state.proc p).logged.isSome
  | .commit p => (s.state.proc p).commitPc.isSome

instance (s : Journal P) : (e : Event P) → Decidable (Enabled s e)
  | .beginOp _ | .logWrite _ _ _ | .logRecord _ | .endOp _ | .commit _ =>
    inferInstanceAs (Decidable (_ = _))

def step (s : Journal P) : Event P → Except Fault (Journal P)
  | .beginOp p =>
    match beginOp s.state p with
    | none => .ok s
    | some state => .ok { s with
        state := state, op := Function.update s.op p s.nextOp, nextOp := s.nextOp + 1 }
  | .logWrite p b data => do
    let state ← logWrite area s.state p b data
    return { s with state := state }
  | .logRecord p =>
    match (s.state.proc p).logged with
    | none => .ok s
    | some b => do
      let state ← logRecord s.state p b
      return { s with state := state, entries := ⟨s.op p, b, s.commits⟩ :: s.entries }
  | .endOp p => do
    let state ← endOp s.state p
    return { s with state := state }
  | .commit p =>
    match (s.state.proc p).commitPc with
    | none => .ok s
    | some pc => do
      let state ← commitNext area s.state p pc
      return { s with
        state := state, commits := if pc = .returned then s.commits + 1 else s.commits }

/-- The log after `initlog`. -/
def start (P : Type) (disk cache : ℤ → Block) (block : Fin logSize → ℤ) : Journal P where
  state := ⟨⟨disk, cache, ⟨0, block⟩⟩, 0, false, fun _ => .outside⟩
  op _ := 0
  nextOp := 0
  commits := 0
  entries := []

def ProcPc.InOp : ProcPc → Prop
  | .inOp | .logging _ => True
  | _ => False

/-- The outstanding operations are the processes inside one. -/
def Counted (s : LogState P) : Prop :=
  ∃ S : Finset P, (∀ p, p ∈ S ↔ (s.proc p).InOp) ∧ s.outstanding = S.card

/-- No commit runs, or one does and everybody else is outside. -/
inductive Mode (s : LogState P) : Prop where
  | admitting : s.committing = false → (∀ p pc, s.proc p ≠ .committing pc) → Mode s
  | committing (p : P) (pc : CommitPc) : s.committing = true → s.outstanding = 0 →
      s.proc p = .committing pc → (∀ q, q ≠ p → s.proc q = .outside) → Mode s

structure HeaderOk (lh : LogHeader) : Prop where
  nonneg : 0 ≤ lh.n
  le : lh.n ≤ logSize
  nodup : lh.blocks.Nodup

/-- The header lists the blocks logged since the last commit. -/
def Listed (s : Journal P) : Prop :=
  ∀ b, b ∈ s.state.store.lh.blocks ↔ ∃ e ∈ s.entries, e.commit = s.commits ∧ e.block = b

structure Invariant (s : Journal P) : Prop where
  counted : Counted s.state
  mode : Mode s.state
  header : HeaderOk s.state.store.lh
  listed : (∀ p, s.state.proc p ≠ .committing .returned) → Listed s
  cleared : ∀ p, s.state.proc p = .committing .returned → s.state.store.lh.n = 0
  commits : ∀ e ∈ s.entries, e.commit ≤ s.commits
  ops : ∀ e ∈ s.entries, e.op < s.nextOp
  own : ∀ p, (s.state.proc p).InOp → s.op p < s.nextOp
  current : ∀ p, (s.state.proc p).InOp → ∀ e ∈ s.entries, e.op = s.op p → e.commit = s.commits
  together : ∀ e ∈ s.entries, ∀ f ∈ s.entries, e.op = f.op → e.commit = f.commit

section Header

variable {lh lh' : LogHeader} {b c : ℤ}

theorem nodup_blocks_iff : lh.blocks.Nodup ↔ ∀ i j : Fin logSize, (i.val : ℤ) < lh.n →
    (j.val : ℤ) < lh.n → lh.block i = lh.block j → i = j := by
  refine ⟨fun h i j hi hj => LogHeader.block_injective h hi hj, ?_⟩
  intro h
  refine ((List.nodup_finRange logSize).filter _).map_on fun i hi j hj he => h i j ?_ ?_ he
  · simpa using hi
  · simpa using hj

theorem position_new (h : b ∉ lh.blocks) : position lh b = lh.n.toNat := by
  rw [position, LogHeader.slot_none.mpr h]
  rfl

theorem record_known (h : b ∈ lh.blocks) : record lh b = .ok lh := by
  cases hs : lh.slot b with
  | none => exact absurd h (LogHeader.slot_none.mp hs)
  | some i =>
    obtain ⟨hi, hb⟩ := LogHeader.slot_some hs
    have hupdate : Function.update lh.block i b = lh.block := by rw [← hb, Function.update_eq_self]
    simp [record, position, hs, hi.ne, hupdate]

theorem record_new (h : b ∉ lh.blocks) (h₀ : 0 ≤ lh.n) (hn : lh.n.toNat < logSize) :
    record lh b = .ok ⟨lh.n + 1, Function.update lh.block ⟨lh.n.toNat, hn⟩ b⟩ := by
  simp only [record, position_new h]
  rw [dif_pos hn, if_pos (Int.toNat_of_nonneg h₀)]

theorem record_full (h : b ∉ lh.blocks) (hn : ¬lh.n.toNat < logSize) :
    record lh b = .error (.outOfBounds lh.n.toNat) := by
  simp only [record, position_new h]
  rw [dif_neg hn]

theorem record_ok (hok : HeaderOk lh) (h : record lh b = .ok lh') :
    HeaderOk lh' ∧ ∀ c, c ∈ lh'.blocks ↔ c = b ∨ c ∈ lh.blocks := by
  by_cases hb : b ∈ lh.blocks
  · rw [record_known hb] at h
    cases h
    exact ⟨hok, fun c => ⟨Or.inr, fun hc => hc.elim (fun he => he ▸ hb) id⟩⟩
  · by_cases hn : lh.n.toNat < logSize
    · have h₀ := hok.nonneg
      rw [record_new hb h₀ hn] at h
      cases h
      have hold : ∀ {i : Fin logSize}, (i.val : ℤ) < lh.n →
          Function.update lh.block ⟨lh.n.toNat, hn⟩ b i = lh.block i := fun {i} hi =>
        Function.update_of_ne (fun he => by subst he; dsimp only at hi; omega) _ _
      have hlast : ∀ {i : Fin logSize}, (i.val : ℤ) < lh.n + 1 → (i.val : ℤ) < lh.n ∨
          i = ⟨lh.n.toNat, hn⟩ := fun {i} hi => by
        rcases lt_or_eq_of_le (Int.lt_add_one_iff.mp hi) with hi | hi
        · exact Or.inl hi
        · exact Or.inr (Fin.ext (by dsimp only; omega))
      have hself : Function.update lh.block ⟨lh.n.toNat, hn⟩ b ⟨lh.n.toNat, hn⟩ = b :=
        Function.update_self _ _ _
      refine ⟨⟨by dsimp only; omega, by dsimp only; omega, nodup_blocks_iff.mpr ?_⟩, ?_⟩
      · intro i j hi hj he
        dsimp only at hi hj he
        rcases hlast hi with hi | rfl <;> rcases hlast hj with hj | rfl
        · rw [hold hi, hold hj] at he
          exact LogHeader.block_injective hok.nodup hi hj he
        · rw [hold hi, hself] at he
          exact absurd (LogHeader.mem_blocks.mpr ⟨i, hi, he⟩) hb
        · rw [hold hj, hself] at he
          exact absurd (LogHeader.mem_blocks.mpr ⟨j, hj, he.symm⟩) hb
        · rfl
      · intro c
        rw [LogHeader.mem_blocks, LogHeader.mem_blocks]
        constructor
        · rintro ⟨i, hi, hc⟩
          rcases hlast hi with hi | rfl
          · exact Or.inr ⟨i, hi, (hold hi).symm.trans hc⟩
          · exact Or.inl (hc.symm.trans hself)
        · rintro (rfl | ⟨i, hi, hc⟩)
          · exact ⟨⟨lh.n.toNat, hn⟩, by dsimp only; omega, hself⟩
          · exact ⟨i, by dsimp only; omega, (hold hi).trans hc⟩
    · rw [record_full hb hn] at h
      cases h

theorem HeaderOk.cleared (h : lh.n = 0) : HeaderOk lh where
  nonneg := h.ge
  le := by omega
  nodup := nodup_blocks_iff.mpr fun i j hi => by omega

theorem not_mem_cleared (h : lh.n = 0) : b ∉ lh.blocks := LogHeader.slot_none.mp (slot_empty h b)

end Header

section Step

variable {area : LogArea} {r r' : LogState P} {s t : Journal P} {e : Event P} {p q : P}

theorem Counted.enter (h : Counted r) (hp : ¬(r.proc p).InOp)
    (hproc : r'.proc = Function.update r.proc p .inOp) (hout : r'.outstanding = r.outstanding + 1) :
    Counted r' := by
  obtain ⟨S, hS, hcard⟩ := h
  refine ⟨insert p S, ?_, ?_⟩
  · intro q
    rw [hproc, Finset.mem_insert, hS]
    by_cases hq : q = p
    · simp [hq, ProcPc.InOp]
    · simp [hq]
  · rw [hout, hcard, Finset.card_insert_of_notMem fun hm => hp ((hS p).mp hm)]
    rfl

theorem Counted.leave (h : Counted r) (hp : (r.proc p).InOp) {pc : ProcPc} (hpc : ¬pc.InOp)
    (hproc : r'.proc = Function.update r.proc p pc) (hout : r'.outstanding = r.outstanding - 1) :
    Counted r' := by
  obtain ⟨S, hS, hcard⟩ := h
  have hmem : p ∈ S := (hS p).mpr hp
  refine ⟨S.erase p, ?_, ?_⟩
  · intro q
    rw [hproc, Finset.mem_erase, hS]
    by_cases hq : q = p
    · simp [hq, hpc]
    · simp [hq]
  · have hpos := Finset.card_pos.mpr ⟨p, hmem⟩
    rw [hout, hcard, Finset.card_erase_of_mem hmem]
    omega

theorem Counted.stay (h : Counted r) {pc : ProcPc} (hpc : pc.InOp ↔ (r.proc p).InOp)
    (hproc : r'.proc = Function.update r.proc p pc) (hout : r'.outstanding = r.outstanding) :
    Counted r' := by
  obtain ⟨S, hS, hcard⟩ := h
  refine ⟨S, ?_, hout.trans hcard⟩
  intro q
  rw [hproc, hS]
  by_cases hq : q = p
  · simp [hq, hpc]
  · simp [hq]

omit [DecidableEq P] in
theorem Counted.pos (h : Counted r) (hp : (r.proc p).InOp) : 1 ≤ r.outstanding := by
  obtain ⟨S, hS, hcard⟩ := h
  have := Finset.card_pos.mpr ⟨p, (hS p).mpr hp⟩
  omega

omit [DecidableEq P] in
theorem Counted.none_inside (h : Counted r) (ho : r.outstanding = 0) (q : P) :
    ¬(r.proc q).InOp := by
  obtain ⟨S, hS, hcard⟩ := h
  have hempty : S = ∅ := Finset.card_eq_zero.mp (by omega)
  rw [← hS, hempty]
  exact Finset.notMem_empty q

theorem outside_of_not {pc : ProcPc} (h : ¬pc.InOp) (hc : ∀ c, pc ≠ .committing c) :
    pc = .outside := by
  cases pc with
  | outside => rfl
  | inOp => exact absurd trivial h
  | logging => exact absurd trivial h
  | committing c => exact absurd rfl (hc c)

theorem Mode.of_inOp (h : Mode r) (hp : (r.proc p).InOp) :
    r.committing = false ∧ ∀ q pc, r.proc q ≠ .committing pc := by
  cases h with
  | admitting hc hnone => exact ⟨hc, hnone⟩
  | committing q pc _ _ hq hothers =>
    by_cases he : p = q
    · rw [he, hq] at hp
      exact hp.elim
    · rw [hothers p he] at hp
      exact hp.elim

theorem Mode.of_commit (h : Mode r) {pc : CommitPc} (hp : r.proc p = .committing pc) :
    r.committing = true ∧ r.outstanding = 0 ∧ ∀ q, q ≠ p → r.proc q = .outside := by
  cases h with
  | admitting _ hnone => exact absurd hp (hnone p pc)
  | committing q pc' hc ho hq hothers =>
    by_cases he : p = q
    · exact ⟨hc, ho, he ▸ hothers⟩
    · rw [hothers p he] at hp
      cases hp

/-- A process moves inside its operation. -/
theorem Mode.admitting_update (hc : r'.committing = false)
    (hnone : ∀ q pc, r.proc q ≠ .committing pc) {pc : ProcPc} (hpc : ∀ c, pc ≠ .committing c)
    (hproc : r'.proc = Function.update r.proc p pc) : Mode r' := by
  apply Mode.admitting hc
  intro q c
  rw [hproc]
  by_cases hq : q = p
  · rw [hq, Function.update_self]
    exact hpc c
  · rw [Function.update_of_ne hq]
    exact hnone q c

omit [DecidableEq P] in
theorem Mode.none (h : Mode r) (hc : r.committing = false) (q : P) (pc : CommitPc) :
    r.proc q ≠ .committing pc := by
  cases h with
  | admitting _ hnone => exact hnone q pc
  | committing _ _ hc' =>
    rw [hc] at hc'
    cases hc'

omit [DecidableEq P] in
theorem start_invariant (disk cache : ℤ → Block) (block : Fin logSize → ℤ) :
    Invariant (start P disk cache block) where
  counted := ⟨∅, fun p => by simp [start, ProcPc.InOp], rfl⟩
  mode := .admitting rfl fun _ _ => by simp [start]
  header := HeaderOk.cleared rfl
  listed _ b := by
    simp only [start, List.not_mem_nil, false_and, exists_false, iff_false]
    exact not_mem_cleared rfl
  cleared p hp := by simp [start] at hp
  commits e he := by simp [start] at he
  ops e he := by simp [start] at he
  own p hp := by simp [start, ProcPc.InOp] at hp
  current p _ e he := by simp [start] at he
  together e he := by simp [start] at he

theorem beginOp_some (h : beginOp r p = some r') :
    r.committing = false ∧ r.store.lh.n + (r.outstanding + 1) * maxOpBlocks ≤ (logSize : ℤ) ∧
      r' = { r.setProc p .inOp with outstanding := r.outstanding + 1 } := by
  simp only [beginOp] at h
  split at h
  · cases h
  · next hc =>
    split at h
    · cases h
    · next hroom => exact ⟨by simpa using hc, by omega, (Option.some.inj h).symm⟩

theorem beginOp_invariant (h : Invariant s) (hp : s.state.proc p = .outside)
    (ht : beginOp s.state p = some r') :
    Invariant { s with
      state := r', op := Function.update s.op p s.nextOp, nextOp := s.nextOp + 1 } := by
  obtain ⟨hc, -, rfl⟩ := beginOp_some ht
  have hnone := h.mode.none hc
  have hinside : ¬(s.state.proc p).InOp := by simp [hp, ProcPc.InOp]
  have hmode : Mode { s.state.setProc p .inOp with outstanding := s.state.outstanding + 1 } :=
    .admitting_update hc hnone (by simp) rfl
  refine ⟨h.counted.enter hinside rfl rfl, hmode, h.header, fun _ => h.listed fun q hq =>
    hnone q _ hq, fun q hq => absurd hq (hmode.none hc q _), h.commits,
    fun e he => Nat.lt_succ_of_lt (h.ops e he), fun q hq => ?_, fun q hq e he hop => ?_,
    h.together⟩
  · change (Function.update s.state.proc p .inOp q).InOp at hq
    change Function.update s.op p s.nextOp q < s.nextOp + 1
    by_cases hqp : q = p
    · rw [hqp, Function.update_self]
      exact Nat.lt_succ_self _
    · rw [Function.update_of_ne hqp] at hq ⊢
      exact Nat.lt_succ_of_lt (h.own q hq)
  · change (Function.update s.state.proc p .inOp q).InOp at hq
    change e.op = Function.update s.op p s.nextOp q at hop
    by_cases hqp : q = p
    · rw [hqp, Function.update_self] at hop
      exact absurd hop (h.ops e he).ne
    · rw [Function.update_of_ne hqp] at hq hop
      exact h.current q hq e he hop

theorem inOp_update {pc : ProcPc} (hp : (r.proc p).InOp)
    (hq : (Function.update r.proc p pc q).InOp) : (r.proc q).InOp := by
  by_cases hqp : q = p
  · rwa [hqp]
  · rwa [Function.update_of_ne hqp] at hq

theorem logWrite_ok {b : ℤ} {data : Block} (h : logWrite area r p b data = .ok r') :
    r' = { r with store.cache := Function.update r.store.cache b data }.setProc p (.logging b) := by
  simp only [logWrite] at h
  split at h
  · cases h
  · split at h
    · cases h
    · cases h
      rfl

theorem logWrite_invariant {b : ℤ} {data : Block} (h : Invariant s) (hp : s.state.proc p = .inOp)
    (ht : logWrite area s.state p b data = .ok r') : Invariant { s with state := r' } := by
  cases logWrite_ok ht
  have hinside : (s.state.proc p).InOp := hp ▸ trivial
  obtain ⟨hc, hnone⟩ := h.mode.of_inOp hinside
  have hmode : Mode ({ s.state with
      store.cache := Function.update s.state.store.cache b data }.setProc p (.logging b)) :=
    .admitting_update hc hnone (by simp) rfl
  have hstay : (ProcPc.logging b).InOp ↔ (s.state.proc p).InOp := iff_of_true trivial hinside
  exact ⟨h.counted.stay hstay rfl rfl, hmode, h.header, fun _ => h.listed fun q => hnone q _,
    fun q hq => absurd hq (hmode.none hc q _), h.commits, h.ops,
    fun q hq => h.own q (inOp_update hinside hq),
    fun q hq => h.current q (inOp_update hinside hq), h.together⟩

theorem logRecord_invariant {b : ℤ} (h : Invariant s) (hp : s.state.proc p = .logging b)
    (ht : logRecord s.state p b = .ok r') :
    Invariant { s with state := r', entries := ⟨s.op p, b, s.commits⟩ :: s.entries } := by
  obtain ⟨lh, hlh, ht⟩ := bind_eq_ok.mp ht
  cases ht
  have hinside : (s.state.proc p).InOp := hp ▸ trivial
  obtain ⟨hc, hnone⟩ := h.mode.of_inOp hinside
  have hmode : Mode { s.state.setProc p .inOp with store.lh := lh } :=
    .admitting_update hc hnone (by simp) rfl
  obtain ⟨hheader, hblocks⟩ := record_ok h.header hlh
  have hcurrent := h.current p hinside
  have hstay : ProcPc.inOp.InOp ↔ (s.state.proc p).InOp := iff_of_true trivial hinside
  refine ⟨h.counted.stay hstay rfl rfl, hmode, hheader, ?_,
    fun q hq => absurd hq (hmode.none hc q _), ?_, ?_,
    fun q hq => h.own q (inOp_update hinside hq), ?_, ?_⟩
  · intro _ c
    change c ∈ lh.blocks ↔ _
    rw [hblocks, h.listed (fun q => hnone q _) c]
    simp [eq_comm]
  · simp only [List.forall_mem_cons]
    exact ⟨le_rfl, h.commits⟩
  · simp only [List.forall_mem_cons]
    exact ⟨h.own p hinside, h.ops⟩
  · intro q hq
    simp only [List.forall_mem_cons]
    exact ⟨fun _ => trivial, h.current q (inOp_update hinside hq)⟩
  · simp only [List.forall_mem_cons]
    exact ⟨⟨fun _ => trivial, fun e he hop => (hcurrent e he hop.symm).symm⟩,
      fun e he => ⟨fun hop => hcurrent e he hop, fun f hf => h.together e he f hf⟩⟩

theorem endOp_ok (hc : r.committing = false) (h : endOp r p = .ok r') :
    r.outstanding = 1 ∧
        r' = { r.setProc p (.committing .enter) with outstanding := 0, committing := true } ∨
      r.outstanding ≠ 1 ∧
        r' = { r.setProc p .outside with outstanding := r.outstanding - 1 } := by
  simp only [endOp, hc, Bool.false_eq_true, if_false] at h
  split at h
  · next ho =>
    cases h
    exact Or.inl ⟨by omega, by rw [ho]⟩
  · next ho =>
    cases h
    exact Or.inr ⟨by omega, rfl⟩

theorem endOp_invariant (h : Invariant s) (hp : s.state.proc p = .inOp)
    (ht : endOp s.state p = .ok r') : Invariant { s with state := r' } := by
  have hinside : (s.state.proc p).InOp := hp ▸ trivial
  obtain ⟨hc, hnone⟩ := h.mode.of_inOp hinside
  have hlisted := h.listed fun q => hnone q _
  rcases endOp_ok hc ht with ⟨ho, rfl⟩ | ⟨ho, rfl⟩
  · have hleave : ¬(ProcPc.committing .enter).InOp := id
    have hcounted : Counted { s.state.setProc p (.committing .enter) with
        outstanding := 0, committing := true } :=
      h.counted.leave hinside hleave rfl (by rw [ho]; rfl)
    have hothers : ∀ q, q ≠ p →
        Function.update s.state.proc p (.committing .enter) q = .outside := fun q hq => by
      refine outside_of_not (hcounted.none_inside rfl q) ?_
      intro c
      rw [Function.update_of_ne hq]
      exact hnone q c
    refine ⟨hcounted, .committing p .enter rfl rfl (Function.update_self _ _ _) hothers, h.header,
      fun _ => hlisted, ?_, h.commits, h.ops,
      fun q hq => (hcounted.none_inside rfl q hq).elim,
      fun q hq => (hcounted.none_inside rfl q hq).elim, h.together⟩
    intro q hq
    change Function.update s.state.proc p (.committing .enter) q = .committing .returned at hq
    by_cases hqp : q = p
    · rw [hqp, Function.update_self] at hq
      cases hq
    · rw [hothers q hqp] at hq
      cases hq
  · have hleave : ¬ProcPc.outside.InOp := id
    have hmode : Mode { s.state.setProc p .outside with
        outstanding := s.state.outstanding - 1 } := .admitting_update hc hnone (by simp) rfl
    exact ⟨h.counted.leave hinside hleave rfl rfl, hmode, h.header, fun _ => hlisted,
      fun q hq => absurd hq (hmode.none hc q _), h.commits, h.ops,
      fun q hq => h.own q (inOp_update hinside hq),
      fun q hq => h.current q (inOp_update hinside hq), h.together⟩

/-- Only the last step of commit changes the header in memory. -/
theorem commitStep_header {u v : Store} {pc pc' : CommitPc} (hpc : pc ≠ .returned)
    (h : commitStep area u pc = .ok (pc', v)) :
    v.lh = u.lh ∧ (pc' = .returned → u.lh.n ≤ 0) ∨ v.lh.n = 0 ∧ pc' = .returned := by
  cases pc with
  | enter =>
    cases h
    refine Or.inl ⟨rfl, ?_⟩
    intro hn
    split at hn
    · cases hn
    · omega
  | writeLog k =>
    simp only [commitStep] at h
    split at h
    · obtain ⟨w, hw, h⟩ := bind_eq_ok.mp h
      obtain ⟨_, _, hw⟩ := bind_eq_ok.mp hw
      cases hw
      cases h
      exact Or.inl ⟨rfl, by simp⟩
    · cases h
      exact Or.inl ⟨rfl, by simp⟩
  | writeHead =>
    obtain ⟨w, hw, h⟩ := bind_eq_ok.mp h
    cases h
    simp only [writeHead] at hw
    split at hw
    · cases hw
    · cases hw
      exact Or.inl ⟨rfl, by simp⟩
  | installTrans k =>
    simp only [commitStep] at h
    split at h
    · obtain ⟨w, hw, h⟩ := bind_eq_ok.mp h
      obtain ⟨_, _, hw⟩ := bind_eq_ok.mp hw
      cases hw
      cases h
      exact Or.inl ⟨rfl, by simp⟩
    · cases h
      exact Or.inl ⟨rfl, by simp⟩
  | clearHead =>
    obtain ⟨w, hw, h⟩ := bind_eq_ok.mp h
    rw [clearHead_eq] at hw
    cases hw
    cases h
    exact Or.inr ⟨rfl, rfl⟩
  | returned => exact absurd rfl hpc

theorem commit_returns_invariant (h : Invariant s) (hp : s.state.proc p = .committing .returned) :
    Invariant { s with
      state := { s.state.setProc p .outside with committing := false }
      commits := s.commits + 1 } := by
  obtain ⟨-, ho, hothers⟩ := h.mode.of_commit hp
  have hn : s.state.store.lh.n = 0 := h.cleared p hp
  have hall : ∀ q, Function.update s.state.proc p .outside q = .outside := by
    intro q
    by_cases hq : q = p
    · rw [hq, Function.update_self]
    · rw [Function.update_of_ne hq]
      exact hothers q hq
  have hinside : ∀ q, ¬(Function.update s.state.proc p .outside q).InOp := by
    intro q
    rw [hall q]
    exact id
  have hstay : ProcPc.outside.InOp ↔ (s.state.proc p).InOp :=
    iff_of_false id (h.counted.none_inside ho p)
  refine ⟨h.counted.stay hstay rfl rfl, .admitting rfl ?_, h.header, ?_,
    ?_, fun e he => Nat.le_succ_of_le (h.commits e he), h.ops,
    fun q hq => (hinside q hq).elim, fun q hq => (hinside q hq).elim, h.together⟩
  · intro q pc hq
    cases (hall q).symm.trans hq
  · intro _ b
    refine iff_of_false (not_mem_cleared hn) ?_
    rintro ⟨e, he, hcommit, _⟩
    have := h.commits e he
    dsimp only at hcommit
    omega
  · intro q hq
    cases (hall q).symm.trans hq

theorem commit_step_invariant {pc pc' : CommitPc} {v : Store} (h : Invariant s)
    (hp : s.state.proc p = .committing pc) (hpc : pc ≠ .returned)
    (ht : commitStep area s.state.store pc = .ok (pc', v)) :
    Invariant { s with state := { s.state.setProc p (.committing pc') with store := v } } := by
  obtain ⟨hc, ho, hothers⟩ := h.mode.of_commit hp
  have hself : Function.update s.state.proc p (.committing pc') p = .committing pc' :=
    Function.update_self _ _ _
  have hfar : ∀ q, q ≠ p → Function.update s.state.proc p (.committing pc') q = .outside :=
    fun q hq => by rw [Function.update_of_ne hq]; exact hothers q hq
  have hstay : (ProcPc.committing pc').InOp ↔ (s.state.proc p).InOp :=
    iff_of_false id (h.counted.none_inside ho p)
  have hcounted : Counted { s.state.setProc p (.committing pc') with store := v } :=
    h.counted.stay hstay rfl rfl
  have hbefore : ∀ q, s.state.proc q ≠ .committing .returned := by
    intro q hq
    by_cases hqp : q = p
    · rw [hqp, hp] at hq
      cases hq
      exact hpc rfl
    · rw [hothers q hqp] at hq
      cases hq
  have hheader := commitStep_header hpc ht
  refine ⟨hcounted, .committing p pc' hc ho hself hfar, ?_, ?_, ?_,
    h.commits, h.ops, fun q hq => (hcounted.none_inside ho q hq).elim,
    fun q hq => (hcounted.none_inside ho q hq).elim, h.together⟩
  · rcases hheader with ⟨hlh, _⟩ | ⟨hn, _⟩
    · exact hlh ▸ h.header
    · exact HeaderOk.cleared hn
  · intro hnot
    have hne : pc' ≠ .returned := fun he => hnot p (by rw [← he]; exact hself)
    obtain ⟨hlh, _⟩ := hheader.resolve_right fun hr => hne hr.2
    intro b
    change b ∈ v.lh.blocks ↔ _
    rw [hlh]
    exact h.listed hbefore b
  · intro q hq
    change Function.update s.state.proc p (.committing pc') q = .committing .returned at hq
    by_cases hqp : q = p
    · rw [hqp, hself] at hq
      cases hq
      rcases hheader with ⟨hlh, hn⟩ | ⟨hn, _⟩
      · have hle := hn rfl
        have hge := h.header.nonneg
        change v.lh.n = 0
        rw [hlh]
        omega
      · exact hn
    · rw [hfar q hqp] at hq
      cases hq

theorem step_invariant (h : Invariant s) (he : Enabled s e) (ht : step area s e = .ok t) :
    Invariant t := by
  cases e with
  | beginOp p =>
    simp only [step] at ht
    split at ht
    · cases ht
      exact h
    · next r hr =>
      cases ht
      exact beginOp_invariant h he hr
  | logWrite p b data =>
    obtain ⟨r, hr, ht⟩ := bind_eq_ok.mp ht
    cases ht
    exact logWrite_invariant h he hr
  | logRecord p =>
    cases hp : s.state.proc p with
    | logging b =>
      simp only [step, hp, ProcPc.logged] at ht
      obtain ⟨r, hr, ht⟩ := bind_eq_ok.mp ht
      cases ht
      exact logRecord_invariant h hp hr
    | _ => simp [Enabled, hp, ProcPc.logged] at he
  | endOp p =>
    obtain ⟨r, hr, ht⟩ := bind_eq_ok.mp ht
    cases ht
    exact endOp_invariant h he hr
  | commit p =>
    cases hp : s.state.proc p with
    | committing pc =>
      simp only [step, hp, ProcPc.commitPc] at ht
      obtain ⟨r, hr, ht⟩ := bind_eq_ok.mp ht
      cases ht
      by_cases hpc : pc = .returned
      · subst hpc
        cases hr
        exact commit_returns_invariant h hp
      · have hr' : (commitStep area s.state.store pc >>= fun x =>
            .ok { s.state.setProc p (.committing x.1) with store := x.2 }) = .ok r := by
          cases pc <;> first | exact absurd rfl hpc | exact hr
        obtain ⟨⟨pc', v⟩, hv, hr'⟩ := bind_eq_ok.mp hr'
        cases hr'
        rw [if_neg hpc]
        exact commit_step_invariant h hp hpc hv
    | _ => simp [Enabled, hp, ProcPc.commitPc] at he

/-- A commit never faults: the header in memory always fits its array. -/
theorem commitStep_returns (area : LogArea) {u : Store} (h : HeaderOk u.lh) (pc : CommitPc) :
    ∃ x, commitStep area u pc = .ok x := by
  have hlt : ∀ {k : ℕ}, (k : ℤ) < u.lh.n → k < logSize := by
    intro hk
    have := h.le
    omega
  cases pc with
  | enter => exact ⟨_, rfl⟩
  | writeLog k =>
    rw [commitStep]
    split
    · next hk => exact bind_returns (copyToLog_eq (hlt hk)) ⟨_, rfl⟩
    · exact ⟨_, rfl⟩
  | writeHead => exact bind_returns (writeHead_eq h.le) ⟨_, rfl⟩
  | installTrans k =>
    rw [commitStep]
    split
    · next hk => exact bind_returns (copyHome_eq (hlt hk)) ⟨_, rfl⟩
    · exact ⟨_, rfl⟩
  | clearHead => exact bind_returns (clearHead_eq area u) ⟨_, rfl⟩
  | returned => exact ⟨_, rfl⟩

/-- The only panic left is that of log_write for want of room. -/
theorem panic_cases (h : Invariant s) (he : Enabled s e) {text : String}
    (hp : step area s e = .error (.panic text)) :
    text = "too big a transaction" ∧ ∃ p b data, e = .logWrite p b data ∧
      (s.state.store.lh.n ≥ logSize ∨ s.state.store.lh.n ≥ area.size - 1) := by
  cases e with
  | beginOp p =>
    simp only [step] at hp
    split at hp <;> cases hp
  | logWrite p b data =>
    have hpos := h.counted.pos (p := p) (by rw [show s.state.proc p = .inOp from he]; trivial)
    simp only [step, logWrite] at hp
    split at hp
    · next hroom =>
      cases hp
      exact ⟨rfl, p, b, data, rfl, hroom⟩
    · rw [if_neg (by omega)] at hp
      cases hp
  | logRecord p =>
    simp only [step] at hp
    split at hp
    · cases hp
    · simp only [logRecord, record] at hp
      split at hp <;> simp at hp
  | endOp p =>
    have hproc : s.state.proc p = .inOp := he
    have hc := (h.mode.of_inOp (p := p) (hproc ▸ trivial)).1
    simp only [step, endOp, hc, Bool.false_eq_true, if_false] at hp
    split at hp <;> cases hp
  | commit p =>
    simp only [step] at hp
    split at hp
    · cases hp
    · next pc _ =>
      obtain ⟨x, hx⟩ := commitStep_returns area h.header pc
      cases pc <;> simp [commitNext, hx] at hp

end Step

end LogGroupCommit
