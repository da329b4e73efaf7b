import Xv6Gui.DiskLog

/-!
# Recovery after a crash

One commit, cut anywhere by a crash, and any number of recoveries, each cut anywhere too.
The abstract disk is what the blocks would hold once the log were installed. Every step of
the code leaves it alone except one, the first write of the header.
-/
namespace LogRecovery

open DiskLog GuardedRuns

/-- The block lies outside the log. -/
def Home (log : LogArea) (b : ℤ) : Prop := b < log.start ∨ log.start + log.size ≤ b

instance (log : LogArea) (b : ℤ) : Decidable (Home log b) := inferInstanceAs (Decidable (_ ∨ _))

/-- The header that a group of operations leaves in memory for `commit`. -/
structure Transaction (log : LogArea) where
  lh : LogHeader
  nonneg : 0 ≤ lh.n
  room : lh.n ≤ log.size - 1
  array : lh.n ≤ logSize
  nodup : lh.blocks.Nodup
  home : ∀ b ∈ lh.blocks, Home log b

inductive Pc where
  | commit (pc : CommitPc)
  | recovery (pc : RecoverPc)
  deriving DecidableEq, Repr

inductive Event where
  | next
  | crash
  deriving DecidableEq, Repr

/-- `committed` records that the first `write_head` of the commit has completed. -/
structure Machine where
  store : Store
  pc : Pc
  committed : Bool

/-- Only the disk survives; the cache is filled from it again. -/
def restart (s : Store) : Store := ⟨s.disk, s.disk, ⟨0, fun _ => 0⟩⟩

variable (log : LogArea)

def step (m : Machine) : Event → Except Fault Machine
  | .crash => .ok { m with store := restart m.store, pc := .recovery .readHead }
  | .next =>
    match m.pc with
    | .commit pc => do
      let (pc', store) ← commitStep log m.store pc
      return ⟨store, .commit pc', m.committed || decide (pc = .writeHead)⟩
    | .recovery pc => do
      let (pc', store) ← recoverStep log m.store pc
      return { m with store := store, pc := .recovery pc' }

/-- The disk as it would be after the log on it has been installed. -/
def logical (disk : ℤ → Block) (b : ℤ) : Block :=
  match (headerOf (disk log.start)).slot b with
  | some i => disk (log.start + i.val + 1)
  | none => disk b

variable {log}

/-- The contents of the home blocks before and after the transaction. -/
def contents (tx : Transaction log) (d c : ℤ → Block) (committed : Bool) (b : ℤ) : Block :=
  if committed = true ∧ b ∈ tx.lh.blocks then c b else d b

/-- The disk holds `d` and the cache, with the buffers of the transaction, `c`. -/
def start (tx : Transaction log) (d c : ℤ → Block) : Machine :=
  ⟨⟨d, c, tx.lh⟩, .commit .enter, false⟩

def Empty (log : LogArea) (s : Store) : Prop := (headerOf (s.disk log.start)).n = 0

/-- `write_log` has written the first `k` log blocks. -/
structure Logging (tx : Transaction log) (c : ℤ → Block) (s : Store) (k : ℕ) : Prop where
  empty : Empty log s
  memory : s.lh = tx.lh
  le : (k : ℤ) ≤ tx.lh.n
  cache : ∀ b ∈ tx.lh.blocks, s.cache b = c b
  copied : ∀ i : Fin logSize, i.val < k →
    s.disk (log.start + i.val + 1) = c (tx.lh.block i) ∧
      s.cache (log.start + i.val + 1) = s.disk (log.start + i.val + 1)

/-- `install_trans` has copied the first `k` log blocks home. -/
structure Installing (tx : Transaction log) (s : Store) (k : ℕ) : Prop where
  header : Agrees (headerOf (s.disk log.start)) tx.lh
  memory : Agrees s.lh tx.lh
  le : (k : ℤ) ≤ tx.lh.n
  cached : ∀ i : Fin logSize, (i.val : ℤ) < tx.lh.n →
    s.cache (log.start + i.val + 1) = s.disk (log.start + i.val + 1)
  copied : ∀ i : Fin logSize, i.val < k →
    s.disk (tx.lh.block i) = s.disk (log.start + i.val + 1)

def Placed (tx : Transaction log) (c : ℤ → Block) (s : Store) : Pc → Prop
  | .commit .enter => Logging tx c s 0
  | .commit (.writeLog k) => Logging tx c s k
  | .commit .writeHead => ∃ k : ℕ, (k : ℤ) = tx.lh.n ∧ Logging tx c s k
  | .commit (.installTrans k) => Installing tx s k
  | .commit .clearHead => ∃ k : ℕ, (k : ℤ) = tx.lh.n ∧ Installing tx s k
  | .commit .returned => Empty log s
  | .recovery .readHead =>
    s.cache = s.disk ∧ (Empty log s ∨ Agrees (headerOf (s.disk log.start)) tx.lh)
  | .recovery (.installTrans k) => Empty log s ∧ s.lh.n = 0 ∨ Installing tx s k
  | .recovery .clearHead => Empty log s ∨ ∃ k : ℕ, (k : ℤ) = tx.lh.n ∧ Installing tx s k
  | .recovery .returned => Empty log s

structure Invariant (tx : Transaction log) (d c : ℤ → Block) (m : Machine) : Prop where
  view : ∀ b, Home log b → logical log m.store.disk b = contents tx d c m.committed b
  placed : Placed tx c m.store m.pc

variable {tx : Transaction log} {d c : ℤ → Block} {s t : Store} {m : Machine} {b : ℤ} {k : ℕ}

theorem Transaction.size_pos (tx : Transaction log) : 1 ≤ log.size := by
  have := tx.nonneg
  have := tx.room
  omega

theorem Transaction.ne_start (tx : Transaction log) (hb : Home log b) : b ≠ log.start := by
  have := tx.size_pos
  simp only [Home] at hb
  omega

theorem Transaction.ne_logBlock (tx : Transaction log) (hb : Home log b) (hk : (k : ℤ) < tx.lh.n) :
    b ≠ log.start + k + 1 := by
  have := tx.room
  simp only [Home] at hb
  omega

theorem Transaction.block_home (tx : Transaction log) {i : Fin logSize}
    (hi : (i.val : ℤ) < tx.lh.n) : Home log (tx.lh.block i) :=
  tx.home _ (LogHeader.mem_blocks.mpr ⟨i, hi, rfl⟩)

theorem Transaction.lt_logSize (tx : Transaction log) (hk : (k : ℤ) < tx.lh.n) : k < logSize := by
  have := tx.array
  omega

theorem logical_empty (h : Empty log s) (b : ℤ) : logical log s.disk b = s.disk b := by
  rw [logical, slot_empty h]

theorem logical_some (tx : Transaction log) (h : Agrees (headerOf (s.disk log.start)) tx.lh)
    {i : Fin logSize} (hb : tx.lh.slot b = some i) :
    logical log s.disk b = s.disk (log.start + i.val + 1) := by
  rw [logical, h.slot, hb]

theorem logical_none (tx : Transaction log) (h : Agrees (headerOf (s.disk log.start)) tx.lh)
    (hb : tx.lh.slot b = none) : logical log s.disk b = s.disk b := by
  rw [logical, h.slot, hb]

theorem logBlock_ne_start (log : LogArea) (k : ℕ) : log.start ≠ log.start + k + 1 := by omega

theorem copyToLog_logging (h : Logging tx c s k) (hk : (k : ℤ) < tx.lh.n) :
    ∃ t, copyToLog log s k = .ok t ∧ Logging tx c t (k + 1) ∧
      ∀ b, Home log b → logical log t.disk b = logical log s.disk b := by
  have hlt : k < logSize := tx.lt_logSize hk
  have hblock : s.cache (s.lh.block ⟨k, hlt⟩) = c (tx.lh.block ⟨k, hlt⟩) := by
    rw [h.memory]
    exact h.cache _ (LogHeader.mem_blocks.mpr ⟨⟨k, hlt⟩, hk, rfl⟩)
  refine ⟨_, copyToLog_eq hlt, ?_, ?_⟩
  · refine ⟨?_, h.memory, by push_cast; omega, ?_, ?_⟩
    · rw [Empty, bwrite_disk_of_ne (logBlock_ne_start log k)]
      exact h.empty
    · intro b hb
      rw [bwrite_cache_of_ne (tx.ne_logBlock (tx.home b hb) hk)]
      exact h.cache b hb
    · intro i hi
      rcases Nat.lt_succ_iff_lt_or_eq.mp hi with hi | hi
      · have hne : log.start + i.val + 1 ≠ log.start + k + 1 := by omega
        rw [bwrite_disk_of_ne hne, bwrite_cache_of_ne hne]
        exact h.copied i hi
      · have he : i = ⟨k, hlt⟩ := Fin.ext hi
        subst he
        simp [hblock]
  · intro b hb
    have hempty : Empty log (bwrite s (log.start + k + 1) (s.cache (s.lh.block ⟨k, hlt⟩))) := by
      rw [Empty, bwrite_disk_of_ne (logBlock_ne_start log k)]
      exact h.empty
    rw [logical_empty hempty, logical_empty h.empty, bwrite_disk_of_ne (tx.ne_logBlock hb hk)]

/-- The commit point. -/
theorem writeHead_logging (h : Logging tx c s k) (hk : (k : ℤ) = tx.lh.n) {committed : Bool}
    (hview : ∀ b, Home log b → logical log s.disk b = contents tx d c committed b) :
    ∃ t, writeHead log s = .ok t ∧ Installing tx t 0 ∧
      ∀ b, Home log b → logical log t.disk b = contents tx d c true b := by
  have hlog : ∀ i : Fin logSize, log.start + i.val + 1 ≠ log.start := fun i => by omega
  have hheader : Agrees (headerOf ((bwrite s log.start
      (putHeader (s.cache log.start) s.lh)).disk log.start)) tx.lh := by
    rw [bwrite_disk_self, h.memory]
    exact headerOf_putHeader _ _
  have hn : s.lh.n ≤ logSize := by rw [h.memory]; exact tx.array
  refine ⟨_, writeHead_eq hn, ⟨hheader, h.memory ▸ Agrees.refl _, tx.nonneg, ?_,
    fun i hi => absurd hi (Nat.not_lt_zero _)⟩, ?_⟩
  · intro i hi
    rw [bwrite_disk_of_ne (hlog i), bwrite_cache_of_ne (hlog i)]
    exact (h.copied i (by omega)).2
  · intro b hb
    cases hslot : tx.lh.slot b with
    | some i =>
      obtain ⟨hi, hblock⟩ := LogHeader.slot_some hslot
      have hmem : b ∈ tx.lh.blocks := LogHeader.mem_blocks.mpr ⟨i, hi, hblock⟩
      rw [logical_some tx hheader hslot, bwrite_disk_of_ne (hlog i), (h.copied i (by omega)).1,
        hblock, contents, if_pos ⟨rfl, hmem⟩]
    | none =>
      have hmem : b ∉ tx.lh.blocks := LogHeader.slot_none.mp hslot
      have hold := hview b hb
      rw [logical_empty h.empty, contents, if_neg fun hc => hmem hc.2] at hold
      rw [logical_none tx hheader hslot, bwrite_disk_of_ne (tx.ne_start hb), hold, contents,
        if_neg fun hc => hmem hc.2]

theorem copyHome_installing (h : Installing tx s k) (hk : (k : ℤ) < tx.lh.n) :
    ∃ t, copyHome log s k = .ok t ∧ Installing tx t (k + 1) ∧
      ∀ b, Home log b → logical log t.disk b = logical log s.disk b := by
  have hlt : k < logSize := tx.lt_logSize hk
  have hdst : s.lh.block ⟨k, hlt⟩ = tx.lh.block ⟨k, hlt⟩ := h.memory.block ⟨k, hlt⟩ hk
  have hhome := tx.block_home (i := ⟨k, hlt⟩) hk
  have hlog : ∀ i : Fin logSize, (i.val : ℤ) < tx.lh.n →
      log.start + i.val + 1 ≠ tx.lh.block ⟨k, hlt⟩ := fun i hi =>
    (tx.ne_logBlock hhome hi).symm
  have hheader : (bwrite s (tx.lh.block ⟨k, hlt⟩) (s.cache (log.start + k + 1))).disk log.start =
      s.disk log.start := bwrite_disk_of_ne (tx.ne_start hhome).symm _
  refine ⟨_, copyHome_eq hlt, ?_, ?_⟩
  · rw [hdst]
    refine ⟨hheader ▸ h.header, h.memory, by push_cast; omega, ?_, ?_⟩
    · intro i hi
      rw [bwrite_disk_of_ne (hlog i hi), bwrite_cache_of_ne (hlog i hi)]
      exact h.cached i hi
    · intro i hi
      rcases Nat.lt_succ_iff_lt_or_eq.mp hi with hik | hik
      · have hin : (i.val : ℤ) < tx.lh.n := by omega
        have hne : tx.lh.block i ≠ tx.lh.block ⟨k, hlt⟩ := by
          intro he
          have := congrArg Fin.val (LogHeader.block_injective tx.nodup hin hk he)
          dsimp only at this
          omega
        rw [bwrite_disk_of_ne hne, bwrite_disk_of_ne (hlog i hin)]
        exact h.copied i hik
      · have he : i = ⟨k, hlt⟩ := Fin.ext hik
        subst he
        rw [bwrite_disk_self, bwrite_disk_of_ne (hlog ⟨k, hlt⟩ hk)]
        exact h.cached ⟨k, hlt⟩ hk
  · intro b hb
    rw [hdst]
    have hagrees := hheader ▸ h.header
    cases hslot : tx.lh.slot b with
    | some i =>
      obtain ⟨hi, _⟩ := LogHeader.slot_some hslot
      rw [logical_some tx hagrees hslot, logical_some tx h.header hslot,
        bwrite_disk_of_ne (hlog i hi)]
    | none =>
      have hne : b ≠ tx.lh.block ⟨k, hlt⟩ := fun he =>
        LogHeader.slot_none.mp hslot (LogHeader.mem_blocks.mpr ⟨_, hk, he.symm⟩)
      rw [logical_none tx hagrees hslot, logical_none tx h.header hslot, bwrite_disk_of_ne hne]

/-- Every logged block is home before the header is cleared. -/
theorem Installing.logical_eq (h : Installing tx s k) (hk : (k : ℤ) = tx.lh.n) (b : ℤ) :
    logical log s.disk b = s.disk b := by
  cases hslot : tx.lh.slot b with
  | some i =>
    obtain ⟨hi, hblock⟩ := LogHeader.slot_some hslot
    rw [logical_some tx h.header hslot, ← h.copied i (by omega), hblock]
  | none => exact logical_none tx h.header hslot

theorem clearHead_empty (tx : Transaction log)
    (h : ∀ b, Home log b → logical log s.disk b = s.disk b) :
    ∃ t, clearHead log s = .ok t ∧ Empty log t ∧
      ∀ b, Home log b → logical log t.disk b = logical log s.disk b := by
  have hempty : Empty log (bwrite { s with lh := { s.lh with n := 0 } } log.start
      (putHeader (s.cache log.start) { s.lh with n := 0 })) := by
    rw [Empty, bwrite_disk_self]
    exact (headerOf_putHeader _ _).n
  refine ⟨_, clearHead_eq log s, hempty, ?_⟩
  intro b hb
  rw [logical_empty hempty, bwrite_disk_of_ne (tx.ne_start hb), h b hb]

theorem readHead_returns (hc : s.cache = s.disk)
    (h : Empty log s ∨ Agrees (headerOf (s.disk log.start)) tx.lh) :
    ∃ t, readHead log s = .ok t ∧ (Empty log t ∧ t.lh.n = 0 ∨ Installing tx t 0) ∧
      t.disk = s.disk := by
  have hn : (headerOf (s.disk log.start)).n ≤ logSize := by
    rcases h with h | h
    · rw [show (headerOf (s.disk log.start)).n = 0 from h]
      exact Int.natCast_nonneg _
    · rw [h.n]
      exact tx.array
  refine ⟨{ s with lh := ⟨(headerOf (s.disk log.start)).n, fun i =>
    if (i.val : ℤ) < (headerOf (s.disk log.start)).n then (headerOf (s.disk log.start)).block i
    else s.lh.block i⟩ }, ?_, ?_, rfl⟩
  · rw [readHead, hc]
    exact if_neg (by omega)
  · rcases h with h | h
    · exact Or.inl ⟨h, h⟩
    · refine Or.inr ⟨h, ⟨h.n, ?_⟩, tx.nonneg, ?_, fun i hi => absurd hi (Nat.not_lt_zero _)⟩
      · intro i hi
        dsimp only
        rw [h.n, if_pos hi]
        exact h.block i hi
      · intro i _
        dsimp only
        rw [hc]

theorem Invariant.crash (h : Invariant tx d c m) :
    Invariant tx d c { m with store := restart m.store, pc := .recovery .readHead } := by
  refine ⟨h.view, rfl, ?_⟩
  change Empty log m.store ∨ Agrees (headerOf (m.store.disk log.start)) tx.lh
  have hp := h.placed
  rcases hpc : m.pc with pc | pc <;> cases pc <;> rw [hpc] at hp
  case commit.enter | commit.writeLog => exact Or.inl hp.empty
  case commit.writeHead =>
    obtain ⟨_, _, hp⟩ := hp
    exact Or.inl hp.empty
  case commit.installTrans => exact Or.inr hp.header
  case commit.clearHead =>
    obtain ⟨_, _, hp⟩ := hp
    exact Or.inr hp.header
  case commit.returned | recovery.returned => exact Or.inl hp
  case recovery.readHead => exact hp.2
  case recovery.installTrans =>
    rcases hp with hp | hp
    · exact Or.inl hp.1
    · exact Or.inr hp.header
  case recovery.clearHead =>
    rcases hp with hp | ⟨_, _, hp⟩
    · exact Or.inl hp
    · exact Or.inr hp.header

theorem commitStep_invariant {pc : CommitPc} {committed : Bool}
    (h : Invariant tx d c ⟨s, .commit pc, committed⟩) :
    ∃ pc' t, commitStep log s pc = .ok (pc', t) ∧
      Invariant tx d c ⟨t, .commit pc', committed || decide (pc = .writeHead)⟩ := by
  obtain ⟨hview, hp⟩ := h
  dsimp only at hview hp
  cases pc with
  | enter =>
    have hl : Logging tx c s 0 := hp
    refine ⟨_, s, rfl, by simpa using hview, ?_⟩
    change Placed tx c s (.commit (if s.lh.n > 0 then .writeLog 0 else .returned))
    split
    · exact hl
    · exact hl.empty
  | writeLog k =>
    have hl : Logging tx c s k := hp
    by_cases hk : (k : ℤ) < s.lh.n
    · obtain ⟨t, ht, hlog, hsame⟩ := copyToLog_logging hl (hl.memory ▸ hk)
      refine ⟨.writeLog (k + 1), t, by simp [commitStep, hk, ht], ?_, hlog⟩
      intro b hb
      simpa using (hsame b hb).trans (hview b hb)
    · refine ⟨.writeHead, s, by simp [commitStep, hk], by simpa using hview, k, ?_, hl⟩
      have := hl.le
      rw [hl.memory] at hk
      omega
  | writeHead =>
    obtain ⟨k, hk, hl⟩ := hp
    obtain ⟨t, ht, hi, hnew⟩ := writeHead_logging hl hk hview
    exact ⟨.installTrans 0, t, by simp [commitStep, ht], by simpa using hnew, hi⟩
  | installTrans k =>
    have hi : Installing tx s k := hp
    by_cases hk : (k : ℤ) < s.lh.n
    · obtain ⟨t, ht, hi', hsame⟩ := copyHome_installing hi (hi.memory.n ▸ hk)
      refine ⟨.installTrans (k + 1), t, by simp [commitStep, hk, ht], ?_, hi'⟩
      intro b hb
      simpa using (hsame b hb).trans (hview b hb)
    · refine ⟨.clearHead, s, by simp [commitStep, hk], by simpa using hview, k, ?_, hi⟩
      have := hi.le
      rw [hi.memory.n] at hk
      omega
  | clearHead =>
    obtain ⟨k, hk, hi⟩ := hp
    obtain ⟨t, ht, hempty, hsame⟩ := clearHead_empty tx fun b _ => hi.logical_eq hk b
    refine ⟨.returned, t, by simp [commitStep, ht], ?_, hempty⟩
    intro b hb
    simpa using (hsame b hb).trans (hview b hb)
  | returned => exact ⟨.returned, s, rfl, by simpa using hview, hp⟩

theorem recoverStep_invariant {pc : RecoverPc} {committed : Bool}
    (h : Invariant tx d c ⟨s, .recovery pc, committed⟩) :
    ∃ pc' t, recoverStep log s pc = .ok (pc', t) ∧
      Invariant tx d c ⟨t, .recovery pc', committed⟩ := by
  obtain ⟨hview, hp⟩ := h
  dsimp only at hview hp
  cases pc with
  | readHead =>
    obtain ⟨t, ht, hi, hdisk⟩ := readHead_returns hp.1 hp.2
    exact ⟨.installTrans 0, t, by simp [recoverStep, ht], hdisk ▸ hview, hi⟩
  | installTrans k =>
    by_cases hk : (k : ℤ) < s.lh.n
    · have hi : Installing tx s k := hp.resolve_left fun he => by have := he.2; omega
      obtain ⟨t, ht, hi', hsame⟩ := copyHome_installing hi (hi.memory.n ▸ hk)
      exact ⟨.installTrans (k + 1), t, by simp [recoverStep, hk, ht],
        fun b hb => (hsame b hb).trans (hview b hb), Or.inr hi'⟩
    · refine ⟨.clearHead, s, by simp [recoverStep, hk], hview, ?_⟩
      rcases hp with he | hi
      · exact Or.inl he.1
      · have := hi.le
        rw [hi.memory.n] at hk
        exact Or.inr ⟨k, by omega, hi⟩
  | clearHead =>
    have hhome : ∀ b, Home log b → logical log s.disk b = s.disk b := by
      intro b _
      rcases hp with he | ⟨k, hk, hi⟩
      · exact logical_empty he b
      · exact hi.logical_eq hk b
    obtain ⟨t, ht, hempty, hsame⟩ := clearHead_empty tx hhome
    exact ⟨.returned, t, by simp [recoverStep, ht],
      fun b hb => (hsame b hb).trans (hview b hb), hempty⟩
  | returned => exact ⟨.returned, s, rfl, hview, hp⟩

/-- No step of the commit or of a recovery faults. -/
theorem step_invariant (h : Invariant tx d c m) (e : Event) :
    ∃ t, step log m e = .ok t ∧ Invariant tx d c t := by
  cases e with
  | crash => exact ⟨_, rfl, h.crash⟩
  | next =>
    obtain ⟨s, pc, committed⟩ := m
    cases pc with
    | commit pc =>
      obtain ⟨pc', t, ht, hi⟩ := commitStep_invariant h
      exact ⟨_, by simp only [step, ht, ok_bind, pure_eq_ok], hi⟩
    | recovery pc =>
      obtain ⟨pc', t, ht, hi⟩ := recoverStep_invariant h
      exact ⟨_, by simp only [step, ht, ok_bind, pure_eq_ok], hi⟩

theorem start_invariant (tx : Transaction log) (c : ℤ → Block)
    (hd : (headerOf (d log.start)).n = 0) : Invariant tx d c (start tx d c) where
  view b _ := logical_empty (s := (start tx d c).store) hd b
  placed := ⟨hd, rfl, tx.nonneg, fun _ _ => rfl, fun _ hi => absurd hi (Nat.not_lt_zero _)⟩

theorem execution_invariant_of_start (hd : (headerOf (d log.start)).n = 0) {es : List Event}
    (h : Execution (step log) (start tx d c) es m) : Invariant tx d c m := by
  refine execution_invariant ?_ h (start_invariant tx c hd)
  intro m e t hm ht
  obtain ⟨u, hu, hi⟩ := step_invariant hm e
  cases hu.symm.trans ht
  exact hi

theorem recovery_next (h : Invariant tx d c m) {pc : RecoverPc} (hp : m.pc = .recovery pc) :
    ∃ pc' t, step log m .next = .ok t ∧ Invariant tx d c t ∧ t.pc = .recovery pc' ∧
      recoverStep log m.store pc = .ok (pc', t.store) := by
  obtain ⟨s, _, committed⟩ := m
  dsimp only at hp
  subst hp
  obtain ⟨pc', t, ht, hi⟩ := recoverStep_invariant h
  exact ⟨pc', _, by simp only [step, ht, ok_bind, pure_eq_ok], hi, rfl, ht⟩

theorem copyHome_lh (h : copyHome log s k = .ok t) : t.lh = s.lh := by
  obtain ⟨_, _, h⟩ := bind_eq_ok.mp h
  cases h
  rfl

theorem install_ends (h : Invariant tx d c m) (hp : m.pc = .recovery (.installTrans k))
    (hk : ¬(k : ℤ) < m.store.lh.n) :
    ∃ j t, Execution (step log) m (List.replicate j .next) t ∧ t.pc = .recovery .returned := by
  obtain ⟨pc, t, ht, hi, hpc, hs⟩ := recovery_next h hp
  rw [recoverStep, if_neg hk] at hs
  obtain ⟨hclear, _⟩ := Prod.mk.inj (Except.ok.inj hs)
  subst hclear
  obtain ⟨pc, u, hu, _, hpc', hs⟩ := recovery_next hi hpc
  obtain ⟨_, _, hs⟩ := bind_eq_ok.mp hs
  cases hs
  exact ⟨2, u, .cons ht (.cons hu (.nil u)), hpc'⟩

/-- The loop of `install_trans` ends, by induction on the log blocks still to be copied. -/
theorem install_completes (r : ℕ) (h : Invariant tx d c m)
    (hp : m.pc = .recovery (.installTrans k)) (hr : m.store.lh.n ≤ k + r) :
    ∃ j t, Execution (step log) m (List.replicate j .next) t ∧ t.pc = .recovery .returned := by
  induction r generalizing m k with
  | zero => exact install_ends h hp (by push_cast at hr; omega)
  | succ r ih =>
    by_cases hk : (k : ℤ) < m.store.lh.n
    · obtain ⟨pc, t, ht, hi, hpc, hs⟩ := recovery_next h hp
      rw [recoverStep, if_pos hk] at hs
      obtain ⟨u, hu, hs⟩ := bind_eq_ok.mp hs
      cases hs
      have hlh := copyHome_lh hu
      obtain ⟨j, v, hv, hend⟩ := ih hi hpc (by rw [hlh]; push_cast at hr ⊢; omega)
      exact ⟨j + 1, v, .cons ht hv, hend⟩
    · exact install_ends h hp hk

/-- A recovery that is not interrupted completes. -/
theorem recovery_completes (h : Invariant tx d c m) (hp : m.pc = .recovery .readHead) :
    ∃ j t, Execution (step log) m (List.replicate j .next) t ∧ t.pc = .recovery .returned := by
  obtain ⟨pc, t, ht, hi, hpc, hs⟩ := recovery_next h hp
  obtain ⟨_, _, hs⟩ := bind_eq_ok.mp hs
  cases hs
  obtain ⟨j, u, hu, hend⟩ := install_completes t.store.lh.n.toNat hi hpc (by omega)
  exact ⟨j + 1, u, .cons ht hu, hend⟩

/-- What an interrupted commit leaves behind: after the last recovery the home blocks are
all new if the header had been written, else all old. -/
theorem recovered_blocks {log : LogArea} (tx : Transaction log) (d c : ℤ → Block)
    (hd : (headerOf (d log.start)).n = 0) (events : List Event) (m : Machine)
    (hm : Execution (step log) (start tx d c) events m) (hp : m.pc = .recovery .returned) :
    (headerOf (m.store.disk log.start)).n = 0 ∧
      ∀ b, Home log b → m.store.disk b = contents tx d c m.committed b := by
  have hi := execution_invariant_of_start hd hm
  have hempty : Empty log m.store := by
    have hplaced := hi.placed
    rwa [hp] at hplaced
  exact ⟨hempty, fun b hb => (logical_empty hempty b).symm.trans (hi.view b hb)⟩

def mkfsLog : LogArea := ⟨2, nlog⟩

/-- A transaction of the blocks 100 and 200. -/
def twoBlocks : Transaction mkfsLog where
  lh := ⟨2, fun i => 100 + 100 * i.val⟩
  nonneg := by decide
  room := by decide
  array := by decide
  nodup := by decide
  home := by decide

/-- The power fails when the first block has been copied home and the second has not, and again
at that point of the recovery. -/
def powerFailures : List Event :=
  List.replicate 6 .next ++ .crash :: List.replicate 2 .next ++ .crash :: List.replicate 5 .next

theorem recovered_blocks_two_blocks :
    ∃ m, Execution (step mkfsLog) (start twoBlocks (fun _ _ => 0) fun b _ => b) powerFailures m ∧
      m.store.disk 100 = (fun _ => 100) ∧ m.store.disk 200 = fun _ => 200 := by
  obtain ⟨m, hm, hf⟩ := execution_of_map (step mkfsLog)
    (start twoBlocks (fun _ _ => 0) fun b _ => b) powerFailures (fun m => (m.pc, m.committed))
    (b := (.recovery .returned, true)) (by decide +kernel)
  obtain ⟨hp, hcommitted⟩ := Prod.mk.inj hf
  obtain ⟨-, hblocks⟩ := recovered_blocks twoBlocks _ _ rfl _ m hm hp
  refine ⟨m, hm, ?_, ?_⟩
  · rw [hblocks 100 (by decide), hcommitted]
    rfl
  · rw [hblocks 200 (by decide), hcommitted]
    rfl

end LogRecovery
