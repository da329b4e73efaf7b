import Xv6Gui.BufferCache
import Mathlib.Data.Finset.Image

/-!
# Demand for buffers

Readers, the operations that begin_op has admitted and the commit all draw on one pool of
buffers. A buffer is taken while a process uses it and pinned while the log has yet to write
its block, and bget panics when a new block is asked for and no buffer is left.
-/
namespace BufferDemand

open WindowManagerState GuardedRuns LinkedRings BufferCache

abbrev maxOpBlocks : ℕ := 10
abbrev logSize : ℕ := 30

/-- Whether a process is in a transaction, with the blocks it has dirtied, or commits one. -/
inductive Op where
  | outside
  | inside (dirtied : Finset ℕ)
  | committing
  deriving DecidableEq

/-- The cache and what the log keeps in memory: its size on disk, the blocks of the header and
the operations that are outstanding. -/
structure System where
  cache : Cache
  size : ℕ
  blocks : List ℕ
  outstanding : ℕ
  committing : Bool
  op : ProcId → Op

inductive Event where
  | bget (p : ProcId) (dev blockno : ℕ)
  | acquire (p : ProcId)
  | fill (p : ProcId) (b : Fin nbuf)
  | release (p : ProcId) (b : Fin nbuf)
  | drop (p : ProcId)
  | beginOp (p : ProcId)
  | logWrite (p : ProcId) (b : Fin nbuf)
  | endOp (p : ProcId)
  | bwrite (p : ProcId) (b : Fin nbuf)
  | commitDone (p : ProcId)
  deriving DecidableEq

def heldBy (s : System) (p : ProcId) : Finset (Fin nbuf) :=
  Finset.univ.filter fun b => (s.cache.buf b).lock = some p

def Holds (s : System) (p : ProcId) (b : Fin nbuf) : Prop :=
  s.cache.place p = .outside ∧ (s.cache.buf b).lock = some p

def Op.mayDirty : Op → ℕ → Prop
  | .inside dirtied, blockno => (insert blockno dirtied).card ≤ maxOpBlocks
  | .outside, _ | .committing, _ => False

/-- A process holds at most two buffers, all of a device other than 0, and an operation
dirties at most `MAXOPBLOCKS` blocks. The commit writes back every block of the header. -/
def Enabled (s : System) : Event → Prop
  | .bget p dev _ => s.cache.place p = .outside ∧ dev ≠ 0 ∧ (heldBy s p).card ≤ 1
  | .acquire p => BufferCache.Enabled s.cache (.acquire p)
  | .fill p b => Holds s p b ∧ (s.cache.buf b).valid = false
  | .release p _ => s.cache.place p = .outside
  | .drop p => BufferCache.Enabled s.cache (.drop p)
  | .beginOp p => s.op p = .outside
  | .logWrite p b => Holds s p b ∧ (s.op p).mayDirty (s.cache.buf b).blockno
  | .endOp p => s.op p ≠ .outside ∧ s.op p ≠ .committing
  | .bwrite p b => Holds s p b ∧ s.op p = .committing
  | .commitDone p => s.op p = .committing ∧
      ∀ b, (s.cache.buf b).blockno ∈ s.blocks → (s.cache.buf b).dirty = false

instance (s : System) (p : ProcId) (b : Fin nbuf) : Decidable (Holds s p b) :=
  inferInstanceAs (Decidable (_ ∧ _))

instance : (o : Op) → (blockno : ℕ) → Decidable (o.mayDirty blockno)
  | .inside _, _ => inferInstanceAs (Decidable (_ ≤ _))
  | .outside, _ | .committing, _ => inferInstanceAs (Decidable False)

instance (s : System) : (e : Event) → Decidable (Enabled s e)
  | .acquire p => inferInstanceAs (Decidable (BufferCache.Enabled s.cache (.acquire p)))
  | .drop p => inferInstanceAs (Decidable (BufferCache.Enabled s.cache (.drop p)))
  | .release _ _ | .beginOp _ => inferInstanceAs (Decidable (_ = _))
  | .bget _ _ _ | .fill _ _ | .endOp _ | .logWrite _ _ | .bwrite _ _ | .commitDone _ =>
    inferInstanceAs (Decidable (_ ∧ _))

def onCache (s : System) (e : BufferCache.Event) : Except Fault System := do
  let cache ← BufferCache.step s.cache e
  return { s with cache := cache }

def setOp (s : System) (p : ProcId) (op : Op) : System :=
  { s with op := Function.update s.op p op }

def Op.dirty (blockno : ℕ) : Op → Op
  | .inside dirtied => .inside (insert blockno dirtied)
  | .outside => .outside
  | .committing => .committing

/-- An operation that is not admitted sleeps and tries again. -/
def beginOp (s : System) (p : ProcId) : System :=
  if s.committing ∨ s.blocks.length + (s.outstanding + 1) * maxOpBlocks > logSize then s
  else setOp { s with outstanding := s.outstanding + 1 } p (.inside ∅)

def logWrite (s : System) (p : ProcId) (b : Fin nbuf) : Except Fault System :=
  let blockno := (s.cache.buf b).blockno
  if s.blocks.length ≥ logSize ∨ s.blocks.length ≥ s.size - 1 then
    .error (.panic "too big a transaction")
  else if s.outstanding < 1 then .error (.panic "log_write outside of trans")
  else do
    let s ← onCache s (.mark p b (s.cache.buf b).valid true)
    return setOp { s with
      blocks := if blockno ∈ s.blocks then s.blocks else s.blocks ++ [blockno] } p
        ((s.op p).dirty blockno)

def endOp (s : System) (p : ProcId) : Except Fault System :=
  if s.committing then .error (.panic "log.committing")
  else if s.outstanding - 1 = 0 then
    .ok (setOp { s with outstanding := s.outstanding - 1, committing := true } p .committing)
  else .ok (setOp { s with outstanding := s.outstanding - 1 } p .outside)

/-- `fill` is the read of `bread` from the disk and `bwrite` the write; `iderw` leaves the
buffer valid and no longer dirty. -/
def step (s : System) : Event → Except Fault System
  | .bget p dev blockno => onCache s (.bget p dev blockno)
  | .acquire p => onCache s (.acquire p)
  | .fill p b => onCache s (.mark p b true false)
  | .release p b => onCache s (.release p b)
  | .drop p => onCache s (.drop p)
  | .beginOp p => .ok (beginOp s p)
  | .logWrite p b => logWrite s p b
  | .endOp p => endOp s p
  | .bwrite p b => onCache s (.mark p b true false)
  | .commitDone p => .ok (setOp { s with blocks := [], committing := false } p .outside)

def start (size : ℕ) : System := ⟨binit, size, [], 0, false, fun _ => .outside⟩

def blockOf (x : Buf) : ℕ × ℕ := (x.dev, x.blockno)

/-- The blocks that some process uses or the log has pinned. -/
def demanded (s : System) : Finset (ℕ × ℕ) :=
  (Finset.univ.filter fun b => ¬Recyclable s.cache b).image fun b => blockOf (s.cache.buf b)

def FindsBuffer (s : System) (e : Event) : Prop :=
  step s e ≠ .error (.panic "bget: no buffers")

/-- A process that asks for a block outside of the demand finds less than all buffers in
demand. -/
def RoomLeft (s : System) : Event → Prop
  | .bget _ dev blockno => (dev, blockno) ∈ demanded s ∨ (demanded s).card < nbuf
  | _ => True

structure Invariant (s : System) : Prop where
  cache : BufferCache.Invariant s.cache
  used : ∀ b, ¬Recyclable s.cache b → (s.cache.buf b).dev ≠ 0

section Lemmas

variable {s t : System} {c d : Cache} {p : ProcId} {b : Fin nbuf} {dev blockno : ℕ} {e : Event}

/-- A step that makes no buffer busy and moves no block. -/
theorem used_of_calm (hused : ∀ b, ¬Recyclable c b → (c.buf b).dev ≠ 0)
    (hdev : ∀ b, (d.buf b).dev = (c.buf b).dev)
    (hrec : ∀ b, Recyclable c b → Recyclable d b) :
    ∀ b, ¬Recyclable d b → (d.buf b).dev ≠ 0 := by
  intro b hb
  rw [hdev]
  exact hused b fun hc => hb (hrec b hc)

theorem used_take (hused : ∀ b, ¬Recyclable c b → (c.buf b).dev ≠ 0) {f : Buf → Buf}
    (hf : (f (c.buf b)).dev ≠ 0) :
    ∀ x, ¬Recyclable (updateBuf c b f) x → ((updateBuf c b f).buf x).dev ≠ 0 := by
  intro x hx
  by_cases hxb : x = b
  · rwa [hxb, updateBuf_self]
  · simp only [Recyclable, updateBuf_of_ne hxb] at hx ⊢
    exact hused x hx

theorem recyclable_updateBuf {f : Buf → Buf} (href : (f (c.buf b)).refcnt = (c.buf b).refcnt)
    (hdirty : (f (c.buf b)).dirty = (c.buf b).dirty) (x : Fin nbuf) (hx : Recyclable c x) :
    Recyclable (updateBuf c b f) x := by
  by_cases hxb : x = b
  · subst hxb
    simpa only [Recyclable, updateBuf_self, href, hdirty] using hx
  · simpa only [Recyclable, updateBuf_of_ne hxb] using hx

theorem used_lock (hused : ∀ b, ¬Recyclable c b → (c.buf b).dev ≠ 0) (lock : Option ProcId) :
    ∀ x, ¬Recyclable (updateBuf c b fun y => { y with lock := lock }) x →
      ((updateBuf c b fun y => { y with lock := lock }).buf x).dev ≠ 0 :=
  used_of_calm hused (fun x => (sameBlock_updateBuf (b := b) ⟨rfl, rfl⟩ x).1.symm)
    (recyclable_updateBuf rfl rfl)

theorem used_mark (h : BufferCache.Invariant c)
    (hused : ∀ b, ¬Recyclable c b → (c.buf b).dev ≠ 0) {valid dirty : Bool}
    (hlock : (c.buf b).lock = some p) : ∀ x, ¬Recyclable (updateBuf c b fun x =>
      { x with valid := valid, dirty := dirty }) x →
      ((updateBuf c b fun x => { x with valid := valid, dirty := dirty }).buf x).dev ≠ 0 := by
  refine used_take hused (hused b ?_)
  intro hrec
  have hheld := h.consistent.held p b hlock
  rw [hrec.1] at hheld
  cases hheld

theorem cache_used {e : BufferCache.Event} (h : BufferCache.Invariant c)
    (hused : ∀ b, ¬Recyclable c b → (c.buf b).dev ≠ 0) (he : BufferCache.Enabled c e)
    (hdev : ∀ p dev blockno, e = .bget p dev blockno → dev ≠ 0)
    (ht : BufferCache.step c e = .ok d) : ∀ b, ¬Recyclable d b → (d.buf b).dev ≠ 0 := by
  cases e with
  | bget p dev blockno =>
    obtain ⟨⟨b, u⟩, hb, ht⟩ := bind_eq_ok.mp ht
    cases ht
    have hne := hdev p dev blockno rfl
    rcases bget_cases h hb with ⟨hd, _, rfl⟩ | ⟨_, _, _, rfl⟩
    · change ∀ x, ¬Recyclable (hit c b) x → ((hit c b).buf x).dev ≠ 0
      exact used_take hused (hd ▸ hne)
    · change ∀ x, ¬Recyclable (recycle c b dev blockno) x →
        ((recycle c b dev blockno).buf x).dev ≠ 0
      exact used_take hused hne
  | acquire p =>
    obtain ⟨b, hb, hlock⟩ := he
    obtain ⟨dev, blockno, hp⟩ := wanted_eq hb
    simp only [BufferCache.step, hp, hlock, if_true] at ht
    cases ht
    exact used_lock hused _
  | mark p b valid dirty =>
    cases ht
    exact used_mark h hused he.2
  | release p b =>
    simp only [BufferCache.step] at ht
    split at ht
    · cases ht
      exact used_lock hused _
    · cases ht
  | drop p =>
    obtain ⟨b, hp⟩ := he
    simp only [BufferCache.step, hp] at ht
    cases ht
    refine used_of_calm hused ?_ ?_ <;> intro x <;>
      simp only [Recyclable, setPlace_buf, drop_buf h hp] <;> split
    · next hx => rw [hx]
    · rfl
    · next hx =>
      subst hx
      intro hrec
      simp [hrec.1, hrec.2]
    · exact fun hrec => hrec

theorem onCache_invariant {e : BufferCache.Event} (h : Invariant s) (ht : onCache s e = .ok t)
    (he : BufferCache.Enabled s.cache e)
    (hdev : ∀ p dev blockno, e = .bget p dev blockno → dev ≠ 0) : Invariant t := by
  obtain ⟨d, hd, ht⟩ := bind_eq_ok.mp ht
  cases ht
  exact ⟨BufferCache.step_invariant h.cache he hd, cache_used h.cache h.used he hdev hd⟩

theorem Invariant.log (h : Invariant s) (hcache : t.cache = s.cache) : Invariant t := by
  obtain ⟨hc, hu⟩ := h
  rw [← hcache] at hc hu
  exact ⟨hc, hu⟩

theorem step_invariant (h : Invariant s) (he : Enabled s e) (ht : step s e = .ok t) :
    Invariant t := by
  cases e with
  | bget p dev blockno =>
    refine onCache_invariant h ht he.1 ?_
    intro q d n hq
    cases hq
    exact he.2.1
  | acquire p => exact onCache_invariant h ht he nofun
  | fill p b => exact onCache_invariant h ht he.1 nofun
  | release p b => exact onCache_invariant h ht he nofun
  | drop p => exact onCache_invariant h ht he nofun
  | bwrite p b => exact onCache_invariant h ht he.1 nofun
  | beginOp p =>
    cases ht
    simp only [beginOp]
    split
    · exact h
    · exact h.log rfl
  | logWrite p b =>
    simp only [step, logWrite] at ht
    split at ht
    · cases ht
    · split at ht
      · cases ht
      · obtain ⟨u, hu, ht⟩ := bind_eq_ok.mp ht
        cases ht
        exact (onCache_invariant h hu he.1 nofun).log rfl
  | endOp p =>
    simp only [step, endOp] at ht
    split at ht
    · cases ht
    · split at ht <;> cases ht <;> exact h.log rfl
  | commitDone p =>
    cases ht
    exact h.log rfl

theorem start_invariant (size : ℕ) : Invariant (start size) where
  cache := binit_invariant
  used _ hb := absurd ⟨rfl, rfl⟩ hb

/-- bget panics when the block is not cached and every buffer is busy. -/
theorem bget_panics (h : BufferCache.Invariant c) :
    bget c dev blockno = .error (.panic "bget: no buffers") ↔
      (∀ b, ¬((c.buf b).dev = dev ∧ (c.buf b).blockno = blockno)) ∧ ∀ b, ¬Recyclable c b := by
  obtain ⟨l, hl, hall, _⟩ := h.ring
  rw [bget_eq hl]
  split
  · next b hb =>
    have hfound := List.find?_some hb
    simp only [Bool.and_eq_true, beq_iff_eq] at hfound
    exact iff_of_false (fun hp => by cases hp) fun hn => hn.1 b hfound
  · next hmiss =>
    have hnone : ∀ b, ¬((c.buf b).dev = dev ∧ (c.buf b).blockno = blockno) := fun b hb => by
      have hn := List.find?_eq_none.mp hmiss b (hall b)
      simp [hb.1, hb.2] at hn
    split
    · next b hb =>
      have hrec : Recyclable c b := by simpa [Recyclable] using List.find?_some hb
      exact iff_of_false (fun hp => by cases hp) fun hn => hn.2 b hrec
    · next hbusy =>
      refine iff_of_true rfl ⟨hnone, ?_⟩
      intro b hrec
      have hn := List.find?_eq_none.mp hbusy b (List.mem_reverse.mpr (hall b))
      simp [hrec.1, hrec.2] at hn

/-- The busy buffers are for different blocks. -/
theorem card_demanded (h : Invariant s) :
    (demanded s).card = (Finset.univ.filter fun b => ¬Recyclable s.cache b).card := by
  refine Finset.card_image_of_injOn ?_
  intro b hb x _ heq
  simp only [Finset.coe_filter, Finset.mem_univ, true_and, Set.mem_ofPred_eq] at hb
  exact h.cache.unique b x (h.used b hb) (Prod.mk.inj heq)

theorem card_demanded_lt (h : Invariant s) :
    (demanded s).card < nbuf ↔ ∃ b, Recyclable s.cache b := by
  rw [card_demanded h]
  constructor
  · intro hlt
    by_contra hnone
    push Not at hnone
    rw [Finset.filter_true_of_mem fun b _ => hnone b] at hlt
    simp at hlt
  · rintro ⟨b, hb⟩
    have hss : (Finset.univ.filter fun b => ¬Recyclable s.cache b) ⊂ Finset.univ :=
      Finset.filter_ssubset.mpr ⟨b, Finset.mem_univ b, fun hn => hn hb⟩
    simpa using Finset.card_lt_card hss

theorem mem_demanded : (dev, blockno) ∈ demanded s ↔
    ∃ b, ¬Recyclable s.cache b ∧ (s.cache.buf b).dev = dev ∧ (s.cache.buf b).blockno = blockno := by
  simp [demanded, blockOf]

theorem onCache_error {e : BufferCache.Event} {fault : Fault} :
    onCache s e = .error fault ↔ BufferCache.step s.cache e = .error fault := by
  simp only [onCache]
  cases BufferCache.step s.cache e <;> simp

theorem bget_finds_iff (h : Invariant s) :
    FindsBuffer s (.bget p dev blockno) ↔ RoomLeft s (.bget p dev blockno) := by
  have hstep : step s (.bget p dev blockno) = .error (.panic "bget: no buffers") ↔
      bget s.cache dev blockno = .error (.panic "bget: no buffers") := by
    simp only [step, onCache_error, BufferCache.step]
    cases bget s.cache dev blockno <;> simp
  rw [FindsBuffer, ne_eq, hstep, bget_panics h.cache, RoomLeft, card_demanded_lt h, mem_demanded]
  constructor
  · intro hfinds
    by_cases hrec : ∃ b, Recyclable s.cache b
    · exact Or.inr hrec
    · push Not at hrec hfinds
      by_contra hnone
      push Not at hnone
      obtain ⟨b, hb⟩ := hfinds fun b hd => hnone.1 b (hrec b) hd
      exact hrec b hb
  · rintro (⟨b, _, hd, hn⟩ | ⟨b, hb⟩) ⟨hmiss, hbusy⟩
    · exact hmiss b ⟨hd, hn⟩
    · exact hbusy b hb

theorem other_finds (e : Event) (he : ∀ p dev blockno, e ≠ .bget p dev blockno) :
    FindsBuffer s e := by
  simp only [FindsBuffer]
  intro hstep
  cases e with
  | bget p dev blockno => exact he p dev blockno rfl
  | acquire p =>
    simp only [step, onCache_error, BufferCache.step] at hstep
    split at hstep
    · split at hstep <;> cases hstep
    · cases hstep
    · cases hstep
  | release p b =>
    simp only [step, onCache_error, BufferCache.step] at hstep
    split at hstep <;> simp at hstep
  | drop p =>
    simp only [step, onCache_error, BufferCache.step] at hstep
    split at hstep <;> cases hstep
  | logWrite p b =>
    simp only [step, logWrite] at hstep
    split at hstep
    · simp at hstep
    · split at hstep
      · simp at hstep
      · cases hstep
  | endOp p =>
    simp only [step, endOp] at hstep
    split at hstep
    · simp at hstep
    · split at hstep <;> cases hstep
  | fill p b => cases hstep
  | bwrite p b => cases hstep
  | beginOp p => cases hstep
  | commitDone p => cases hstep

theorem finds_iff (h : Invariant s) (e : Event) : FindsBuffer s e ↔ RoomLeft s e := by
  cases e with
  | bget p dev blockno => exact bget_finds_iff h
  | _ => exact iff_of_true (other_finds _ nofun) trivial

end Lemmas

/-- bget never runs out of buffers exactly in the runs in which whoever asks for a block that
is not in demand finds a buffer outside of the demand. -/
theorem finds_buffers_iff (size : ℕ) (events : List Event)
    (he : Along step Enabled (start size) events) :
    Along step FindsBuffer (start size) events ↔ Along step RoomLeft (start size) events :=
  along_iff (fun _ e h _ => finds_iff h e) (fun _ _ _ h he _ => step_invariant h he)
    (start_invariant size) he

/-- A process reads a block while another one is in an operation that changes one. -/
def readAndWrite : List Event :=
  [.bget 0 1 7, .acquire 0, .fill 0 0, .beginOp 1, .bget 1 1 8, .acquire 1, .fill 1 1,
    .logWrite 1 1, .release 1 1, .drop 1, .endOp 1, .bget 1 1 8]

instance (s : System) : (e : Event) → Decidable (RoomLeft s e)
  | .bget _ _ _ => inferInstanceAs (Decidable (_ ∨ _))
  | .acquire _ | .fill _ _ | .release _ _ | .drop _ | .beginOp _ | .logWrite _ _ | .endOp _
  | .bwrite _ _ | .commitDone _ => inferInstanceAs (Decidable True)

theorem finds_buffers_read_and_write : Along step FindsBuffer (start 30) readAndWrite :=
  (finds_buffers_iff 30 readAndWrite (by decide +kernel)).mpr (by decide +kernel)

instance (s : System) (e : Event) : Decidable (FindsBuffer s e) :=
  match h : step s e with
  | .ok t => .isTrue (by simp [FindsBuffer, h])
  | .error fault =>
    decidable_of_iff (fault ≠ .panic "bget: no buffers") (by simp [FindsBuffer, h])

/-- Each of the processes asks for a block of its own. -/
def readers (ps : List ProcId) : List Event := ps.map fun p => .bget p 1 (p.val + 100)

/-- One process more than there are buffers reads, and nobody is in an operation. -/
theorem readers_exhaust_buffers :
    ¬∀ (size : ℕ) (events : List Event), Along step Enabled (start size) events →
      Along step FindsBuffer (start size) events := by
  intro h
  obtain ⟨henabled, hpanics⟩ :
      Along step Enabled (start 30) (readers ((List.finRange nproc).take 31)) ∧
        ¬Along step FindsBuffer (start 30) (readers ((List.finRange nproc).take 31)) := by
    decide +kernel
  exact hpanics (h 30 _ henabled)

end BufferDemand
