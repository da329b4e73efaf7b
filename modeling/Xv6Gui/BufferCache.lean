import Xv6Gui.LinkedRings
import Xv6Gui.WindowManagerState
import Xv6Gui.GuardedRuns
import Mathlib.Data.Fintype.Card
import Mathlib.Data.List.FinRange

/-!
# The buffer cache

bget and brelse of bio.c over the intrusive list of buffers. bget is one section up to its
acquiresleep, which is a step of its own, and brelse gives up the sleep lock before it takes
the lock of the cache. The contents and the disk queue do not decide which buffer is taken.
-/
namespace BufferCache

open WindowManagerState GuardedRuns LinkedRings

abbrev nbuf : ℕ := 30

instance neZero_nbuf : NeZero nbuf := ⟨by decide⟩

/-- The buffers, and `bcache.head` for `none`. -/
abbrev Node := Option (Fin nbuf)

structure Buf where
  dev : ℕ
  blockno : ℕ
  valid : Bool
  dirty : Bool
  refcnt : ℕ
  lock : Option ProcId
  deriving DecidableEq, Repr

/-- Where a process is: in bget with a buffer for the block it asked for, or in brelse with the
sleep lock given up. -/
inductive Place where
  | outside
  | waiting (b : Fin nbuf) (dev blockno : ℕ)
  | releasing (b : Fin nbuf)
  deriving DecidableEq, Repr

def Place.buf : Place → Option (Fin nbuf)
  | .outside => none
  | .waiting b _ _ | .releasing b => some b

def Place.wanted : Place → Option (Fin nbuf)
  | .waiting b _ _ => some b
  | .outside | .releasing _ => none

/-- The cache and its users. The clock counts the releases, and a buffer remembers its last
one; nothing reads either. -/
structure Cache where
  ring : LinkedRings.Ring Node
  buf : Fin nbuf → Buf
  place : ProcId → Place
  clock : ℕ
  released : Fin nbuf → ℕ

/-- Buffers that were never released count as released in the order of `binit`. -/
def binit : Cache where
  ring := (List.finRange nbuf).foldl (fun k b => k.pushFront none (some b))
    ⟨fun _ => none, fun _ => none⟩
  buf _ := ⟨0, 0, false, false, 0, none⟩
  place _ := .outside
  clock := nbuf
  released b := b.val

def updateBuf (s : Cache) (b : Fin nbuf) (f : Buf → Buf) : Cache :=
  { s with buf := Function.update s.buf b (f (s.buf b)) }

def setPlace (s : Cache) (p : ProcId) (place : Place) : Cache :=
  { s with place := Function.update s.place p place }

/-- A loop over the list, forwards or backwards. -/
def search (succ : Node → Node) (P : Fin nbuf → Bool) (first : Node) :
    Except Fault (Option (Fin nbuf)) :=
  match scan none succ (fun x => x.any P) nbuf first with
  | none => .error .diverges
  | some x => .ok x.join

/-- The value of a `uint` after an operation. -/
def u32 (n : ℕ) : ℕ := n % 4294967296

def bget (s : Cache) (dev blockno : ℕ) : Except Fault (Fin nbuf × Cache) := do
  let cached ← search s.ring.next
    (fun b => (s.buf b).dev == dev && (s.buf b).blockno == blockno) (s.ring.next none)
  match cached with
  | some b => return (b, updateBuf s b fun x => { x with refcnt := u32 (x.refcnt + 1) })
  | none => do
    let unused ← search s.ring.prev
      (fun b => (s.buf b).refcnt == 0 && !(s.buf b).dirty) (s.ring.prev none)
    match unused with
    | some b => return (b, updateBuf s b fun x =>
        { x with dev := dev, blockno := blockno, valid := false, dirty := false, refcnt := 1 })
    | none => .error (.panic "bget: no buffers")

/-- The section of `brelse` under the lock of the cache. -/
def drop (s : Cache) (b : Fin nbuf) : Cache :=
  let s := updateBuf s b fun x => { x with refcnt := u32 (x.refcnt + 4294967295) }
  let ring := if (s.buf b).refcnt = 0 then (s.ring.unlink (some b)).pushFront none (some b)
    else s.ring
  { s with ring := ring, clock := s.clock + 1, released := Function.update s.released b s.clock }

inductive Event where
  | bget (p : ProcId) (dev blockno : ℕ)
  | acquire (p : ProcId)
  | mark (p : ProcId) (b : Fin nbuf) (valid dirty : Bool)
  | release (p : ProcId) (b : Fin nbuf)
  | drop (p : ProcId)
  deriving DecidableEq

/-- Only the holder of a buffer changes its flags. -/
def Enabled (s : Cache) : Event → Prop
  | .bget p _ _ | .release p _ => s.place p = .outside
  | .acquire p => ∃ b, (s.place p).wanted = some b ∧ (s.buf b).lock = none
  | .mark p b _ _ => s.place p = .outside ∧ (s.buf b).lock = some p
  | .drop p => ∃ b, s.place p = .releasing b

instance (s : Cache) : (e : Event) → Decidable (Enabled s e)
  | .bget _ _ _ | .release _ _ => inferInstanceAs (Decidable (_ = _))
  | .acquire _ => inferInstanceAs (Decidable (∃ _, _ ∧ _))
  | .mark _ _ _ _ => inferInstanceAs (Decidable (_ ∧ _))
  | .drop _ => inferInstanceAs (Decidable (∃ _, _ = _))

def step (s : Cache) : Event → Except Fault Cache
  | .bget p dev blockno => do
    let (b, s) ← bget s dev blockno
    return setPlace s p (.waiting b dev blockno)
  | .acquire p =>
    match s.place p with
    | .waiting b _ _ =>
      if (s.buf b).lock = none then
        .ok (setPlace (updateBuf s b fun x => { x with lock := some p }) p .outside)
      else .ok s
    | .outside | .releasing _ => .ok s
  | .mark _ b valid dirty =>
    .ok (updateBuf s b fun x => { x with valid := valid, dirty := dirty })
  | .release p b =>
    if (s.buf b).lock = some p then
      .ok (setPlace (updateBuf s b fun x => { x with lock := none }) p (.releasing b))
    else .error (.panic "brelse")
  | .drop p =>
    match s.place p with
    | .releasing b => .ok (setPlace (drop s b) p .outside)
    | .outside | .waiting _ _ _ => .ok s

def SameBlock (x y : Buf) : Prop := x.dev = y.dev ∧ x.blockno = y.blockno

instance (x y : Buf) : Decidable (SameBlock x y) := inferInstanceAs (Decidable (_ ∧ _))

/-- Nobody uses the buffer and the log has not pinned it. -/
def Recyclable (s : Cache) (b : Fin nbuf) : Prop :=
  (s.buf b).refcnt = 0 ∧ (s.buf b).dirty = false

instance (s : Cache) (b : Fin nbuf) : Decidable (Recyclable s b) :=
  inferInstanceAs (Decidable (_ ∧ _))

/-- The list is a ring of all buffers, a block is cached once, and who has asked for a block
has a buffer that stays its own. -/
structure Consistent (s : Cache) : Prop where
  ring : ∃ l : List (Fin nbuf), l.Nodup ∧ (∀ b, b ∈ l) ∧ Threads none s.ring (l.map some)
  inverse : ∀ x : Node, s.ring.next (s.ring.prev x) = x ∧ s.ring.prev (s.ring.next x) = x
  unique : ∀ b c, (s.buf b).dev ≠ 0 → SameBlock (s.buf b) (s.buf c) → b = c
  waiting : ∀ p b dev blockno, s.place p = .waiting b dev blockno →
    (s.buf b).dev = dev ∧ (s.buf b).blockno = blockno ∧ 1 ≤ (s.buf b).refcnt
  held : ∀ p b, (s.buf b).lock = some p → 1 ≤ (s.buf b).refcnt

/-- The processes in bget or brelse with the buffer, and the holder of its lock. -/
def users (s : Cache) (b : Fin nbuf) : ℕ :=
  (Finset.univ.filter fun p => (s.place p).buf = some b).card + (s.buf b).lock.isSome.toNat

/-- `b` stands nearer to the head of the list than `c`. -/
def Newer (s : Cache) (b c : Fin nbuf) : Prop :=
  (s.buf b).refcnt = 0 → (s.buf c).refcnt = 0 → s.released c < s.released b

structure Invariant (s : Cache) : Prop where
  ring : ∃ l : List (Fin nbuf), Threads none s.ring (l.map some) ∧ (∀ b, b ∈ l) ∧
    l.Pairwise (Newer s)
  unique : ∀ b c, (s.buf b).dev ≠ 0 → SameBlock (s.buf b) (s.buf c) → b = c
  counted : ∀ b, (s.buf b).refcnt = users s b
  stamps : ∀ b, s.released b < s.clock
  waiting : ∀ p b dev blockno, s.place p = .waiting b dev blockno →
    (s.buf b).dev = dev ∧ (s.buf b).blockno = blockno

section Lemmas

variable {s t : Cache} {p q : ProcId} {b c : Fin nbuf} {dev blockno : ℕ} {e : Event}
  {l : List (Fin nbuf)}

theorem wanted_eq {place : Place} (h : place.wanted = some b) :
    ∃ dev blockno, place = .waiting b dev blockno := by
  cases place with
  | waiting c dev blockno =>
    cases h
    exact ⟨dev, blockno, rfl⟩
  | outside => cases h
  | releasing c => cases h

theorem push_all {k : LinkedRings.Ring Node} {bs : List (Fin nbuf)}
    (h : Threads none k (l.map some))
    (hbs : bs.Nodup) (hl : ∀ b ∈ bs, b ∉ l) :
    Threads none (bs.foldl (fun k b => k.pushFront none (some b)) k)
      ((bs.reverse ++ l).map some) := by
  induction bs generalizing k l with
  | nil => exact h
  | cons b bs ih =>
    obtain ⟨hb, hbs⟩ := List.nodup_cons.mp hbs
    have hpush : Threads none (k.pushFront none (some b)) ((b :: l).map some) :=
      h.pushFront (by simpa using hl b (by simp)) (by simp)
    have hfold := ih hpush hbs fun c hc hm => by
      rcases List.mem_cons.mp hm with rfl | hm
      · exact hb hc
      · exact hl c (by simp [hc]) hm
    simpa using hfold

theorem length_le (h : Threads none s.ring (l.map some)) : (l.map some).length ≤ nbuf := by
  have hnodup : l.Nodup := h.nodup.of_map
  simpa using List.Nodup.length_le_card hnodup

theorem find_some (l : List (Fin nbuf)) (P : Fin nbuf → Bool) :
    ((l.map some).find? fun x => x.any P).join = l.find? P := by
  rw [List.find?_map]
  change (Option.map some (l.find? P)).join = _
  cases l.find? P <;> rfl

theorem search_next (h : Threads none s.ring (l.map some)) (P : Fin nbuf → Bool) :
    search s.ring.next P (s.ring.next none) = .ok (l.find? P) := by
  rw [search, h.scan_next _ (length_le h)]
  exact congrArg _ (find_some l P)

theorem search_prev (h : Threads none s.ring (l.map some)) (P : Fin nbuf → Bool) :
    search s.ring.prev P (s.ring.prev none) = .ok (l.reverse.find? P) := by
  rw [search, h.scan_prev _ (length_le h), ← List.map_reverse]
  exact congrArg _ (find_some l.reverse P)

def hit (s : Cache) (b : Fin nbuf) : Cache :=
  updateBuf s b fun x => { x with refcnt := u32 (x.refcnt + 1) }

def recycle (s : Cache) (b : Fin nbuf) (dev blockno : ℕ) : Cache :=
  updateBuf s b fun x =>
    { x with dev := dev, blockno := blockno, valid := false, dirty := false, refcnt := 1 }

/-- What bget does: it takes the buffer of the block or, without one, the last recyclable
buffer of the list. -/
theorem bget_eq (h : Threads none s.ring (l.map some)) : bget s dev blockno =
    match l.find? fun b => (s.buf b).dev == dev && (s.buf b).blockno == blockno with
    | some b => .ok (b, hit s b)
    | none =>
      match l.reverse.find? fun b => (s.buf b).refcnt == 0 && !(s.buf b).dirty with
      | some b => .ok (b, recycle s b dev blockno)
      | none => .error (.panic "bget: no buffers") := by
  simp only [bget, search_next h, search_prev h, ok_bind]
  cases l.find? fun b => (s.buf b).dev == dev && (s.buf b).blockno == blockno with
  | some b => rfl
  | none => cases l.reverse.find? fun b => (s.buf b).refcnt == 0 && !(s.buf b).dirty <;> rfl

theorem last_recyclable (hl : ∀ b, b ∈ l) (hnewer : l.Pairwise (Newer s))
    (hb : (l.reverse.find? fun b => (s.buf b).refcnt == 0 && !(s.buf b).dirty) = some b) :
    Recyclable s b ∧ ∀ c, c ≠ b → Recyclable s c → s.released b < s.released c := by
  obtain ⟨hpb, older, newer, hsplit, hnot⟩ := List.find?_eq_some_iff_append.mp hb
  have hrec : Recyclable s b := by simpa [Recyclable] using hpb
  refine ⟨hrec, ?_⟩
  intro c hcb hc
  have hmem : c ∈ older ++ b :: newer := by
    rw [← hsplit]
    exact List.mem_reverse.mpr (hl c)
  have hnewmem : c ∈ newer := by
    rcases List.mem_append.mp hmem with hm | hm
    · simpa [hc.1, hc.2] using hnot c hm
    · exact (List.mem_cons.mp hm).resolve_left hcb
  have hpairs := List.pairwise_reverse.mpr hnewer
  rw [hsplit] at hpairs
  exact (List.pairwise_cons.mp (List.pairwise_append.mp hpairs).2.1).1 c hnewmem hc.1 hrec.1

@[simp] theorem updateBuf_self (s : Cache) (b : Fin nbuf) (f : Buf → Buf) :
    (updateBuf s b f).buf b = f (s.buf b) :=
  Function.update_self _ _ _

theorem updateBuf_of_ne {f : Buf → Buf} (h : c ≠ b) : (updateBuf s b f).buf c = s.buf c :=
  Function.update_of_ne h _ _

@[simp] theorem setPlace_buf (s : Cache) (p : ProcId) (place : Place) :
    (setPlace s p place).buf = s.buf := rfl

@[simp] theorem setPlace_self (s : Cache) (p : ProcId) (place : Place) :
    (setPlace s p place).place p = place :=
  Function.update_self _ _ _

theorem setPlace_of_ne {place : Place} (h : q ≠ p) : (setPlace s p place).place q = s.place q :=
  Function.update_of_ne h _ _

theorem card_place (g : ProcId → Place) (p : ProcId) (b : Fin nbuf) :
    (Finset.univ.filter fun q => (g q).buf = some b).card =
      ((Finset.univ.erase p).filter fun q => (g q).buf = some b).card +
        if (g p).buf = some b then 1 else 0 := by
  rw [← Finset.insert_erase (Finset.mem_univ p), Finset.filter_insert]
  split
  · rw [Finset.card_insert_of_notMem (by simp)]
    simp
  · simp

/-- A process that changes its place moves from the users of one buffer to those of another. -/
theorem users_setPlace (s : Cache) (p : ProcId) (place : Place) (b : Fin nbuf) :
    users (setPlace s p place) b + (if (s.place p).buf = some b then 1 else 0) =
      users s b + if place.buf = some b then 1 else 0 := by
  have hothers : ((Finset.univ.erase p).filter fun q =>
      ((setPlace s p place).place q).buf = some b) =
      (Finset.univ.erase p).filter fun q => (s.place q).buf = some b := by
    refine Finset.filter_congr ?_
    intro q hq
    rw [setPlace_of_ne (Finset.ne_of_mem_erase hq)]
  simp only [users, card_place _ p, hothers, setPlace_self, setPlace_buf]
  omega

theorem users_congr (hplace : t.place = s.place)
    (hlock : (t.buf b).lock.isSome = (s.buf b).lock.isSome) : users t b = users s b := by
  simp only [users, hplace, hlock]

theorem users_le (s : Cache) (b : Fin nbuf) : users s b ≤ 65 := by
  have hcard : (Finset.univ.filter fun p => (s.place p).buf = some b).card ≤ nproc :=
    (Finset.card_le_univ _).trans (by simp)
  have hnproc : nproc = 64 := rfl
  have hlock := Bool.toNat_le (s.buf b).lock.isSome
  simp only [users]
  omega

theorem users_place (h : (s.place p).buf = some b) : 1 ≤ users s b := by
  have hmem : p ∈ Finset.univ.filter fun q => (s.place q).buf = some b := by simp [h]
  have hpos := Finset.card_pos.mpr ⟨p, hmem⟩
  simp only [users]
  omega

theorem users_lock (h : (s.buf b).lock = some p) : 1 ≤ users s b := by
  simp only [users, h, Option.isSome_some, Bool.toNat_true]
  omega

theorem Newer.congr (h : Newer s b c) (href : ∀ b, (t.buf b).refcnt = 0 → (s.buf b).refcnt = 0)
    (hreleased : t.released = s.released) : Newer t b c := by
  intro hb hc
  rw [hreleased]
  exact h (href b hb) (href c hc)

/-- A step that moves a process and a lock, but no count and no block. -/
theorem Invariant.keep (h : Invariant s) (hring : t.ring = s.ring) (hclock : t.clock = s.clock)
    (hreleased : t.released = s.released) (href : ∀ b, (t.buf b).refcnt = (s.buf b).refcnt)
    (hblock : ∀ b, SameBlock (s.buf b) (t.buf b)) (husers : ∀ b, users t b = users s b)
    (hwaiting : ∀ q b dev blockno, t.place q = .waiting b dev blockno →
      s.place q = .waiting b dev blockno) : Invariant t where
  ring := by
    obtain ⟨l, hl, hall, hnewer⟩ := h.ring
    refine ⟨l, hring ▸ hl, hall, hnewer.imp ?_⟩
    exact fun hn => hn.congr (fun b hb => href b ▸ hb) hreleased
  unique b c hdev hsame := by
    obtain ⟨hdb, hbb⟩ := hblock b
    obtain ⟨hdc, hbc⟩ := hblock c
    refine h.unique b c (by rwa [hdb]) ?_
    exact ⟨by rw [hdb, hdc, hsame.1], by rw [hbb, hbc, hsame.2]⟩
  counted b := by rw [href, husers, h.counted]
  stamps b := by
    rw [hreleased, hclock]
    exact h.stamps b
  waiting q b dev blockno hq := by
    obtain ⟨hd, hb⟩ := h.waiting q b dev blockno (hwaiting q b dev blockno hq)
    exact ⟨(hblock b).1.symm.trans hd, (hblock b).2.symm.trans hb⟩

theorem sameBlock_updateBuf {f : Buf → Buf} (hf : SameBlock (s.buf b) (f (s.buf b)))
    (c : Fin nbuf) : SameBlock (s.buf c) ((updateBuf s b f).buf c) := by
  by_cases hc : c = b
  · subst hc
    rwa [updateBuf_self]
  · rw [updateBuf_of_ne hc]
    exact ⟨rfl, rfl⟩

theorem refcnt_updateBuf {f : Buf → Buf} (hf : (f (s.buf b)).refcnt = (s.buf b).refcnt)
    (c : Fin nbuf) : ((updateBuf s b f).buf c).refcnt = (s.buf c).refcnt := by
  by_cases hc : c = b
  · subst hc
    rwa [updateBuf_self]
  · rw [updateBuf_of_ne hc]

/-- Nobody new waits for a buffer after a step that moves a process elsewhere. -/
theorem waiting_setPlace {place : Place} (hw : ∀ b d n, place ≠ .waiting b d n) (q : ProcId)
    (b : Fin nbuf) (d n : ℕ) (hq : (setPlace s p place).place q = .waiting b d n) :
    s.place q = .waiting b d n := by
  by_cases hqp : q = p
  · subst hqp
    rw [setPlace_self] at hq
    exact absurd hq (hw b d n)
  · rwa [setPlace_of_ne hqp] at hq

theorem Invariant.move (h : Invariant s) {f : Buf → Buf} {place : Place}
    (href : (f (s.buf b)).refcnt = (s.buf b).refcnt) (hblock : SameBlock (s.buf b) (f (s.buf b)))
    (husers : ∀ c, users (setPlace (updateBuf s b f) p place) c = users s c)
    (hw : ∀ b d n, place ≠ .waiting b d n) :
    Invariant (setPlace (updateBuf s b f) p place) :=
  h.keep rfl rfl rfl (fun c => refcnt_updateBuf href c) (fun c => sameBlock_updateBuf hblock c)
    husers (fun q b d n hq => waiting_setPlace (s := updateBuf s b f) hw q b d n hq)

/-- A process takes a buffer whose block is, or becomes, the one it has asked for. -/
theorem Invariant.take (h : Invariant s) (hp : s.place p = .outside) {f : Buf → Buf}
    (hlock : (f (s.buf b)).lock = (s.buf b).lock)
    (href : (f (s.buf b)).refcnt = (s.buf b).refcnt + 1)
    (hdev : (f (s.buf b)).dev = dev) (hblockno : (f (s.buf b)).blockno = blockno)
    (hone : ∀ c, c ≠ b → dev ≠ 0 → (s.buf c).dev = dev → (s.buf c).blockno ≠ blockno)
    (hwait : ∀ q d n, s.place q = .waiting b d n → d = dev ∧ n = blockno) :
    Invariant (setPlace (updateBuf s b f) p (.waiting b dev blockno)) := by
  have husers : ∀ c, users (setPlace (updateBuf s b f) p (.waiting b dev blockno)) c =
      users s c + if c = b then 1 else 0 := by
    intro c
    have hmove := users_setPlace (updateBuf s b f) p (.waiting b dev blockno) c
    have hsame : users (updateBuf s b f) c = users s c := by
      refine users_congr rfl ?_
      by_cases hc : c = b
      · rw [hc, updateBuf_self, hlock]
      · rw [updateBuf_of_ne hc]
    rw [hsame, show (updateBuf s b f).place p = .outside from hp] at hmove
    simpa [Place.buf, eq_comm] using hmove
  refine ⟨?_, ?_, ?_, h.stamps, ?_⟩
  · obtain ⟨l, hl, hall, hnewer⟩ := h.ring
    refine ⟨l, hl, hall, hnewer.imp ?_⟩
    intro x y hn
    refine hn.congr ?_ rfl
    intro c hc
    by_cases hcb : c = b
    · rw [hcb, setPlace_buf, updateBuf_self, href] at hc
      omega
    · rwa [setPlace_buf, updateBuf_of_ne hcb] at hc
  · intro c d hc hsame
    simp only [setPlace_buf] at hc hsame
    by_cases hcb : c = b <;> by_cases hdb : d = b
    · rw [hcb, hdb]
    · rw [hcb, updateBuf_self, hdev] at hc
      rw [hcb, updateBuf_self, updateBuf_of_ne hdb, SameBlock, hdev, hblockno] at hsame
      exact absurd hsame.2.symm (hone d hdb hc hsame.1.symm)
    · rw [updateBuf_of_ne hcb] at hc
      rw [hdb, updateBuf_self, updateBuf_of_ne hcb, SameBlock, hdev, hblockno] at hsame
      exact absurd hsame.2 (hone c hcb (hsame.1 ▸ hc) hsame.1)
    · rw [updateBuf_of_ne hcb] at hc
      rw [updateBuf_of_ne hcb, updateBuf_of_ne hdb] at hsame
      exact h.unique c d hc hsame
  · intro c
    rw [husers]
    by_cases hcb : c = b
    · rw [hcb, setPlace_buf, updateBuf_self, href, h.counted, if_pos rfl]
    · rw [setPlace_buf, updateBuf_of_ne hcb, h.counted, if_neg hcb]
      rfl
  · intro q c d n hq
    rw [setPlace_buf]
    by_cases hqp : q = p
    · rw [hqp, setPlace_self] at hq
      cases hq
      exact ⟨by rw [updateBuf_self, hdev], by rw [updateBuf_self, hblockno]⟩
    · rw [setPlace_of_ne hqp] at hq
      by_cases hcb : c = b
      · subst hcb
        obtain ⟨rfl, rfl⟩ := hwait q d n hq
        exact ⟨by rw [updateBuf_self, hdev], by rw [updateBuf_self, hblockno]⟩
      · rw [updateBuf_of_ne hcb]
        exact h.waiting q c d n hq

theorem u32_succ (h : Invariant s) (b : Fin nbuf) :
    u32 ((s.buf b).refcnt + 1) = (s.buf b).refcnt + 1 := by
  have hle := users_le s b
  rw [h.counted, u32]
  omega

/-- What a bget that returns has done, by whether the block was cached. -/
theorem bget_cases (h : Invariant s) (hb : bget s dev blockno = .ok (b, t)) :
    ((s.buf b).dev = dev ∧ (s.buf b).blockno = blockno ∧ t = hit s b) ∨
      ((∀ c, (s.buf c).dev = dev → (s.buf c).blockno ≠ blockno) ∧ Recyclable s b ∧
        (∀ c, c ≠ b → Recyclable s c → s.released b < s.released c) ∧
        t = recycle s b dev blockno) := by
  obtain ⟨l, hl, hall, hnewer⟩ := h.ring
  rw [bget_eq hl] at hb
  split at hb
  · next c hc =>
    cases hb
    have hfound := List.find?_some hc
    simp only [Bool.and_eq_true, beq_iff_eq] at hfound
    exact Or.inl ⟨hfound.1, hfound.2, rfl⟩
  · next hmiss =>
    split at hb
    · next c hc =>
      cases hb
      refine Or.inr ⟨?_, (last_recyclable hall hnewer hc).1, (last_recyclable hall hnewer hc).2,
        rfl⟩
      intro d hd hbn
      have hnone := List.find?_eq_none.mp hmiss d (hall d)
      simp [hd, hbn] at hnone
    · cases hb

theorem bget_invariant (h : Invariant s) (hp : s.place p = .outside)
    (hb : bget s dev blockno = .ok (b, t)) : Invariant (setPlace t p (.waiting b dev blockno)) := by
  rcases bget_cases h hb with ⟨hdev, hblockno, rfl⟩ | ⟨hmiss, hrec, _, rfl⟩
  · refine h.take hp rfl (u32_succ h b) hdev hblockno ?_ ?_
    · intro c hcb hd hcd hcn
      exact hcb (h.unique c b (by rwa [hcd]) ⟨hcd.trans hdev.symm, hcn.trans hblockno.symm⟩)
    · intro q d n hq
      obtain ⟨hd, hn⟩ := h.waiting q b d n hq
      exact ⟨hd.symm.trans hdev, hn.symm.trans hblockno⟩
  · refine h.take hp rfl (by simp [hrec.1]) rfl rfl (fun c _ _ => hmiss c) ?_
    intro q d n hq
    have hused := users_place (b := b) (show (s.place q).buf = some b by rw [hq]; rfl)
    rw [← h.counted, hrec.1] at hused
    cases hused

theorem users_updateBuf_lock (s : Cache) (b c : Fin nbuf) (lock : Option ProcId) :
    users (updateBuf s b fun x => { x with lock := lock }) c +
      (if c = b then (s.buf b).lock.isSome.toNat else 0) =
      users s c + if c = b then lock.isSome.toNat else 0 := by
  by_cases hc : c = b
  · subst hc
    simp only [users, updateBuf_self, if_true]
    rw [show (updateBuf s c fun x => { x with lock := lock }).place = s.place from rfl]
    omega
  · simp only [users, updateBuf_of_ne hc, hc, if_false]
    rfl

theorem acquire_invariant (h : Invariant s) (hp : s.place p = .waiting b dev blockno)
    (hlock : (s.buf b).lock = none) :
    Invariant (setPlace (updateBuf s b fun x => { x with lock := some p }) p .outside) := by
  refine h.move rfl ⟨rfl, rfl⟩ ?_ (fun _ _ _ hw => by cases hw)
  intro c
  have hmove := users_setPlace (updateBuf s b fun x => { x with lock := some p }) p .outside c
  have hheld := users_updateBuf_lock s b c (some p)
  rw [show (updateBuf s b fun x => { x with lock := some p }).place p = .waiting b dev blockno
    from hp] at hmove
  rw [hlock] at hheld
  by_cases hc : c = b
  · subst hc
    simp [Place.buf] at hmove hheld
    omega
  · simp [Place.buf, hc, Ne.symm hc] at hmove hheld
    omega

theorem release_invariant (h : Invariant s) (hp : s.place p = .outside)
    (hlock : (s.buf b).lock = some p) :
    Invariant (setPlace (updateBuf s b fun x => { x with lock := none }) p (.releasing b)) := by
  refine h.move rfl ⟨rfl, rfl⟩ ?_ (fun _ _ _ hw => by cases hw)
  intro c
  have hmove := users_setPlace (updateBuf s b fun x => { x with lock := none }) p (.releasing b) c
  have hheld := users_updateBuf_lock s b c none
  rw [show (updateBuf s b fun x => { x with lock := none }).place p = .outside from hp] at hmove
  rw [hlock] at hheld
  by_cases hc : c = b
  · subst hc
    simp [Place.buf] at hmove hheld
    omega
  · simp [Place.buf, hc, Ne.symm hc] at hmove hheld
    omega

theorem mark_invariant (h : Invariant s) (b : Fin nbuf) (valid dirty : Bool) :
    Invariant (updateBuf s b fun x => { x with valid := valid, dirty := dirty }) := by
  refine h.keep rfl rfl rfl (refcnt_updateBuf rfl) (sameBlock_updateBuf ⟨rfl, rfl⟩) ?_
    fun _ _ _ _ hq => hq
  intro c
  refine users_congr rfl ?_
  by_cases hc : c = b
  · rw [hc, updateBuf_self]
  · rw [updateBuf_of_ne hc]

theorem drop_buf (h : Invariant s) (hp : s.place p = .releasing b) (c : Fin nbuf) :
    (drop s b).buf c =
      if c = b then { s.buf b with refcnt := (s.buf b).refcnt - 1 } else s.buf c := by
  have hle := users_le s b
  have hused := users_place (b := b) (show (s.place p).buf = some b by rw [hp]; rfl)
  rw [← h.counted] at hle hused
  have hdec : u32 ((s.buf b).refcnt + 4294967295) = (s.buf b).refcnt - 1 := by
    rw [u32]
    omega
  change (updateBuf s b fun x => { x with refcnt := u32 (x.refcnt + 4294967295) }).buf c = _
  split
  · next hc => rw [hc, updateBuf_self, hdec]
  · next hc => rw [updateBuf_of_ne hc]

theorem drop_users (h : Invariant s) (hp : s.place p = .releasing b) (c : Fin nbuf) :
    users (setPlace (drop s b) p .outside) c + (if c = b then 1 else 0) = users s c := by
  have hmove := users_setPlace (drop s b) p .outside c
  have hsame : users (drop s b) c = users s c := by
    refine users_congr rfl ?_
    rw [drop_buf h hp]
    split
    · next hc => rw [hc]
    · rfl
  rw [hsame, show (drop s b).place p = .releasing b from hp] at hmove
  simpa [Place.buf, eq_comm] using hmove

theorem drop_released (s : Cache) (b c : Fin nbuf) :
    (drop s b).released c = if c = b then s.clock else s.released c :=
  Function.update_apply _ _ _ _

/-- A buffer that nobody uses any more goes to the front, as the one released last. -/
theorem drop_ring (h : Invariant s) (hp : s.place p = .releasing b) :
    ∃ l : List (Fin nbuf), Threads none (drop s b).ring (l.map some) ∧ (∀ c, c ∈ l) ∧
      l.Pairwise (Newer (drop s b)) := by
  obtain ⟨l, hl, hall, hnewer⟩ := h.ring
  have hnodup : l.Nodup := hl.nodup.of_map
  have hfar : ∀ {c d}, c ≠ b → d ≠ b → Newer s c d → Newer (drop s b) c d := by
    intro c d hc hd hn
    simp only [Newer, drop_buf h hp, drop_released, hc, hd, if_false]
    exact hn
  have hbuf := drop_buf h hp b
  rw [if_pos rfl] at hbuf
  by_cases hz : ((drop s b).buf b).refcnt = 0
  · have hring : (drop s b).ring = (s.ring.unlink (some b)).pushFront none (some b) := if_pos hz
    have hmoved := hl.moveToFront (List.mem_map_of_mem (f := some) (hall b))
    rw [← @List.map_erase _ _ _ _ instBEqOfDecidableEq _ _ (Option.some_injective _) b l,
      ← List.map_cons] at hmoved
    refine ⟨b :: l.erase b, hring ▸ hmoved, ?_, List.pairwise_cons.mpr ⟨?_, ?_⟩⟩
    · intro c
      by_cases hc : c = b
      · simp [hc]
      · exact List.mem_cons_of_mem _ ((List.mem_erase_of_ne hc).mpr (hall c))
    · intro c hc _ _
      have hcb : c ≠ b := (hnodup.mem_erase_iff.mp hc).1
      simp only [drop_released, hcb, if_true, if_false]
      exact h.stamps c
    · have hrest := hnewer.sublist (List.erase_sublist (a := b))
      refine hrest.imp_of_mem ?_
      intro c d hc hd hn
      exact hfar (hnodup.mem_erase_iff.mp hc).1 (hnodup.mem_erase_iff.mp hd).1 hn
  · have hring : (drop s b).ring = s.ring := if_neg hz
    refine ⟨l, hring ▸ hl, hall, hnewer.imp ?_⟩
    intro c d hn hc hd
    have hcb : c ≠ b := fun he => hz (he ▸ hc)
    have hdb : d ≠ b := fun he => hz (he ▸ hd)
    exact hfar hcb hdb hn hc hd

theorem drop_invariant (h : Invariant s) (hp : s.place p = .releasing b) :
    Invariant (setPlace (drop s b) p .outside) := by
  have hsame : ∀ c, SameBlock (s.buf c) ((drop s b).buf c) := by
    intro c
    rw [drop_buf h hp]
    split
    · next hc =>
      subst hc
      exact ⟨rfl, rfl⟩
    · exact ⟨rfl, rfl⟩
  refine ⟨drop_ring h hp, ?_, ?_, ?_, ?_⟩
  · intro c d hc hcd
    refine h.unique c d (by rw [(hsame c).1]; exact hc) ?_
    exact ⟨(hsame c).1.trans (hcd.1.trans (hsame d).1.symm),
      (hsame c).2.trans (hcd.2.trans (hsame d).2.symm)⟩
  · intro c
    have husers := drop_users h hp c
    rw [setPlace_buf, drop_buf h hp]
    split
    · next hc =>
      subst hc
      rw [if_pos rfl, ← h.counted] at husers
      dsimp only
      omega
    · next hc =>
      rw [if_neg hc, ← h.counted] at husers
      omega
  · intro c
    change (drop s b).released c < s.clock + 1
    rw [drop_released]
    have := h.stamps c
    split <;> omega
  · intro q c d n hq
    have hold := waiting_setPlace (s := drop s b) (fun _ _ _ hw => by cases hw) q c d n hq
    obtain ⟨hd, hn⟩ := h.waiting q c d n hold
    exact ⟨(hsame c).1.symm.trans hd, (hsame c).2.symm.trans hn⟩

theorem step_invariant (h : Invariant s) (he : Enabled s e) (ht : step s e = .ok t) :
    Invariant t := by
  cases e with
  | bget p dev blockno =>
    obtain ⟨⟨b, u⟩, hb, ht⟩ := bind_eq_ok.mp ht
    cases ht
    exact bget_invariant h he hb
  | acquire p =>
    obtain ⟨b, hb, hlock⟩ := he
    obtain ⟨dev, blockno, hp⟩ := wanted_eq hb
    simp only [step, hp, hlock, if_true] at ht
    cases ht
    exact acquire_invariant h hp hlock
  | mark p b valid dirty =>
    cases ht
    exact mark_invariant h b valid dirty
  | release p b =>
    simp only [step] at ht
    split at ht
    · next hlock =>
      cases ht
      exact release_invariant h he hlock
    · cases ht
  | drop p =>
    obtain ⟨b, hp⟩ := he
    simp only [step, hp] at ht
    cases ht
    exact drop_invariant h hp

theorem binit_invariant : Invariant binit where
  ring := by
    have hempty : Threads none (⟨fun _ => none, fun _ => none⟩ : LinkedRings.Ring Node)
        (([] : List (Fin nbuf)).map some) := threads_nil rfl rfl
    have hpush := push_all hempty (List.nodup_finRange nbuf) (by simp)
    refine ⟨(List.finRange nbuf).reverse ++ [], hpush, by simp, ?_⟩
    rw [List.append_nil, List.pairwise_reverse]
    refine (List.pairwise_lt_finRange nbuf).imp ?_
    intro b c hbc _ _
    exact hbc
  unique b c hb := absurd rfl hb
  counted b := by simp [binit, users, Place.buf]
  stamps b := b.isLt
  waiting p b dev blockno hp := by cases hp

theorem Invariant.consistent (h : Invariant s) : Consistent s where
  ring := by
    obtain ⟨l, hl, hall, _⟩ := h.ring
    exact ⟨l, hl.nodup.of_map, hall, hl⟩
  inverse x := by
    obtain ⟨l, hl, hall, _⟩ := h.ring
    refine hl.inverse ?_
    cases x with
    | none => exact Or.inl rfl
    | some b => exact Or.inr (List.mem_map_of_mem (hall b))
  unique := h.unique
  waiting p b dev blockno hp := by
    obtain ⟨hd, hn⟩ := h.waiting p b dev blockno hp
    refine ⟨hd, hn, ?_⟩
    rw [h.counted]
    exact users_place (p := p) (by rw [hp]; rfl)
  held p b hlock := by
    rw [h.counted]
    exact users_lock hlock

end Lemmas

end BufferCache
