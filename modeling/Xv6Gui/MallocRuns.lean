import Mathlib.Data.List.Pairwise
import Xv6Gui.Allocations

/-!
# Runs of malloc and free

A program calls malloc and free and writes to what it was given. sbrk is the kernel's: it fails or
extends the memory of the process. Between the calls the free list is in order, the blocks that
were handed out are off it and apart from each other, and each has room for what was asked for.
-/
namespace MallocRuns

open WordMemory GuardedRuns CircularLists UserMalloc FreeLists Allocations
open WindowManagerState (Fault)

/-- A block that was handed out, and the number of bytes that were asked for. -/
structure Live where
  block : ℕ
  bytes : ℕ
  deriving DecidableEq, Repr

structure System where
  state : State
  live : List Live

inductive Event where
  | malloc (nbytes : Word)
  | free (ap : ℕ)
  | store (a : ℕ) (v : Byte)

/-- Byte `x` has been returned by `sbrk`. -/
def Obtained (calls : List Call) (x : ℕ) : Prop :=
  ∃ c ∈ calls, ∃ p ∈ c.result, p ≤ x ∧ (x : ℤ) < p + c.bytes

/-- sbrk returns memory above `base` that it has not returned before, or fails. -/
def Fresh (base : ℕ) (sbrk : List Call → ℤ → Option ℕ) : Prop :=
  ∀ calls bytes p, sbrk calls bytes = some p → 0 < bytes →
    p % 8 = 0 ∧ base + 8 ≤ p ∧ p + bytes ≤ 4294967296 ∧
      ∀ x : ℕ, p ≤ x → (x : ℤ) < p + bytes → ¬Obtained calls x

section Steps

variable (base : ℕ) (sbrk : List Call → ℤ → Option ℕ) (fuel : ℕ)

/-- The process in front of its first call. -/
def start (mem : Memory) : System := ⟨⟨⟨mem, 0⟩, []⟩, []⟩

def step (s : System) : Event → Except Fault System
  | .malloc nbytes =>
    malloc base sbrk fuel s.state nbytes >>= fun r =>
      .ok ⟨r.2, if r.1 = 0 then s.live else ⟨r.1 - 8, nbytes.toNat⟩ :: s.live⟩
  | .free ap =>
    free fuel s.state.toHeap ap >>= fun h =>
      .ok ⟨⟨h, s.state.calls⟩, s.live.filter fun x => x.block + 8 ≠ ap⟩
  | .store a v => .ok { s with state.mem := Function.update s.state.mem a v }

/-- The byte is the program's: in a block it was given, or no memory of the allocator. -/
def Writable (s : System) (a : ℕ) : Prop :=
  (∃ x ∈ s.live, x.block + 8 ≤ a ∧ a < x.block + 8 + x.bytes) ∨
    ¬(base ≤ a ∧ a < base + 8) ∧ ¬Obtained s.state.calls a

/-- The calls of a program that keeps to the rules. -/
def Allowed (s : System) : Event → Prop
  | .malloc nbytes => 8 * ((nbytes.toNat + 7) / 8 + 1) < 2147483648
  | .free ap => ∃ x ∈ s.live, ap = x.block + 8
  | .store a _ => Writable base s a

instance (s : System) : DecidablePred (Allowed base s)
  | .malloc _ => inferInstanceAs (Decidable (_ < _))
  | .free ap => inferInstanceAs (Decidable (∃ x ∈ s.live, ap = x.block + 8))
  | .store a _ => inferInstanceAs (Decidable ((∃ x ∈ s.live, _) ∨
      ¬_ ∧ ¬∃ c ∈ s.state.calls, ∃ p ∈ c.result, p ≤ a ∧ (a : ℤ) < p + c.bytes))

end Steps

/-- The blocks that were handed out: off the list, with room for the request, and apart. -/
structure LiveBlocks (base : ℕ) (mem : Memory) (l : List ℕ) (live : List Live) : Prop where
  loose : ∀ x ∈ live, Loose base mem l x.block
  payload : ∀ x ∈ live, 8 + x.bytes ≤ 8 * size mem x.block
  apart : live.Pairwise fun x y =>
    ∀ a, Covers (size mem) x.block a → ¬Covers (size mem) y.block a

structure Sound (base : ℕ) (s : System) (l : List ℕ) : Prop where
  list : FreeList base (ptr s.state.mem) (size s.state.mem) l
  entry : s.state.freep ∈ l
  live : LiveBlocks base s.state.mem l s.live

/-- No call yet, or a free list in order and live blocks apart from it and each other. -/
def Good (base : ℕ) (s : System) : Prop :=
  s.state.freep = 0 ∧ s.live = [] ∨ ∃ l, Sound base s l

/-- All blocks are memory that sbrk returned. -/
def Owned (mem : Memory) (calls : List Call) (bs : List ℕ) : Prop :=
  ∀ b ∈ bs, ∀ x, Covers (size mem) b x → Obtained calls x

section Blocks

variable {base : ℕ} {mem mem' : Memory} {l l' : List ℕ} {live live' : List Live}

/-- Live blocks stay as they are where their headers do and the list stays off them. -/
theorem LiveBlocks.transfer (h : LiveBlocks base mem l live)
    (hlist : FreeList base (ptr mem') (size mem') l')
    (hsame : ∀ x ∈ live, ∀ a, x.block ≤ a → a < x.block + 8 → mem' a = mem a)
    (hcovers : ∀ b ∈ l', ∀ a, Covers (size mem') b a →
      ∀ x ∈ live, ¬Covers (size mem) x.block a) :
    LiveBlocks base mem' l' live := by
  have hsize : ∀ x ∈ live, size mem' x.block = size mem x.block :=
    fun x hx => size_congr (hsame x hx)
  refine ⟨?_, ?_, ?_⟩
  · intro x hx
    refine hlist.loose ((h.loose x hx).block.congr (hsize x hx)) ?_
    intro b hb a ha hxa
    exact hcovers b hb a ha x hx (hxa.congr (hsize x hx))
  · intro x hx
    rw [hsize x hx]
    exact h.payload x hx
  · refine h.apart.imp_of_mem ?_
    intro x y hx hy hxy a hxa hya
    exact hxy a (hxa.congr (hsize x hx)) (hya.congr (hsize y hy))

theorem LiveBlocks.sublist (h : LiveBlocks base mem l live) (hsub : live'.Sublist live) :
    LiveBlocks base mem l live' where
  loose x hx := h.loose x (hsub.subset hx)
  payload x hx := h.payload x (hsub.subset hx)
  apart := h.apart.sublist hsub

/-- The header of a live block is in the block. -/
theorem LiveBlocks.covers_header (h : LiveBlocks base mem l live) {x : Live} (hx : x ∈ live)
    {a : ℕ} (ha : x.block ≤ a) (hlt : a < x.block + 8) : Covers (size mem) x.block a := by
  have hpos := (h.loose x hx).block.pos
  exact ⟨ha, by omega⟩

theorem LiveBlocks.taken_same {units q bp : ℕ} (h : LiveBlocks base mem l live)
    (hl : FreeList base (ptr mem) (size mem) l) (ht : Taken base mem l units q bp mem' l') :
    ∀ x ∈ live, ∀ a, x.block ≤ a → a < x.block + 8 → mem' a = mem a := by
  obtain ⟨p, hp, hframe⟩ := ht.frame
  intro x hx a ha hlt
  have hapart := (h.loose x hx).header_apart hl ht.old
  refine hframe a (by omega) ?_
  intro hcov
  exact (h.loose x hx).disjoint hp hcov (h.covers_header hx ha hlt)

/-- The block that malloc takes off the list joins the live blocks. -/
theorem LiveBlocks.taken {units q bp bytes : ℕ} (h : LiveBlocks base mem l live)
    (hl : FreeList base (ptr mem) (size mem) l) (ht : Taken base mem l units q bp mem' l')
    (hbytes : 8 + bytes ≤ 8 * units) : LiveBlocks base mem' l' (⟨bp, bytes⟩ :: live) := by
  obtain ⟨p, hp, hinside⟩ := ht.inside
  have hsame := h.taken_same hl ht
  have hrest : LiveBlocks base mem' l' live := by
    refine h.transfer ht.list hsame ?_
    intro b hb a ha x hx
    obtain ⟨hcov, hmem⟩ := ht.covers b hb a ha
    exact (h.loose x hx).disjoint hmem hcov
  refine ⟨?_, ?_, ?_⟩
  · exact List.forall_mem_cons.mpr ⟨ht.loose, hrest.loose⟩
  · refine List.forall_mem_cons.mpr ⟨?_, hrest.payload⟩
    rw [ht.units]
    exact hbytes
  · refine List.pairwise_cons.mpr ⟨?_, hrest.apart⟩
    intro x hx a ha hxa
    exact (h.loose x hx).disjoint hp (hinside a ha) (hxa.congr (size_congr (hsame x hx)))

theorem LiveBlocks.freed_same {p bp : ℕ} (h : LiveBlocks base mem l live)
    (hl : FreeList base (ptr mem) (size mem) l) (hb : Loose base mem l bp)
    (hapart : ∀ x ∈ live, ∀ a, Covers (size mem) bp a → ¬Covers (size mem) x.block a)
    (hf : Freed base mem l p bp mem' l') :
    ∀ x ∈ live, ∀ a, x.block ≤ a → a < x.block + 8 → mem' a = mem a := by
  intro x hx a ha hlt
  have hheader := (h.loose x hx).header_apart hl hf.old
  have hpos := hb.block.pos
  refine hf.frame a (by omega) ?_
  by_contra hin
  rw [not_or] at hin
  exact hapart x hx a ⟨by omega, by omega⟩ (h.covers_header hx ha hlt)

/-- The live blocks beside one that is put back. -/
theorem LiveBlocks.freed {p bp : ℕ} (h : LiveBlocks base mem l live)
    (hl : FreeList base (ptr mem) (size mem) l) (hb : Loose base mem l bp)
    (hapart : ∀ x ∈ live, ∀ a, Covers (size mem) bp a → ¬Covers (size mem) x.block a)
    (hf : Freed base mem l p bp mem' l') : LiveBlocks base mem' l' live := by
  refine h.transfer hf.list (h.freed_same hl hb hapart hf) ?_
  intro b hb' a ha x hx
  obtain ⟨c, hc, hcov⟩ := hf.covers b hb' a ha
  rcases List.mem_cons.mp hc with rfl | hc
  · exact hapart x hx a hcov
  · exact (h.loose x hx).disjoint hc hcov

end Blocks

/-- What holds between the calls: the blocks are in order, and they are memory from sbrk. -/
structure Kept (base : ℕ) (s : System) (l : List ℕ) : Prop where
  sound : Sound base s l
  owned : Owned s.state.mem s.state.calls (l ++ s.live.map Live.block)

section Morecore

variable {base n units : ℕ} {sbrk : List Call → ℤ → Option ℕ} {s : State} {l : List ℕ}
  {live : List Live}

theorem not_obtained_nil {x : ℕ} : ¬Obtained [] x := by
  rintro ⟨c, hc, -⟩
  exact absurd hc List.not_mem_nil

theorem obtained_cons {c : Call} {calls : List Call} {x : ℕ} :
    Obtained (c :: calls) x ↔
      (∃ p ∈ c.result, p ≤ x ∧ (x : ℤ) < p + c.bytes) ∨ Obtained calls x := by
  rw [Obtained, List.exists_mem_cons_iff, Obtained]

theorem Obtained.cons {calls : List Call} {x : ℕ} (h : Obtained calls x) (c : Call) :
    Obtained (c :: calls) x := obtained_cons.mpr (.inr h)

theorem bytes_eq {nu : ℕ} (h : 8 * nu < 2147483648) :
    (BitVec.ofNat 32 (nu * 8)).toInt = (8 * nu : ℕ) := by
  have hnat : (BitVec.ofNat 32 (nu * 8)).toNat = 8 * nu := by
    rw [BitVec.toNat_ofNat]
    omega
  rw [BitVec.toInt_eq_toNat_of_lt (by omega), hnat]

/-- New memory at `p`, with its size written into its header, beside all other blocks. -/
structure Added (base : ℕ) (mem : Memory) (l : List ℕ) (live : List Live) (p : ℕ) (mem' : Memory) :
    Prop where
  list : FreeList base (ptr mem') (size mem') l
  loose : Loose base mem' l p
  blocks : LiveBlocks base mem' l live
  apart : ∀ x ∈ live, ∀ a, Covers (size mem') p a → ¬Covers (size mem') x.block a
  sizes : ∀ b ∈ l ++ live.map Live.block, size mem' b = size mem b

theorem Kept.adds {p : ℕ} (h : Kept base ⟨s, live⟩ l) (nu : ℕ) (hnu : 0 < nu) (hp : p % 8 = 0)
    (habove : base + 8 ≤ p) (hfits : p + 8 * nu ≤ 4294967296)
    (hnew : ∀ x, p ≤ x → x < p + 8 * nu → ¬Obtained s.calls x) :
    Added base s.mem l live p (setSize s.mem p nu) := by
  have hlist : FreeList base (ptr s.mem) (size s.mem) l := h.sound.list
  have hlive : LiveBlocks base s.mem l live := h.sound.live
  have hkeep := keeps_setSize s.mem p nu
  have hpsize : size (setSize s.mem p nu) p = nu := size_setSize (by omega)
  have howned : ∀ b ∈ l ++ live.map Live.block, ∀ a, Covers (size s.mem) b a →
      a < p ∨ p + 8 * nu ≤ a := by
    intro b hb a ha
    by_contra hin
    rw [not_or] at hin
    exact hnew a (by omega) (by omega) (h.owned b hb a ha)
  have hblocks : ∀ b ∈ l, ptr (setSize s.mem p nu) b = ptr s.mem b ∧
      size (setSize s.mem p nu) b = size s.mem b := by
    intro b hb
    apply hkeep.header
    by_cases hbase : b = base
    · exact .inl (hbase ▸ habove)
    · have hpos := (hlist.blocks b hb hbase).pos
      have hmem := List.mem_append_left (live.map Live.block) hb
      have hfirst := howned b hmem b ⟨le_refl _, by omega⟩
      have hlast := howned b hmem (b + 7) ⟨by omega, by omega⟩
      omega
  have hlist' : FreeList base (ptr (setSize s.mem p nu)) (size (setSize s.mem p nu)) l :=
    hlist.congr (fun b hb => (hblocks b hb).1) fun b hb => (hblocks b hb).2
  have howned' : ∀ b ∈ l, ∀ a, Covers (size (setSize s.mem p nu)) b a →
      a < p ∨ p + 8 * nu ≤ a := fun b hb a ha =>
    howned b (List.mem_append_left _ hb) a (ha.congr (hblocks b hb).2)
  have hlivemem : ∀ x ∈ live, x.block ∈ l ++ live.map Live.block := fun x hx =>
    List.mem_append_right _ (List.mem_map_of_mem hx)
  have hsame : ∀ x ∈ live, ∀ a, x.block ≤ a → a < x.block + 8 →
      setSize s.mem p nu a = s.mem a := by
    intro x hx a ha hlt
    have hout := howned x.block (hlivemem x hx) a (hlive.covers_header hx ha hlt)
    exact hkeep a (by omega)
  refine ⟨hlist', ?_, ?_, ?_, ?_⟩
  · refine hlist'.loose ⟨?_, habove, hp, ?_⟩ ?_
    · rwa [hpsize]
    · rwa [hpsize]
    · intro b hb a ha hpa
      have hout := howned' b hb a ha
      rw [Covers, hpsize] at hpa
      omega
  · refine hlive.transfer hlist' hsame ?_
    intro b hb a ha x hx
    exact (hlive.loose x hx).disjoint hb (ha.congr (hblocks b hb).2)
  · intro x hx a ha hxa
    have hout := howned x.block (hlivemem x hx) a (hxa.congr (size_congr (hsame x hx)))
    rw [Covers, hpsize] at ha
    omega
  · intro b hb
    rcases List.mem_append.mp hb with hb | hb
    · exact (hblocks b hb).2
    · obtain ⟨x, hx, rfl⟩ := List.mem_map.mp hb
      exact size_congr (hsame x hx)

/-- morecore fails, or puts a block into the list that is large enough. -/
theorem morecore_adds (h : Kept base ⟨s, live⟩ l) (hfresh : Fresh base sbrk) (hpos : 0 < base)
    (hu : 8 * units < 2147483648) (hn : l.length ≤ n) :
    (∃ c, morecore sbrk n s units = .ok (0, { s with calls := c :: s.calls })) ∨
      ∃ s' l', morecore sbrk n s units = .ok (s'.freep, s') ∧ Kept base ⟨s', live⟩ l' ∧
        l'.length ≤ l.length + 1 ∧ ∃ b ∈ l', units ≤ size s'.mem b := by
  unfold morecore
  generalize hnu : (if units < 4096 then 4096 else units) = nu
  have hlarge : 4096 ≤ nu ∧ units ≤ nu ∧ 8 * nu < 2147483648 := by
    subst hnu
    split <;> omega
  dsimp only
  rw [bytes_eq hlarge.2.2]
  cases hsbrk : sbrk s.calls (8 * nu : ℕ) with
  | none => exact .inl ⟨_, rfl⟩
  | some p =>
    right
    obtain ⟨hp, habove, hfits, hnew⟩ := hfresh _ _ _ hsbrk (by omega)
    have hadded : Added base s.mem l live p (setSize s.mem p nu) :=
      h.adds nu (by omega) hp habove (by omega) fun x hx hlt => hnew x hx (by omega)
    have hpsize : size (setSize s.mem p nu) p = nu := size_setSize (by omega)
    obtain ⟨q, mem', l', hfree, hfreed⟩ :=
      free_frees hadded.list hpos hadded.loose h.sound.entry hn
    have hlive := hadded.blocks.freed hadded.list hadded.loose hadded.apart hfreed
    have hsame := hadded.blocks.freed_same hadded.list hadded.loose hadded.apart hfreed
    have hold : ∀ b ∈ l ++ live.map Live.block, ∀ x, Covers (size (setSize s.mem p nu)) b x →
        Obtained (⟨(8 * nu : ℕ), some p⟩ :: s.calls) x := fun b hb x hx =>
      (h.owned b hb x (hx.congr (hadded.sizes b hb))).cons _
    refine ⟨⟨⟨mem', q⟩, ⟨(8 * nu : ℕ), some p⟩ :: s.calls⟩, l', ?_,
      ⟨⟨hfreed.list, hfreed.entry, hlive⟩, ?_⟩, hfreed.length, ?_⟩
    · exact bind_eq_ok.mpr ⟨_, hfree, rfl⟩
    · intro b hb x hx
      rcases List.mem_append.mp hb with hb | hb
      · obtain ⟨c, hc, hcx⟩ := hfreed.covers b hb x hx
        rcases List.mem_cons.mp hc with rfl | hc
        · rw [Covers, hpsize] at hcx
          have hlt : (x : ℤ) < c + (8 * nu : ℕ) := by omega
          exact ⟨_, List.mem_cons_self, c, rfl, hcx.1, hlt⟩
        · exact hold c (List.mem_append_left _ hc) x hcx
      · obtain ⟨y, hy, rfl⟩ := List.mem_map.mp hb
        exact hold y.block (List.mem_append_right _ hb) x (hx.congr (size_congr (hsame y hy)))
    · obtain ⟨b, hb, hsize⟩ := hfreed.large
      rw [hpsize] at hsize
      exact ⟨b, hb, hlarge.2.1.trans hsize⟩

/-- The walk to a block that is large enough, and what it leaves. -/
theorem Kept.finds {k bytes : ℕ} (h : Kept base ⟨s, live⟩ l)
    (sbrk : List Call → ℤ → Option ℕ) (n : ℕ) (hu : 0 < units)
    (hlarge : ∃ b ∈ l, units ≤ size s.mem b) (hk : l.length ≤ k) (hbytes : 8 + bytes ≤ 8 * units) :
    ∃ bp s' l', mallocLoop sbrk n units k s s.freep (ptr s.mem s.freep) = .ok (bp + 8, s') ∧
      Kept base ⟨s', ⟨bp, bytes⟩ :: live⟩ l' ∧ l'.length ≤ l.length := by
  have hlist : FreeList base (ptr s.mem) (size s.mem) l := h.sound.list
  have hlive : LiveBlocks base s.mem l live := h.sound.live
  obtain ⟨q, bp, mem', l', hloop, htaken⟩ :=
    mallocLoop_finds sbrk n hlist h.sound.entry hu hlarge hk
  refine ⟨bp, ⟨⟨mem', q⟩, s.calls⟩, l', hloop, ⟨⟨htaken.list, htaken.entry,
    hlive.taken hlist htaken hbytes⟩, ?_⟩, htaken.length⟩
  have hsame := hlive.taken_same hlist htaken
  intro b hb x hx
  rw [List.map_cons] at hb
  rcases List.mem_append.mp hb with hb | hb
  · obtain ⟨hcov, hmem⟩ := htaken.covers b hb x hx
    exact h.owned b (List.mem_append_left _ hmem) x hcov
  · rcases List.mem_cons.mp hb with rfl | hb
    · obtain ⟨p, hp, hinside⟩ := htaken.inside
      exact h.owned p (List.mem_append_left _ hp) x (hinside x hx)
    · obtain ⟨y, hy, rfl⟩ := List.mem_map.mp hb
      exact h.owned y.block (List.mem_append_right _ hb) x (hx.congr (size_congr (hsame y hy)))

theorem Kept.freep_ne (h : Kept base ⟨s, live⟩ l) (hpos : 0 < base) : s.freep ≠ 0 := by
  have hle := h.sound.list.base_le h.sound.entry
  change base ≤ s.freep at hle
  omega

/-- Without a block that is large enough the whole list is walked once before morecore is asked. -/
theorem Kept.asks (h : Kept base ⟨s, live⟩ l) (sbrk : List Call → ℤ → Option ℕ) (n : ℕ)
    (hsmall : ∀ b ∈ l, size s.mem b < units) (hn : l.length ≤ n) :
    ∃ k, n = l.length + k ∧ mallocLoop sbrk n units n s s.freep (ptr s.mem s.freep) =
      morecore sbrk n s units >>= fun r =>
        if r.1 = 0 then .ok (0, r.2)
        else mallocLoop sbrk n units k r.2 r.1 (ptr r.2.mem r.1) := by
  obtain ⟨k, hk⟩ : ∃ k, n = l.length + k := ⟨n - l.length, by omega⟩
  have hasks := mallocLoop_asks sbrk n (k := k) h.sound.list h.sound.entry hsmall
  rw [← hk] at hasks
  exact ⟨k, hk, hasks⟩

/-- malloc on a list in order returns null and changes nothing, or hands out a block. -/
theorem mallocLoop_allocates {bytes : ℕ} (h : Kept base ⟨s, live⟩ l) (hfresh : Fresh base sbrk)
    (hpos : 0 < base) (hu : 0 < units) (hsize : 8 * units < 2147483648)
    (hbytes : 8 + bytes ≤ 8 * units) (hn : 2 * l.length + 1 ≤ n) :
    (∃ s', mallocLoop sbrk n units n s s.freep (ptr s.mem s.freep) = .ok (0, s') ∧
      Kept base ⟨s', live⟩ l) ∨
    ∃ bp s' l', mallocLoop sbrk n units n s s.freep (ptr s.mem s.freep) = .ok (bp + 8, s') ∧
      Kept base ⟨s', ⟨bp, bytes⟩ :: live⟩ l' ∧ l'.length ≤ l.length + 1 := by
  by_cases hlarge : ∃ b ∈ l, units ≤ size s.mem b
  · right
    obtain ⟨bp, s', l', hloop, hkept, hlen⟩ :=
      h.finds sbrk n (k := n) hu hlarge (by omega) hbytes
    exact ⟨bp, s', l', hloop, hkept, by omega⟩
  · have hsmall : ∀ b ∈ l, size s.mem b < units := fun b hb =>
      not_le.mp fun hle => hlarge ⟨b, hb, hle⟩
    obtain ⟨k, hk, hasks⟩ := h.asks sbrk n hsmall (by omega)
    rw [hasks]
    rcases morecore_adds (n := n) h hfresh hpos hsize (by omega) with ⟨c, hmore⟩ |
      ⟨s', l', hmore, hkept, hlen, hadded⟩
    · left
      have hsound : Sound base ⟨{ s with calls := c :: s.calls }, live⟩ l :=
        ⟨h.sound.list, h.sound.entry, h.sound.live⟩
      refine ⟨{ s with calls := c :: s.calls }, ?_, hsound, ?_⟩
      · rw [hmore, ok_bind, if_pos rfl]
      · exact fun b hb x hx => (h.owned b hb x hx).cons c
    · right
      obtain ⟨bp, s'', l'', hloop, hkept', hlen'⟩ :=
        hkept.finds sbrk n (k := k) hu hadded (by omega) hbytes
      refine ⟨bp, s'', l'', ?_, hkept', by omega⟩
      rw [hmore, ok_bind, if_neg (hkept.freep_ne hpos)]
      exact hloop

end Morecore

section Runs

variable {base fuel k : ℕ} {sbrk : List Call → ℤ → Option ℕ} {s : System} {l : List ℕ}

/-- The invariant of the runs, with a bound on the length of the list. -/
def Ready (base k : ℕ) (s : System) : Prop :=
  s.state.freep = 0 ∧ s.live = [] ∨ ∃ l, Kept base s l ∧ l.length ≤ k

theorem Ready.good (h : Ready base k s) : Good base s :=
  h.imp_right fun ⟨l, hl, _⟩ => ⟨l, hl.sound⟩

/-- The first call of malloc makes a list of the empty block `base`. -/
theorem first_kept (hbase : base + 8 ≤ 4294967296) (mem : Memory) (calls : List Call) :
    Kept base ⟨⟨⟨setSize (setPtr mem base base) base 0, base⟩, calls⟩, []⟩ [base] := by
  have hsize : size (setSize (setPtr mem base base) base 0) base = 0 := size_setSize (by decide)
  have hptr : ptr (setSize (setPtr mem base base) base 0) base = base :=
    ptr_setSize.trans (ptr_setPtr (by omega))
  have hlist : FreeList base (ptr (setSize (setPtr mem base base) base 0))
      (size (setSize (setPtr mem base base) base 0)) [base] := by
    refine ⟨rfl, ⟨hptr, trivial⟩, List.pairwise_singleton _ _, hsize, ?_⟩
    intro b hb hne
    exact absurd (List.mem_singleton.mp hb) hne
  have hlive : LiveBlocks base (setSize (setPtr mem base base) base 0) [base] [] := by
    refine ⟨?_, ?_, List.Pairwise.nil⟩ <;> exact fun x hx => absurd hx List.not_mem_nil
  refine ⟨⟨hlist, List.mem_singleton_self base, hlive⟩, ?_⟩
  intro b hb x hx
  rw [List.mem_singleton.mp hb, Covers] at hx
  change base ≤ x ∧ x < base + 8 * size (setSize (setPtr mem base base) base 0) base at hx
  rw [hsize] at hx
  omega

theorem malloc_allocates {st : State} {live : List Live} {nbytes : Word}
    (h : Ready base k ⟨st, live⟩) (hfresh : Fresh base sbrk) (hpos : 0 < base)
    (hbase : base + 8 ≤ 4294967296) (hk : 0 < k)
    (hsize : 8 * ((nbytes.toNat + 7) / 8 + 1) < 2147483648) (hfuel : 2 * k + 1 ≤ fuel) :
    (∃ st', malloc base sbrk fuel st nbytes = .ok (0, st') ∧ Ready base k ⟨st', live⟩) ∨
    ∃ bp st', malloc base sbrk fuel st nbytes = .ok (bp + 8, st') ∧
      Ready base (k + 1) ⟨st', ⟨bp, nbytes.toNat⟩ :: live⟩ := by
  have hunits : nunits nbytes = (nbytes.toNat + 7) / 8 + 1 := by
    rw [nunits, Nat.mod_eq_of_lt (by omega)]
  have hloop : ∀ (s : State) (l : List ℕ), Kept base ⟨s, live⟩ l → l.length ≤ k →
      (∃ s', mallocLoop sbrk fuel (nunits nbytes) fuel s s.freep (ptr s.mem s.freep) =
        .ok (0, s') ∧ Ready base k ⟨s', live⟩) ∨
      ∃ bp s', mallocLoop sbrk fuel (nunits nbytes) fuel s s.freep (ptr s.mem s.freep) =
        .ok (bp + 8, s') ∧ Ready base (k + 1) ⟨s', ⟨bp, nbytes.toNat⟩ :: live⟩ := by
    intro s l hkept hl
    rcases mallocLoop_allocates hkept hfresh hpos (show 0 < nunits nbytes by omega) (by omega)
      (show 8 + nbytes.toNat ≤ 8 * nunits nbytes by omega)
      (show 2 * l.length + 1 ≤ fuel by omega) with
      ⟨s', hs', hk'⟩ | ⟨bp, s', l', hs', hk', hlen⟩
    · exact .inl ⟨s', hs', .inr ⟨l, hk', hl⟩⟩
    · exact .inr ⟨bp, s', hs', .inr ⟨l', hk', by omega⟩⟩
  unfold malloc
  rcases h with ⟨hfirst, hlive⟩ | ⟨l, hkept, hl⟩
  · change st.freep = 0 at hfirst
    change live = [] at hlive
    subst hlive
    dsimp only
    rw [if_pos hfirst]
    exact hloop _ [base] (first_kept hbase st.mem st.calls) hk
  · dsimp only
    rw [if_neg (hkept.freep_ne hpos)]
    exact hloop st l hkept hl

theorem LiveBlocks.pair_apart {mem : Memory} {live : List Live} {x y : Live}
    (h : LiveBlocks base mem l live) (hx : x ∈ live) (hy : y ∈ live) (hne : x ≠ y) (a : ℕ)
    (ha : Covers (size mem) x.block a) : ¬Covers (size mem) y.block a := by
  have hsymm : Std.Symm fun x y : Live =>
      ∀ a, Covers (size mem) x.block a → ¬Covers (size mem) y.block a :=
    ⟨fun x y hxy a hya hxa => hxy a hxa hya⟩
  exact h.apart.forall hx hy hne a ha

/-- A live block goes back to the list, and the others stay. -/
theorem free_returns {st : State} {live : List Live} {x : Live} (h : Kept base ⟨st, live⟩ l)
    (hpos : 0 < base) (hx : x ∈ live) (hfuel : l.length ≤ fuel) :
    ∃ heap l', free fuel st.toHeap (x.block + 8) = .ok heap ∧
      Kept base ⟨⟨heap, st.calls⟩, live.filter fun y => y.block + 8 ≠ x.block + 8⟩ l' ∧
      l'.length ≤ l.length + 1 := by
  have hlist : FreeList base (ptr st.mem) (size st.mem) l := h.sound.list
  have hlive : LiveBlocks base st.mem l live := h.sound.live
  have hothers := hlive.sublist (List.filter_sublist (p := fun y => y.block + 8 ≠ x.block + 8))
  have hloose : Loose base st.mem l x.block := hlive.loose x hx
  obtain ⟨p, mem', l', hfree, hfreed⟩ := free_frees hlist hpos hloose h.sound.entry hfuel
  have hapart : ∀ y ∈ live.filter fun y => y.block + 8 ≠ x.block + 8, ∀ a,
      Covers (size st.mem) x.block a → ¬Covers (size st.mem) y.block a := by
    intro y hy
    obtain ⟨hmem, hne⟩ := List.mem_filter.mp hy
    refine hlive.pair_apart hx hmem ?_
    rintro rfl
    exact of_decide_eq_true hne rfl
  have hsame := hothers.freed_same hlist hloose hapart hfreed
  refine ⟨⟨mem', p⟩, l', hfree, ⟨⟨hfreed.list, hfreed.entry,
    hothers.freed hlist hloose hapart hfreed⟩, ?_⟩, hfreed.length⟩
  intro b hb a ha
  have hmem : ∀ y ∈ live, y.block ∈ l ++ live.map Live.block := fun y hy =>
    List.mem_append_right _ (List.mem_map_of_mem hy)
  rcases List.mem_append.mp hb with hb | hb
  · obtain ⟨c, hc, hca⟩ := hfreed.covers b hb a ha
    rcases List.mem_cons.mp hc with rfl | hc
    · exact h.owned x.block (hmem x hx) a hca
    · exact h.owned c (List.mem_append_left _ hc) a hca
  · obtain ⟨y, hy, rfl⟩ := List.mem_map.mp hb
    have hsize := size_congr (hsame y hy)
    exact h.owned y.block (hmem y (List.mem_filter.mp hy).1) a (ha.congr hsize)

/-- No header is at a byte that the program may write to. -/
theorem Kept.outside {a b : ℕ} (h : Kept base s l) (hw : Writable base s a)
    (hb : b ∈ l ++ s.live.map Live.block) : a < b ∨ b + 8 ≤ a := by
  by_contra hin
  rw [not_or] at hin
  have hlive := h.sound.live
  have hcovers : b ≠ base → Covers (size s.state.mem) b a := by
    intro hne
    have hpos : 0 < size s.state.mem b := by
      rcases List.mem_append.mp hb with hb | hb
      · exact (h.sound.list.blocks b hb hne).pos
      · obtain ⟨y, hy, rfl⟩ := List.mem_map.mp hb
        exact (hlive.loose y hy).block.pos
    exact ⟨by omega, by omega⟩
  rcases hw with ⟨x, hx, hle, hlt⟩ | ⟨hbase, hnot⟩
  · have habove := (hlive.loose x hx).block.above
    have hroom := hlive.payload x hx
    have hbcov := hcovers (by omega)
    have hxcov : Covers (size s.state.mem) x.block a := ⟨by omega, by omega⟩
    rcases List.mem_append.mp hb with hb | hb
    · exact (hlive.loose x hx).disjoint hb hbcov hxcov
    · obtain ⟨y, hy, rfl⟩ := List.mem_map.mp hb
      by_cases hxy : x = y
      · rw [hxy] at hle
        omega
      · exact hlive.pair_apart hx hy hxy a hxcov hbcov
  · by_cases hne : b = base
    · omega
    · exact hnot (h.owned b hb a (hcovers hne))

/-- What the program writes leaves all headers as they are. -/
theorem Kept.store {a : ℕ} (h : Kept base s l) (hw : Writable base s a) (v : Byte) :
    Kept base { s with state.mem := Function.update s.state.mem a v } l := by
  have hsame : ∀ b ∈ l ++ s.live.map Live.block, ∀ c, b ≤ c → c < b + 8 →
      Function.update s.state.mem a v c = s.state.mem c := by
    intro b hb c hle hlt
    have hout := h.outside hw hb
    exact Function.update_of_ne (by omega) _ _
  have hlivemem : ∀ x ∈ s.live, x.block ∈ l ++ s.live.map Live.block := fun x hx =>
    List.mem_append_right _ (List.mem_map_of_mem hx)
  have hfree : ∀ b ∈ l, ∀ c, b ≤ c → c < b + 8 →
      Function.update s.state.mem a v c = s.state.mem c := fun b hb =>
    hsame b (List.mem_append_left _ hb)
  have hlist : FreeList base (ptr (Function.update s.state.mem a v))
      (size (Function.update s.state.mem a v)) l :=
    h.sound.list.congr (fun b hb => ptr_congr (hfree b hb)) fun b hb => size_congr (hfree b hb)
  have hlive : LiveBlocks base (Function.update s.state.mem a v) l s.live := by
    refine h.sound.live.transfer hlist (fun x hx => hsame x.block (hlivemem x hx)) ?_
    intro b hb c hc x hx
    exact (h.sound.live.loose x hx).disjoint hb (hc.congr (size_congr (hfree b hb)))
  refine ⟨⟨hlist, h.sound.entry, hlive⟩, ?_⟩
  intro b hb c hc
  exact h.owned b hb c (hc.congr (size_congr (hsame b hb)))

theorem Ready.mono {k' : ℕ} (h : Ready base k s) (hk : k ≤ k') : Ready base k' s :=
  h.imp_right fun ⟨l, hl, hlen⟩ => ⟨l, hl, hlen.trans hk⟩

/-- Every call ends, and keeps the blocks in order. -/
theorem step_ready {e : Event} (h : Ready base k s) (hfresh : Fresh base sbrk) (hpos : 0 < base)
    (hbase : base + 8 ≤ 4294967296) (hk : 0 < k) (hfuel : 2 * k + 1 ≤ fuel)
    (he : Allowed base s e) : ∃ t, step base sbrk fuel s e = .ok t ∧ Ready base (k + 1) t := by
  cases e with
  | malloc nbytes =>
    rcases malloc_allocates h hfresh hpos hbase hk he hfuel with ⟨st', hcall, hready⟩ |
      ⟨bp, st', hcall, hready⟩
    · refine ⟨⟨st', s.live⟩, ?_, hready.mono (Nat.le_succ k)⟩
      exact bind_eq_ok.mpr ⟨_, hcall, rfl⟩
    · refine ⟨⟨st', ⟨bp, nbytes.toNat⟩ :: s.live⟩, ?_, hready⟩
      exact bind_eq_ok.mpr ⟨_, hcall, rfl⟩
  | free ap =>
    obtain ⟨x, hx, rfl⟩ := he
    rcases h with ⟨-, hnone⟩ | ⟨l, hkept, hlen⟩
    · rw [hnone] at hx
      exact absurd hx List.not_mem_nil
    · obtain ⟨heap, l', hcall, hkept', hlen'⟩ :=
        free_returns hkept hpos hx (show l.length ≤ fuel by omega)
      exact ⟨_, bind_eq_ok.mpr ⟨heap, hcall, rfl⟩, .inr ⟨l', hkept', by omega⟩⟩
  | store a v =>
    refine ⟨_, rfl, ?_⟩
    rcases h with hfirst | ⟨l, hkept, hlen⟩
    · exact .inl hfirst
    · exact .inr ⟨l, hkept.store he v, by omega⟩

theorem stays_good {es : List Event} (h : Ready base k s) (hfresh : Fresh base sbrk)
    (hpos : 0 < base) (hbase : base + 8 ≤ 4294967296) (hk : 0 < k)
    (hfuel : 2 * (k + es.length) + 1 ≤ fuel)
    (hes : Along (step base sbrk fuel) (Allowed base) s es) :
    Stays (step base sbrk fuel) (Good base) s es := by
  induction es generalizing s k with
  | nil => exact ⟨h.good, trivial⟩
  | cons e es ih =>
    rw [List.length_cons] at hfuel
    obtain ⟨he, hrest⟩ := hes
    obtain ⟨t, hstep, hready⟩ :=
      step_ready h hfresh hpos hbase hk (show 2 * k + 1 ≤ fuel by omega) he
    refine ⟨h.good, ⟨t, hstep, hready.good⟩, ?_⟩
    intro u hu
    obtain rfl : t = u := Except.ok.inj (hstep.symm.trans hu)
    exact (ih hready (Nat.succ_pos k) (by omega) (hrest t hu)).2

/-- In every run malloc and free end, hand out blocks that are large enough and apart from each
other and the free list, and keep the free list in order. -/
theorem heap_runs (base : ℕ) (sbrk : List Call → ℤ → Option ℕ) (fuel : ℕ) (mem : Memory)
    (es : List Event) (hpos : 0 < base) (hbase : base + 8 ≤ 4294967296)
    (hfresh : Fresh base sbrk) (hfuel : 2 * es.length + 3 ≤ fuel)
    (hes : Along (step base sbrk fuel) (Allowed base) (start mem) es) :
    Stays (step base sbrk fuel) (Good base) (start mem) es :=
  stays_good (k := 1) (.inl ⟨rfl, rfl⟩) hfresh hpos hbase Nat.one_pos (by omega) hes

/-- The end of the memory that was returned, or the size of the process before it. -/
def brk : List Call → ℕ
  | [] => 12288
  | c :: calls => c.result.elim (brk calls) fun p => max (brk calls) ((p : ℤ) + c.bytes).toNat

/-- A kernel that extends the process upwards while it is below the kernel's own memory. -/
def growing (calls : List Call) (bytes : ℤ) : Option ℕ :=
  let p := (brk calls + 7) / 8 * 8
  if p + bytes < 2147483648 then some p else none

theorem Obtained.below {calls : List Call} {x : ℕ} (h : Obtained calls x) : x < brk calls := by
  induction calls with
  | nil => exact absurd h not_obtained_nil
  | cons c calls ih =>
    rcases obtained_cons.mp h with ⟨p, hp, hle, hlt⟩ | h
    · rw [brk, Option.mem_def.mp hp, Option.elim_some]
      omega
    · have hx := ih h
      rw [brk]
      cases c.result with
      | none => exact hx
      | some q => exact hx.trans_le (le_max_left _ _)

theorem le_brk (calls : List Call) : 12288 ≤ brk calls := by
  induction calls with
  | nil => exact le_refl _
  | cons d calls ih =>
    rw [brk]
    cases d.result with
    | none => exact ih
    | some q => exact ih.trans (le_max_left _ _)

theorem growing_fresh : Fresh 4096 growing := by
  intro calls bytes p hp hpos
  unfold growing at hp
  dsimp only at hp
  split at hp
  case isFalse => cases hp
  case isTrue hlt =>
    obtain rfl := Option.some.inj hp
    have hle := le_brk calls
    refine ⟨by omega, by omega, by omega, ?_⟩
    intro x hx _ hobtained
    have hbelow := hobtained.below
    omega

theorem heap_runs_growing :
    Along (step 4096 growing 11) (Allowed 4096) (start fun _ => 0)
      [.malloc 100, .malloc 20, .free 44952, .malloc 8] ∧
    Stays (step 4096 growing 11) (Good 4096) (start fun _ => 0)
      [.malloc 100, .malloc 20, .free 44952, .malloc 8] := by
  have hallowed : Along (step 4096 growing 11) (Allowed 4096) (start fun _ => 0)
      [.malloc 100, .malloc 20, .free 44952, .malloc 8] := by decide +kernel
  exact ⟨hallowed, heap_runs 4096 growing 11 (fun _ => 0) _ (by decide) (by decide)
    growing_fresh (by decide) hallowed⟩

end Runs

end MallocRuns
