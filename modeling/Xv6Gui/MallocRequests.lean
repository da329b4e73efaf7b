import Xv6Gui.MallocRuns

/-!
# Requests that malloc cannot meet

malloc rounds a request up to units of eight bytes with 32-bit arithmetic and morecore hands the
bytes to sbrk as a signed number. A request of 2^31 bytes or more is never met: sbrk is asked to
shrink the process, or for nothing at all, or the number of units wraps around to one.
-/
namespace MallocRequests

open WordMemory GuardedRuns CircularLists UserMalloc FreeLists Allocations MallocRuns
open WindowManagerState (Fault)

/-- The block in front of `r` has room for the bytes and is memory that sbrk returned. -/
def Provides (st : State) (r nbytes : ℕ) : Prop :=
  nbytes + 8 ≤ 8 * size st.mem (r - 8) ∧
    ∀ x, Covers (size st.mem) (r - 8) x → Obtained st.calls x

/-- A call of malloc returns null or a block that is large enough, and passes no negative amount
to sbrk. -/
def Fulfils (base : ℕ) (sbrk : List Call → ℤ → Option ℕ) (fuel : ℕ) (st : State) (nbytes : Word) :
    Prop :=
  ∃ r st', malloc base sbrk fuel st nbytes = .ok (r, st') ∧
    (r = 0 ∨ Provides st' r nbytes.toNat) ∧
    ∃ new, st'.calls = new ++ st.calls ∧ ∀ c ∈ new, 0 ≤ c.bytes

/-- A request of at most 2^31 - 16 bytes; or of 2^32 - 7 at least while there is no free block and
sbrk fails, so that malloc returns null. -/
def Served (sbrk : List Call → ℤ → Option ℕ) (st : State) (nbytes : Word) : Prop :=
  nbytes.toNat + 16 ≤ 2147483648 ∨
    4294967289 ≤ nbytes.toNat ∧ (st.freep = 0 ∨ ptr st.mem st.freep = st.freep) ∧
      sbrk st.calls 32768 = none

/-- Memory of processes ends where that of the kernel begins. -/
def Below (calls : List Call) : Prop := ∀ x, Obtained calls x → x < 2147483648

/-- sys_sbrk: memory is added at the end of the process, below the kernel, and a call for no bytes
returns where the end is. -/
structure SysSbrk (base : ℕ) (sbrk : List Call → ℤ → Option ℕ) : Prop where
  fresh : Fresh base sbrk
  user : ∀ calls bytes p, sbrk calls bytes = some p → 0 < bytes → p + bytes ≤ 2147483648
  current : ∀ calls, Below calls →
    ∃ p, sbrk calls 0 = some p ∧ base + 8 ≤ p ∧ p ≤ 2147483648 ∧ ∀ x, Obtained calls x → x < p

/-- What morecore passes to sbrk. -/
def amount (units : ℕ) : ℤ :=
  (BitVec.ofNat 32 ((if units < 4096 then 4096 else units) * 8)).toInt

/-- Some more calls of sbrk, all for the same amount. -/
inductive Asked (sbrk : List Call → ℤ → Option ℕ) (bytes : ℤ) (calls : List Call) :
    List Call → Prop
  | none : Asked sbrk bytes calls calls
  | more {later : List Call} : Asked sbrk bytes calls later →
      Asked sbrk bytes calls (⟨bytes, sbrk later bytes⟩ :: later)

variable {base fuel k n r units p : ℕ} {sbrk : List Call → ℤ → Option ℕ} {bytes : ℤ}
  {calls calls' later : List Call} {s s' st st' : State} {l : List ℕ} {live : List Live}
  {nbytes : Word}

section Asking

theorem Asked.trans (h : Asked sbrk bytes calls calls') (h' : Asked sbrk bytes calls' later) :
    Asked sbrk bytes calls later := by
  induction h' with
  | none => exact h
  | more _ ih => exact .more ih

/-- The new calls are all for the amount. -/
theorem Asked.split (h : Asked sbrk bytes calls later) :
    ∃ new, later = new ++ calls ∧ ∀ c ∈ new, c.bytes = bytes := by
  induction h with
  | none => exact ⟨[], rfl, fun c hc => absurd hc List.not_mem_nil⟩
  | @more later _ ih =>
    obtain ⟨new, rfl, hnew⟩ := ih
    exact ⟨_ :: new, rfl, List.forall_mem_cons.mpr ⟨rfl, hnew⟩⟩

theorem Asked.user (h : Asked sbrk bytes calls later) (hsbrk : SysSbrk base sbrk)
    (hcalls : Below calls) : Below later := by
  induction h with
  | none => exact hcalls
  | @more later _ ih =>
    intro x hx
    rcases obtained_cons.mp hx with ⟨p, hp, hle, hlt⟩ | hx
    · have huser := hsbrk.user later bytes p (Option.mem_def.mp hp)
      dsimp only at hlt
      have hpos : 0 < bytes := by omega
      have hend := huser hpos
      omega
    · exact ih x hx

theorem morecore_none (h : sbrk s.calls (amount units) = none) :
    morecore sbrk n s units = .ok (0, { s with calls := ⟨amount units, none⟩ :: s.calls }) := by
  unfold amount at h
  rw [morecore, h]
  rfl

theorem morecore_some (h : sbrk s.calls (amount units) = some p) :
    morecore sbrk n s units =
      free n ⟨setSize s.mem p (if units < 4096 then 4096 else units), s.freep⟩ (p + 8) >>=
        fun h => .ok (h.freep, ⟨h, ⟨amount units, some p⟩ :: s.calls⟩) := by
  unfold amount at h
  rw [morecore, h]
  rfl

theorem morecore_asked {x : ℕ} (h : morecore sbrk n s units = .ok (x, s')) :
    s'.calls = ⟨amount units, sbrk s.calls (amount units)⟩ :: s.calls := by
  cases hsbrk : sbrk s.calls (amount units) with
  | none =>
    rw [morecore_none hsbrk] at h
    cases h
    rfl
  | some p =>
    rw [morecore_some hsbrk] at h
    obtain ⟨heap, -, h⟩ := bind_eq_ok.mp h
    cases h
    rfl

theorem take_calls (s : State) (units prevp p : ℕ) : (take s units prevp p).2.calls = s.calls := by
  unfold take
  split
  · rfl
  · rfl

theorem take_ne (s : State) (units prevp p : ℕ) : (take s units prevp p).1 ≠ 0 := by
  unfold take
  split
  · exact Nat.succ_ne_zero _
  · exact Nat.succ_ne_zero _

theorem mallocLoop_asked {prevp : ℕ} (h : mallocLoop sbrk n units k s prevp p = .ok (r, s')) :
    Asked sbrk (amount units) s.calls s'.calls := by
  induction k generalizing s prevp p with
  | zero => cases h
  | succ k ih =>
    rw [mallocLoop] at h
    split at h
    · have hcalls : s'.calls = s.calls := by
        rw [← take_calls s units prevp p, Except.ok.inj h]
      rw [hcalls]
      exact .none
    split at h
    · obtain ⟨⟨x, s₁⟩, hmore, h⟩ := bind_eq_ok.mp h
      have hcall : Asked sbrk (amount units) s.calls s₁.calls := by
        rw [morecore_asked hmore]
        exact .more .none
      dsimp only at h
      split at h
      · cases h
        exact hcall
      · exact hcall.trans (ih h)
    · exact ih h

end Asking

section Amounts

theorem amount_nonneg (h : 8 * units < 2147483648) : 0 ≤ amount units := by
  rw [amount, bytes_eq (by split <;> omega)]
  exact Int.natCast_nonneg _

theorem amount_neg (h : 268435456 ≤ units) (h' : units < 536870912) : amount units < 0 := by
  rw [amount, if_neg (by omega), BitVec.toInt_neg_iff, BitVec.toNat_ofNat]
  omega

theorem nunits_eq (h : nbytes.toNat ≤ 4294967288) :
    nunits nbytes = (nbytes.toNat + 7) / 8 + 1 := by
  rw [nunits, Nat.mod_eq_of_lt (by omega)]

theorem nunits_wraps (h : 4294967289 ≤ nbytes.toNat) : nunits nbytes = 1 := by
  have hlt : nbytes.toNat < 4294967296 := nbytes.isLt
  rw [nunits]
  omega

end Amounts

section Blocks

/-- A block of the list ends where the memory of the process does, or before. -/
theorem block_end {b e : ℕ} (h : Kept base ⟨s, live⟩ l) (hb : b ∈ l) (he : base + 8 ≤ e)
    (hcalls : ∀ x, Obtained s.calls x → x < e) : b + 8 ≤ e ∧ b + 8 * size s.mem b ≤ e := by
  have hlist : FreeList base (ptr s.mem) (size s.mem) l := h.sound.list
  by_cases hbase : b = base
  · have hzero := hlist.base_size
    rw [hbase, hzero]
    omega
  · have hpos : 0 < size s.mem b := (hlist.blocks b hb hbase).pos
    have hcovers : Covers (size s.mem) b (b + 8 * size s.mem b - 1) := ⟨by omega, by omega⟩
    have hlast := hcalls _ (h.owned b (List.mem_append_left _ hb) _ hcovers)
    omega

theorem blocks_small (h : Kept base ⟨s, live⟩ l) (hcalls : Below s.calls)
    (hbase : base + 8 ≤ 2147483648) (hpos : 0 < base) :
    ∀ b ∈ l, size s.mem b < 268435456 := by
  intro b hb
  have hend := (block_end h hb hbase hcalls).2
  have hle := h.sound.list.base_le hb
  omega

/-- In a list without a block of one unit there is nothing but the header. -/
theorem no_block {mem : Memory} (hlist : FreeList base (ptr mem) (size mem) l)
    (hsmall : ∀ b ∈ l, size mem b < 1) : l = [base] := by
  have hall : ∀ b ∈ l, b = base := by
    intro b hb
    by_contra hne
    have hblock := (hlist.blocks b hb hne).pos
    have hlt := hsmall b hb
    omega
  obtain ⟨t, rfl⟩ := List.head?_eq_some_iff.mp hlist.head
  cases t with
  | nil => rfl
  | cons c t =>
    have hc := hall c (List.mem_cons_of_mem _ List.mem_cons_self)
    have hnot := (List.nodup_cons.mp hlist.nodup).1
    exact absurd (hc ▸ List.mem_cons_self) hnot

/-- No block has room for 2^31 bytes. -/
theorem not_provides {m : ℕ} (hcalls : Below st.calls) (hm : 2147483648 ≤ m) :
    ¬Provides st r m := by
  rintro ⟨hroom, hcovers⟩
  have hlast := hcalls _ (hcovers (r - 8 + 8 * size st.mem (r - 8) - 1) ⟨by omega, by omega⟩)
  omega

/-- The loop of malloc starts in a list, which is that of the header `base` if there is no free
block. -/
theorem malloc_enters (h : Ready base k ⟨st, live⟩) (hpos : 0 < base)
    (hbase : base + 8 ≤ 4294967296) (hk : 0 < k) (sbrk : List Call → ℤ → Option ℕ) (fuel : ℕ)
    (nbytes : Word) :
    ∃ s l, Kept base ⟨s, live⟩ l ∧ l.length ≤ k ∧ s.calls = st.calls ∧
      malloc base sbrk fuel st nbytes =
        mallocLoop sbrk fuel (nunits nbytes) fuel s s.freep (ptr s.mem s.freep) ∧
      (st.freep = 0 ∨ ptr st.mem st.freep = st.freep ↔ l = [base]) := by
  rcases h with ⟨hfirst, hlive⟩ | ⟨l, hkept, hl⟩
  · change st.freep = 0 at hfirst
    change live = [] at hlive
    subst hlive
    refine ⟨_, [base], first_kept hbase st.mem st.calls, hk, rfl, ?_,
      iff_of_true (.inl hfirst) rfl⟩
    rw [malloc, if_pos hfirst]
  · have hlist : FreeList base (ptr st.mem) (size st.mem) l := hkept.sound.list
    have hentry : st.freep ∈ l := hkept.sound.entry
    have hne : st.freep ≠ 0 := hkept.freep_ne hpos
    refine ⟨st, l, hkept, hl, rfl, by rw [malloc, if_neg hne], ?_⟩
    constructor
    · intro hempty
      have hself := hempty.resolve_left hne
      obtain ⟨t, hring, hperm⟩ := hlist.rotate hentry
      cases t with
      | nil =>
        obtain rfl := List.singleton_perm.mp hperm
        rw [List.mem_singleton.mp hlist.mem_base]
      | cons y t =>
        have hnext : ptr st.mem st.freep = y := hring.1
        have hnodup := List.nodup_cons.mp (hperm.nodup_iff.mpr hlist.nodup)
        exact absurd (hself.symm.trans hnext ▸ List.mem_cons_self) hnodup.1
    · rintro rfl
      right
      rw [List.mem_singleton.mp hentry]
      exact hlist.ring.1

end Blocks

section Unbounded

variable {q : ℕ} {mem : Memory}

/-- What a walk behind `q` needs to come to a block of `units` units. -/
def Finds (mem : Memory) (q units m : ℕ) : Prop :=
  ∃ xs x, Leads (ptr mem) (q :: xs) x ∧ (∀ y ∈ xs, size mem y < units ∧ y ≠ q) ∧
    units ≤ size mem x ∧ xs.length < m

/-- A list in which `q` alone has grown: the walk goes once around. -/
theorem finds_around {mem' : Memory} (hlist : FreeList base (ptr mem) (size mem) l) (hq : q ∈ l)
    (hothers : ∀ b ∈ l, b ≠ q → ptr mem' b = ptr mem b ∧ size mem' b = size mem b)
    (hnext : ptr mem' q = ptr mem q) (hlarge : units ≤ size mem' q)
    (hsmall : ∀ b ∈ l, size mem b < units) : Finds mem' q units l.length := by
  obtain ⟨t, hring, hperm⟩ := hlist.rotate hq
  have hnodup := List.nodup_cons.mp (hperm.nodup_iff.mpr hlist.nodup)
  refine ⟨t, q, hring.congr ?_, ?_, hlarge, ?_⟩
  · intro b hb
    by_cases hbq : b = q
    · rw [hbq, hnext]
    · exact (hothers b (hperm.subset hb) hbq).1
  · intro y hy
    have hyl : y ∈ l := hperm.subset (List.mem_cons_of_mem _ hy)
    have hyq : y ≠ q := by
      rintro rfl
      exact hnodup.1 hy
    rw [(hothers y hyl hyq).2]
    exact ⟨hsmall y hyl, hyq⟩
  · rw [← hperm.length_eq]
    exact Nat.lt_succ_self _

/-- A block behind all others, of a size that goes beyond all addresses, is put into the list. -/
theorem merge_unbounded (hlist : FreeList base (ptr mem) (size mem) l) (hq : q ∈ l)
    (hlast : ptr mem q = base) (hpos : 0 < base)
    (hends : ∀ b ∈ l, b + 8 ≤ p ∧ b + 8 * size mem b ≤ p) (hp : p ≤ 2147483648)
    (hsmall : ∀ b ∈ l, size mem b < 268435456) (hsize : size mem p = 536870912) :
    Finds (mergePrev (mergeNext mem q p) q p) q 536870912 l.length := by
  obtain ⟨hqp, hqend⟩ := hends q hq
  have hbase := (hends base hlist.mem_base).1
  have hlen := List.length_pos_of_mem hq
  have hskip : skip p (size mem p) ≠ ptr mem q := by
    rw [hlast, hsize, skip]
    omega
  rw [mergeNext, if_neg hskip, hlast]
  have hkeep := keeps_setPtr mem p base
  have hpptr : ptr (setPtr mem p base) p = base := ptr_setPtr (by omega)
  have hpsize : size (setPtr mem p base) p = 536870912 := size_setPtr.trans hsize
  have hold : ∀ b ∈ l, ptr (setPtr mem p base) b = ptr mem b ∧
      size (setPtr mem p base) b = size mem b := fun b hb =>
    hkeep.header (.inl (hends b hb).1)
  have hqsize := (hold q hq).2
  have hqsmall := hsmall q hq
  rw [mergePrev]
  split
  case isTrue hjoin =>
    -- the block becomes the end of `q`
    have hsizes := keeps_setSize (setPtr mem p base) q
      (size (setPtr mem p base) q + size (setPtr mem p base) p)
    have hnext : ptr (setSize (setPtr mem p base) q
        (size (setPtr mem p base) q + size (setPtr mem p base) p)) p = base :=
      (hsizes.header (.inr hqp)).1.trans hpptr
    dsimp only
    rw [hnext]
    have hkeep' := hsizes.trans (keeps_setPtr _ q base)
    have hothers : ∀ b ∈ l, b ≠ q → ptr (setPtr (setSize (setPtr mem p base) q
        (size (setPtr mem p base) q + size (setPtr mem p base) p)) q base) b = ptr mem b ∧
        size (setPtr (setSize (setPtr mem p base) q
        (size (setPtr mem p base) q + size (setPtr mem p base) p)) q base) b = size mem b := by
      intro b hb hne
      obtain ⟨hptr, hsize'⟩ := hkeep'.header (hlist.header_apart_of_ne hb hq hne)
      exact ⟨hptr.trans (hold b hb).1, hsize'.trans (hold b hb).2⟩
    refine finds_around hlist hq hothers ?_ ?_ fun b hb => (hsmall b hb).trans (by decide)
    · rw [hlast]
      exact ptr_setPtr (by omega)
    · rw [size_setPtr, hqsize, hpsize, size_setSize (by omega)]
      omega
  case isFalse hlink =>
    refine ⟨[], p, ⟨ptr_setPtr (by omega), trivial⟩, fun y hy => absurd hy List.not_mem_nil, ?_,
      hlen⟩
    rw [((keeps_setPtr (setPtr mem p base) q p).header (.inr hqp)).2, hpsize]

/-- free ends at the last block of the list. -/
theorem free_last (hlist : FreeList base (ptr mem) (size mem) l) {freep : ℕ} (hfreep : freep ∈ l)
    (hends : ∀ b ∈ l, b + 8 ≤ p) (hn : l.length ≤ n) :
    ∃ q ∈ l, ptr mem q = base ∧
      free n ⟨mem, freep⟩ (p + 8) = .ok ⟨mergePrev (mergeNext mem q p) q p, q⟩ := by
  have hbase := hends base hlist.mem_base
  have hnot : p ∉ l := by
    intro hp
    have hle := hends p hp
    omega
  obtain ⟨pre, y, post, hsplit, hy, hpost⟩ := exists_split hlist.increasing hnot
    ⟨base, hlist.mem_base, by omega⟩
  have hplace : ∃ y ∈ l, Place mem p y := by
    refine ⟨y, hsplit ▸ List.mem_append_right _ List.mem_cons_self, ?_⟩
    rw [hsplit] at hlist hnot
    exact (place_iff hlist (by omega) hnot).mpr ⟨hy, hpost⟩
  obtain ⟨t, ht⟩ := List.head?_eq_some_iff.mp hlist.head
  have hring := hlist.ring
  rw [ht] at hring hfreep hn hplace
  obtain ⟨q, hq, hstop, hseek⟩ := hring.seek (Place mem p) hfreep hplace hn
  rw [← ht] at hq
  refine ⟨q, hq, ?_, ?_⟩
  · obtain ⟨pre, post, rfl⟩ := List.append_of_mem hq
    have hbehind := ((place_iff hlist (by omega) hnot).mp hstop).2
    have hnil : post = [] := by
      cases post with
      | nil => rfl
      | cons c post =>
        have hlt := hbehind c List.mem_cons_self
        have hle := hends c (List.mem_append_right _
          (List.mem_cons_of_mem _ List.mem_cons_self))
        omega
    subst hnil
    exact (leads_append.mp hlist.ring).2.1
  · rw [free, Nat.add_sub_cancel]
    simp only [hseek]

end Unbounded

section Cases

variable (hpos : 0 < base) (h : Kept base ⟨s, live⟩ l) (hfuel : 2 * l.length + 1 ≤ fuel)

include hpos h hfuel

/-- A small request is met, or malloc returns null. -/
theorem loop_small (hsbrk : SysSbrk base sbrk) (hunits : 0 < units)
    (hsmall : 8 * units < 2147483648) {m : ℕ} (hm : 8 + m ≤ 8 * units) :
    ∃ r s', mallocLoop sbrk fuel units fuel s s.freep (ptr s.mem s.freep) = .ok (r, s') ∧
      (r = 0 ∨ Provides s' r m) := by
  rcases mallocLoop_allocates h hsbrk.fresh hpos hunits hsmall hm hfuel with
    ⟨s', hloop, -⟩ | ⟨bp, s', l', hloop, hkept, -⟩
  · exact ⟨0, s', hloop, .inl rfl⟩
  · have hnew : (⟨bp, m⟩ : Live) ∈ ⟨bp, m⟩ :: live := List.mem_cons_self
    have hroom := hkept.sound.live.payload _ hnew
    refine ⟨bp + 8, s', hloop, .inr ⟨?_, ?_⟩⟩
    · rw [Nat.add_sub_cancel, Nat.add_comm]
      exact hroom
    · rw [Nat.add_sub_cancel]
      exact hkept.owned bp (List.mem_append_right _ (List.mem_map_of_mem hnew))

/-- One unit is not found only if there is no free block and sbrk fails. -/
theorem loop_unit (hsbrk : SysSbrk base sbrk) :
    ∃ r s', mallocLoop sbrk fuel 1 fuel s s.freep (ptr s.mem s.freep) = .ok (r, s') ∧
      (r = 0 ↔ l = [base] ∧ sbrk s.calls 32768 = none) := by
  have hlist : FreeList base (ptr s.mem) (size s.mem) l := h.sound.list
  by_cases hlarge : ∃ b ∈ l, 1 ≤ size s.mem b
  case pos =>
    obtain ⟨bp, s', l', hloop, -⟩ := h.finds sbrk fuel (k := fuel) (by decide) hlarge (by omega)
      (show 8 + 0 ≤ 8 * 1 by decide)
    refine ⟨bp + 8, s', hloop, iff_of_false (Nat.succ_ne_zero _) ?_⟩
    rintro ⟨rfl, -⟩
    obtain ⟨b, hb, hsize⟩ := hlarge
    have hzero := hlist.base_size
    rw [List.mem_singleton.mp hb] at hsize
    omega
  case neg =>
    have hsmall : ∀ b ∈ l, size s.mem b < 1 := fun b hb => not_le.mp fun hle => hlarge ⟨b, hb, hle⟩
    obtain ⟨j, hj, hasks⟩ := h.asks sbrk fuel hsmall (by omega)
    rw [hasks]
    cases hcall : sbrk s.calls 32768 with
    | none =>
      rw [morecore_none hcall, ok_bind, if_pos rfl]
      exact ⟨0, _, rfl, iff_of_true rfl ⟨no_block hlist hsmall, rfl⟩⟩
    | some p =>
      rcases morecore_adds (n := fuel) h hsbrk.fresh hpos (show 8 * 1 < 2147483648 by decide)
        (by omega) with ⟨c, hmore⟩ | ⟨s', l', hmore, hkept, hlen, hadded⟩
      · -- after a call that succeeds morecore returns what `free` has stored in `freep`
        rw [morecore_some hcall] at hmore
        obtain ⟨heap, -, hresult⟩ := bind_eq_ok.mp hmore
        obtain ⟨hzero, hstate⟩ := Prod.mk.inj (Except.ok.inj hresult)
        have hsame : heap.freep = s.freep := congrArg (fun t : State => t.freep) hstate
        exact absurd (hsame.symm.trans hzero) (h.freep_ne hpos)
      · obtain ⟨bp, s'', l'', hloop, -⟩ := hkept.finds sbrk fuel (k := j) (by decide) hadded
          (by omega) (show 8 + 0 ≤ 8 * 1 by decide)
        refine ⟨bp + 8, s'', ?_, iff_of_false (Nat.succ_ne_zero _) fun hc => nomatch hc.2⟩
        rw [hmore, ok_bind, if_neg (hkept.freep_ne hpos)]
        exact hloop

/-- A request for which the amount is 2^32 and wraps around to nothing. -/
theorem loop_nothing (hsbrk : SysSbrk base sbrk) (hbelow : Below s.calls) :
    ∃ r s', mallocLoop sbrk fuel 536870912 fuel s s.freep (ptr s.mem s.freep) = .ok (r, s') ∧
      r ≠ 0 := by
  have hlist : FreeList base (ptr s.mem) (size s.mem) l := h.sound.list
  obtain ⟨p, hcall, hp, hp', hends⟩ := hsbrk.current s.calls hbelow
  have hamount : amount 536870912 = 0 := by decide
  have hsmall := blocks_small h hbelow (hp.trans hp') hpos
  have hblocks : ∀ b ∈ l, b + 8 ≤ p ∧ b + 8 * size s.mem b ≤ p := fun b hb =>
    block_end h hb hp hends
  have hkeep := keeps_setSize s.mem p 536870912
  have hold : ∀ b ∈ l, ptr (setSize s.mem p 536870912) b = ptr s.mem b ∧
      size (setSize s.mem p 536870912) b = size s.mem b := fun b hb =>
    hkeep.header (.inl (hblocks b hb).1)
  have hlist' := hlist.congr (fun b hb => (hold b hb).1) fun b hb => (hold b hb).2
  obtain ⟨q, hq, hlast, hfree⟩ := free_last (n := fuel) hlist' h.sound.entry
    (fun b hb => (hblocks b hb).1) (by omega)
  obtain ⟨xs, x, hleads, hxs, hx, hlen⟩ := merge_unbounded hlist' hq hlast hpos
    (fun b hb => by rw [(hold b hb).2]; exact hblocks b hb) hp'
    (fun b hb => by rw [(hold b hb).2]; exact hsmall b hb) (size_setSize (by decide))
  obtain ⟨k, hk, hasks⟩ := h.asks sbrk fuel
    (fun b hb => (hsmall b hb).trans (by decide : 268435456 < 536870912)) (by omega)
  obtain ⟨j, rfl⟩ : ∃ j, k = xs.length + (j + 1) := ⟨k - xs.length - 1, by omega⟩
  have hq' : q ≠ 0 := by
    have hle := hlist'.base_le hq
    omega
  have hcall' : sbrk s.calls (amount 536870912) = some p := by rw [hamount, hcall]
  rw [hasks, morecore_some hcall', if_neg (by decide), hfree, ok_bind, ok_bind, if_neg hq']
  obtain ⟨q₁, -, -, hwalk⟩ := mallocLoop_walk sbrk fuel (k := j + 1)
    (s := ⟨⟨mergePrev (mergeNext (setSize s.mem p 536870912) q p) q p, q⟩,
      ⟨amount 536870912, some p⟩ :: s.calls⟩) hleads hxs
  exact ⟨_, _, hwalk.trans (mallocLoop_take sbrk fuel hx), take_ne _ _ _ _⟩

/-- A request for which morecore asks for a negative amount. -/
theorem loop_negative (hbelow : Below s.calls) (hbase : base + 8 ≤ 2147483648)
    (hunits : 268435456 ≤ units)
    (hloop : mallocLoop sbrk fuel units fuel s s.freep (ptr s.mem s.freep) = .ok (r, s')) :
    ∃ later c, s'.calls = later ++ c :: s.calls ∧ c.bytes = amount units := by
  have hsmall : ∀ b ∈ l, size s.mem b < units := fun b hb =>
    (blocks_small h hbelow hbase hpos b hb).trans_le hunits
  obtain ⟨j, -, hasks⟩ := h.asks sbrk fuel hsmall (by omega)
  rw [hasks] at hloop
  obtain ⟨⟨x, s₁⟩, hmore, hloop⟩ := bind_eq_ok.mp hloop
  have hfirst := morecore_asked hmore
  dsimp only at hloop
  split at hloop
  · cases hloop
    exact ⟨[], _, hfirst, rfl⟩
  · obtain ⟨later, hlater, -⟩ := (mallocLoop_asked hloop).split
    exact ⟨later, _, by rw [hlater, hfirst], rfl⟩

end Cases

section Requests

variable (hsbrk : SysSbrk base sbrk) (hpos : 0 < base) (hbase : base + 8 ≤ 2147483648)
  (h : Ready base k ⟨st, live⟩) (hbelow : Below st.calls) (hk : 0 < k) (hfuel : 2 * k + 1 ≤ fuel)

include hsbrk hpos hbase h hbelow hk hfuel

/-- malloc meets a request of at most 2^31 - 16 bytes or returns null, and no other request. -/
theorem fulfils_iff (nbytes : Word) : Fulfils base sbrk fuel st nbytes ↔ Served sbrk st nbytes := by
  obtain ⟨s, l, hkept, hl, hcalls, henter, hempty⟩ :=
    malloc_enters h hpos (by omega) hk sbrk fuel nbytes
  have hfuel' : 2 * l.length + 1 ≤ fuel := by omega
  have hbelow' : Below s.calls := by rwa [hcalls]
  rw [Fulfils, henter, ← hcalls, Served, hempty, ← hcalls]
  by_cases hsmall : nbytes.toNat + 16 ≤ 2147483648
  case pos =>
    have hunits := nunits_eq (show nbytes.toNat ≤ 4294967288 by omega)
    obtain ⟨r, s', hloop, hmet⟩ := loop_small hpos hkept hfuel' hsbrk
      (show 0 < nunits nbytes by omega) (by omega) (show 8 + nbytes.toNat ≤ _ by omega)
    obtain ⟨new, hnew, hbytes⟩ := (mallocLoop_asked hloop).split
    refine iff_of_true ⟨r, s', hloop, hmet, new, hnew, ?_⟩ (.inl hsmall)
    intro c hc
    rw [hbytes c hc]
    exact amount_nonneg (by omega)
  case neg =>
    by_cases hwraps : 4294967289 ≤ nbytes.toNat
    case pos =>
      rw [nunits_wraps hwraps]
      obtain ⟨r, s', hloop, hnull⟩ := loop_unit hpos hkept hfuel' hsbrk
      have hasked := mallocLoop_asked hloop
      constructor
      · rintro ⟨r', s₁, hloop', hmet, -⟩
        obtain ⟨rfl, rfl⟩ := Prod.mk.inj (Except.ok.inj (hloop.symm.trans hloop'))
        have hroom := not_provides (r := r) (hasked.user hsbrk hbelow')
          (show 2147483648 ≤ nbytes.toNat by omega)
        exact .inr ⟨hwraps, hnull.mp (hmet.resolve_right hroom)⟩
      · intro hserved
        obtain ⟨new, hnew, hbytes⟩ := hasked.split
        refine ⟨r, s', hloop, .inl (hnull.mpr (hserved.resolve_left hsmall).2), new, hnew, ?_⟩
        intro c hc
        rw [hbytes c hc]
        exact amount_nonneg (by decide)
    case neg =>
      refine iff_of_false ?_ fun hserved => hserved.elim hsmall fun hw => hwraps hw.1
      have hunits := nunits_eq (show nbytes.toNat ≤ 4294967288 by omega)
      rintro ⟨r, s', hloop, hmet, new, hnew, hbytes⟩
      by_cases hnothing : 4294967281 ≤ nbytes.toNat
      case pos =>
        have hunits' : nunits nbytes = 536870912 := by omega
        rw [hunits'] at hloop
        obtain ⟨r', s₁, hloop', hne⟩ := loop_nothing hpos hkept hfuel' hsbrk hbelow'
        obtain ⟨rfl, rfl⟩ := Prod.mk.inj (Except.ok.inj (hloop.symm.trans hloop'))
        exact not_provides ((mallocLoop_asked hloop).user hsbrk hbelow') (by omega)
          (hmet.resolve_left hne)
      case neg =>
        obtain ⟨before, c, hcall, hc⟩ :=
          loop_negative hpos hkept hfuel' hbelow' hbase (by omega) hloop
        have hneg := amount_neg (show 268435456 ≤ nunits nbytes by omega) (by omega)
        have hsplit : new ++ s.calls = (before ++ [c]) ++ s.calls := by
          rw [← hnew, hcall, List.append_assoc]
          rfl
        have hmem : c ∈ new := by
          rw [List.append_cancel_right hsplit]
          exact List.mem_append_right _ List.mem_cons_self
        have hnonneg := hbytes c hmem
        omega

end Requests

section Runs

variable {s t : System} {es : List Event} {mem : Memory}

theorem malloc_asked (h : malloc base sbrk fuel st nbytes = .ok (r, st')) :
    Asked sbrk (amount (nunits nbytes)) st.calls st'.calls := by
  have hasked := mallocLoop_asked h
  split at hasked
  · exact hasked
  · exact hasked

theorem step_below {e : Event} (hsbrk : SysSbrk base sbrk) (h : Below s.state.calls)
    (ht : step base sbrk fuel s e = .ok t) : Below t.state.calls := by
  cases e with
  | malloc nbytes =>
    obtain ⟨r, hr, ht⟩ := bind_eq_ok.mp ht
    cases ht
    exact (malloc_asked hr).user hsbrk h
  | free ap =>
    obtain ⟨heap, -, ht⟩ := bind_eq_ok.mp ht
    cases ht
    exact h
  | store a v =>
    cases ht
    exact h

theorem run_ready (hsbrk : SysSbrk base sbrk) (hpos : 0 < base) (hbase : base + 8 ≤ 2147483648)
    (hrun : Execution (step base sbrk fuel) s es t) (h : Ready base k s)
    (hbelow : Below s.state.calls) (hk : 0 < k) (hfuel : 2 * (k + es.length) + 1 ≤ fuel)
    (hes : Along (step base sbrk fuel) (Allowed base) s es) :
    Ready base (k + es.length) t ∧ Below t.state.calls := by
  induction hrun generalizing k with
  | nil s => exact ⟨h, hbelow⟩
  | @cons s u t e es hstep _ ih =>
    rw [List.length_cons] at hfuel ⊢
    obtain ⟨he, hrest⟩ := hes
    obtain ⟨u', hstep', hready⟩ := step_ready h hsbrk.fresh hpos (by omega) hk
      (show 2 * k + 1 ≤ fuel by omega) he
    obtain rfl : u = u' := Except.ok.inj (hstep.symm.trans hstep')
    have hlength : k + (es.length + 1) = k + 1 + es.length := by omega
    rw [hlength]
    exact ih hready (step_below hsbrk hbelow hstep) (Nat.succ_pos k) (by omega) (hrest u hstep)

/-- Whatever a program has allocated and freed before, malloc meets a request of at most 2^31 - 16
bytes or returns null. It meets none of the larger ones, and returns null only for those that wrap
around to one unit, if there is none. -/
theorem malloc_iff (base : ℕ) (sbrk : List Call → ℤ → Option ℕ) (fuel : ℕ) (mem : Memory)
    (es : List Event) (s : System) (nbytes : Word) (hpos : 0 < base)
    (hbase : base + 8 ≤ 2147483648) (hsbrk : SysSbrk base sbrk) (hfuel : 2 * es.length + 3 ≤ fuel)
    (hes : Along (step base sbrk fuel) (Allowed base) (start mem) es)
    (hrun : Execution (step base sbrk fuel) (start mem) es s) :
    Fulfils base sbrk fuel s.state nbytes ↔ Served sbrk s.state nbytes := by
  have hnone : Below ([] : List Call) := fun x hx => absurd hx not_obtained_nil
  obtain ⟨hready, hbelow⟩ := run_ready (k := 1) hsbrk hpos hbase hrun (.inl ⟨rfl, rfl⟩) hnone
    Nat.one_pos (by omega) hes
  exact fulfils_iff hsbrk hpos hbase hready hbelow (by omega) (by omega) nbytes

end Runs

/-- The end of a process that starts with three pages and that calls of sbrk have extended. -/
def top : List Call → ℕ
  | [] => 12288
  | c :: calls =>
    if 0 < c.bytes then c.result.elim (top calls) fun p => max (top calls) ((p : ℤ) + c.bytes).toNat
    else top calls

/-- A kernel that extends the process while it stays below the kernel's own memory. -/
def upwards (calls : List Call) (bytes : ℤ) : Option ℕ :=
  let p := (top calls + 7) / 8 * 8
  if bytes ≤ 0 ∨ p + bytes < 2147483648 then some p else none

theorem le_top (calls : List Call) : 12288 ≤ top calls := by
  induction calls with
  | nil => exact le_refl _
  | cons c calls ih =>
    rw [top]
    split
    · cases c.result with
      | none => exact ih
      | some p => exact ih.trans (le_max_left _ _)
    · exact ih

theorem below_top {x : ℕ} (h : Obtained calls x) : x < top calls := by
  induction calls with
  | nil => exact absurd h not_obtained_nil
  | cons c calls ih =>
    rw [top]
    rcases obtained_cons.mp h with ⟨p, hp, hle, hlt⟩ | h
    · rw [if_pos (by omega), Option.mem_def.mp hp, Option.elim_some]
      omega
    · have hx := ih h
      split
      · cases c.result with
        | none => exact hx
        | some q => exact hx.trans_le (le_max_left _ _)
      · exact hx

theorem top_le (h : Below calls) : top calls ≤ 2147483648 := by
  induction calls with
  | nil => decide
  | cons c calls ih =>
    have hrest : top calls ≤ 2147483648 := ih fun x hx => h x (hx.cons c)
    rw [top]
    split
    · next hpos =>
      cases hresult : c.result with
      | none => exact hrest
      | some p =>
        have hlast := h (((p : ℤ) + c.bytes).toNat - 1)
          ⟨c, List.mem_cons_self, p, hresult, by omega, by omega⟩
        rw [Option.elim_some]
        omega
    · exact hrest

theorem upwards_sysSbrk : SysSbrk 4096 upwards := by
  have hresult : ∀ calls bytes p, upwards calls bytes = some p →
      p = (top calls + 7) / 8 * 8 ∧ (0 < bytes → p + bytes < 2147483648) := by
    intro calls bytes p hp
    unfold upwards at hp
    dsimp only at hp
    split at hp
    · next hroom =>
      obtain rfl := Option.some.inj hp
      exact ⟨rfl, fun hpos => hroom.resolve_left (by omega)⟩
    · cases hp
  constructor
  case fresh =>
    intro calls bytes p hp hpos
    obtain ⟨rfl, hroom⟩ := hresult calls bytes p hp
    have hend := hroom hpos
    have hle := le_top calls
    refine ⟨by omega, by omega, by omega, ?_⟩
    intro x hx _ hobtained
    have hlt := below_top hobtained
    omega
  case user =>
    intro calls bytes p hp hpos
    have hroom := (hresult calls bytes p hp).2 hpos
    omega
  case current =>
    intro calls hbelow
    have hle := le_top calls
    have hle' := top_le hbelow
    refine ⟨(top calls + 7) / 8 * 8, ?_, by omega, by omega, ?_⟩
    · unfold upwards
      exact if_pos (Or.inl (le_refl 0))
    · intro x hx
      have hlt := below_top hx
      omega

/-- The second call of a process that has been given 100 bytes, for 1000. -/
theorem malloc_iff_second :
    ∃ s, Execution (step 4096 upwards 5) (start fun _ => 0) [.malloc 100] s ∧
      Fulfils 4096 upwards 5 s.state 1000 := by
  have hallowed : Along (step 4096 upwards 5) (Allowed 4096) (start fun _ => 0) [.malloc 100] := by
    decide +kernel
  have hstart : Ready 4096 1 (start fun _ => 0) := .inl ⟨rfl, rfl⟩
  have hfuel : 2 * 1 + 1 ≤ 5 := by decide
  obtain ⟨s, hstep, -⟩ := step_ready hstart upwards_sysSbrk.fresh (by decide) (by decide)
    Nat.one_pos hfuel hallowed.1
  have hrun : Execution (step 4096 upwards 5) (start fun _ => 0) [.malloc 100] s :=
    .cons hstep (.nil s)
  have hmalloc := malloc_iff 4096 upwards 5 (fun _ => 0) [.malloc 100] s 1000 (by decide)
    (by decide) upwards_sysSbrk (by decide) hallowed hrun
  exact ⟨s, hrun, hmalloc.mpr (.inl (by decide))⟩

/-- The first call of a process, for 2^32 - 1 bytes and for 2^31. -/
theorem malloc_unmet :
    ¬Fulfils 4096 upwards 5 ⟨⟨fun _ => 0, 0⟩, []⟩ 0xFFFFFFFF ∧
    ¬Fulfils 4096 upwards 5 ⟨⟨fun _ => 0, 0⟩, []⟩ 0x80000000 := by
  constructor
  · have hrun : (malloc 4096 upwards 5 ⟨⟨fun _ => 0, 0⟩, []⟩ 0xFFFFFFFF).map
        (fun r => (decide (r.1 = 0), size r.2.mem (r.1 - 8))) = .ok (false, 1) := by decide +kernel
    rintro ⟨r, st', hmalloc, hmet, -⟩
    rw [hmalloc] at hrun
    obtain ⟨hnull, hsize⟩ := Prod.mk.inj (Except.ok.inj hrun)
    have hroom := (hmet.resolve_left (of_decide_eq_false hnull)).1
    dsimp only at hsize
    rw [hsize] at hroom
    exact absurd hroom (by decide)
  · have hrun : (malloc 4096 upwards 5 ⟨⟨fun _ => 0, 0⟩, []⟩ 0x80000000).map
        (fun r => r.2.calls.map Call.bytes) = .ok [-2147483640] := by decide +kernel
    rintro ⟨r, st', hmalloc, -, new, hnew, hbytes⟩
    rw [hmalloc] at hrun
    have hcalls : st'.calls.map Call.bytes = [-2147483640] := Except.ok.inj hrun
    rw [hnew, List.append_nil] at hcalls
    have hmem : (-2147483640 : ℤ) ∈ new.map Call.bytes := by
      rw [hcalls]
      exact List.mem_cons_self
    obtain ⟨c, hc, hneg⟩ := List.mem_map.mp hmem
    have hnonneg := hbytes c hc
    omega

end MallocRequests
