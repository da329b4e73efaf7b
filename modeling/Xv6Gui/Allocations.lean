import Xv6Gui.FreeLists

/-!
# Allocations

malloc walks around the free list once and, after morecore has put a large enough block into it,
at most once more. It takes a whole block off the list or the end of one, and leaves the other
free blocks as they are.
-/
namespace Allocations

open WordMemory GuardedRuns CircularLists UserMalloc FreeLists
open WindowManagerState (Fault)

/-- What malloc does to the list `l` when it hands out the block at `bp`. -/
structure Taken (base : ℕ) (mem : Memory) (l : List ℕ) (units prevp bp : ℕ) (mem' : Memory)
    (l' : List ℕ) : Prop where
  list : FreeList base (ptr mem') (size mem') l'
  entry : prevp ∈ l'
  old : prevp ∈ l
  length : l'.length ≤ l.length
  loose : Loose base mem' l' bp
  units : size mem' bp = units
  inside : ∃ p ∈ l, ∀ x, Covers (size mem') bp x → Covers (size mem) p x
  covers : ∀ b ∈ l', ∀ x, Covers (size mem') b x → Covers (size mem) b x ∧ b ∈ l
  frame : ∃ p ∈ l, ∀ a, (a < prevp ∨ prevp + 8 ≤ a) → ¬Covers (size mem) p a → mem' a = mem a

section Taking

variable {base p q units : ℕ} {mem mem' : Memory} {s : State} {l pre post : List ℕ}

theorem block_of_size (h : FreeList base (ptr mem) (size mem) l) (hp : p ∈ l)
    (hu : 0 < size mem p) : Block base (size mem) p := by
  apply h.blocks p hp
  rintro rfl
  have hzero := h.base_size
  omega

/-- The blocks beside `p` are others. -/
theorem FreeList.other {b : ℕ} {next size : ℕ → ℕ} (h : FreeList base next size (pre ++ p :: post))
    (hb : b ∈ pre ++ post) : b ∈ pre ++ p :: post ∧ b ≠ p := by
  refine ⟨mem_old (List.suffix_refl post) hb, ?_⟩
  rintro rfl
  exact (List.nodup_cons.mp (List.nodup_middle.mp h.nodup)).1 hb

/-- The whole block is handed out. -/
theorem take_whole (h : FreeList base (ptr mem) (size mem) (pre ++ q :: p :: post))
    (hpos : 0 < size mem p) :
    Taken base mem (pre ++ q :: p :: post) (size mem p) q p (setPtr mem q (ptr mem p))
      (pre ++ (q :: [] ++ post)) := by
  have hq : q ∈ pre ++ q :: p :: post := List.mem_append_right _ List.mem_cons_self
  have hp : p ∈ pre ++ q :: p :: post :=
    List.mem_append_right _ (List.mem_cons_of_mem _ List.mem_cons_self)
  have hsorted := (List.pairwise_append.mp h.sorted).2.1
  have hqp : q + 8 * size mem q < p := (List.pairwise_cons.mp hsorted).1 p List.mem_cons_self
  have hqlt : q < p := by omega
  have hblock := block_of_size h hp hpos
  have hnext : ptr mem p = post.headD base := (leads_append.mp h.ring).2.2.1
  have hkeep := keeps_setPtr mem q (ptr mem p)
  have hqsize : size (setPtr mem q (ptr mem p)) q = size mem q := size_setPtr
  have hold : ∀ b ∈ pre ++ post, b ∈ pre ++ q :: p :: post ∧ b ≠ q ∧ b ≠ p := by
    intro b hb
    have hlist : pre ++ q :: p :: post = (pre ++ [q]) ++ p :: post := List.append_cons _ _ _
    have hbp : b ≠ p := by
      refine (FreeList.other (hlist ▸ h) ?_).2
      rw [List.append_assoc]
      exact mem_old (List.suffix_refl post) hb
    obtain ⟨hmem, hbq⟩ := FreeList.other h (mem_old (p := p) (List.suffix_refl post) hb)
    exact ⟨hmem, hbq, hbp⟩
  have hkept : ∀ b ∈ pre ++ q :: p :: post, b ≠ q →
      ptr (setPtr mem q (ptr mem p)) b = ptr mem b ∧
        size (setPtr mem q (ptr mem p)) b = size mem b := by
    intro b hb hne
    exact hkeep.header (h.header_apart_of_ne hb hq hne)
  have hpsize := (hkept p hp (by omega)).2
  have hsizes : ∀ b ∈ pre ++ (q :: [] ++ post),
      b ∈ pre ++ q :: p :: post ∧ b ≠ p ∧ size (setPtr mem q (ptr mem p)) b = size mem b := by
    intro b hb
    rcases mem_replaced hb with hb | hb
    · obtain ⟨hmem, hne, hnp⟩ := hold b hb
      exact ⟨hmem, hnp, (hkept b hmem hne).2⟩
    · rw [List.mem_singleton.mp hb]
      exact ⟨hq, by omega, hqsize⟩
  have hlist : FreeList base (ptr (setPtr mem q (ptr mem p))) (size (setPtr mem q (ptr mem p)))
      (pre ++ (q :: [] ++ post)) := by
    refine h.replace (List.suffix_cons p post) ?_ ?_ ?_ (List.pairwise_singleton _ _) ?_ ?_ ?_
    · exact fun b hb => (hkept b (hold b hb).1 (hold b hb).2.1).1
    · exact fun b hb => (hkept b (hold b hb).1 (hold b hb).2.1).2
    · exact ⟨(ptr_setPtr (ptr_lt _ _)).trans hnext, trivial⟩
    · intro b hb c hc
      rw [List.mem_singleton.mp hb, hqsize]
      exact (List.pairwise_cons.mp hsorted).1 c (List.mem_cons_of_mem _ hc)
    · intro b hb hne
      rw [List.mem_singleton.mp hb] at hne ⊢
      exact (h.blocks q hq hne).congr hqsize
    · rintro rfl
      exact hqsize.trans h.base_size
  refine ⟨hlist, ?_, hq, ?_, ?_, hpsize, ⟨p, hp, fun x hx => hx.congr hpsize⟩, ?_, ⟨p, hp, ?_⟩⟩
  · exact List.mem_append_right _ List.mem_cons_self
  · simp only [List.length_append, List.length_cons, List.length_nil]
    omega
  · apply hlist.loose (hblock.congr hpsize)
    intro b hb x hx hpx
    obtain ⟨hmem, hne, hsize⟩ := hsizes b hb
    exact h.disjoint hmem hp hne (hx.congr hsize) (hpx.congr hpsize)
  · intro b hb x hx
    obtain ⟨hmem, -, hsize⟩ := hsizes b hb
    exact ⟨hx.congr hsize, hmem⟩
  · exact fun a ha _ => hkeep a ha

/-- The last units of the block `p` have become a block of their own, and what lies outside of `p`
is as it was. -/
structure Cut (mem mem' : Memory) (p bp units : ℕ) : Prop where
  place : bp = p + 8 * (size mem p - units)
  pos : 0 < units
  lt : units < size mem p
  link : ptr mem' p = ptr mem p
  rest : size mem' p = size mem p - units
  units : size mem' bp = units
  frame : ∀ a, ¬Covers (size mem) p a → mem' a = mem a

theorem cut_end {bp : ℕ} (hb : Block base (size mem) p) (hu : 0 < units) (hlt : units < size mem p)
    (hbp : bp = p + 8 * (size mem p - units)) :
    Cut mem (setSize (setSize mem p (size mem p - units)) bp units) p bp units := by
  have hfits := hb.fits
  have hfirst := keeps_setSize mem p (size mem p - units)
  have hsecond := keeps_setSize (setSize mem p (size mem p - units)) bp units
  obtain ⟨hptr, hsize⟩ := hsecond.header (q := p) (.inl (by omega))
  refine ⟨hbp, hu, hlt, hptr.trans ptr_setSize, ?_, ?_, ?_⟩
  · rw [hsize, size_setSize (by omega)]
  · rw [size_setSize (by omega)]
  · intro a ha
    have hout : a < p ∨ p + 8 * size mem p ≤ a := by
      by_contra hin
      rw [not_or] at hin
      exact ha ⟨by omega, by omega⟩
    exact (hsecond a (by omega)).trans (hfirst a (by omega))

section Cutting

variable {bp : ℕ}

/-- The headers of the other blocks lie outside of the one that is cut. -/
theorem Cut.kept (hc : Cut mem mem' p bp units)
    (h : FreeList base (ptr mem) (size mem) (pre ++ p :: post)) {b : ℕ}
    (hb : b ∈ pre ++ post) :
    ptr mem' b = ptr mem b ∧ size mem' b = size mem b := by
  have hp : p ∈ pre ++ p :: post := List.mem_append_right _ List.mem_cons_self
  obtain ⟨hmem, hne⟩ := FreeList.other h hb
  have hsame : ∀ a, b ≤ a → a < b + 8 → mem' a = mem a := by
    intro a ha ha'
    apply hc.frame
    rintro ⟨hle, hcov⟩
    rcases Nat.lt_or_gt_of_ne hne with hbp | hpb
    · have hapart := h.header_apart hmem hp hbp
      omega
    · have hgap := h.gap hp hmem hpb
      omega
  exact ⟨ptr_congr hsame, size_congr hsame⟩

theorem Cut.covers (hc : Cut mem mem' p bp units)
    (h : FreeList base (ptr mem) (size mem) (pre ++ p :: post)) {b x : ℕ}
    (hb : b ∈ pre ++ (p :: [] ++ post)) (hx : Covers (size mem') b x) :
    Covers (size mem) b x ∧ b ∈ pre ++ p :: post := by
  rcases mem_replaced hb with hb | hb
  · exact ⟨hx.congr (hc.kept h hb).2, (FreeList.other h hb).1⟩
  · rw [List.mem_singleton.mp hb, Covers, hc.rest] at hx
    rw [List.mem_singleton.mp hb]
    exact ⟨⟨hx.1, by omega⟩, List.mem_append_right _ List.mem_cons_self⟩

theorem Cut.list (hc : Cut mem mem' p bp units)
    (h : FreeList base (ptr mem) (size mem) (pre ++ p :: post)) :
    FreeList base (ptr mem') (size mem') (pre ++ (p :: [] ++ post)) := by
  have hp : p ∈ pre ++ p :: post := List.mem_append_right _ List.mem_cons_self
  have hlt := hc.lt
  obtain ⟨-, habove, haligned, hfits⟩ := block_of_size h hp (by omega)
  have hsorted := (List.pairwise_append.mp h.sorted).2.1
  have hnext : ptr mem p = post.headD base := (leads_append.mp h.ring).2.1
  refine h.replace (List.suffix_refl post) (fun b hb => (hc.kept h hb).1)
    (fun b hb => (hc.kept h hb).2) ?_ (List.pairwise_singleton _ _) ?_ ?_ ?_
  · exact ⟨hc.link.trans hnext, trivial⟩
  · intro b hb c hcp
    rw [List.mem_singleton.mp hb, hc.rest]
    have hgap := (List.pairwise_cons.mp hsorted).1 c hcp
    omega
  · intro b hb hne
    rw [List.mem_singleton.mp hb]
    refine ⟨?_, habove, haligned, ?_⟩
    · rw [hc.rest]
      omega
    · rw [hc.rest]
      omega
  · rintro rfl
    have hzero := h.base_size
    omega

theorem Cut.loose (hc : Cut mem mem' p bp units)
    (h : FreeList base (ptr mem) (size mem) (pre ++ p :: post)) :
    Loose base mem' (pre ++ (p :: [] ++ post)) bp := by
  have hp : p ∈ pre ++ p :: post := List.mem_append_right _ List.mem_cons_self
  have hplace := hc.place
  have hpos := hc.pos
  have hlt := hc.lt
  obtain ⟨-, habove, haligned, hfits⟩ := block_of_size h hp (by omega)
  apply (hc.list h).loose
  · refine ⟨?_, ?_, ?_, ?_⟩
    · rwa [hc.units]
    · omega
    · omega
    · rw [hc.units]
      omega
  · intro b hb x hx hbx
    rw [Covers, hc.units] at hbx
    by_cases hpb : b = p
    · rw [hpb, Covers, hc.rest] at hx
      omega
    · have hin : Covers (size mem) p x := ⟨by omega, by omega⟩
      obtain ⟨hold, hmem⟩ := hc.covers h hb hx
      exact h.disjoint hmem hp hpb hold hin

end Cutting

/-- The end of the block is handed out. -/
theorem take_part {bp : ℕ} (h : FreeList base (ptr mem) (size mem) (pre ++ p :: post))
    (hq : q ∈ pre ++ p :: post) (hc : Cut mem mem' p bp units) :
    Taken base mem (pre ++ p :: post) units q bp mem' (pre ++ (p :: [] ++ post)) := by
  have hp : p ∈ pre ++ p :: post := List.mem_append_right _ List.mem_cons_self
  refine ⟨hc.list h, hq, hq, le_refl _, hc.loose h, hc.units, ⟨p, hp, ?_⟩,
    fun b hb x hx => hc.covers h hb hx, ⟨p, hp, fun a _ ha => hc.frame a ha⟩⟩
  intro x hx
  have hplace := hc.place
  have hlt := hc.lt
  rw [Covers, hc.units] at hx
  exact ⟨by omega, by omega⟩

/-- What `take` does with a block that is large enough, reached from the one in front of it. -/
theorem take_takes (h : FreeList base (ptr s.mem) (size s.mem) l) (hq : q ∈ l)
    (hnext : ptr s.mem q = p) (hu : 0 < units) (hp : units ≤ size s.mem p) :
    ∃ bp mem' l', take s units q p = (bp + 8, ⟨⟨mem', q⟩, s.calls⟩) ∧
      Taken base s.mem l units q bp mem' l' := by
  obtain ⟨pre, post, rfl⟩ := List.append_of_mem hq
  have hlink : ptr s.mem q = post.headD base := (leads_append.mp h.ring).2.1
  have hzero := h.base_size
  obtain ⟨post', rfl⟩ : ∃ post', post = p :: post' := by
    cases post with
    | nil =>
      change ptr s.mem q = base at hlink
      rw [← hnext, hlink] at hp
      omega
    | cons c post =>
      change ptr s.mem q = c at hlink
      exact ⟨post, by rw [← hlink, hnext]⟩
  unfold take
  split
  case isTrue heq =>
    subst heq
    exact ⟨p, _, _, rfl, take_whole h hu⟩
  case isFalse hne =>
    have hmem : p ∈ pre ++ q :: p :: post' :=
      List.mem_append_right _ (List.mem_cons_of_mem _ List.mem_cons_self)
    have hblock := block_of_size h hmem (by omega)
    have hfits := hblock.fits
    have hskip : skip p (size (setSize s.mem p (size s.mem p - units)) p) =
        p + 8 * (size s.mem p - units) := by
      rw [size_setSize (by omega), skip]
      omega
    have hlist : pre ++ q :: p :: post' = (pre ++ [q]) ++ p :: post' := by
      rw [List.append_assoc]
      rfl
    rw [hlist] at h hq ⊢
    dsimp only
    rw [hskip]
    exact ⟨_, _, _, rfl, take_part h hq (cut_end hblock hu (by omega) rfl)⟩

end Taking

section Walking

variable (sbrk : List Call → ℤ → Option ℕ) (n : ℕ) {units k : ℕ} {s : State} {prevp x : ℕ}
  {xs : List ℕ}

/-- The loop passes blocks that are too small, up to the next that is not or to `freep`. -/
theorem mallocLoop_walk (h : Leads (ptr s.mem) (prevp :: xs) x)
    (hxs : ∀ y ∈ xs, size s.mem y < units ∧ y ≠ s.freep) :
    ∃ q ∈ prevp :: xs, ptr s.mem q = x ∧
      mallocLoop sbrk n units (xs.length + k) s prevp (ptr s.mem prevp) =
        mallocLoop sbrk n units k s q x := by
  induction xs generalizing prevp with
  | nil =>
    have hx : ptr s.mem prevp = x := h.1
    refine ⟨prevp, List.mem_cons_self, hx, ?_⟩
    rw [hx, List.length_nil, Nat.zero_add]
  | cons y xs ih =>
    obtain ⟨⟨hsmall, hne⟩, hrest⟩ := List.forall_mem_cons.mp hxs
    have hy : ptr s.mem prevp = y := h.1
    obtain ⟨q, hq, hqx, hloop⟩ := ih h.2 hrest
    refine ⟨q, List.mem_cons_of_mem _ hq, hqx, ?_⟩
    rw [List.length_cons, Nat.succ_add, hy, mallocLoop, if_neg (not_le.mpr hsmall), if_neg hne]
    exact hloop

theorem mallocLoop_take (hx : units ≤ size s.mem x) :
    mallocLoop sbrk n units (k + 1) s prevp x = .ok (take s units prevp x) := if_pos hx

theorem mallocLoop_more (hx : size s.mem s.freep < units) :
    mallocLoop sbrk n units (k + 1) s prevp s.freep =
      morecore sbrk n s units >>= fun r =>
        if r.1 = 0 then .ok (0, r.2)
        else mallocLoop sbrk n units k r.2 r.1 (ptr r.2.mem r.1) := by
  rw [mallocLoop, if_neg (not_le.mpr hx), if_pos rfl]

variable {base : ℕ} {l : List ℕ}

/-- With a large block on the list one round finds the first of them behind `freep`. -/
theorem mallocLoop_finds (h : FreeList base (ptr s.mem) (size s.mem) l) (hfreep : s.freep ∈ l)
    (hu : 0 < units) (hlarge : ∃ b ∈ l, units ≤ size s.mem b) (hk : l.length ≤ k) :
    ∃ q bp mem' l',
      mallocLoop sbrk n units k s s.freep (ptr s.mem s.freep) =
          .ok (bp + 8, ⟨⟨mem', q⟩, s.calls⟩) ∧ Taken base s.mem l units q bp mem' l' := by
  obtain ⟨r, hring, hperm⟩ := h.rotate hfreep
  have hlength : r.length + 1 = l.length := hperm.length_eq
  have hnodup : (s.freep :: r).Nodup := hperm.nodup_iff.mpr h.nodup
  obtain ⟨xs, x, hleads, hxs, hx, hmem, hlen⟩ : ∃ xs x, Leads (ptr s.mem) (s.freep :: xs) x ∧
      (∀ y ∈ xs, size s.mem y < units ∧ y ≠ s.freep) ∧ units ≤ size s.mem x ∧
      (∀ y ∈ s.freep :: xs, y ∈ l) ∧ xs.length < k := by
    by_cases hfirst : ∃ y ∈ r, units ≤ size s.mem y
    · obtain ⟨xs, x, t, rfl, hx, hsmall⟩ := exists_first hfirst
      rw [List.length_append, List.length_cons] at hlength
      have hpart : Leads (ptr s.mem) ((s.freep :: xs) ++ x :: t) s.freep := hring
      refine ⟨xs, x, (leads_append.mp hpart).1, ?_, hx, ?_, by omega⟩
      · intro y hy
        refine ⟨not_le.mp (hsmall y hy), ?_⟩
        rintro rfl
        exact (List.nodup_cons.mp hnodup).1 (List.mem_append_left _ hy)
      · intro y hy
        apply hperm.subset
        rcases List.mem_cons.mp hy with rfl | hy
        · exact List.mem_cons_self
        · exact List.mem_cons_of_mem _ (List.mem_append_left _ hy)
    · have hsmall : ∀ y ∈ r, size s.mem y < units := fun y hy =>
        not_le.mp fun hle => hfirst ⟨y, hy, hle⟩
      refine ⟨r, s.freep, hring, ?_, ?_, fun y hy => hperm.subset hy, by omega⟩
      · intro y hy
        refine ⟨hsmall y hy, ?_⟩
        rintro rfl
        exact (List.nodup_cons.mp hnodup).1 hy
      · obtain ⟨b, hb, hle⟩ := hlarge
        rcases List.mem_cons.mp (hperm.symm.subset hb) with rfl | hb
        · exact hle
        · exact absurd (hsmall b hb) (not_lt.mpr hle)
  obtain ⟨j, rfl⟩ : ∃ j, k = xs.length + (j + 1) := ⟨k - xs.length - 1, by omega⟩
  obtain ⟨q, hq, hqx, hloop⟩ := mallocLoop_walk sbrk n (k := j + 1) hleads hxs
  obtain ⟨bp, mem', l', htake, htaken⟩ := take_takes h (hmem q hq) hqx hu hx
  exact ⟨q, bp, mem', l', by rw [hloop, mallocLoop_take sbrk n hx, htake], htaken⟩

/-- Without one the round ends at `freep`, and morecore is asked. -/
theorem mallocLoop_asks (h : FreeList base (ptr s.mem) (size s.mem) l) (hfreep : s.freep ∈ l)
    (hsmall : ∀ b ∈ l, size s.mem b < units) :
    mallocLoop sbrk n units (l.length + k) s s.freep (ptr s.mem s.freep) =
      morecore sbrk n s units >>= fun r =>
        if r.1 = 0 then .ok (0, r.2)
        else mallocLoop sbrk n units k r.2 r.1 (ptr r.2.mem r.1) := by
  obtain ⟨r, hring, hperm⟩ := h.rotate hfreep
  have hnodup : (s.freep :: r).Nodup := hperm.nodup_iff.mpr h.nodup
  have hpassed : ∀ y ∈ r, size s.mem y < units ∧ y ≠ s.freep := by
    intro y hy
    refine ⟨hsmall y (hperm.subset (List.mem_cons_of_mem _ hy)), ?_⟩
    rintro rfl
    exact (List.nodup_cons.mp hnodup).1 hy
  obtain ⟨q, -, -, hloop⟩ := mallocLoop_walk sbrk n (k := k + 1) hring hpassed
  have hlength : l.length + k = r.length + (k + 1) := by
    rw [← hperm.length_eq, List.length_cons]
    omega
  rw [hlength, hloop, mallocLoop_more sbrk n (hsmall _ hfreep)]

end Walking

end Allocations
