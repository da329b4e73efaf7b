import Xv6Gui.UserMalloc

/-!
# The free list

A free list starts at `base`, goes upwards without two blocks side by side, and leads back to
`base`. free puts a block into it and malloc takes one out, and neither writes outside the free
blocks and the block itself.
-/
namespace FreeLists

open WordMemory GuardedRuns CircularLists UserMalloc
open WindowManagerState (Fault)

/-- Byte `x` is in the block at `b`. -/
def Covers (size : ℕ → ℕ) (b x : ℕ) : Prop := b ≤ x ∧ x < b + 8 * size b

/-- A block of memory above `base`. -/
structure Block (base : ℕ) (size : ℕ → ℕ) (b : ℕ) : Prop where
  pos : 0 < size b
  above : base + 8 ≤ b
  aligned : b % 8 = 0
  fits : b + 8 * size b ≤ 4294967296

theorem Covers.congr {size size' : ℕ → ℕ} {b x : ℕ} (h : Covers size' b x)
    (hs : size' b = size b) : Covers size b x := by
  rwa [Covers, hs] at h

theorem Block.congr {base b : ℕ} {size size' : ℕ → ℕ} (h : Block base size b)
    (hs : size' b = size b) : Block base size' b := by
  obtain ⟨hpos, habove, haligned, hfits⟩ := h
  rw [← hs] at hpos hfits
  exact ⟨hpos, habove, haligned, hfits⟩

/-- The free list `l`, whose headers hold `ptr` and `size`. -/
structure FreeList (base : ℕ) (ptr size : ℕ → ℕ) (l : List ℕ) : Prop where
  head : l.head? = some base
  ring : Leads ptr l base
  sorted : l.Pairwise fun a b => a + 8 * size a < b
  base_size : size base = 0
  blocks : ∀ b ∈ l, b ≠ base → Block base size b

section Lists

variable {base p q bp x a b k v : ℕ} {ptr ptr' size size' : ℕ → ℕ} {l pre mid post r : List ℕ}

theorem FreeList.mem_base (h : FreeList base ptr size l) : base ∈ l :=
  List.mem_of_mem_head? h.head

theorem FreeList.increasing (h : FreeList base ptr size l) : l.Pairwise (· < ·) := by
  refine h.sorted.imp ?_
  intro a b hab
  omega

theorem FreeList.nodup (h : FreeList base ptr size l) : l.Nodup :=
  h.increasing.imp fun hab => Nat.ne_of_lt hab

/-- The list as it is found from `x` on. -/
theorem FreeList.rotate (h : FreeList base ptr size l) (hx : x ∈ l) :
    ∃ r, Leads ptr (x :: r) x ∧ (x :: r).Perm l := by
  obtain ⟨t, rfl⟩ := List.head?_eq_some_iff.mp h.head
  exact h.ring.rotate hx

theorem FreeList.base_le (h : FreeList base ptr size l) (hb : b ∈ l) : base ≤ b := by
  by_cases hne : b = base
  · exact hne.ge
  · have habove := (h.blocks b hb hne).above
    omega

/-- The block in front of a place in the list and those behind it. -/
theorem exists_split (hsorted : l.Pairwise (· < ·)) (hbp : bp ∉ l) (hfirst : ∃ a ∈ l, a < bp) :
    ∃ pre p post, l = pre ++ p :: post ∧ p < bp ∧ ∀ b ∈ post, bp < b := by
  induction l with
  | nil =>
    obtain ⟨a, ha, -⟩ := hfirst
    cases ha
  | cons c l ih =>
    obtain ⟨hc, hsorted⟩ := List.pairwise_cons.mp hsorted
    rw [List.mem_cons, not_or] at hbp
    by_cases hmore : ∃ a ∈ l, a < bp
    · obtain ⟨pre, p, post, rfl, hp, hpost⟩ := ih hsorted hbp.2 hmore
      exact ⟨c :: pre, p, post, rfl, hp, hpost⟩
    · have hbehind : ∀ b ∈ l, bp < b := by
        intro b hb
        have hnot : ¬b < bp := fun hlt => hmore ⟨b, hb, hlt⟩
        have hne : b ≠ bp := fun he => hbp.2 (he ▸ hb)
        omega
      refine ⟨[], c, l, rfl, ?_, hbehind⟩
      obtain ⟨a, ha, hlt⟩ := hfirst
      rcases List.mem_cons.mp ha with rfl | ha
      · exact hlt
      · exact absurd hlt (not_lt.mpr (hbehind a ha).le)

/-- Blocks from `p` on are replaced by others, the last of which leads to what is left of the
list. -/
theorem FreeList.replace (h : FreeList base ptr size (pre ++ p :: post)) (hr : r <:+ post)
    (hptr : ∀ b ∈ pre ++ r, ptr' b = ptr b) (hsize : ∀ b ∈ pre ++ r, size' b = size b)
    (hring : Leads ptr' (p :: mid) (r.headD base))
    (hsorted : (p :: mid).Pairwise fun a b => a + 8 * size' a < b)
    (hgap : ∀ b ∈ p :: mid, ∀ c ∈ r, b + 8 * size' b < c)
    (hblock : ∀ b ∈ p :: mid, b ≠ base → Block base size' b) (hbase : p = base → size' p = 0) :
    FreeList base ptr' size' (pre ++ (p :: mid ++ r)) := by
  obtain ⟨s, rfl⟩ := hr
  obtain ⟨hpre, htail, hcross⟩ := List.pairwise_append.mp h.sorted
  obtain ⟨hfront, hback⟩ := leads_append.mp h.ring
  obtain ⟨-, hafter⟩ := hback
  obtain ⟨-, hrest⟩ := leads_append.mp hafter
  have hle : ∀ b ∈ p :: mid, p ≤ b := by
    intro b hb
    rcases List.mem_cons.mp hb with rfl | hb
    · exact le_refl _
    · have hlt := (List.pairwise_cons.mp hsorted).1 b hb
      omega
  have hr : ∀ b ∈ r, b ∈ p :: (s ++ r) := fun b hb =>
    List.mem_cons_of_mem _ (List.mem_append_right _ hb)
  constructor
  case head =>
    have hhead := h.head
    cases pre with
    | nil => exact hhead
    | cons c pre => exact hhead
  case ring =>
    refine leads_append.mpr ⟨?_, leads_append.mpr ⟨hring, ?_⟩⟩
    · exact hfront.congr fun a ha => hptr a (List.mem_append_left _ ha)
    · exact hrest.congr fun a ha => hptr a (List.mem_append_right _ ha)
  case sorted =>
    have hrsorted : r.Pairwise fun a b => a + 8 * size a < b :=
      (List.pairwise_append.mp (List.pairwise_cons.mp htail).2).2.1
    refine List.pairwise_append.mpr ⟨?_, List.pairwise_append.mpr ⟨hsorted, ?_, hgap⟩, ?_⟩
    · refine hpre.imp_of_mem ?_
      intro a b ha _ hab
      rwa [hsize a (List.mem_append_left _ ha)]
    · refine hrsorted.imp_of_mem ?_
      intro a b ha _ hab
      rwa [hsize a (List.mem_append_right _ ha)]
    · intro a ha b hb
      rw [hsize a (List.mem_append_left _ ha)]
      rcases List.mem_append.mp hb with hb | hb
      · exact (hcross a ha p List.mem_cons_self).trans_le (hle b hb)
      · exact hcross a ha b (hr b hb)
  case base_size =>
    by_cases hp : p = base
    · exact hp ▸ hbase hp
    · have hmem : base ∈ pre := by
        have hhead := h.head
        cases pre with
        | nil => exact absurd (Option.some.inj hhead) hp
        | cons c pre => exact List.mem_cons.mpr (.inl (Option.some.inj hhead).symm)
      rw [hsize base (List.mem_append_left _ hmem)]
      exact h.base_size
  case blocks =>
    have hkeep : ∀ b ∈ pre ++ r, b ≠ base → Block base size' b := by
      intro b hb hne
      have hold : b ∈ pre ++ p :: (s ++ r) := by
        rcases List.mem_append.mp hb with hb | hb
        · exact List.mem_append_left _ hb
        · exact List.mem_append_right _ (hr b hb)
      exact (h.blocks b hold hne).congr (hsize b hb)
    intro b hb hne
    rcases List.mem_append.mp hb with hb | hb
    · exact hkeep b (List.mem_append_left _ hb) hne
    · rcases List.mem_append.mp hb with hb | hb
      · exact hblock b hb hne
      · exact hkeep b (List.mem_append_right _ hb) hne

theorem FreeList.congr (h : FreeList base ptr size l) (hptr : ∀ b ∈ l, ptr' b = ptr b)
    (hsize : ∀ b ∈ l, size' b = size b) : FreeList base ptr' size' l where
  head := h.head
  ring := h.ring.congr hptr
  sorted := by
    refine h.sorted.imp_of_mem ?_
    intro a b ha _ hab
    rwa [hsize a ha]
  base_size := (hsize base h.mem_base).trans h.base_size
  blocks b hb hne := (h.blocks b hb hne).congr (hsize b hb)

end Lists

section Headers

variable {mem mem' : Memory} {p q v : ℕ}

theorem ptr_congr (h : ∀ a, q ≤ a → a < q + 8 → mem' a = mem a) : ptr mem' q = ptr mem q := by
  have hword : word mem' q = word mem q := by
    apply word_congr
    intro a ha ha'
    exact h a ha (by omega)
  rw [ptr, ptr, hword]

theorem size_congr (h : ∀ a, q ≤ a → a < q + 8 → mem' a = mem a) : size mem' q = size mem q := by
  have hword : word mem' (q + 4) = word mem (q + 4) := by
    apply word_congr
    intro a ha ha'
    exact h a (by omega) (by omega)
  rw [size, size, hword]

theorem setPtr_outside (h : q < p ∨ p + 8 ≤ q) : setPtr mem p v q = mem q :=
  storeWord_outside _ _ (by omega)

theorem setSize_outside (h : q < p ∨ p + 8 ≤ q) : setSize mem p v q = mem q :=
  storeWord_outside _ _ (by omega)

theorem ptr_setPtr (hv : v < 4294967296) : ptr (setPtr mem p v) p = v := by
  rw [ptr, setPtr, word_storeWord, BitVec.toNat_ofNat]
  exact Nat.mod_eq_of_lt hv

theorem size_setSize (hv : v < 4294967296) : size (setSize mem p v) p = v := by
  rw [size, setSize, word_storeWord, BitVec.toNat_ofNat]
  exact Nat.mod_eq_of_lt hv

theorem size_setPtr : size (setPtr mem p v) p = size mem p := by
  have hword : word (setPtr mem p v) (p + 4) = word mem (p + 4) := by
    apply word_congr
    intro a ha ha'
    exact storeWord_outside _ _ (.inr ha)
  rw [size, size, hword]

theorem ptr_setSize : ptr (setSize mem p v) p = ptr mem p := by
  have hword : word (setSize mem p v) p = word mem p := by
    apply word_congr
    intro a ha ha'
    exact storeWord_outside _ _ (.inl ha')
  rw [ptr, ptr, hword]

theorem ptr_lt (mem : Memory) (p : ℕ) : ptr mem p < 4294967296 := BitVec.isLt _

/-- Pointers do not wrap within a block. -/
theorem skip_eq_iff {n : ℕ} (h : p + 8 * n ≤ 4294967296) (hq : 0 < q) (hlt : q < 4294967296) :
    skip p n = q ↔ p + 8 * n = q := by
  unfold skip
  omega

end Headers

/-- Only the header at `b` may have changed. -/
def Keeps (b : ℕ) (mem mem' : Memory) : Prop := ∀ a, a < b ∨ b + 8 ≤ a → mem' a = mem a

section Merging

variable {base p q bp n freep : ℕ} {mem mem' : Memory} {l pre post r : List ℕ}

theorem keeps_setPtr (mem : Memory) (p v : ℕ) : Keeps p mem (setPtr mem p v) :=
  fun _ h => setPtr_outside h

theorem keeps_setSize (mem : Memory) (p v : ℕ) : Keeps p mem (setSize mem p v) :=
  fun _ h => setSize_outside h

theorem Keeps.trans {mem'' : Memory} (h : Keeps p mem mem') (h' : Keeps p mem' mem'') :
    Keeps p mem mem'' := fun a ha => (h' a ha).trans (h a ha)

theorem Keeps.header (h : Keeps p mem mem') (hq : q + 8 ≤ p ∨ p + 8 ≤ q) :
    ptr mem' q = ptr mem q ∧ size mem' q = size mem q := by
  have hsame : ∀ a, q ≤ a → a < q + 8 → mem' a = mem a := fun a ha ha' => h a (by omega)
  exact ⟨ptr_congr hsame, size_congr hsame⟩

theorem FreeList.gap {size : ℕ → ℕ} {next : ℕ → ℕ} (h : FreeList base next size l) (hp : p ∈ l)
    (hq : q ∈ l) (hlt : p < q) : p + 8 * size p < q := by
  obtain ⟨s, t, rfl⟩ := List.append_of_mem hp
  obtain ⟨-, htail, hcross⟩ := List.pairwise_append.mp h.sorted
  rcases List.mem_append.mp hq with hq | hq
  · have hback := hcross q hq p List.mem_cons_self
    omega
  · rcases List.mem_cons.mp hq with rfl | hq
    · exact absurd hlt (lt_irrefl _)
    · exact (List.pairwise_cons.mp htail).1 q hq

/-- Two headers on the list do not overlap. -/
theorem FreeList.header_apart (h : FreeList base (ptr mem) (size mem) l) (hp : p ∈ l) (hq : q ∈ l)
    (hlt : p < q) : p + 8 ≤ q := by
  by_cases hbase : p = base
  · have hne : q ≠ base := by omega
    exact hbase ▸ (h.blocks q hq hne).above
  · have hpos := (h.blocks p hp hbase).pos
    have hgap := h.gap hp hq hlt
    omega

theorem FreeList.header_apart_of_ne (h : FreeList base (ptr mem) (size mem) l) (hp : p ∈ l)
    (hq : q ∈ l) (hne : p ≠ q) : p + 8 ≤ q ∨ q + 8 ≤ p := by
  rcases Nat.lt_or_gt_of_ne hne with hlt | hlt
  · exact .inl (h.header_apart hp hq hlt)
  · exact .inr (h.header_apart hq hp hlt)

theorem FreeList.disjoint (h : FreeList base (ptr mem) (size mem) l) (hp : p ∈ l) (hq : q ∈ l)
    (hne : p ≠ q) {x : ℕ} (hx : Covers (size mem) p x) : ¬Covers (size mem) q x := by
  rintro ⟨hle, hlt⟩
  obtain ⟨hple, hplt⟩ := hx
  rcases Nat.lt_or_gt_of_ne hne with hpq | hqp
  · have hgap := h.gap hp hq hpq
    omega
  · have hgap := h.gap hq hp hqp
    omega

/-- A block that is not on the list and that no block of the list overlaps. -/
structure Loose (base : ℕ) (mem : Memory) (l : List ℕ) (bp : ℕ) : Prop where
  block : Block base (size mem) bp
  apart : ∀ b ∈ l, b + 8 * size mem b ≤ bp ∨ bp + 8 * size mem bp ≤ b

theorem Loose.header_apart (hb : Loose base mem l bp)
    (h : FreeList base (ptr mem) (size mem) l) (hq : q ∈ l) : q + 8 ≤ bp ∨ bp + 8 ≤ q := by
  have hpos := hb.block.pos
  by_cases hbase : q = base
  · exact .inl (hbase ▸ hb.block.above)
  · have hqpos := (h.blocks q hq hbase).pos
    rcases hb.apart q hq with hle | hle
    · exact .inl (by omega)
    · exact .inr (by omega)

theorem Loose.not_mem (hb : Loose base mem l bp) (h : FreeList base (ptr mem) (size mem) l) :
    bp ∉ l := by
  intro hmem
  rcases hb.header_apart h hmem with hle | hle
  · omega
  · omega

theorem Loose.disjoint (hb : Loose base mem l bp) {b x : ℕ} (hmem : b ∈ l)
    (hx : Covers (size mem) b x) : ¬Covers (size mem) bp x := by
  rintro ⟨hle, hlt⟩
  obtain ⟨hble, hblt⟩ := hx
  rcases hb.apart b hmem with h | h
  · omega
  · omega

/-- A block is loose if no byte of it is in a block of the list. -/
theorem FreeList.loose (h : FreeList base (ptr mem) (size mem) l)
    (hblock : Block base (size mem) bp)
    (hdisjoint : ∀ b ∈ l, ∀ x, Covers (size mem) b x → ¬Covers (size mem) bp x) :
    Loose base mem l bp := by
  refine ⟨hblock, ?_⟩
  intro b hb
  have habove := hblock.above
  have hpos := hblock.pos
  by_cases hbase : b = base
  · left
    rw [hbase, h.base_size]
    omega
  · have hbpos := (h.blocks b hb hbase).pos
    by_contra hover
    rw [not_or] at hover
    refine hdisjoint b hb (max b bp) ⟨le_max_left _ _, ?_⟩ ⟨le_max_right _ _, ?_⟩
    · omega
    · omega

/-- What `bp` is once it has been joined to the block that follows it, or linked. -/
structure Joined (base : ℕ) (mem : Memory) (post : List ℕ) (bp : ℕ) (mem' : Memory) (r : List ℕ) :
    Prop where
  suffix : r <:+ post
  keeps : Keeps bp mem mem'
  next : ptr mem' bp = r.headD base
  gap : ∀ b ∈ r, bp + 8 * size mem' bp < b
  block : Block base (size mem') bp
  larger : size mem bp ≤ size mem' bp
  covers : ∀ x, Covers (size mem') bp x → ∃ b ∈ bp :: post, Covers (size mem) b x

theorem Joined.linked (hblock : Block base (size mem) bp) (hr : r <:+ post)
    (hhead : r.headD base = ptr mem p) (hgap : ∀ b ∈ r, bp + 8 * size mem bp < b) :
    Joined base mem post bp (setPtr mem bp (ptr mem p)) r := by
  refine ⟨hr, keeps_setPtr _ _ _, ?_, ?_, hblock.congr size_setPtr, size_setPtr.ge, ?_⟩
  · rw [ptr_setPtr (ptr_lt mem p), hhead]
  · rw [size_setPtr]
    exact hgap
  · exact fun x hx => ⟨bp, List.mem_cons_self, hx.congr size_setPtr⟩

/-- `bp` ends where the block `q` begins, and becomes as long as both. -/
theorem Joined.merged (hblock : Block base (size mem) bp) (hq : Block base (size mem) q)
    (hjoin : bp + 8 * size mem bp = q) (hhead : post.headD base < 4294967296)
    (hbehind : ∀ b ∈ post, q + 8 * size mem q < b) :
    Joined base mem (q :: post) bp
      (setPtr (setSize mem bp (size mem bp + size mem q)) bp (post.headD base)) post := by
  have hpos := hblock.pos
  have hfits := hq.fits
  have hsum : size mem bp + size mem q < 4294967296 := by omega
  have hsize : size (setPtr (setSize mem bp (size mem bp + size mem q)) bp
      (post.headD base)) bp = size mem bp + size mem q := by
    rw [size_setPtr, size_setSize hsum]
  constructor
  case suffix => exact List.suffix_cons q post
  case keeps => exact (keeps_setSize _ _ _).trans (keeps_setPtr _ _ _)
  case next => exact ptr_setPtr hhead
  case gap =>
    intro b hb
    have hlt := hbehind b hb
    rw [hsize]
    omega
  case block =>
    refine ⟨?_, hblock.above, hblock.aligned, ?_⟩
    · rw [hsize]
      omega
    · rw [hsize]
      omega
  case larger =>
    rw [hsize]
    omega
  case covers =>
    intro x hx
    rw [Covers, hsize] at hx
    by_cases hxq : x < q
    · exact ⟨bp, List.mem_cons_self, hx.1, by omega⟩
    · exact ⟨q, List.mem_cons_of_mem _ List.mem_cons_self, by omega, by omega⟩

theorem mergeNext_joins (h : FreeList base (ptr mem) (size mem) (pre ++ p :: post))
    (hpos : 0 < base) (hb : Loose base mem (pre ++ p :: post) bp) (hpost : ∀ b ∈ post, bp < b) :
    ∃ r, Joined base mem post bp (mergeNext mem p bp) r := by
  have hfits := hb.block.fits
  have habove := hb.block.above
  have hnext : ptr mem p = post.headD base := (leads_append.mp h.ring).2.1
  unfold mergeNext
  cases post with
  | nil =>
    change ptr mem p = base at hnext
    have hskip : skip bp (size mem bp) ≠ ptr mem p := by
      rw [hnext, Ne, skip_eq_iff hfits hpos (by omega)]
      omega
    rw [if_neg hskip]
    exact ⟨[], .linked hb.block (List.suffix_refl []) hnext.symm fun b hb =>
      absurd hb List.not_mem_nil⟩
  | cons q post =>
    change ptr mem p = q at hnext
    have hq : q ∈ pre ++ p :: q :: post :=
      List.mem_append_right _ (List.mem_cons_of_mem _ List.mem_cons_self)
    have hbq := hpost q List.mem_cons_self
    have hqblock := h.blocks q hq (by omega)
    have hqpos := hqblock.pos
    have hqfits := hqblock.fits
    have hsorted := (List.pairwise_cons.mp (List.pairwise_append.mp h.sorted).2.1).2
    have hbehind : ∀ b ∈ post, q + 8 * size mem q < b := (List.pairwise_cons.mp hsorted).1
    have hskip := skip_eq_iff (q := q) hfits (by omega) (by omega)
    by_cases hjoin : bp + 8 * size mem bp = q
    · have hapart := hb.header_apart h (q := p) (List.mem_append_right _ List.mem_cons_self)
      have hkeep := keeps_setSize mem bp (size mem bp + size mem q)
      have hold : ptr (setSize mem bp (size mem bp + size mem q)) p = q :=
        (hkeep.header hapart).1.trans hnext
      have hafter : ptr (setSize mem bp (size mem bp + size mem q)) q = post.headD base :=
        (hkeep.header (hb.header_apart h hq)).1.trans (leads_append.mp h.ring).2.2.1
      have hhead : post.headD base < 4294967296 := by
        rw [← hafter]
        exact ptr_lt _ _
      rw [hnext, if_pos (hskip.mpr hjoin)]
      simp only [hold, hafter]
      exact ⟨post, .merged hb.block hqblock hjoin hhead hbehind⟩
    · rw [if_neg (by rw [hnext, hskip]; exact hjoin)]
      refine ⟨q :: post, .linked hb.block (List.suffix_refl _) hnext.symm ?_⟩
      intro b hb'
      have hle := hb.apart q hq
      rcases List.mem_cons.mp hb' with rfl | hb'
      · omega
      · have hlt := hbehind b hb'
        omega

/-- What free does to the list `l`: `bp` is in it, on its own or as a part of a block. -/
structure Freed (base : ℕ) (mem : Memory) (l : List ℕ) (p bp : ℕ) (mem' : Memory) (l' : List ℕ) :
    Prop where
  list : FreeList base (ptr mem') (size mem') l'
  entry : p ∈ l'
  old : p ∈ l
  length : l'.length ≤ l.length + 1
  large : ∃ b ∈ l', size mem bp ≤ size mem' b
  covers : ∀ b ∈ l', ∀ x, Covers (size mem') b x → ∃ c ∈ bp :: l, Covers (size mem) c x
  frame : ∀ a, (a < p ∨ p + 8 ≤ a) → (a < bp ∨ bp + 8 ≤ a) → mem' a = mem a

theorem mem_replaced {b : ℕ} {mid : List ℕ} (h : b ∈ pre ++ (p :: mid ++ r)) :
    b ∈ pre ++ r ∨ b ∈ p :: mid := by
  rcases List.mem_append.mp h with h | h
  · exact .inl (List.mem_append_left _ h)
  · rcases List.mem_append.mp h with h | h
    · exact .inr h
    · exact .inl (List.mem_append_right _ h)

theorem mem_old {b : ℕ} (hr : r <:+ post) (h : b ∈ pre ++ r) : b ∈ pre ++ p :: post := by
  rcases List.mem_append.mp h with h | h
  · exact List.mem_append_left _ h
  · exact List.mem_append_right _ (List.mem_cons_of_mem _ (hr.subset h))

theorem Joined.covers_list {mem' : Memory} (hj : Joined base mem post bp mem' r) (x : ℕ)
    (hx : Covers (size mem') bp x) : ∃ c ∈ bp :: (pre ++ p :: post), Covers (size mem) c x := by
  obtain ⟨c, hc, hcx⟩ := hj.covers x hx
  refine ⟨c, ?_, hcx⟩
  rcases List.mem_cons.mp hc with rfl | hc
  · exact List.mem_cons_self
  · exact List.mem_cons_of_mem _ (List.mem_append_right _ (List.mem_cons_of_mem _ hc))

/-- Nothing but the headers at `p` and `bp` has changed. -/
def Frame (p bp : ℕ) (mem mem' : Memory) : Prop :=
  ∀ a, (a < p ∨ p + 8 ≤ a) → (a < bp ∨ bp + 8 ≤ a) → mem' a = mem a

theorem Keeps.frame {mem'' : Memory} (h : Keeps bp mem mem') (h' : Keeps p mem' mem'') :
    Frame p bp mem mem'' := fun a hp hb => (h' a hp).trans (h a hb)

theorem Frame.headers {mem' : Memory} (hf : Frame p bp mem mem')
    (h : FreeList base (ptr mem) (size mem) (pre ++ p :: post))
    (hb : Loose base mem (pre ++ p :: post) bp) (hr : r <:+ post) (b : ℕ) (hmem : b ∈ pre ++ r) :
    ptr mem' b = ptr mem b ∧ size mem' b = size mem b := by
  have hp : p ∈ pre ++ p :: post := List.mem_append_right _ List.mem_cons_self
  have hpre := (List.pairwise_append.mp h.increasing).2.2
  have hpost := (List.pairwise_cons.mp (List.pairwise_append.mp h.increasing).2.1).1
  have hold : b ∈ pre ++ p :: post := mem_old hr hmem
  have hplace : b + 8 ≤ p ∨ p + 8 ≤ b := by
    rcases List.mem_append.mp hmem with hm | hm
    · exact .inl (h.header_apart hold hp (hpre b hm p List.mem_cons_self))
    · exact .inr (h.header_apart hp hold (hpost b (hr.subset hm)))
  have hapart := hb.header_apart h hold
  have hsame : ∀ a, b ≤ a → a < b + 8 → mem' a = mem a := by
    intro a ha ha'
    exact hf a (by omega) (by omega)
  exact ⟨ptr_congr hsame, size_congr hsame⟩

/-- The block is linked behind `p`. -/
theorem mergePrev_links {mem' : Memory} (h : FreeList base (ptr mem) (size mem) (pre ++ p :: post))
    (hb : Loose base mem (pre ++ p :: post) bp) (hp : p + 8 ≤ bp) (hgap : p + 8 * size mem p < bp)
    (hj : Joined base mem post bp mem' r) :
    Freed base mem (pre ++ p :: post) p bp (setPtr mem' p bp) (pre ++ (p :: [bp] ++ r)) := by
  have hfits := hj.block.fits
  have hpos := hj.block.pos
  have hkeep := keeps_setPtr mem' p bp
  have hframe := hj.keeps.frame hkeep
  have hkept := hframe.headers h hb hj.suffix
  obtain ⟨hbptr, hbsize⟩ := hkeep.header (q := bp) (.inr hp)
  have hpsize : size (setPtr mem' p bp) p = size mem p :=
    size_setPtr.trans (hj.keeps.header (.inl hp)).2
  have hpmem : p ∈ pre ++ p :: post := List.mem_append_right _ List.mem_cons_self
  have hlist : FreeList base (ptr (setPtr mem' p bp)) (size (setPtr mem' p bp))
      (pre ++ (p :: [bp] ++ r)) := by
    refine h.replace hj.suffix (fun b hb => (hkept b hb).1) (fun b hb => (hkept b hb).2) ?_ ?_ ?_
      ?_ ?_
    · exact ⟨ptr_setPtr (by omega), hbptr.trans hj.next, trivial⟩
    · refine List.pairwise_cons.mpr ⟨?_, List.pairwise_singleton _ _⟩
      intro b hb'
      rw [List.mem_singleton.mp hb', hpsize]
      exact hgap
    · intro b hb' c hc
      have hbc := hj.gap c hc
      rcases List.mem_cons.mp hb' with rfl | hb'
      · rw [hpsize]
        omega
      · rw [List.mem_singleton.mp hb', hbsize]
        exact hbc
    · intro b hb' hne
      rcases List.mem_cons.mp hb' with rfl | hb'
      · exact (h.blocks b hpmem hne).congr hpsize
      · rw [List.mem_singleton.mp hb']
        exact hj.block.congr hbsize
    · rintro rfl
      exact hpsize.trans h.base_size
  refine ⟨hlist, ?_, hpmem, ?_, ⟨bp, ?_, ?_⟩, ?_, hframe⟩
  · exact List.mem_append_right _ List.mem_cons_self
  · have hlen := hj.suffix.length_le
    simp only [List.length_append, List.length_cons, List.length_nil]
    omega
  · exact List.mem_append_right _ (List.mem_cons_of_mem _ List.mem_cons_self)
  · rw [hbsize]
    exact hj.larger
  · intro b hb' x hx
    rcases mem_replaced hb' with hm | hm
    · exact ⟨b, List.mem_cons_of_mem _ (mem_old hj.suffix hm), hx.congr (hkept b hm).2⟩
    · rcases List.mem_cons.mp hm with rfl | hm
      · exact ⟨b, List.mem_cons_of_mem _ hpmem, hx.congr hpsize⟩
      · rw [List.mem_singleton.mp hm] at hx
        exact hj.covers_list x (hx.congr hbsize)

/-- The block becomes the end of `p`. -/
theorem mergePrev_joins {mem' : Memory} (h : FreeList base (ptr mem) (size mem) (pre ++ p :: post))
    (hb : Loose base mem (pre ++ p :: post) bp) (hp : p + 8 ≤ bp) (hgap : p + 8 * size mem p = bp)
    (hj : Joined base mem post bp mem' r) :
    Freed base mem (pre ++ p :: post) p bp
      (setPtr (setSize mem' p (size mem' p + size mem' bp)) p
        (ptr (setSize mem' p (size mem' p + size mem' bp)) bp)) (pre ++ (p :: [] ++ r)) := by
  have hfits := hj.block.fits
  have hpos := hj.block.pos
  have hpmem : p ∈ pre ++ p :: post := List.mem_append_right _ List.mem_cons_self
  have hsizes := keeps_setSize mem' p (size mem' p + size mem' bp)
  have hnext : ptr (setSize mem' p (size mem' p + size mem' bp)) bp = r.headD base :=
    (hsizes.header (.inr hp)).1.trans hj.next
  have hpsize : size mem' p = size mem p := (hj.keeps.header (.inl hp)).2
  generalize hm : setPtr (setSize mem' p (size mem' p + size mem' bp)) p
    (ptr (setSize mem' p (size mem' p + size mem' bp)) bp) = mem''
  have hframe : Frame p bp mem mem'' := by
    rw [← hm]
    exact hj.keeps.frame (hsizes.trans (keeps_setPtr _ _ _))
  have hptr : ptr mem'' p = r.headD base := by
    rw [← hm, ptr_setPtr (ptr_lt _ _), hnext]
  have hsize : size mem'' p = size mem p + size mem' bp := by
    rw [← hm, size_setPtr, hpsize, size_setSize (by omega)]
  have hkept := hframe.headers h hb hj.suffix
  have hlarger := hj.larger
  have hnew : ∀ {x}, Covers (size mem'') p x → Covers (size mem) p x ∨ Covers (size mem') bp x := by
    intro x hx
    rw [Covers, hsize] at hx
    unfold Covers
    omega
  have hlist : FreeList base (ptr mem'') (size mem'') (pre ++ (p :: [] ++ r)) := by
    refine h.replace hj.suffix (fun b hb => (hkept b hb).1) (fun b hb => (hkept b hb).2) ?_ ?_ ?_
      ?_ ?_
    · exact ⟨hptr, trivial⟩
    · exact List.pairwise_singleton _ _
    · intro b hb' c hc
      have hbc := hj.gap c hc
      rw [List.mem_singleton.mp hb', hsize]
      omega
    · intro b hb' hne
      rw [List.mem_singleton.mp hb'] at hne ⊢
      obtain ⟨h1, h2, h3, -⟩ := h.blocks p hpmem hne
      refine ⟨?_, h2, h3, ?_⟩
      · rw [hsize]
        omega
      · rw [hsize]
        omega
    · rintro rfl
      have hzero := h.base_size
      have habove := hb.block.above
      omega
  refine ⟨hlist, ?_, hpmem, ?_, ⟨p, ?_, ?_⟩, ?_, hframe⟩
  · exact List.mem_append_right _ List.mem_cons_self
  · have hlen := hj.suffix.length_le
    simp only [List.length_append, List.length_cons, List.length_nil]
    omega
  · exact List.mem_append_right _ List.mem_cons_self
  · rw [hsize]
    omega
  · intro b hb' x hx
    rcases mem_replaced hb' with hm | hm
    · exact ⟨b, List.mem_cons_of_mem _ (mem_old hj.suffix hm), hx.congr (hkept b hm).2⟩
    · rw [List.mem_singleton.mp hm] at hx
      rcases hnew hx with hx | hx
      · exact ⟨p, List.mem_cons_of_mem _ hpmem, hx⟩
      · exact hj.covers_list x hx

/-- The loop of free stops at the block in front of the one it puts back. -/
theorem place_iff (h : FreeList base (ptr mem) (size mem) (pre ++ p :: post)) (hbase : base < bp)
    (hbp : bp ∉ pre ++ p :: post) :
    Place mem bp p ↔ p < bp ∧ ∀ b ∈ post, bp < b := by
  have hnext : ptr mem p = post.headD base := (leads_append.mp h.ring).2.1
  have hsorted := (List.pairwise_append.mp h.increasing).2.1
  have hle : base ≤ p := h.base_le (List.mem_append_right _ List.mem_cons_self)
  rw [Place, hnext]
  cases post with
  | nil =>
    change p < bp ∧ bp < base ∨ base ≤ p ∧ (p < bp ∨ bp < base) ↔ _
    simp only [List.not_mem_nil, false_implies, implies_true, and_true]
    omega
  | cons c post =>
    obtain ⟨hlt, hbehind⟩ := List.pairwise_cons.mp hsorted
    have hpc := hlt c List.mem_cons_self
    have hcpost := (List.pairwise_cons.mp hbehind).1
    change p < bp ∧ bp < c ∨ c ≤ p ∧ (p < bp ∨ bp < c) ↔ _
    constructor
    · intro hplace
      refine ⟨by omega, ?_⟩
      intro b hb
      rcases List.mem_cons.mp hb with rfl | hb
      · omega
      · have hcb := hcpost b hb
        omega
    · rintro ⟨hp, hpost⟩
      exact .inl ⟨hp, hpost c List.mem_cons_self⟩

theorem place_exists (h : FreeList base (ptr mem) (size mem) l) (hb : Loose base mem l bp) :
    ∃ p ∈ l, Place mem bp p := by
  have habove := hb.block.above
  have hnot := hb.not_mem h
  obtain ⟨pre, p, post, rfl, hp, hpost⟩ :=
    exists_split h.increasing hnot ⟨base, h.mem_base, by omega⟩
  exact ⟨p, List.mem_append_right _ List.mem_cons_self,
    (place_iff h (by omega) hnot).mpr ⟨hp, hpost⟩⟩

/-- free ends, and puts the block into the list in its place. -/
theorem free_frees (h : FreeList base (ptr mem) (size mem) l) (hpos : 0 < base)
    (hb : Loose base mem l bp) (hfreep : freep ∈ l) (hn : l.length ≤ n) :
    ∃ p mem' l', free n ⟨mem, freep⟩ (bp + 8) = .ok ⟨mem', p⟩ ∧ Freed base mem l p bp mem' l' := by
  have habove := hb.block.above
  have hnot := hb.not_mem h
  obtain ⟨t, ht⟩ := List.head?_eq_some_iff.mp h.head
  have hring := h.ring
  rw [ht] at hring hfreep hn
  have hstop := place_exists h hb
  rw [ht] at hstop
  obtain ⟨p, hp, hplace, hseek⟩ := hring.seek (Place mem bp) hfreep hstop hn
  have hfree : free n ⟨mem, freep⟩ (bp + 8) = .ok ⟨mergePrev (mergeNext mem p bp) p bp, p⟩ := by
    rw [free, Nat.add_sub_cancel]
    simp only [hseek]
  rw [← ht] at hp
  obtain ⟨pre, post, rfl⟩ := List.append_of_mem hp
  obtain ⟨hlt, hpost⟩ := (place_iff h (by omega) hnot).mp hplace
  obtain ⟨r, hj⟩ := mergeNext_joins h hpos hb hpost
  have hpapart : p + 8 ≤ bp := by
    rcases hb.header_apart h hp with hle | hle
    · exact hle
    · omega
  have hpsize : size (mergeNext mem p bp) p = size mem p := (hj.keeps.header (.inl hpapart)).2
  have hgap : p + 8 * size mem p ≤ bp := by
    rcases hb.apart p hp with hle | hle
    · exact hle
    · omega
  have hfits := hb.block.fits
  have hbpos := hb.block.pos
  have hskip := skip_eq_iff (p := p) (q := bp) (n := size mem p) (by omega) (by omega) (by omega)
  rw [← hpsize] at hskip
  rw [hfree]
  unfold mergePrev
  by_cases hjoin : p + 8 * size mem p = bp
  · rw [if_pos (hskip.mpr (hpsize ▸ hjoin))]
    exact ⟨p, _, _, rfl, mergePrev_joins h hb hpapart hjoin hj⟩
  · rw [if_neg fun hs => hjoin (hpsize ▸ hskip.mp hs)]
    exact ⟨p, _, _, rfl, mergePrev_links h hb hpapart (by omega) hj⟩

end Merging

end FreeLists
