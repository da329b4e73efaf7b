import Xv6Gui.UserMemory

/-!
# Making, copying and freeing address spaces

freevm, setupkvm and copyuvm of vm.c. A new space is built of free pages only, and freevm gives
back all of them, so from whatever point it is called the free list is what it was before.
-/
namespace AddressSpaces

open WordMemory PageEntries PageTables PageViews PageOwnership PageMappings UserMemory Ledgers
open GuardedRuns

structure FreeList (L : Layout) (pool : List ℕ) : Prop where
  nodup : pool.Nodup
  valid : ∀ f ∈ pool, L.Valid f

/-- What the space held is free, and only pages that are free now have been written. -/
structure Freed (d : ℕ) (s s' : Kernel) : Prop where
  nodup : s'.freelist.Nodup
  free : ∀ f, f ∈ s'.freelist ↔ f ∈ s.freelist ∨ ∃ k, heldBy s.mem d k = some f
  kept : ∀ g, g ∉ s'.freelist → s'.mem g = s.mem g

/-- The space has been made of pages that were free in `pool₀`, and no other page has been
written. -/
structure Fresh (L : Layout) (pool₀ : List ℕ) (mem₀ : Pages) (pool : List ℕ) (mem : Pages)
    (d : ℕ) : Prop where
  grows : Grows ⟨fun _ => none, {f | f ∉ pool₀}⟩ (ledger pool mem d)
  space : Space L pool mem d
  kept : ∀ g, g ∉ pool₀ → mem g = mem₀ g

/-- Nothing has been taken from the free list, and only pages on it have been written. -/
structure Restored (s s' : Kernel) : Prop where
  free : s'.freelist.Perm s.freelist
  kept : ∀ g, g ∉ s.freelist → s'.mem g = s.mem g

variable {L : Layout} {pool₀ pool pool' rest : List ℕ} {mem₀ mem mem' : Pages}
  {d f i n p q : ℕ} {e : Word} {s s₀ s' : Kernel}

theorem user_of_pagesOf (h : p ∈ pagesOf 0 kernbase) : p < userPages := by
  have := h.2
  dsimp only [kernbase, userPages] at this ⊢
  omega

theorem pagesOf_of_user (h : p < userPages) : p ∈ pagesOf 0 kernbase := by
  refine ⟨Nat.zero_le _, ?_⟩
  dsimp only [kernbase, userPages] at h ⊢
  omega

section Freeing

/-- The tables from `i` on can be freed. -/
structure Freeable (L : Layout) (d i : ℕ) (s : Kernel) : Prop where
  nodup : s.freelist.Nodup
  table : ∀ j t, i ≤ j → tableOf s.mem d j = some t → L.Valid t ∧ t ∉ s.freelist ∧ t ≠ d
  once : ∀ j j' t, tableOf s.mem d j = some t → tableOf s.mem d j' = some t → j = j'

theorem Freeable.next (h : Freeable L d i s) {t : ℕ} (ht : tableOf s.mem d i = some t) :
    tableOf (fill s.mem t 1) d = tableOf s.mem d ∧
      Freeable L d (i + 1) ⟨fill s.mem t 1, t :: s.freelist⟩ := by
  obtain ⟨-, hfree, hne⟩ := h.table i t (Nat.le_refl i) ht
  have hsame : tableOf (fill s.mem t 1) d = tableOf s.mem d := tableOf_congr (fill_of_ne hne.symm 1)
  refine ⟨hsame, List.nodup_cons.mpr ⟨hfree, h.nodup⟩, ?_, ?_⟩
  · intro j u hj hu
    rw [hsame] at hu
    obtain ⟨hvalid, hfree', hne'⟩ := h.table j u (Nat.le_of_succ_le hj) hu
    refine ⟨hvalid, ?_, hne'⟩
    rw [List.mem_cons, not_or]
    refine ⟨?_, hfree'⟩
    rintro rfl
    have := h.once i j u ht hu
    omega
  · intro j j' u hu hu'
    rw [hsame] at hu hu'
    exact h.once j j' u hu hu'

/-- The tables from an entry of the directory on are that of the entry and those behind it. -/
theorem tables_from {mem : Pages} :
    (∃ j, i ≤ j ∧ tableOf mem d j = some f) ↔
      tableOf mem d i = some f ∨ ∃ j, i + 1 ≤ j ∧ tableOf mem d j = some f := by
  constructor
  · rintro ⟨j, hj, hjt⟩
    rcases Nat.eq_or_lt_of_le hj with rfl | hj
    · exact .inl hjt
    · exact .inr ⟨j, hj, hjt⟩
  · rintro (ht | ⟨j, hj, hjt⟩)
    · exact ⟨i, Nat.le_refl i, ht⟩
    · exact ⟨j, Nat.le_of_succ_le hj, hjt⟩

theorem freeTables_spec (h : Freeable L d i s) (hn : i + n = 1024) :
    ∃ s', freeTables L d n i s = .ok s' ∧ s'.freelist.Nodup ∧
      (∀ f, f ∈ s'.freelist ↔ f ∈ s.freelist ∨ ∃ j, i ≤ j ∧ tableOf s.mem d j = some f) ∧
      ∀ g, g ∉ s'.freelist → s'.mem g = s.mem g := by
  induction n generalizing i s with
  | zero =>
    refine ⟨s, rfl, h.nodup, ?_, fun _ _ => rfl⟩
    intro f
    refine ⟨.inl, ?_⟩
    rintro (hf | ⟨j, hj, ht⟩)
    · exact hf
    · have := tableOf_lt ht
      omega
  | succ n ih =>
    have hi : i < 1024 := by omega
    rw [freeTables]
    cases ht : tableOf s.mem d i with
    | none =>
      have hrest : Freeable L d (i + 1) s :=
        ⟨h.nodup, fun j t hj => h.table j t (Nat.le_of_succ_le hj), h.once⟩
      obtain ⟨s', hrun, hnodup, hfree, hkept⟩ := ih hrest (by omega)
      simp only [if_neg (not_present_of_table hi ht)]
      refine ⟨s', hrun, hnodup, ?_, hkept⟩
      intro f
      rw [hfree, tables_from (i := i), ht]
      simp only [reduceCtorEq, false_or]
    | some t =>
      obtain ⟨hsame, hrest⟩ := h.next ht
      obtain ⟨s', hrun, hnodup, hfree, hkept⟩ := ih hrest (by omega)
      have hframe : p2v (pteAddr (entry s.mem d i)) = t := frame_of_table ht
      have hvalid := (h.table i t (Nat.le_refl i) ht).1
      simp only [if_pos (present_of_table ht), hframe, kfree_eq hvalid, ok_bind]
      refine ⟨s', hrun, hnodup, ?_, ?_⟩
      · intro f
        rw [hfree, List.mem_cons, hsame, tables_from (i := i), ht, Option.some.injEq,
          eq_comm (a := t), or_assoc, or_left_comm]
      · intro g hg
        have hgt : g ≠ t := by
          rintro rfl
          exact hg ((hfree g).mpr (.inl List.mem_cons_self))
        rw [hkept g hg]
        exact fill_of_ne hgt 1

/-- Freeing the user part of a space leaves its pages on the free list. -/
theorem mem_freed (h : Shrunk L (pagesOf 0 kernbase) s.freelist s.mem s'.freelist s'.mem d) :
    f ∈ s'.freelist ↔
      f ∈ s.freelist ∨ ∃ p, p < userPages ∧ heldBy s.mem d (.page p) = some f := by
  have hused := h.shrinks.used f
  change f ∉ s'.freelist ↔ f ∉ s.freelist ∧ _ at hused
  constructor
  case mp =>
    intro hf
    by_contra hn
    rw [not_or] at hn
    refine hused.mpr ⟨hn.1, ?_⟩ hf
    rintro k ⟨p, hp, rfl⟩ hk
    exact hn.2 ⟨p, user_of_pagesOf hp, hk⟩
  case mpr =>
    intro hf
    by_contra hn
    obtain ⟨hfree, hheld⟩ := hused.mp hn
    obtain hf | ⟨p, hp, hk⟩ := hf
    · exact hfree hf
    · exact hheld _ ⟨p, pagesOf_of_user hp, rfl⟩ hk

theorem freevm_spec (h : Space L s.freelist s.mem d) :
    ∃ s', freevm L d s = .ok s' ∧ Freed d s s' := by
  obtain ⟨s₁, hrun₁, hshrunk⟩ := deallocuvm_spec [] 0 h (Nat.le_refl kernbase)
  simp only [List.nil_append] at hshrunk
  have hfreeable : Freeable L d 0 s₁ := by
    refine ⟨hshrunk.space.nodup, ?_, hshrunk.space.apart.once⟩
    intro j t _ ht
    exact ⟨hshrunk.space.valid (.table j) t ht, hshrunk.space.table_not_free ht,
      hshrunk.space.apart.ne_dir j t ht⟩
  obtain ⟨s₂, hrun₂, hnodup, hfree, hkept⟩ := freeTables_spec (n := npdentries) hfreeable rfl
  have hd : d ∉ s₂.freelist := by
    rw [hfree]
    rintro (hf | ⟨j, -, hj⟩)
    · exact hshrunk.space.dir_not_free hf
    · exact hshrunk.space.apart.ne_dir j d hj rfl
  have hvalid : L.Valid d := h.valid .dir d rfl
  refine ⟨⟨fill s₂.mem d 1, d :: s₂.freelist⟩, ?_, List.nodup_cons.mpr ⟨hd, hnodup⟩, ?_, ?_⟩
  · rw [freevm, hrun₁, ok_bind, hrun₂, ok_bind, kfree_eq hvalid]
  · intro f
    rw [List.mem_cons, hfree, mem_freed hshrunk, hshrunk.tables]
    constructor
    · rintro (rfl | (hf | ⟨p, -, hp⟩) | ⟨j, -, hj⟩)
      · exact .inr ⟨.dir, rfl⟩
      · exact .inl hf
      · exact .inr ⟨.page p, hp⟩
      · exact .inr ⟨.table j, hj⟩
    · rintro (hf | ⟨k, hk⟩)
      · exact .inr (.inl (.inl hf))
      · cases k with
        | dir => exact .inl (Option.some.inj hk).symm
        | table j => exact .inr (.inr ⟨j, Nat.zero_le j, hk⟩)
        | page p =>
          have hp : p < userPages := by
            by_contra hp
            rw [heldBy, if_neg hp] at hk
            cases hk
          exact .inr (.inl (.inr ⟨p, hp, hk⟩))
  · intro g hg
    rw [List.mem_cons, not_or] at hg
    have hnot : g ∉ s₁.freelist ∧ ∀ j, tableOf s.mem d j ≠ some g := by
      rw [hfree, not_or, hshrunk.tables] at hg
      exact ⟨hg.2.1, fun j hj => hg.2.2 ⟨j, Nat.zero_le j, hj⟩⟩
    calc fill s₂.mem d 1 g = s₂.mem g := fill_of_ne hg.1 1
      _ = s₁.mem g := hkept g hg.2
      _ = s.mem g := hshrunk.kept g hnot.1 hnot.2

end Freeing

section Building

theorem Fresh.free_mono (h : Fresh L pool₀ mem₀ pool mem d) (hf : f ∈ pool) : f ∈ pool₀ := by
  by_contra hn
  exact h.grows.used_mono hn hf

theorem Fresh.held_free (h : Fresh L pool₀ mem₀ pool mem d) {k : Key}
    (hk : heldBy mem d k = some f) : f ∈ pool₀ := by
  by_contra hn
  exact h.grows.fresh k f rfl hk hn

theorem Fresh.grown (h : Fresh L pool₀ mem₀ pool mem d) (hg : Grown L pool mem pool' mem' d) :
    Fresh L pool₀ mem₀ pool' mem' d := by
  refine ⟨h.grows.trans hg.grows, hg.space, ?_⟩
  intro g hg₀
  have hfree : g ∉ pool := fun hf => hg₀ (h.free_mono hf)
  have hd : g ≠ d := by
    rintro rfl
    exact hg₀ (h.held_free (k := .dir) rfl)
  have ht : ∀ i, tableOf mem d i ≠ some g := fun i hi => hg₀ (h.held_free (k := .table i) hi)
  rw [hg.kept g hfree hd ht, h.kept g hg₀]

/-- Only user pages of the space have been written. -/
def Touched (mem mem' : Pages) (d : ℕ) : Prop :=
  ∀ g, (∀ p, heldBy mem d (.page p) ≠ some g) → mem' g = mem g

theorem touched_page (hk : heldBy mem d (.page p) = some f) (m : Memory) :
    Touched mem (Function.update mem f m) d := by
  intro g hg
  refine Function.update_of_ne ?_ _ _
  rintro rfl
  exact hg p hk

section Touching

variable (h : Space L pool mem d) (ht : Touched mem mem' d)

include h ht

theorem touched_dir : mem' d = mem d := ht d fun _ hp => h.page_ne_dir hp rfl

theorem touched_tables (i t : ℕ) (hi : tableOf mem d i = some t) : mem' t = mem t :=
  ht t fun _ hp => h.page_ne_table hp i hi

theorem Touched.tableOf_eq : tableOf mem' d = tableOf mem d := tableOf_congr (touched_dir h ht)

theorem Touched.pageOf_eq : pageOf mem' d = pageOf mem d :=
  pages_congr (touched_dir h ht) (touched_tables h ht)

theorem Touched.ledger_eq : ledger pool mem' d = ledger pool mem d := by
  rw [ledger, heldBy_congr (touched_dir h ht) (touched_tables h ht), ledger]

theorem Touched.space : Space L pool mem' d := by
  refine ⟨ht.ledger_eq h ▸ h.sound, ?_, h.free_valid, h.nodup, ?_⟩
  · intro k g hg
    rw [heldBy_congr (touched_dir h ht) (touched_tables h ht)] at hg
    exact h.valid k g hg
  · intro q e hq he
    rw [ht.pageOf_eq h] at he
    exact h.kernel q e hq he

theorem Touched.trans {mem'' : Pages} (ht' : Touched mem' mem'' d) : Touched mem mem'' d := by
  intro g hg
  have hsame := heldBy_congr (touched_dir h ht) (touched_tables h ht)
  rw [ht' g fun p hp => hg p (by rw [← hsame, hp]), ht g hg]

end Touching

theorem Fresh.touched (h : Fresh L pool₀ mem₀ pool mem d) (ht : Touched mem mem' d) :
    Fresh L pool₀ mem₀ pool mem' d := by
  refine ⟨ht.ledger_eq h.space ▸ h.grows, ht.space h.space, ?_⟩
  intro g hg
  rw [ht g fun p hp => hg (h.held_free hp), h.kept g hg]

/-- A space that has been made is freed again. -/
theorem Fresh.freed (h : Fresh L s₀.freelist s₀.mem s.freelist s.mem d)
    (h₀ : FreeList L s₀.freelist) (hf : Freed d s s') : Restored s₀ s' := by
  have hiff : ∀ f, f ∈ s'.freelist ↔ f ∈ s₀.freelist := by
    intro f
    rw [hf.free]
    constructor
    · rintro (hmem | ⟨k, hk⟩)
      · exact h.free_mono hmem
      · exact h.held_free hk
    · intro hmem
      by_contra hn
      rw [not_or] at hn
      rcases (h.grows.used f).mp hn.1 with hu | ⟨k, -, hk⟩
      · exact hu hmem
      · exact hn.2 ⟨k, hk⟩
  refine ⟨(List.perm_ext_iff_of_nodup hf.nodup h₀.nodup).mpr hiff, ?_⟩
  intro g hg
  rw [hf.kept g fun hmem => hg ((hiff g).mp hmem), h.kept g hg]

/-- The directory of a new space. -/
theorem Fresh.start (h : FreeList L (d :: rest)) :
    Fresh L (d :: rest) mem rest (fill mem d 0) d := by
  have hzero : fill mem d 0 d = fun _ => 0 := Function.update_self ..
  have hspace : Space L rest (fill mem d 0) d :=
    Space.cleared (h.valid d List.mem_cons_self)
      (fun f hf => h.valid f (List.mem_cons_of_mem d hf)) h.nodup hzero
  have hnot := (List.nodup_cons.mp h.nodup).1
  refine ⟨?_, hspace, ?_⟩
  · constructor
    case kept => exact fun k b hk => absurd hk (Option.some_ne_none b).symm
    case fresh =>
      intro k b _ hb
      rw [(heldBy_zero hzero hb).2]
      exact fun hn => hn List.mem_cons_self
    case once =>
      exact fun k k' b _ hb hb' =>
        (heldBy_zero hzero hb).1.trans (heldBy_zero hzero hb').1.symm
    case used =>
      intro b
      change b ∉ rest ↔ b ∉ d :: rest ∨ _
      rw [List.mem_cons, not_or]
      constructor
      · intro hb
        by_cases hbd : b = d
        · exact .inr ⟨.dir, rfl, by rw [hbd]; rfl⟩
        · exact .inl ⟨hbd, hb⟩
      · rintro (⟨-, hb⟩ | ⟨k, -, hk⟩)
        · exact hb
        · rw [(heldBy_zero hzero hk).2]
          exact hnot
  · intro g hg
    refine fill_of_ne ?_ 0
    rintro rfl
    exact hg List.mem_cons_self

end Building

section KernelPart

/-- The mapping is the run of pages from `first` to `first + count`, at or above page `q`. -/
structure Region (q : ℕ) (k : Kmap) (first count : ℕ) : Prop where
  after : q ≤ first
  virt : k.virt = 4096 * first
  size : k.size = 4096 * (count + 1)
  lt : first + count < 1048576
  aligned : k.physStart % 4096 = 0
  kernel : ¬User k.perm

/-- Mappings one above the other. -/
def Regions : ℕ → List Kmap → Prop
  | _, [] => True
  | q, k :: ks => ∃ first count, Region q k first count ∧ Regions (first + count + 1) ks

theorem not_user_zero : ¬User 0 := by decide

theorem not_user_pteW : ¬User pteW := by decide

theorem kernlink_aligned : (kernlink - kernbase) % 4096 = 0 := by decide

theorem kmap_regions (L : Layout) : Regions userPages (kmap L) := by
  have haligned := L.aligned
  have hkern := L.kernlink_lt
  have hdata := L.data_lt
  dsimp only [pgsize, kernlink, kernbase, extmem, phystop] at haligned hkern hdata
  refine ⟨524288, 255, ?_, 524544, L.data / 4096 - 524545, ?_, L.data / 4096,
    581631 - L.data / 4096, ?_, 1032192, 16383, ?_, trivial⟩
  · exact ⟨Nat.le_refl _, rfl, rfl, by decide, rfl, not_user_pteW⟩
  · refine ⟨by omega, rfl, ?_, by omega, kernlink_aligned, not_user_zero⟩
    dsimp only [Kmap.size, kernlink, kernbase, extmem]
    omega
  · refine ⟨by omega, ?_, ?_, by omega, ?_, not_user_pteW⟩
    · dsimp only
      omega
    · dsimp only [Kmap.size, kernbase, phystop]
      omega
    · dsimp only [kernbase]
      omega
  · exact ⟨by omega, rfl, rfl, by decide, rfl, not_user_pteW⟩

theorem mappages_region {k : Kmap} {first count : ℕ} (hk : Region q k first count)
    (h : Space L s.freelist s.mem d) (hq : userPages ≤ q)
    (hnone : ∀ p, q ≤ p → p < 1048576 → pageOf s.mem d p = none) :
    ∃ r s', mappages d k.virt k.size (BitVec.ofNat 32 k.physStart) k.perm s = .ok (r, s') ∧
      (r = 0 ∨ r = -1) ∧ Grown L s.freelist s.mem s'.freelist s'.mem d ∧
      (∀ p, p < first ∨ first + count < p → pageOf s'.mem d p = pageOf s.mem d p) ∧
      (r = 0 → ∀ p, first ≤ p → p ≤ first + count → ∃ e, pageOf s'.mem d p = some e) := by
  have hlt := hk.lt
  have hafter := hk.after
  have hfirst : pgrounddown (4096 * first) = 4096 * first := pgrounddown_add (o := 0) (by decide) _
  have hend : (4096 * first + 4096 * (count + 1) + 4294967295) % 4294967296 =
      4096 * (first + count) + 4095 := by omega
  have hpa : (BitVec.ofNat 32 k.physStart).toNat % 4096 = 0 := by
    have := hk.aligned
    rw [BitVec.toNat_ofNat]
    omega
  rw [mappages, hk.virt, hk.size, hend, hfirst, pgrounddown_add (by decide)]
  exact mappagesLoop_kernel h (hq.trans hafter) hlt
    (fun p hp hp' => hnone p (hafter.trans hp) (by omega)) hpa hk.kernel
    (by dsimp only [allPages]; omega)

theorem mapKernel_spec {ks : List Kmap} (hks : Regions q ks) (hq : userPages ≤ q)
    (h₀ : FreeList L s₀.freelist) (h : Fresh L s₀.freelist s₀.mem s.freelist s.mem d)
    (hnone : ∀ p, q ≤ p → p < 1048576 → pageOf s.mem d p = none) :
    (∃ s', mapKernel L d ks s = .ok (none, s') ∧ Restored s₀ s') ∨
    ∃ s', mapKernel L d ks s = .ok (some d, s') ∧
      Fresh L s₀.freelist s₀.mem s'.freelist s'.mem d ∧
      (∀ p < q, pageOf s'.mem d p = pageOf s.mem d p) ∧
      ∀ k ∈ ks, ∀ p, k.virt ≤ 4096 * p → 4096 * p < k.virt + k.size →
        ∃ e, pageOf s'.mem d p = some e := by
  induction ks generalizing q s with
  | nil =>
    exact .inr ⟨s, rfl, h, fun _ _ => rfl, fun k hk => absurd hk List.not_mem_nil⟩
  | cons k ks ih =>
    obtain ⟨first, count, hk, hrest⟩ := hks
    have hafter := hk.after
    obtain ⟨r, s₁, hmap, hr, hgrown, hout, hin⟩ := mappages_region hk h.space hq hnone
    have h₁ := h.grown hgrown
    rw [mapKernel, hmap, ok_bind]
    rcases hr with rfl | rfl
    case inl =>
      rw [if_neg (Int.lt_irrefl 0)]
      have hnone₁ : ∀ p, first + count + 1 ≤ p → p < 1048576 → pageOf s₁.mem d p = none := by
        intro p hp hp'
        rw [hout p (.inr hp)]
        exact hnone p (by omega) hp'
      rcases ih hrest (by omega) h₁ hnone₁ with hfail | ⟨s', hrun, hfresh, hbelow, hmapped⟩
      case inl => exact .inl hfail
      case inr =>
        refine .inr ⟨s', hrun, hfresh, ?_, ?_⟩
        · intro p hp
          rw [hbelow p (by omega), hout p (by omega)]
        · intro k' hk' p hp hp'
          rcases List.mem_cons.mp hk' with rfl | hk'
          · rw [hk.virt] at hp hp'
            rw [hk.size] at hp'
            rw [hbelow p (by omega)]
            exact hin rfl p (by omega) (by omega)
          · exact hmapped k' hk' p hp hp'
    case inr =>
      obtain ⟨s', hfree, hfreed⟩ := freevm_spec h₁.space
      rw [if_pos failed, hfree, ok_bind]
      exact .inl ⟨s', rfl, h₁.freed h₀ hfreed⟩

/-- A new address space: nothing in the user part, and the devices in the kernel's part. -/
structure NewSpace (L : Layout) (s₀ s : Kernel) (d : ℕ) : Prop where
  fresh : Fresh L s₀.freelist s₀.mem s.freelist s.mem d
  user : ∀ p < userPages, pageOf s.mem d p = none
  devices : ∀ p, 1032192 ≤ p → p < 1048576 → ∃ e, pageOf s.mem d p = some e

theorem setupkvm_spec (h₀ : FreeList L s.freelist) :
    (∃ s', setupkvm L s = .ok (none, s') ∧ Restored s s') ∨
    ∃ d s', setupkvm L s = .ok (some d, s') ∧ NewSpace L s s' d := by
  rw [setupkvm]
  cases hfree : s.freelist with
  | nil =>
    left
    simp only [kalloc_nil hfree]
    exact ⟨s, rfl, List.Perm.refl _, fun _ _ => rfl⟩
  | cons d rest =>
    have hlow : ¬phystop + kernbase > devspace := by decide
    have hstart : Fresh L s.freelist s.mem rest (fill s.mem d 0) d := by
      rw [hfree]
      exact Fresh.start (hfree ▸ h₀)
    have hzero : fill s.mem d 0 d = fun _ => 0 := Function.update_self ..
    have hempty : ∀ p, pageOf (fill s.mem d 0) d p = none :=
      fun p => pageOf_none (tableOf_zero hzero _)
    simp only [kalloc_cons hfree, if_neg hlow]
    rcases mapKernel_spec (s := ⟨fill s.mem d 0, rest⟩) (kmap_regions L) (Nat.le_refl _) h₀ hstart
      (fun p _ _ => hempty p) with hfail | ⟨s', hrun, hfresh, hbelow, hmapped⟩
    case inl => exact .inl hfail
    case inr =>
      refine .inr ⟨d, s', hrun, hfresh, fun p hp => (hbelow p hp).trans (hempty p), ?_⟩
      intro p hp hp'
      have hdev : (⟨devspace, devspace, 0, pteW⟩ : Kmap) ∈ kmap L := by simp [kmap]
      refine hmapped _ hdev p ?_ ?_
      · dsimp only [devspace]
        omega
      · dsimp only [Kmap.size, devspace]
        omega

end KernelPart

end AddressSpaces
