import Xv6Gui.UserMemory

/-!
# Mapping a range of addresses

mappages in an address space of which only the directory, its tables and the free list are known.
What the hardware finds at an address is read off the two levels of tables; an entry of the
directory with PTE_PS would stand for a large page.
-/
namespace RangeMappings

open WordMemory PageEntries PageTables PageViews PageMappings PageOwnership UserMemory

abbrev ptePS : Word := 128

def Large (e : Word) : Prop := e &&& ptePS ≠ 0

instance (e : Word) : Decidable (Large e) := inferInstanceAs (Decidable (_ ≠ _))

/-- The physical address of `va` and the flags of the page it lies on. -/
def translate (mem : Pages) (pgdir va : ℕ) : Option (ℕ × Word) :=
  let pde := entry mem pgdir (pdx va)
  if ¬Present pde then none
  else if Large pde then
    some (pde.toNat / 4194304 * 4194304 + va % 4194304, pteFlags pde)
  else
    let e := entry mem (frame pde) (ptx va)
    if Present e then some ((pteAddr e).toNat + va % pgsize, pteFlags e) else none

/-- The directory has no large pages, and free pages are apart from it and its tables. -/
structure Usable (s : Kernel) (d : ℕ) : Prop where
  apart : Apart s.mem d
  small : ∀ i < 1024, Present (entry s.mem d i) → ¬Large (entry s.mem d i)
  nodup : s.freelist.Nodup
  frames : ∀ f ∈ s.freelist, f < 1048576
  ne_dir : ∀ f ∈ s.freelist, f ≠ d
  ne_table : ∀ f ∈ s.freelist, ∀ i, tableOf s.mem d i ≠ some f

variable {d f i j k n o p q t va size : ℕ} {pa perm e v : Word} {mem : Pages} {s s' : Kernel}
  {rest : List ℕ}

section Entries

theorem getLsbD_ptePS (i : ℕ) : ptePS.getLsbD i = decide (i = 7) := by
  by_cases hi : i < 32
  · interval_cases i <;> rfl
  · rw [BitVec.getLsbD_of_ge _ _ (by omega)]
    exact (decide_eq_false (by omega)).symm

theorem large_iff : Large e ↔ e.getLsbD 7 = true := and_ne_zero getLsbD_ptePS

/-- The entry that walkpgdir makes for a new table. -/
theorem small_table (f : ℕ) : ¬Large (v2p f ||| pteP ||| pteW ||| pteU) := by
  rw [large_iff, BitVec.getLsbD_or, BitVec.getLsbD_or, BitVec.getLsbD_or,
    aligned_v2p f 7 (by decide)]
  decide

theorem aligned_add (h : pa.toNat % pgsize = 0) (k : ℕ) :
    (pa + BitVec.ofNat 32 (4096 * k)).toNat = (pa.toNat + 4096 * k) % 4294967296 ∧
      (pa + BitVec.ofNat 32 (4096 * k)).toNat % pgsize = 0 := by
  have hsum : (pa + BitVec.ofNat 32 (4096 * k)).toNat = (pa.toNat + 4096 * k) % 4294967296 := by
    rw [BitVec.toNat_add, BitVec.toNat_ofNat]
    omega
  refine ⟨hsum, ?_⟩
  rw [hsum]
  dsimp only [pgsize] at h ⊢
  omega

theorem pteAddr_entry (hpa : Aligned pa) (hperm : Perm perm) :
    pteAddr (pa ||| perm ||| pteP) = pa := by
  apply BitVec.eq_of_getLsbD_eq
  intro i _
  rw [getLsbD_pteAddr, BitVec.getLsbD_or, BitVec.getLsbD_or]
  by_cases hi : 12 ≤ i
  · rw [hperm i hi, perm_pteP i hi, decide_eq_true hi, Bool.or_false, Bool.or_false,
      Bool.and_true]
  · rw [decide_eq_false hi, Bool.and_false, hpa i (Nat.lt_of_not_le hi)]

theorem pteFlags_entry (hpa : Aligned pa) (hperm : Perm perm) :
    pteFlags (pa ||| perm ||| pteP) = perm ||| pteP := by
  apply BitVec.eq_of_getLsbD_eq
  intro i _
  rw [pteFlags, BitVec.getLsbD_and, BitVec.getLsbD_or, BitVec.getLsbD_or, BitVec.getLsbD_or,
    getLsbD_mask]
  by_cases hi : 12 ≤ i
  · rw [hperm i hi, perm_pteP i hi, decide_eq_false (Nat.not_lt.mpr hi), Bool.and_false]
    rfl
  · rw [hpa i (Nat.lt_of_not_le hi), decide_eq_true (Nat.lt_of_not_le hi), Bool.and_true,
      Bool.false_or]

/-- Without large pages an address is found through the entry of its page. -/
theorem translate_page (h : Usable s d) (hva : va < 4294967296) :
    translate s.mem d va =
      (pageOf s.mem d (va / 4096)).map fun e => ((pteAddr e).toNat + va % pgsize, pteFlags e) := by
  have hi : va / 4096 / 1024 < 1024 := by omega
  rw [translate, pdx_eq hva, ptx_eq]
  cases ht : tableOf s.mem d (va / 4096 / 1024) with
  | none => rw [pageOf_none ht, if_pos (not_present_of_table hi ht), Option.map_none]
  | some t =>
    have hpresent := present_of_table ht
    rw [pageOf_table ht, if_neg (not_not_intro hpresent), if_neg (h.small _ hi hpresent),
      frame_of_table ht]
    by_cases he : Present (entry s.mem t (va / 4096 % 1024))
    · rw [if_pos he, if_pos he, Option.map_some]
    · rw [if_neg he, if_neg he, Option.map_none]

theorem translate_congr (h : Usable s d) (h' : Usable s' d) (hva : va < 4294967296)
    (hpage : pageOf s'.mem d (va / 4096) = pageOf s.mem d (va / 4096)) :
    translate s'.mem d va = translate s.mem d va := by
  rw [translate_page h hva, translate_page h' hva, hpage]

end Entries

section Walks

/-- A new table is put on the first free page. -/
theorem Usable.newTable (h : Usable s d) (hfree : s.freelist = f :: rest) (hi : i < 1024) :
    Usable ⟨withTable s.mem d i f, rest⟩ d := by
  have hmem : f ∈ s.freelist := hfree ▸ List.mem_cons_self
  have hrest : ∀ g ∈ rest, g ∈ s.freelist := fun g hg => hfree ▸ List.mem_cons_of_mem f hg
  have hf := h.frames f hmem
  have hne := h.ne_dir f hmem
  have hnodup := List.nodup_cons.mp (hfree ▸ h.nodup)
  have htables : ∀ j, tableOf (withTable s.mem d i f) d j =
      if j = i then some f else tableOf s.mem d j := tableOf_withTable hi hf hne
  constructor
  case apart =>
    constructor
    · intro j u hj
      rw [htables] at hj
      split at hj
      · exact Option.some.inj hj ▸ hne
      · exact h.apart.ne_dir j u hj
    · intro j k u hj hk
      rw [htables] at hj hk
      split at hj
      · next hji =>
        split at hk
        · next hki => rw [hji, hki]
        · exact absurd (hk.trans hj.symm) (h.ne_table f hmem k)
      · split at hk
        · exact absurd (hj.trans hk.symm) (h.ne_table f hmem j)
        · exact h.apart.once j k u hj hk
  case small =>
    intro j hj hpresent
    by_cases hji : j = i
    · rw [hji, withTable, entry_setEntry_self]
      exact small_table f
    · have hsame : entry (withTable s.mem d i f) d j = entry s.mem d j := by
        rw [withTable, entry_setEntry_of_ne hji, entry_congr (fill_of_ne hne.symm 0)]
      rw [hsame] at hpresent ⊢
      exact h.small j hj hpresent
  case nodup => exact hnodup.2
  case frames => exact fun g hg => h.frames g (hrest g hg)
  case ne_dir => exact fun g hg => h.ne_dir g (hrest g hg)
  case ne_table =>
    intro g hg j hj
    rw [htables] at hj
    split at hj
    · exact hnodup.1 (Option.some.inj hj ▸ hg)
    · exact h.ne_table g (hrest g hg) j hj

theorem Usable.store (h : Usable s d) (ht : tableOf s.mem d i = some t) (j : ℕ) (v : Word) :
    Usable ⟨setEntry s.mem t j v, s.freelist⟩ d := by
  have hne := h.apart.ne_dir i t ht
  have htables : tableOf (setEntry s.mem t j v) d = tableOf s.mem d := tableOf_setEntry hne j v
  have hdir : entry (setEntry s.mem t j v) d = entry s.mem d :=
    entry_congr (setEntry_of_ne hne.symm j v)
  refine ⟨⟨?_, ?_⟩, ?_, h.nodup, h.frames, h.ne_dir, ?_⟩
  · intro k u hk
    exact h.apart.ne_dir k u (htables ▸ hk)
  · intro k l u hk hl
    exact h.apart.once k l u (htables ▸ hk) (htables ▸ hl)
  · rw [hdir]
    exact h.small
  · rw [htables]
    exact h.ne_table

theorem walk_usable (h : Usable s d) (hva : va < 4294967296) :
    walkpgdir d va true s = (none, s) ∨
    ∃ t s', walkpgdir d va true s = (some ⟨t, va / 4096 % 1024⟩, s') ∧
      tableOf s'.mem d (va / 4096 / 1024) = some t ∧ Usable s' d ∧
      pageOf s'.mem d = pageOf s.mem d := by
  cases ht : tableOf s.mem d (va / 4096 / 1024) with
  | some t => exact .inr ⟨t, s, walk_table hva ht true, ht, h, rfl⟩
  | none =>
    cases hfree : s.freelist with
    | nil => exact .inl (walk_full hva ht hfree)
    | cons f rest =>
      right
      have hi : va / 4096 / 1024 < 1024 := by omega
      have hmem : f ∈ s.freelist := hfree ▸ List.mem_cons_self
      have hf := h.frames f hmem
      have hne := h.ne_dir f hmem
      refine ⟨f, _, walk_new_table hva ht hfree, ?_, h.newTable hfree hi, ?_⟩
      · rw [tableOf_withTable hi hf hne, if_pos rfl]
      · funext p
        exact pageOf_withTable hi hf hne h.apart ht (h.ne_table f hmem) p

end Walks

section Loop

/-- Pages `q` to `q + k` are mapped in order, until there is no page left for a table. -/
theorem mappagesLoop_maps (h : Usable s d) (hend : q + k < 1048576)
    (hnone : ∀ p, q ≤ p → p ≤ q + k → pageOf s.mem d p = none) (hn : k < n) :
    ∃ r s', mappagesLoop d (4096 * (q + k)) perm n (4096 * q) pa s = .ok (r, s') ∧
      Usable s' d ∧ (∀ p, p < q ∨ q + k < p → pageOf s'.mem d p = pageOf s.mem d p) ∧
      (r = -1 ∨ r = 0 ∧ ∀ j ≤ k, pageOf s'.mem d (q + j) =
        some (pa + BitVec.ofNat 32 (4096 * j) ||| perm ||| pteP)) := by
  induction n generalizing k q pa s with
  | zero => exact absurd hn (Nat.not_lt_zero _)
  | succ n ih =>
    have hva : 4096 * q < 4294967296 := by omega
    have hpage : 4096 * q / 4096 = q := by omega
    rcases walk_usable h hva with hwalk | ⟨t, s', hwalk, ht, husable, hpages⟩
    case inl =>
      refine ⟨-1, s, ?_, h, fun _ _ => rfl, .inl rfl⟩
      rw [mappagesLoop, hwalk]
    case inr =>
      rw [hpage] at hwalk ht
      have habsent : pageOf s'.mem d q = none := by
        rw [hpages]
        exact hnone q (Nat.le_refl _) (Nat.le_add_right _ _)
      have hat : ∀ p, pageOf (setEntry s'.mem t (q % 1024) (pa ||| perm ||| pteP)) d p =
          if p = q then some (pa ||| perm ||| pteP) else pageOf s.mem d p :=
        pageOf_entered ht husable.apart hpages
      have hzero : pa + BitVec.ofNat 32 (4096 * 0) = pa := BitVec.add_zero pa
      cases k with
      | zero =>
        rw [Nat.add_zero, mappagesLoop_last hwalk ht habsent]
        refine ⟨0, _, rfl, husable.store ht _ _, ?_, .inr ⟨rfl, ?_⟩⟩
        · intro p hp
          rw [hat, if_neg (by omega)]
        · intro j hj
          rw [hat, Nat.le_zero.mp hj, hzero, if_pos (Nat.add_zero q)]
      | succ k =>
        have hrest : ∀ p, q + 1 ≤ p → p ≤ q + 1 + k →
            pageOf (setEntry s'.mem t (q % 1024) (pa ||| perm ||| pteP)) d p = none := by
          intro p hp hp'
          rw [hat, if_neg (by omega)]
          exact hnone p (by omega) (by omega)
        rw [mappagesLoop_next hwalk ht habsent hend]
        obtain ⟨r, s₂, hrun, husable₂, hout, hres⟩ :=
          @ih k (q + 1) (pa + 4096)
            ⟨setEntry s'.mem t (q % 1024) (pa ||| perm ||| pteP), s'.freelist⟩
            (husable.store ht _ _) (by omega) hrest (by omega)
        refine ⟨r, s₂, hrun, husable₂, ?_, ?_⟩
        · intro p hp
          rw [hout p (by omega), hat, if_neg (by omega)]
        · rcases hres with hr | ⟨hr, hmapped⟩
          · exact .inl hr
          · refine .inr ⟨hr, ?_⟩
            intro j hj
            cases j with
            | zero => rw [hout _ (by omega), hat, hzero, if_pos (Nat.add_zero q)]
            | succ j =>
              have hnext : pa + BitVec.ofNat 32 (4096 * (j + 1)) =
                  pa + 4096 + BitVec.ofNat 32 (4096 * j) := by
                rw [Nat.mul_succ, Nat.add_comm, BitVec.ofNat_add, ← BitVec.add_assoc]
                rfl
              have hindex : q + (j + 1) = q + 1 + j := by omega
              rw [hnext, hindex]
              exact hmapped j (by omega)

end Loop

/-- What `mappages` does to pages that are not present yet. When it fails, only these have
changed. -/
theorem mappages_translates (d va size : ℕ) (pa perm : Word) (s : Kernel) (h : Usable s d)
    (hva : va % pgsize = 0) (hpa : pa.toNat % pgsize = 0) (hperm : Perm perm) (hsize : 0 < size)
    (hend : va + size ≤ 4294967296)
    (hnone : ∀ k, 4096 * k < size → translate s.mem d (va + 4096 * k) = none) :
    ∃ r s', mappages d va size pa perm s = .ok (r, s') ∧ Usable s' d ∧
      (∀ a < 4294967296, (∀ k, 4096 * k < size → pgrounddown a ≠ va + 4096 * k) →
        translate s'.mem d a = translate s.mem d a) ∧
      (r = -1 ∨ r = 0 ∧ ∀ k o, 4096 * k < size → o < 4096 →
        translate s'.mem d (va + 4096 * k + o) =
          some ((pa.toNat + 4096 * k) % 4294967296 + o, perm ||| pteP)) := by
  obtain ⟨q, rfl⟩ : ∃ q, va = 4096 * q := ⟨va / 4096, by dsimp only [pgsize] at hva; omega⟩
  have hfirst : pgrounddown (4096 * q) = 4096 * q := pgrounddown_add (o := 0) (by decide) q
  have hlast : pgrounddown ((4096 * q + size + 4294967295) % 4294967296) =
      4096 * (q + (size - 1) / 4096) := by
    dsimp only [pgrounddown, pgsize]
    omega
  have habsent : ∀ p, q ≤ p → p ≤ q + (size - 1) / 4096 → pageOf s.mem d p = none := by
    intro p hp hp'
    have htrans := hnone (p - q) (by omega)
    have haddr : 4096 * q + 4096 * (p - q) = 4096 * p := by omega
    have hpage : 4096 * p / 4096 = p := by omega
    rw [haddr, translate_page h (by omega), hpage] at htrans
    exact Option.map_eq_none_iff.mp htrans
  obtain ⟨r, s', hrun, husable, hout, hres⟩ := @mappagesLoop_maps d ((size - 1) / 4096) allPages q
    pa perm s h (by omega) habsent (by dsimp only [allPages]; omega)
  refine ⟨r, s', ?_, husable, ?_, ?_⟩
  · rw [mappages, hfirst, hlast, hrun]
  · intro a ha hcovered
    apply translate_congr h husable ha
    apply hout
    by_contra hin
    refine hcovered (a / 4096 - q) (by omega) ?_
    dsimp only [pgrounddown, pgsize]
    omega
  · refine hres.imp_right ?_
    rintro ⟨hr, hmapped⟩
    refine ⟨hr, ?_⟩
    intro k o hk ho
    have hpage : (4096 * q + 4096 * k + o) / 4096 = q + k := by omega
    have hoffset : (4096 * q + 4096 * k + o) % pgsize = o := by
      dsimp only [pgsize]
      omega
    obtain ⟨hsum, hmod⟩ := aligned_add hpa k
    have halign := aligned_of_mod hmod
    rw [translate_page husable (by omega), hpage, hoffset, hmapped k (by omega), Option.map_some,
      pteAddr_entry halign hperm, pteFlags_entry halign hperm, hsum]

/-- An address space of the kernel whose directory has no large pages. -/
theorem Usable.of_space {L : Layout} (h : Space L s.freelist s.mem d)
    (hsmall : ∀ i < 1024, Present (entry s.mem d i) → ¬Large (entry s.mem d i)) : Usable s d := by
  refine ⟨h.apart, hsmall, h.nodup, fun f hf => valid_lt (h.free_valid f hf), ?_, ?_⟩
  · intro f hf hd
    exact h.dir_not_free (hd ▸ hf)
  · intro f hf i hi
    exact h.table_not_free hi hf

theorem sample_usable : Usable sampleKernel 300 := by
  refine Usable.of_space sample_space ?_
  intro i hi hpresent
  exact absurd hpresent (not_present_of_table hi (tableOf_zero rfl i))

/-- The last pages of the address space. -/
theorem mappages_translates_top :
    ∃ r s', mappages 300 0xFFFFE000 8192 0xFFFFE000 pteW sampleKernel = .ok (r, s') ∧
      Usable s' 300 ∧
      (∀ a < 4294967296, (∀ k, 4096 * k < 8192 → pgrounddown a ≠ 0xFFFFE000 + 4096 * k) →
        translate s'.mem 300 a = translate sampleKernel.mem 300 a) ∧
      (r = -1 ∨ r = 0 ∧ ∀ k o, 4096 * k < 8192 → o < 4096 →
        translate s'.mem 300 (0xFFFFE000 + 4096 * k + o) =
          some (((0xFFFFE000 : Word).toNat + 4096 * k) % 4294967296 + o, pteW ||| pteP)) := by
  refine mappages_translates 300 0xFFFFE000 8192 0xFFFFE000 pteW sampleKernel sample_usable
    (by decide) (by decide) ?_ (by decide) (by decide) ?_
  · exact perm_flags pteW
  · intro k hk
    rw [translate_page sample_usable (by omega), pageOf_none (tableOf_zero rfl _), Option.map_none]

end RangeMappings
