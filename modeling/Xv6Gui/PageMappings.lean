import Xv6Gui.PageOwnership

/-!
# Mapping pages

What walkpgdir and mappages do to an address space. A walk that may allocate either finds the
free list empty and changes nothing, or ends at an entry of a table that the space holds.
-/
namespace PageMappings

open WordMemory PageEntries PageTables PageViews PageOwnership

variable {L : Layout} {d f g i k n p q t va : ℕ} {pa perm v : Word} {s s' : Kernel}

/-- The test of the callers for a failure. -/
theorem failed : (-1 : ℤ) < 0 := by decide

theorem walk_alloc (limbo : List ℕ) (h : Space L (limbo ++ s.freelist) s.mem d)
    (hva : va < 4294967296) :
    walkpgdir d va true s = (none, s) ∨
    ∃ t s', walkpgdir d va true s = (some ⟨t, va / 4096 % 1024⟩, s') ∧
      tableOf s'.mem d (va / 4096 / 1024) = some t ∧
      Grown L (limbo ++ s.freelist) s.mem (limbo ++ s'.freelist) s'.mem d ∧
      pageOf s'.mem d = pageOf s.mem d ∧ ∀ f ∈ limbo, s'.mem f = s.mem f := by
  cases ht : tableOf s.mem d (va / 4096 / 1024) with
  | some t =>
    exact .inr ⟨t, s, walk_table hva ht true, ht, Grown.refl h, rfl, fun _ _ => rfl⟩
  | none =>
    cases hfree : s.freelist with
    | nil => exact .inl (walk_full hva ht hfree)
    | cons t rest =>
      right
      have hi : va / 4096 / 1024 < 1024 := by omega
      rw [hfree] at h
      obtain ⟨hgrown, hpages⟩ := h.newTable List.perm_middle hi ht
      have hmem : t ∈ limbo ++ t :: rest := List.mem_append_right _ List.mem_cons_self
      have hne : t ≠ d := fun he => h.dir_not_free (he ▸ hmem)
      refine ⟨t, _, walk_new_table hva ht hfree, ?_, hgrown, hpages, ?_⟩
      · rw [tableOf_withTable hi (valid_lt (h.free_valid t hmem)) hne, if_pos rfl]
      · intro f hf
        have hfd : f ≠ d := fun he => h.dir_not_free (he ▸ List.mem_append_left _ hf)
        have hft : f ≠ t := by
          rintro rfl
          exact (List.nodup_append.mp h.nodup).2.2 f hf f List.mem_cons_self rfl
        exact withTable_of_ne hfd hft _

section Steps

variable (hwalk : walkpgdir d (4096 * q) true s = (some ⟨t, q % 1024⟩, s'))
  (ht : tableOf s'.mem d (q / 1024) = some t)

include ht

/-- What is entered for a page is present. -/
theorem pageOf_entered (hapart : Apart s'.mem d) (hpages : pageOf s'.mem d = pageOf s.mem d)
    (p : ℕ) :
    pageOf (setEntry s'.mem t (q % 1024) (pa ||| perm ||| pteP)) d p =
      if p = q then some (pa ||| perm ||| pteP) else pageOf s.mem d p := by
  rw [pageOf_setEntry hapart ht, if_pos (present_entry _ _), hpages]

include hwalk

/-- The last page is entered into the table of its walk. -/
theorem mappagesLoop_last (habsent : pageOf s'.mem d q = none) :
    mappagesLoop d (4096 * q) perm (n + 1) (4096 * q) pa s =
      .ok (0, ⟨setEntry s'.mem t (q % 1024) (pa ||| perm ||| pteP), s'.freelist⟩) := by
  have hnot := not_present_of_page ht habsent
  rw [mappagesLoop, hwalk]
  simp only [if_neg hnot, if_pos]

/-- A page with pages behind it is entered, and the loop goes on. -/
theorem mappagesLoop_next (habsent : pageOf s'.mem d q = none) (hend : q + (k + 1) < 1048576) :
    mappagesLoop d (4096 * (q + (k + 1))) perm (n + 1) (4096 * q) pa s =
      mappagesLoop d (4096 * (q + 1 + k)) perm n (4096 * (q + 1)) (pa + 4096)
        ⟨setEntry s'.mem t (q % 1024) (pa ||| perm ||| pteP), s'.freelist⟩ := by
  have hnot := not_present_of_page ht habsent
  have hsum : q + (k + 1) = q + 1 + k := by omega
  rw [mappagesLoop, hwalk]
  simp only [if_neg hnot]
  rw [if_neg (by omega), next_page (by omega), hsum]

end Steps

/-- One page is mapped, or there is no page for its table. -/
theorem mappages_user (h : Space L (f :: s.freelist) s.mem d) (hp : p < userPages)
    (hnone : pageOf s.mem d p = none) (hperm : Perm perm) :
    mappages d (4096 * p) pgsize (v2p f) perm s = .ok (-1, s) ∨
    ∃ s', mappages d (4096 * p) pgsize (v2p f) perm s = .ok (0, s') ∧
      Grown L (f :: s.freelist) s.mem s'.freelist s'.mem d ∧
      (∀ q, pageOf s'.mem d q =
        if q = p then some (v2p f ||| perm ||| pteP) else pageOf s.mem d q) ∧
      s'.mem f = s.mem f := by
  have hva : 4096 * p < 4294967296 := by
    dsimp only [userPages] at hp
    omega
  have hpage : 4096 * p / 4096 = p := by omega
  have hfirst : pgrounddown (4096 * p) = 4096 * p := pgrounddown_add (o := 0) (by decide) p
  have hend : (4096 * p + pgsize + 4294967295) % 4294967296 = 4096 * p + 4095 := by
    dsimp only [pgsize, userPages] at hp ⊢
    omega
  have hlast : pgrounddown ((4096 * p + pgsize + 4294967295) % 4294967296) = 4096 * p := by
    rw [hend, pgrounddown_add (by decide)]
  have hloop : mappages d (4096 * p) pgsize (v2p f) perm s =
      mappagesLoop d (4096 * p) perm (1048575 + 1) (4096 * p) (v2p f) s := by
    rw [mappages, hfirst, hlast]
  rcases walk_alloc [f] h hva with hwalk | ⟨t, s', hwalk, ht, hgrown, hpages, hf⟩
  case inl =>
    left
    rw [hloop, mappagesLoop, hwalk]
  case inr =>
    right
    rw [hpage] at hwalk ht
    have habsent : pageOf s'.mem d p = none := by rw [hpages, hnone]
    have hframe := valid_lt (h.free_valid f List.mem_cons_self)
    have hpool : ([f] ++ s'.freelist).Perm (f :: s'.freelist) := List.Perm.refl _
    have hmapped := hgrown.space.mapUser ht hpool hp habsent
      (present_entry (v2p f) perm) (frame_entry hperm hframe)
    refine ⟨⟨setEntry s'.mem t (p % 1024) (v2p f ||| perm ||| pteP), s'.freelist⟩, ?_,
      hgrown.trans hmapped, ?_, ?_⟩
    · rw [hloop, mappagesLoop_last hwalk ht habsent]
    · exact pageOf_entered ht hgrown.space.apart hpages
    · have hft : f ≠ t := by
        rintro rfl
        exact hgrown.space.table_not_free ht List.mem_cons_self
      exact (setEntry_of_ne hft _ _).trans (hf f List.mem_cons_self)

/-- A run of pages of the kernel's part, from page `q` to page `q + k`. -/
theorem mappagesLoop_kernel (h : Space L s.freelist s.mem d) (hq : userPages ≤ q)
    (hend : q + k < 1048576) (hnone : ∀ p, q ≤ p → p ≤ q + k → pageOf s.mem d p = none)
    (hpa : pa.toNat % 4096 = 0) (hperm : ¬User perm) (hn : k < n) :
    ∃ r s', mappagesLoop d (4096 * (q + k)) perm n (4096 * q) pa s = .ok (r, s') ∧
      (r = 0 ∨ r = -1) ∧ Grown L s.freelist s.mem s'.freelist s'.mem d ∧
      (∀ p, p < q ∨ q + k < p → pageOf s'.mem d p = pageOf s.mem d p) ∧
      (r = 0 → ∀ p, q ≤ p → p ≤ q + k → ∃ e, pageOf s'.mem d p = some e) := by
  induction n generalizing k q pa s with
  | zero => exact absurd hn (Nat.not_lt_zero _)
  | succ n ih =>
    have hva : 4096 * q < 4294967296 := by omega
    have hpage : 4096 * q / 4096 = q := by omega
    rcases walk_alloc [] h hva with hwalk | ⟨t, s', hwalk, ht, hgrown, hpages, -⟩
    case inl =>
      refine ⟨-1, s, ?_, .inr rfl, Grown.refl h, fun _ _ => rfl, ?_⟩
      · rw [mappagesLoop, hwalk]
      · intro hr
        cases hr
    case inr =>
      rw [hpage] at hwalk ht
      rw [List.nil_append, List.nil_append] at hgrown
      have habsent : pageOf s'.mem d q = none := by
        rw [hpages]
        exact hnone q (Nat.le_refl _) (Nat.le_add_right _ _)
      have huser : ¬User (pa ||| perm ||| pteP) := by
        rw [user_entry (aligned_of_mod hpa)]
        exact hperm
      have hmapped := hgrown.trans (hgrown.space.mapKernel ht hq huser)
      have hat : ∀ p, pageOf (setEntry s'.mem t (q % 1024) (pa ||| perm ||| pteP)) d p =
          if p = q then some (pa ||| perm ||| pteP) else pageOf s.mem d p :=
        pageOf_entered ht hgrown.space.apart hpages
      cases k with
      | zero =>
        rw [Nat.add_zero, mappagesLoop_last hwalk ht habsent]
        refine ⟨0, _, rfl, .inl rfl, hmapped, ?_, ?_⟩
        · intro p hp
          rw [hat, if_neg (by omega)]
        · intro _ p hp hp'
          rw [hat, if_pos (by omega)]
          exact ⟨_, rfl⟩
      | succ k =>
        have hpa' : (pa + 4096).toNat % 4096 = 0 := by
          rw [BitVec.toNat_add]
          have : (4096 : Word).toNat = 4096 := rfl
          omega
        have hrest : ∀ p, q + 1 ≤ p → p ≤ q + 1 + k →
            pageOf (setEntry s'.mem t (q % 1024) (pa ||| perm ||| pteP)) d p = none := by
          intro p hp hp'
          rw [hat, if_neg (by omega)]
          exact hnone p (by omega) (by omega)
        rw [mappagesLoop_next hwalk ht habsent hend]
        obtain ⟨r, s₂, hrun, hr, hgrown₂, hout, hin⟩ :=
          ih (q := q + 1) (k := k)
            (s := ⟨setEntry s'.mem t (q % 1024) (pa ||| perm ||| pteP), s'.freelist⟩)
            hmapped.space (by omega) (by omega) hrest hpa' (by omega)
        refine ⟨r, s₂, hrun, hr, hmapped.trans hgrown₂, ?_, ?_⟩
        · intro p hp
          rw [hout p (by omega), hat, if_neg (by omega)]
        · intro hr0 p hp hp'
          by_cases hpq : p = q
          · refine ⟨pa ||| perm ||| pteP, ?_⟩
            rw [hout p (by omega), hat, if_pos hpq]
          · exact hin hr0 p (by omega) (by omega)

end PageMappings
