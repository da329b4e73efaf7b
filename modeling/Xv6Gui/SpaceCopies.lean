import Xv6Gui.AddressSpaces

/-!
# Copies of address spaces

copyuvm of vm.c, which fork calls. The loop keeps a child whose pages below the current address
are copies of the parent's on pages that were free, and whose other user pages are absent.
-/
namespace SpaceCopies

open WordMemory PageEntries PageTables PageViews PageOwnership PageMappings UserMemory
open AddressSpaces GuardedRuns

/-- The byte at a user address. -/
def byteAt (mem : Pages) (d va : ℕ) : Option Byte :=
  (pageOf mem d (va / 4096)).map fun e => mem (frame e) (va % 4096)

/-- The child `c` of the space `d` after the call, with the state before it. -/
structure Copied (d sz : ℕ) (s : Kernel) (c : ℕ) (s' : Kernel) : Prop where
  bytes : ∀ va < sz, byteAt s'.mem c va = byteAt s.mem d va
  flags : ∀ p, 4096 * p < sz →
    (pageOf s'.mem c p).map pteFlags = (pageOf s.mem d p).map pteFlags
  absent : ∀ p < userPages, sz ≤ 4096 * p → pageOf s'.mem c p = none
  fresh : ∀ p e, p < userPages → pageOf s'.mem c p = some e →
    frame e ∈ s.freelist ∧ frame e ∉ s'.freelist
  apart : ∀ p q e e', p < userPages → q < userPages → pageOf s'.mem c p = some e →
    pageOf s.mem d q = some e' → frame e ≠ frame e'
  once : ∀ p q e e', p < userPages → q < userPages → pageOf s'.mem c p = some e →
    pageOf s'.mem c q = some e' → frame e = frame e' → p = q
  parent : pageOf s'.mem d = pageOf s.mem d
  kept : ∀ g, g ∉ s.freelist → s'.mem g = s.mem g

/-- The entry of a page and its copy. -/
structure SamePage (mem : Pages) (e : Word) (mem' : Pages) (e' : Word) : Prop where
  flags : pteFlags e' = pteFlags e
  contents : mem' (frame e') = mem (frame e)

/-- The copies of the pages below `q` have been made. -/
structure CopiedTo (L : Layout) (d sz : ℕ) (s₀ : Kernel) (c q : ℕ) (s : Kernel) : Prop where
  fresh : Fresh L s₀.freelist s₀.mem s.freelist s.mem c
  copied : ∀ p < q, ∀ e, pageOf s₀.mem d p = some e →
    ∃ e', pageOf s.mem c p = some e' ∧ SamePage s₀.mem e s.mem e'
  rest : ∀ p < userPages, q ≤ p → pageOf s.mem c p = none

variable {L : Layout} {c d f n p q sz : ℕ} {e : Word} {s s₀ s' : Kernel} {rest : List ℕ}

theorem space_freeList {pool : List ℕ} {mem : Pages} (h : Space L pool mem d) : FreeList L pool :=
  ⟨h.nodup, h.free_valid⟩

/-- What is done to free pages leaves another space as it is. -/
theorem other_space (h : Space L s₀.freelist s₀.mem d)
    (hkept : ∀ g, g ∉ s₀.freelist → s.mem g = s₀.mem g) :
    tableOf s.mem d = tableOf s₀.mem d ∧ pageOf s.mem d = pageOf s₀.mem d := by
  have hd := hkept d h.dir_not_free
  have ht : ∀ i t, tableOf s₀.mem d i = some t → s.mem t = s₀.mem t :=
    fun i t hi => hkept t (h.table_not_free hi)
  exact ⟨tableOf_congr hd, pages_congr hd ht⟩

/-- The page `f` has been filled with the contents of the parent's page. -/
theorem fresh_filled (hc : CopiedTo L d sz s₀ c q s) (hfree : s.freelist = f :: rest)
    (m : Memory) : Fresh L s₀.freelist s₀.mem (f :: rest) (Function.update s.mem f m) c ∧
      pageOf (Function.update s.mem f m) c = pageOf s.mem c := by
  have hfresh : Fresh L s₀.freelist s₀.mem (f :: rest) s.mem c := hfree ▸ hc.fresh
  obtain ⟨hgrown, hpages⟩ := hfresh.space.writeFree List.mem_cons_self m
  exact ⟨hfresh.grown hgrown, hpages⟩

/-- One page is copied, or there is no page for its table. -/
theorem copy_step (h : Space L s₀.freelist s₀.mem d) (hc : CopiedTo L d sz s₀ c q s)
    (hq : q < userPages) (he : pageOf s₀.mem d q = some e) (hfree : s.freelist = f :: rest)
    {mem : Pages} (hmem : mem = Function.update s.mem f (s.mem (frame e))) :
    mappages c (4096 * q) pgsize (v2p f) (pteFlags e) ⟨mem, rest⟩ = .ok (-1, ⟨mem, rest⟩) ∨
    ∃ s', mappages c (4096 * q) pgsize (v2p f) (pteFlags e) ⟨mem, rest⟩ = .ok (0, s') ∧
      CopiedTo L d sz s₀ c (q + 1) s' := by
  obtain ⟨hfresh, hpages⟩ := fresh_filled hc hfree (s.mem (frame e))
  rw [← hmem] at hfresh hpages
  have habsent : pageOf mem c q = none := by
    rw [hpages]
    exact hc.rest q hq (Nat.le_refl q)
  obtain ⟨-, -, -, hpresent⟩ := table_of_page he
  rcases mappages_user (s := ⟨mem, rest⟩) hfresh.space hq habsent (perm_flags e) with
    hmap | ⟨s', hmap, hgrown, hmapped, hcontents⟩
  case inl => exact .inl hmap
  case inr =>
    dsimp only at hgrown hmapped hcontents
    refine .inr ⟨s', hmap, hfresh.grown hgrown, ?_, ?_⟩
    · intro p hp e₀ he₀
      by_cases hpq : p = q
      case pos =>
        obtain rfl : e = e₀ := Option.some.inj (he.symm.trans (hpq ▸ he₀))
        have hframe : frame (v2p f ||| pteFlags e ||| pteP) = f :=
          frame_entry (perm_flags e) (valid_lt (hfresh.space.free_valid f List.mem_cons_self))
        have hparent : frame e ∉ s₀.freelist := h.not_free (heldBy_page hq he)
        refine ⟨v2p f ||| pteFlags e ||| pteP, by rw [hmapped, if_pos hpq], flags_entry hpresent,
          ?_⟩
        rw [hframe, hcontents, hmem, Function.update_self, hc.fresh.kept _ hparent]
      case neg =>
        have hlt : p < q := by omega
        obtain ⟨e', he', hflags, hsame⟩ := hc.copied p hlt e₀ he₀
        have hheld : heldBy mem c (.page p) = some (frame e') :=
          heldBy_page (hlt.trans hq) (by rw [hpages, he'])
        have hfree' := hfresh.space.not_free hheld
        have hne : frame e' ≠ f := fun hef => hfree' (hef ▸ List.mem_cons_self)
        refine ⟨e', by rw [hmapped, if_neg hpq, hpages, he'], hflags, ?_⟩
        rw [hgrown.kept _ hfree' (hfresh.space.page_ne_dir hheld)
          (hfresh.space.page_ne_table hheld), hmem, Function.update_of_ne hne, hsame]
    · intro p hp hqp
      rw [hmapped, if_neg (by omega), hpages]
      exact hc.rest p hp (Nat.le_of_succ_le hqp)

/-- Freeing the copy brings the free list back. -/
theorem freevm_restored (h : Space L s₀.freelist s₀.mem d)
    (hfresh : Fresh L s₀.freelist s₀.mem s.freelist s.mem c) :
    ∃ s', freevm L c s = .ok s' ∧ Restored s₀ s' := by
  obtain ⟨s', hrun, hfreed⟩ := freevm_spec hfresh.space
  exact ⟨s', hrun, hfresh.freed (space_freeList h) hfreed⟩

theorem copyuvmLoop_spec (h : Space L s₀.freelist s₀.mem d) (hsz : sz < kernbase)
    (hall : ∀ p, 4096 * p < sz → (pageOf s₀.mem d p).isSome) (hc : CopiedTo L d sz s₀ c q s)
    (hq : 4096 * q < sz + 4096) (hn : 1048576 < n + q) :
    (∃ s', copyuvmLoop L d sz c n (4096 * q) s = .ok (none, s') ∧ Restored s₀ s') ∨
    ∃ q' s', copyuvmLoop L d sz c n (4096 * q) s = .ok (some c, s') ∧
      CopiedTo L d sz s₀ c q' s' ∧ sz ≤ 4096 * q' ∧ 4096 * q' < sz + 4096 := by
  induction n generalizing q s with
  | zero =>
    dsimp only [kernbase] at hsz
    omega
  | succ n ih =>
    rw [copyuvmLoop]
    by_cases hlt : 4096 * q < sz
    case neg =>
      rw [if_neg hlt]
      exact .inr ⟨q, s, rfl, hc, Nat.le_of_not_lt hlt, hq⟩
    case pos =>
      have hqu : q < 524288 := by
        dsimp only [kernbase] at hsz
        omega
      have hva : 4096 * q < 4294967296 := by omega
      have hpage : 4096 * q / 4096 = q := by omega
      obtain ⟨e, he⟩ := Option.isSome_iff_exists.mp (hall q hlt)
      obtain ⟨htables, hpages⟩ := other_space h hc.fresh.kept
      obtain ⟨t, ht, hentry, hpresent⟩ := table_of_page (hpages.symm ▸ he : pageOf s.mem d q = _)
      rw [if_pos hlt, walk_table hva (hpage.symm ▸ ht), hpage, next_page (q := q) (by omega)]
      simp only [hentry, if_neg (not_not_intro hpresent), p2v_pteAddr]
      cases hfree : s.freelist with
      | nil =>
        obtain ⟨s', hrun, hrestored⟩ := freevm_restored h hc.fresh
        simp only [kalloc_nil hfree, hrun, ok_bind]
        exact .inl ⟨s', rfl, hrestored⟩
      | cons f rest =>
        simp only [kalloc_cons hfree]
        rcases copy_step h hc hqu he hfree rfl with hmap | ⟨s', hmap, hc'⟩
        case inl =>
          -- the copy of the page is freed, then the child
          obtain ⟨hfresh, -⟩ := fresh_filled hc hfree (s.mem (frame e))
          have hvalid := hfresh.space.free_valid f List.mem_cons_self
          have hfilled := hfresh.grown (hfresh.space.writeFree List.mem_cons_self fun _ => 1).1
          obtain ⟨s', hrun, hrestored⟩ := freevm_restored h
            (s := ⟨fill (Function.update s.mem f (s.mem (frame e))) f 1, f :: rest⟩) hfilled
          rw [hmap, ok_bind, if_pos failed, kfree_eq hvalid, ok_bind, hrun, ok_bind]
          exact .inl ⟨s', rfl, hrestored⟩
        case inr =>
          rw [hmap, ok_bind, if_neg (Int.lt_irrefl 0)]
          exact ih hc' (by omega) (by omega)

theorem copied_of (h : Space L s₀.freelist s₀.mem d)
    (hall : ∀ p, 4096 * p < sz → (pageOf s₀.mem d p).isSome) (hc : CopiedTo L d sz s₀ c q s)
    (hge : sz ≤ 4096 * q) (hlt : 4096 * q < sz + 4096) : Copied d sz s₀ c s := by
  have hpair : ∀ p, 4096 * p < sz → ∃ e e', pageOf s₀.mem d p = some e ∧
      pageOf s.mem c p = some e' ∧ SamePage s₀.mem e s.mem e' := by
    intro p hp
    obtain ⟨e, he⟩ := Option.isSome_iff_exists.mp (hall p hp)
    obtain ⟨e', he', hsame⟩ := hc.copied p (by omega) e he
    exact ⟨e, e', he, he', hsame⟩
  constructor
  case bytes =>
    intro va hva
    obtain ⟨e, e', he, he', hsame⟩ := hpair (va / 4096) (by omega)
    rw [byteAt, byteAt, he, he', Option.map_some, Option.map_some, hsame.contents]
  case flags =>
    intro p hp
    obtain ⟨e, e', he, he', hsame⟩ := hpair p hp
    rw [he, he', Option.map_some, Option.map_some, hsame.flags]
  case absent => exact fun p hp hsz => hc.rest p hp (by omega)
  case fresh =>
    intro p e hp he
    have hheld := heldBy_page hp he
    exact ⟨hc.fresh.held_free hheld, hc.fresh.space.not_free hheld⟩
  case apart =>
    intro p q e e' hp hq he he' hsame
    exact h.not_free (heldBy_page hq he') (hsame ▸ hc.fresh.held_free (heldBy_page hp he))
  case once =>
    intro p q e e' hp hq he he' hsame
    have hkey := hc.fresh.space.sound.once (.page p) (.page q) (frame e) (heldBy_page hp he)
      (hsame ▸ heldBy_page hq he')
    exact Key.page.inj hkey
  case parent => exact (other_space h hc.fresh.kept).2
  case kept => exact hc.fresh.kept

theorem copyuvm_copies (L : Layout) (d sz : ℕ) (s : Kernel) (h : Space L s.freelist s.mem d)
    (hsz : sz < kernbase) (hall : ∀ p, 4096 * p < sz → (pageOf s.mem d p).isSome) :
    ∃ r s', copyuvm L d sz s = .ok (r, s') ∧ (∀ c, r = some c → Copied d sz s c s') ∧
      (r = none → Restored s s') := by
  rw [copyuvm]
  rcases setupkvm_spec (space_freeList h) with ⟨s', hset, hrestored⟩ | ⟨c, s₁, hset, hnew⟩
  case inl =>
    simp only [hset, ok_bind]
    exact ⟨none, s', rfl, fun c hc => absurd hc.symm (Option.some_ne_none c), fun _ => hrestored⟩
  case inr =>
    have hstart : CopiedTo L d sz s c 0 s₁ :=
      ⟨hnew.fresh, fun p hp => absurd hp (Nat.not_lt_zero p), fun p hp _ => hnew.user p hp⟩
    simp only [hset, ok_bind]
    rcases copyuvmLoop_spec (n := allPages + 1) h hsz hall hstart (by omega)
      (by dsimp only [allPages]; omega) with ⟨s', hrun, hrestored⟩ | ⟨q, s', hrun, hc, hge, hlt⟩
    case inl =>
      exact ⟨none, s', hrun, fun c hc => absurd hc.symm (Option.some_ne_none c), fun _ => hrestored⟩
    case inr =>
      refine ⟨some c, s', hrun, ?_, fun hnone => absurd hnone (Option.some_ne_none c)⟩
      rintro c' hc'
      obtain rfl := Option.some.inj hc'
      exact copied_of h hall hc hge hlt

theorem copyuvm_copies_one_page :
    ∃ r s', copyuvm sampleLayout 300 4096 ⟨onePage, samplePool⟩ = .ok (r, s') ∧
      (∀ c, r = some c → Copied 300 4096 ⟨onePage, samplePool⟩ c s') ∧
      (r = none → Restored ⟨onePage, samplePool⟩ s') := by
  refine copyuvm_copies sampleLayout 300 4096 ⟨onePage, samplePool⟩ onePage_space (by decide) ?_
  intro p hp
  rw [onePage_pages, if_pos (by omega)]
  rfl

end SpaceCopies
