import Xv6Gui.PageMappings
import Mathlib.Data.List.Nodup

/-!
# Growing and shrinking the user part

deallocuvm and allocuvm of vm.c, and growproc of proc.c. Freed pages leave the ledger of the
space and join the free list. An allocation that fails gives back every page it has mapped and
keeps only the tables it has made.
-/
namespace UserMemory

open WordMemory PageEntries PageTables PageViews PageOwnership PageMappings Ledgers GuardedRuns

/-- The pages of `P` have left the space, and apart from them its tables are the only pages that
have been written. -/
structure Shrunk (L : Layout) (P : Set ℕ) (pool : List ℕ) (mem : Pages) (pool' : List ℕ)
    (mem' : Pages) (d : ℕ) : Prop where
  shrinks : Shrinks (Key.page '' P) (ledger pool mem d) (ledger pool' mem' d)
  space : Space L pool' mem' d
  tables : tableOf mem' d = tableOf mem d
  removed : ∀ p ∈ P, pageOf mem' d p = none
  others : ∀ p ∉ P, pageOf mem' d p = pageOf mem d p
  kept : ∀ g, g ∉ pool' → (∀ i, tableOf mem d i ≠ some g) → mem' g = mem g

variable {L : Layout} {limbo pool pool' pool'' : List ℕ} {mem mem' mem'' : Pages}
  {d f p q n oldsz newsz : ℕ} {P Q : Set ℕ} {e : Word} {s : Kernel}

theorem Shrunk.refl (h : Space L pool mem d) (hP : ∀ p ∈ P, pageOf mem d p = none) :
    Shrunk L P pool mem pool mem d := by
  refine ⟨Shrinks.refl ?_, h, rfl, hP, fun _ _ => rfl, fun _ _ _ => rfl⟩
  rintro k ⟨p, hp, rfl⟩
  exact heldBy_page_none (hP p hp)

theorem Shrunk.trans (h : Shrunk L P pool mem pool' mem' d)
    (h' : Shrunk L Q pool' mem' pool'' mem'' d) : Shrunk L (P ∪ Q) pool mem pool'' mem'' d := by
  constructor
  case shrinks =>
    rw [Set.image_union]
    exact h.shrinks.trans h'.shrinks
  case space => exact h'.space
  case tables => rw [h'.tables, h.tables]
  case removed =>
    intro p hp
    by_cases hq : p ∈ Q
    · exact h'.removed p hq
    · rw [h'.others p hq, h.removed p (hp.resolve_right hq)]
  case others =>
    intro p hp
    rw [h'.others p fun hq => hp (.inr hq), h.others p fun hq => hp (.inl hq)]
  case kept =>
    intro g hg ht
    have hg' : g ∉ pool' := fun hf => ((h'.shrinks.used g).mp hg).1 hf
    rw [h'.kept g hg (by rwa [h.tables]), h.kept g hg' ht]

/-- Memory after the page of the entry `e` of page `p` has been freed and unmapped. -/
def unmapped (mem : Pages) (t p : ℕ) (e : Word) : Pages :=
  setEntry (fill mem (frame e) 1) t (p % 1024) 0

section Unmap

variable {t : ℕ} (h : Space L pool mem d) (hp : p < userPages) (he : pageOf mem d p = some e)
  (ht : tableOf mem d (p / 1024) = some t)

include h hp he

theorem fill_page_tables (i u : ℕ) (hu : tableOf mem d i = some u) :
    fill mem (frame e) 1 u = mem u := by
  have hne : u ≠ frame e := by
    rintro rfl
    exact h.page_ne_table (heldBy_page hp he) i hu
  exact fill_of_ne hne 1

theorem fill_page_dir : fill mem (frame e) 1 d = mem d :=
  fill_of_ne (h.page_ne_dir (heldBy_page hp he)).symm 1

theorem fill_page_apart : Apart (fill mem (frame e) 1) d := by
  have htab := tableOf_congr (fill_page_dir h hp he)
  constructor
  · intro i t hi
    rw [htab] at hi
    exact h.apart.ne_dir i t hi
  · intro i j t hi hj
    rw [htab] at hi hj
    exact h.apart.once i j t hi hj

include ht

theorem tableOf_unmapped : tableOf (unmapped mem t p e) d = tableOf mem d := by
  rw [unmapped, tableOf_setEntry (h.apart.ne_dir _ t ht), tableOf_congr (fill_page_dir h hp he)]

theorem pageOf_unmapped (q : ℕ) :
    pageOf (unmapped mem t p e) d q = if q = p then none else pageOf mem d q := by
  have ht' : tableOf (fill mem (frame e) 1) d (p / 1024) = some t := by
    rw [tableOf_congr (fill_page_dir h hp he), ht]
  rw [unmapped, pageOf_setEntry (fill_page_apart h hp he) ht', if_neg not_present_zero,
    pages_congr (fill_page_dir h hp he) (fill_page_tables h hp he)]

theorem heldBy_unmapped :
    heldBy (unmapped mem t p e) d = Function.update (heldBy mem d) (.page p) none := by
  have ht' : tableOf (fill mem (frame e) 1) d (p / 1024) = some t := by
    rw [tableOf_congr (fill_page_dir h hp he), ht]
  rw [unmapped, heldBy_setEntry (fill_page_apart h hp he) ht' hp 0, if_neg not_present_zero,
    heldBy_congr (fill_page_dir h hp he) (fill_page_tables h hp he)]

theorem unmap_shrinks (hpool : pool'.Perm (frame e :: pool)) :
    Shrinks (Key.page '' {p}) (ledger pool mem d) (ledger pool' (unmapped mem t p e) d) := by
  have hkeys := heldBy_unmapped h hp he ht
  rw [Set.image_singleton]
  constructor
  case given =>
    intro k hk
    rw [Set.mem_singleton_iff.mp hk]
    exact (congrFun hkeys _).trans (Function.update_self ..)
  case kept =>
    intro k hk
    exact (congrFun hkeys k).trans (Function.update_of_ne hk _ _)
  case used =>
    intro b
    change b ∉ pool' ↔ b ∉ pool ∧ ∀ k ∈ ({Key.page p} : Set Key), heldBy mem d k ≠ some b
    rw [hpool.mem_iff, List.mem_cons, not_or, and_comm]
    simp only [Set.mem_singleton_iff, forall_eq, heldBy_page hp he, ne_eq, Option.some.injEq,
      eq_comm (a := b)]

/-- A page goes to the free list. -/
theorem unmap (hpool : pool'.Perm (frame e :: pool)) :
    Shrunk L {p} pool mem pool' (unmapped mem t p e) d := by
  have hheld := heldBy_page hp he
  have hpages := pageOf_unmapped h hp he ht
  have hshrinks := unmap_shrinks h hp he ht hpool
  constructor
  case shrinks => exact hshrinks
  case space =>
    constructor
    case sound => exact h.sound.shrinks hshrinks
    case valid => exact fun k f hk => h.valid k f (hshrinks.held hk).2
    case free_valid =>
      intro f hf
      rcases List.mem_cons.mp (hpool.mem_iff.mp hf) with rfl | hf
      · exact h.valid _ _ hheld
      · exact h.free_valid f hf
    case nodup =>
      rw [hpool.nodup_iff, List.nodup_cons]
      exact ⟨h.not_free hheld, h.nodup⟩
    case kernel =>
      intro q e' hq he'
      rw [hpages, if_neg (by omega)] at he'
      exact h.kernel q e' hq he'
  case tables => exact tableOf_unmapped h hp he ht
  case removed =>
    intro q hq
    rw [hpages, if_pos (Set.mem_singleton_iff.mp hq)]
  case others =>
    intro q hq
    rw [hpages, if_neg fun hqp => hq (Set.mem_singleton_iff.mpr hqp)]
  case kept =>
    intro g hg hgt
    have hgf : g ≠ frame e := by
      rintro rfl
      exact hg (hpool.mem_iff.mpr List.mem_cons_self)
    have hgt' : g ≠ t := by
      rintro rfl
      exact hgt _ ht
    rw [unmapped, setEntry_of_ne hgt', fill_of_ne hgf]

end Unmap

theorem valid_pos (h : L.Valid f) : f ≠ 0 := by
  rintro rfl
  have hdata := L.data_le
  have hkern := L.kernlink_lt
  have hend : L.endFrame = 0 := Nat.le_zero.mp h.1
  rw [hend] at hdata
  dsimp only [kernlink, kernbase, extmem, pgsize] at hdata hkern
  omega

theorem pteAddr_ne_zero (h : L.Valid (frame e)) : pteAddr e ≠ 0 := by
  intro h0
  apply valid_pos h
  rw [frame, h0]
  rfl

section Steps

variable {t : ℕ} (hold : oldsz ≤ kernbase) (hlt : 4096 * q < oldsz)

include hold hlt

/-- The rest of a table that is not there is left out. -/
theorem deallocuvmLoop_jump (ht : tableOf s.mem d (q / 1024) = none) :
    deallocuvmLoop L d oldsz (n + 1) (4096 * q) s =
      deallocuvmLoop L d oldsz n (4096 * (1024 * (q / 1024 + 1))) s := by
  dsimp only [kernbase] at hold
  have hva : 4096 * q < 4294967296 := by omega
  have hpage : 4096 * q / 4096 = q := by omega
  have hnext : pgaddr (pdx (4096 * q) + 1) = 4096 * (1024 * (q / 1024 + 1)) := by
    rw [pdx_eq hva, hpage, pgaddr]
    omega
  rw [deallocuvmLoop, if_pos hlt, walk_no_table hva (hpage.symm ▸ ht), hnext]

/-- A page of a table that is there is freed if it is present. -/
theorem deallocuvmLoop_page (ht : tableOf s.mem d (q / 1024) = some t) :
    deallocuvmLoop L d oldsz (n + 1) (4096 * q) s =
      if Present (entry s.mem t (q % 1024)) then
        if pteAddr (entry s.mem t (q % 1024)) = 0 then .error (.panic "kfree")
        else
          kfree L (p2v (pteAddr (entry s.mem t (q % 1024)))) s >>= fun s =>
            deallocuvmLoop L d oldsz n (4096 * (q + 1))
              { s with mem := setEntry s.mem t (q % 1024) 0 }
      else deallocuvmLoop L d oldsz n (4096 * (q + 1)) s := by
  dsimp only [kernbase] at hold
  have hva : 4096 * q < 4294967296 := by omega
  have hpage : 4096 * q / 4096 = q := by omega
  rw [deallocuvmLoop, if_pos hlt, walk_table hva (hpage.symm ▸ ht), hpage,
    next_page (q := q) (by omega)]

end Steps

/-- The pages that start in a range of addresses. -/
def pagesOf (start stop : ℕ) : Set ℕ := {p | start ≤ 4096 * p ∧ 4096 * p < stop}

/-- The loop frees the pages from `q` on, and goes over a table that is not there at once. -/
theorem deallocuvmLoop_spec (h : Space L (limbo ++ s.freelist) s.mem d) (hold : oldsz ≤ kernbase)
    (hq : q ≤ 1048576) (hn : 1048576 < n + q) :
    ∃ s', deallocuvmLoop L d oldsz n (4096 * q) s = .ok s' ∧
      Shrunk L (pagesOf (4096 * q) oldsz) (limbo ++ s.freelist) s.mem (limbo ++ s'.freelist)
        s'.mem d := by
  induction n generalizing q s with
  | zero => omega
  | succ n ih =>
    by_cases hlt : 4096 * q < oldsz
    case neg =>
      rw [deallocuvmLoop, if_neg hlt]
      refine ⟨s, rfl, Shrunk.refl h ?_⟩
      rintro p ⟨hp, hp'⟩
      omega
    case pos =>
      have hq' : q < 524288 := by
        dsimp only [kernbase] at hold
        omega
      cases ht : tableOf s.mem d (q / 1024) with
      | none =>
        have hgap : ∀ p ∈ {p | q ≤ p ∧ p < 1024 * (q / 1024 + 1) ∧ 4096 * p < oldsz},
            pageOf s.mem d p = none := by
          rintro p ⟨hp, hp', -⟩
          have hsame : p / 1024 = q / 1024 := by omega
          exact pageOf_none (hsame ▸ ht)
        have hsplit : pagesOf (4096 * q) oldsz =
            {p | q ≤ p ∧ p < 1024 * (q / 1024 + 1) ∧ 4096 * p < oldsz} ∪
              pagesOf (4096 * (1024 * (q / 1024 + 1))) oldsz := by
          ext p
          simp only [pagesOf, Set.mem_union, Set.mem_ofPred_eq]
          omega
        obtain ⟨s', hrun, hshrunk⟩ := ih (q := 1024 * (q / 1024 + 1)) h (by omega) (by omega)
        rw [deallocuvmLoop_jump hold hlt ht, hsplit]
        exact ⟨s', hrun, (Shrunk.refl h hgap).trans hshrunk⟩
      | some t =>
        have hsplit : pagesOf (4096 * q) oldsz = {q} ∪ pagesOf (4096 * (q + 1)) oldsz := by
          ext p
          simp only [pagesOf, Set.mem_union, Set.mem_singleton_iff, Set.mem_ofPred_eq]
          omega
        rw [deallocuvmLoop_page hold hlt ht, hsplit]
        cases he : pageOf s.mem d q with
        | none =>
          obtain ⟨s', hrun, hshrunk⟩ := ih (q := q + 1) h (by omega) (by omega)
          have hnone : ∀ p ∈ ({q} : Set ℕ), pageOf s.mem d p = none := by
            intro p hp
            rw [Set.mem_singleton_iff.mp hp, he]
          rw [if_neg (not_present_of_page ht he)]
          exact ⟨s', hrun, (Shrunk.refl h hnone).trans hshrunk⟩
        | some e =>
          obtain ⟨t', ht', hentry, hpresent⟩ := table_of_page he
          obtain rfl : t = t' := Option.some.inj (ht.symm.trans ht')
          have hvalid := h.valid _ _ (heldBy_page hq' he)
          have hpool : (limbo ++ frame e :: s.freelist).Perm (frame e :: (limbo ++ s.freelist)) :=
            List.perm_middle
          have hstep := unmap h hq' he ht hpool
          obtain ⟨s', hrun, hshrunk⟩ :=
            ih (q := q + 1) (s := ⟨unmapped s.mem t q e, frame e :: s.freelist⟩) hstep.space
              (by omega) (by omega)
          have hfree : kfree L (p2v (pteAddr e)) s = .ok ⟨fill s.mem (frame e) 1,
              frame e :: s.freelist⟩ := kfree_eq hvalid
          rw [hentry, if_pos hpresent, if_neg (pteAddr_ne_zero hvalid), hfree, ok_bind]
          exact ⟨s', hrun, hstep.trans hshrunk⟩

theorem pgroundup_eq {sz : ℕ} (h : sz + 4095 < 4294967296) :
    pgroundup sz = 4096 * ((sz + 4095) / 4096) := by
  dsimp only [pgroundup, pgsize]
  omega

theorem pgroundup_le {sz : ℕ} (h : sz + 4095 < 4294967296) (p : ℕ) :
    pgroundup sz ≤ 4096 * p ↔ sz ≤ 4096 * p := by
  rw [pgroundup_eq h]
  omega

theorem deallocuvm_spec (limbo : List ℕ) (newsz : ℕ)
    (h : Space L (limbo ++ s.freelist) s.mem d) (hold : oldsz ≤ kernbase) :
    ∃ s', deallocuvm L d oldsz newsz s = .ok (min oldsz newsz, s') ∧
      Shrunk L (pagesOf newsz oldsz) (limbo ++ s.freelist) s.mem (limbo ++ s'.freelist)
        s'.mem d := by
  rw [deallocuvm]
  by_cases hle : newsz ≥ oldsz
  case pos =>
    rw [if_pos hle, Nat.min_eq_left hle]
    refine ⟨s, rfl, Shrunk.refl h ?_⟩
    rintro p ⟨hp, hp'⟩
    omega
  case neg =>
    have hsmall : newsz < 2147483648 := by
      dsimp only [kernbase] at hold
      omega
    have hround : pgroundup newsz = 4096 * ((newsz + 4095) / 4096) := pgroundup_eq (by omega)
    have hpages : pagesOf (4096 * ((newsz + 4095) / 4096)) oldsz = pagesOf newsz oldsz := by
      ext p
      simp only [pagesOf, Set.mem_ofPred_eq]
      omega
    obtain ⟨s', hrun, hshrunk⟩ := deallocuvmLoop_spec (n := allPages + 1)
      (q := (newsz + 4095) / 4096) h hold (by omega) (by dsimp only [allPages]; omega)
    rw [if_neg hle, hround, hrun, ok_bind, Nat.min_eq_right (Nat.le_of_not_le hle)]
    exact ⟨s', rfl, hpages ▸ hshrunk⟩

/-- Pages that a failed call has mapped are taken back. -/
theorem grown_shrunk (h : Grown L pool mem pool' mem' d) (hP : ∀ p ∈ P, pageOf mem d p = none)
    (h' : Shrunk L P pool' mem' pool'' mem'' d) : Grown L pool mem pool'' mem'' d := by
  have hgrows := h.grows.shrinks (K := Key.page '' P) (by
    rintro k ⟨p, hp, rfl⟩
    exact heldBy_page_none (hP p hp)) h'.shrinks
  refine ⟨hgrows, h'.space, ?_⟩
  intro g hg hd ht
  have hg'' : g ∉ pool'' := hgrows.used_mono hg
  have ht' : ∀ i, tableOf mem' d i ≠ some g := by
    intro i hi
    rcases h.table_of hi with hi | hf
    · exact ht i hi
    · exact hg hf
  rw [h'.kept g hg'' ht', h.kept g hg hd ht]

/-- The pages of `P` have become present and all others are as before. -/
structure Mapped (P : Set ℕ) (mem mem' : Pages) (d : ℕ) : Prop where
  present : ∀ p ∈ P, ∃ e, pageOf mem' d p = some e
  others : ∀ p ∉ P, pageOf mem' d p = pageOf mem d p

theorem shrunk_mapped (h : Mapped P mem mem' d) (hsub : P ⊆ Q)
    (hnone : ∀ p ∈ Q, pageOf mem d p = none) (h' : Shrunk L Q pool' mem' pool'' mem'' d) :
    pageOf mem'' d = pageOf mem d := by
  funext p
  by_cases hp : p ∈ Q
  · rw [h'.removed p hp, hnone p hp]
  · rw [h'.others p hp, h.others p fun hpP => hp (hsub hpP)]

theorem Mapped.congr (h : Mapped P mem mem' d) (hsame : pageOf mem'' d = pageOf mem' d) :
    Mapped P mem mem'' d := by
  constructor
  · rw [hsame]
    exact h.present
  · rw [hsame]
    exact h.others

/-- The range has grown by the page `q`. -/
theorem Mapped.page (h : Mapped (pagesOf oldsz (4096 * q)) mem mem' d) (hold : oldsz ≤ 4096 * q)
    (hpages : ∀ p, pageOf mem'' d p = if p = q then some e else pageOf mem' d p) :
    Mapped (pagesOf oldsz (4096 * (q + 1))) mem mem'' d := by
  constructor
  case present =>
    rintro p ⟨hp, hp'⟩
    rw [hpages]
    by_cases hpq : p = q
    · exact ⟨e, if_pos hpq⟩
    · rw [if_neg hpq]
      exact h.present p ⟨hp, by omega⟩
  case others =>
    intro p hp
    have hpq : p ≠ q := by
      rintro rfl
      exact hp ⟨hold, by omega⟩
    rw [hpages, if_neg hpq]
    apply h.others
    rintro ⟨hq, hq'⟩
    exact hp ⟨hq, by omega⟩

/-- What a call of `allocuvm` that returns `r` has done. -/
structure Allocated (L : Layout) (d oldsz newsz : ℕ) (s : Kernel) (r : ℕ) (s' : Kernel) :
    Prop where
  grown : Grown L s.freelist s.mem s'.freelist s'.mem d
  result : r = newsz ∧ Mapped (pagesOf oldsz newsz) s.mem s'.mem d ∨
    r = 0 ∧ pageOf s'.mem d = pageOf s.mem d

theorem allocuvmLoop_spec {s₀ : Kernel} (h : Grown L s₀.freelist s₀.mem s.freelist s.mem d)
    (hmapped : Mapped (pagesOf oldsz (4096 * q)) s₀.mem s.mem d)
    (hnone : ∀ p ∈ pagesOf oldsz newsz, pageOf s₀.mem d p = none) (hnew : newsz < kernbase)
    (hold : oldsz ≤ 4096 * q) (hq : 4096 * q < newsz + 4096) (hn : 1048576 < n + q) :
    ∃ r s', allocuvmLoop L d oldsz newsz n (4096 * q) s = .ok (r, s') ∧
      Allocated L d oldsz newsz s₀ r s' := by
  induction n generalizing q s with
  | zero =>
    dsimp only [kernbase] at hnew
    omega
  | succ n ih =>
    rw [allocuvmLoop]
    by_cases hlt : 4096 * q < newsz
    case neg =>
      have hrange : pagesOf oldsz (4096 * q) = pagesOf oldsz newsz := by
        ext p
        simp only [pagesOf, Set.mem_ofPred_eq]
        omega
      rw [if_neg hlt]
      exact ⟨newsz, s, rfl, h, .inl ⟨rfl, hrange ▸ hmapped⟩⟩
    case pos =>
      have hqu : q < 524288 := by
        dsimp only [kernbase] at hnew
        omega
      have hsub : pagesOf oldsz (4096 * q) ⊆ pagesOf oldsz newsz := by
        rintro p ⟨hp, hp'⟩
        exact ⟨hp, hp'.trans hlt⟩
      rw [if_pos hlt]
      cases hfree : s.freelist with
      | nil =>
        obtain ⟨s', hrun, hshrunk⟩ := deallocuvm_spec [] oldsz h.space (Nat.le_of_lt hnew)
        simp only [kalloc_nil hfree, hrun, ok_bind]
        exact ⟨0, s', rfl, grown_shrunk h hnone hshrunk,
          .inr ⟨rfl, shrunk_mapped hmapped hsub hnone hshrunk⟩⟩
      | cons f rest =>
        have h' : Grown L s₀.freelist s₀.mem (f :: rest) s.mem d := hfree ▸ h
        obtain ⟨hwrite, hsame⟩ := h'.space.writeFree List.mem_cons_self fun _ => 0
        have h₁ := h'.trans hwrite
        have habsent : pageOf (fill s.mem f 0) d q = none := by
          have hout : q ∉ pagesOf oldsz (4096 * q) := fun hin => absurd hin.2 (Nat.lt_irrefl _)
          rw [fill, hsame, hmapped.others q hout]
          exact hnone q ⟨hold, hlt⟩
        have hmapped₁ := hmapped.congr hsame
        simp only [kalloc_cons hfree]
        rcases mappages_user (s := ⟨fill s.mem f 0, rest⟩) h₁.space hqu habsent perm_user with
          hmap | ⟨s', hmap, hgrown, hpages, -⟩
        case inl =>
          -- the page for the data is given back as well
          obtain ⟨s₂, hrun, hshrunk⟩ := deallocuvm_spec [f] oldsz (s := ⟨fill s.mem f 0, rest⟩)
            h₁.space (Nat.le_of_lt hnew)
          have h₂ := grown_shrunk h₁ hnone hshrunk
          have hvalid := h₂.space.free_valid f List.mem_cons_self
          obtain ⟨hfill, hsame₂⟩ := h₂.space.writeFree List.mem_cons_self fun _ => 1
          rw [hmap, ok_bind, if_pos failed, hrun, ok_bind, kfree_eq hvalid, ok_bind]
          refine ⟨0, _, rfl, h₂.trans hfill, .inr ⟨rfl, ?_⟩⟩
          exact hsame₂.trans (shrunk_mapped hmapped₁ hsub hnone hshrunk)
        case inr =>
          have hmapped' := hmapped₁.page hold hpages
          rw [hmap, ok_bind, if_neg (Int.lt_irrefl 0), next_page (q := q) (by omega)]
          exact ih (h₁.trans hgrown) hmapped' (by omega) (by omega) (by omega)

theorem allocuvm_spec (h : Space L s.freelist s.mem d) (hle : oldsz ≤ newsz)
    (hnone : newsz < kernbase → ∀ p ∈ pagesOf oldsz newsz, pageOf s.mem d p = none) :
    ∃ r s', allocuvm L d oldsz newsz s = .ok (r, s') ∧ Allocated L d oldsz newsz s r s' ∧
      (kernbase ≤ newsz → r = 0) := by
  rw [allocuvm]
  by_cases hbig : newsz ≥ kernbase
  case pos =>
    rw [if_pos hbig]
    exact ⟨0, s, rfl, ⟨Grown.refl h, .inr ⟨rfl, rfl⟩⟩, fun _ => rfl⟩
  case neg =>
    have hnew : newsz < 2147483648 := Nat.lt_of_not_le hbig
    have hround : pgroundup oldsz = 4096 * ((oldsz + 4095) / 4096) := pgroundup_eq (by omega)
    have hempty : Mapped (pagesOf oldsz (4096 * ((oldsz + 4095) / 4096))) s.mem s.mem d := by
      refine ⟨?_, fun _ _ => rfl⟩
      rintro p ⟨hp, hp'⟩
      omega
    rw [if_neg hbig, if_neg (Nat.not_lt.mpr hle), hround]
    obtain ⟨r, s', hrun, hres⟩ := allocuvmLoop_spec (n := allPages + 1) (Grown.refl h) hempty
      (hnone hnew) hnew (by omega) (by omega) (by dsimp only [allPages]; omega)
    exact ⟨r, s', hrun, hres, fun hk => absurd hk hbig⟩

/-- The tables that `mem'` has and `mem` has not. -/
def newTables (mem mem' : Pages) (d : ℕ) : List ℕ :=
  (List.range 1024).filterMap fun i =>
    if tableOf mem d i = none then tableOf mem' d i else none

theorem mem_newTables {t : ℕ} : t ∈ newTables mem mem' d ↔
    ∃ i, tableOf mem d i = none ∧ tableOf mem' d i = some t := by
  rw [newTables, List.mem_filterMap]
  constructor
  · rintro ⟨i, -, hi⟩
    by_cases hnone : tableOf mem d i = none
    · rw [if_pos hnone] at hi
      exact ⟨i, hnone, hi⟩
    · rw [if_neg hnone] at hi
      cases hi
  · rintro ⟨i, hnone, hi⟩
    exact ⟨i, List.mem_range.mpr (tableOf_lt hi), by rw [if_pos hnone, hi]⟩

theorem nodup_newTables (h : Apart mem' d) : (newTables mem mem' d).Nodup := by
  refine List.nodup_range.filterMap ?_
  intro i j t hi hj
  have htable : ∀ i, t ∈ (if tableOf mem d i = none then tableOf mem' d i else none) →
      tableOf mem' d i = some t := by
    intro i hi
    by_cases hnone : tableOf mem d i = none
    · rwa [if_pos hnone] at hi
    · rw [if_neg hnone] at hi
      cases hi
  exact h.once i j t (htable i hi) (htable j hj)

/-- Where no page has become present, the pages that left the pool are the new tables. -/
theorem grown_returned (h : Grown L pool mem pool' mem' d) (hpool : pool.Nodup)
    (hpages : pageOf mem' d = pageOf mem d) : (pool' ++ newTables mem mem' d).Perm pool := by
  have hheld : ∀ t ∈ newTables mem mem' d, t ∉ pool' := by
    intro t ht
    obtain ⟨i, -, hi⟩ := mem_newTables.mp ht
    exact h.space.table_not_free hi
  have hnodup : (pool' ++ newTables mem mem' d).Nodup := by
    refine List.nodup_append.mpr ⟨h.space.nodup, nodup_newTables h.space.apart, ?_⟩
    rintro t ht t' ht' rfl
    exact hheld t ht' ht
  rw [List.perm_ext_iff_of_nodup hnodup hpool]
  intro f
  rw [List.mem_append]
  constructor
  case mp =>
    rintro (hf | hf)
    · exact h.free_mono hf
    · obtain ⟨i, hnone, hi⟩ := mem_newTables.mp hf
      by_contra hn
      exact h.grows.fresh (.table i) f hnone hi hn
  case mpr =>
    intro hf
    by_cases hf' : f ∈ pool'
    · exact .inl hf'
    · right
      rcases (h.grows.used f).mp hf' with hu | ⟨k, hk, hk'⟩
      · exact absurd hf hu
      · change heldBy mem d k = none at hk
        change heldBy mem' d k = some f at hk'
        cases k with
        | dir => cases hk
        | table i => exact mem_newTables.mpr ⟨i, hk, hk'⟩
        | page p =>
          rw [heldBy, hpages] at hk'
          rw [heldBy] at hk
          rw [hk] at hk'
          cases hk'

/-- After a failure the present pages and their contents are as before, and of the pages taken
from the free list only the new tables are not back. -/
structure Undone (d : ℕ) (s s' : Kernel) : Prop where
  pages : pageOf s'.mem d = pageOf s.mem d
  contents : ∀ p e, p < userPages → pageOf s.mem d p = some e →
    s'.mem (frame e) = s.mem (frame e)
  returned : (s'.freelist ++ newTables s.mem s'.mem d).Perm s.freelist

theorem grown_undone {s' : Kernel} (h : Space L s.freelist s.mem d)
    (hg : Grown L s.freelist s.mem s'.freelist s'.mem d) (hp : pageOf s'.mem d = pageOf s.mem d) :
    Undone d s s' := by
  refine ⟨hp, ?_, grown_returned hg h.nodup hp⟩
  intro p e hpu he
  have hheld := heldBy_page hpu he
  exact hg.kept _ (h.not_free hheld) (h.page_ne_dir hheld) (h.page_ne_table hheld)

theorem allocuvm_failure (L : Layout) (d oldsz newsz : ℕ) (s : Kernel)
    (h : Space L s.freelist s.mem d) (hle : oldsz ≤ newsz)
    (hnone : ∀ p, pgroundup oldsz ≤ 4096 * p → 4096 * p < newsz → pageOf s.mem d p = none) :
    ∃ r s', allocuvm L d oldsz newsz s = .ok (r, s') ∧ (r = 0 → Undone d s s') := by
  have hnone' : newsz < kernbase → ∀ p ∈ pagesOf oldsz newsz, pageOf s.mem d p = none := by
    rintro hnew p ⟨hp, hp'⟩
    have hsmall : newsz < 2147483648 := hnew
    exact hnone p ((pgroundup_le (by omega) p).mpr hp) hp'
  obtain ⟨r, s', hrun, ⟨hgrown, hres⟩, -⟩ := allocuvm_spec h hle hnone'
  refine ⟨r, s', hrun, ?_⟩
  rintro rfl
  rcases hres with ⟨hzero, hmapped⟩ | ⟨-, hpages⟩
  · -- there was nothing to do
    have hsame : pageOf s'.mem d = pageOf s.mem d := by
      funext p
      refine hmapped.others p ?_
      rintro ⟨-, hp⟩
      omega
    exact grown_undone h hgrown hsame
  · exact grown_undone h hgrown hpages

theorem sample_aligned : 0x80108000 % pgsize = 0 := by decide
theorem sample_kernlink_lt : kernlink < 0x80108000 := by decide
theorem sample_data_lt : 0x80108000 < kernbase + phystop := by decide
theorem sample_data_le : 0x80108000 ≤ kernbase + 300 * pgsize := by decide

/-- A kernel whose data starts at 0x80108000 and ends on the page before page 300. -/
def sampleLayout : Layout :=
  ⟨0x80108000, 300, sample_aligned, sample_kernlink_lt, sample_data_lt, sample_data_le⟩

def samplePool : List ℕ := List.map (303 + ·) (List.range 100)

theorem sample_range : 300 :: 301 :: 302 :: samplePool = List.range' 300 103 := by decide +kernel

theorem sample_valid : ∀ f ∈ 300 :: 301 :: 302 :: samplePool, sampleLayout.Valid f := by
  intro f hf
  rw [sample_range, List.mem_range'_1] at hf
  dsimp only [Layout.Valid, sampleLayout, phystop, pgsize]
  omega

theorem sample_nodup : (300 :: 301 :: 302 :: samplePool).Nodup := by
  rw [sample_range]
  exact List.nodup_range'

/-- A directory without entries on page 300, and free pages behind it. -/
theorem sample_space : Space sampleLayout (301 :: 302 :: samplePool) (fun _ _ => 0) 300 :=
  Space.cleared (sample_valid 300 List.mem_cons_self)
    (fun f hf => sample_valid f (List.mem_cons_of_mem 300 hf)) sample_nodup rfl

def sampleKernel : Kernel := ⟨fun _ _ => 0, 301 :: 302 :: samplePool⟩

/-- The same kernel with two free pages left. -/
def smallKernel : Kernel := ⟨fun _ _ => 0, [301, 302]⟩

theorem small_space : Space sampleLayout smallKernel.freelist smallKernel.mem 300 := by
  refine Space.cleared (sample_valid 300 List.mem_cons_self) ?_ (by decide) rfl
  intro f hf
  apply sample_valid
  rcases List.mem_cons.mp hf with rfl | hf
  · simp
  · rw [List.mem_singleton.mp hf]
    simp

/-- Of two pages of data the first gets the last free page, behind its page table; it is taken
back when there is none for the second. -/
theorem allocuvm_failure_two_pages :
    ∃ s', allocuvm sampleLayout 300 0 8192 smallKernel = .ok (0, s') ∧
      Undone 300 smallKernel s' := by
  obtain ⟨r, s', hrun, hundone⟩ := allocuvm_failure sampleLayout 300 0 8192 smallKernel
    small_space (by decide) fun _ _ _ => pageOf_none (tableOf_zero rfl _)
  have hzero : (allocuvm sampleLayout 300 0 8192 smallKernel).map Prod.fst = .ok 0 := by
    decide +kernel
  rw [hrun] at hzero
  obtain rfl : r = 0 := Except.ok.inj hzero
  exact ⟨s', hrun, hundone rfl⟩

/-- The same directory with page 0 mapped, its table on page 301 and its data on page 302. -/
def onePage : Pages :=
  setEntry (withTable (fun _ _ => 0) 300 0 301) 301 0 (v2p 302 ||| (pteW ||| pteU) ||| pteP)

theorem onePage_table : tableOf (withTable (fun _ _ => 0) 300 0 301) 300 (0 / 1024) = some 301 := by
  rw [tableOf_withTable (by decide) (by decide) (by decide), if_pos rfl]

theorem onePage_space : Space sampleLayout samplePool onePage 300 := by
  obtain ⟨htable, hpages⟩ := sample_space.newTable (i := 0) (List.Perm.refl _) (by decide)
    (tableOf_zero rfl _)
  have hnone : pageOf (withTable (fun _ _ => 0) 300 0 301) 300 0 = none := by
    rw [hpages, pageOf_none (tableOf_zero rfl _)]
  exact (htable.space.mapUser onePage_table (List.Perm.refl _) (by decide) hnone
    (present_entry _ _) (frame_entry perm_user (by decide))).space

theorem onePage_pages (q : ℕ) : pageOf onePage 300 q =
    if q = 0 then some (v2p 302 ||| (pteW ||| pteU) ||| pteP) else none := by
  obtain ⟨htable, hpages⟩ := sample_space.newTable (i := 0) (List.Perm.refl _) (by decide)
    (tableOf_zero rfl _)
  rw [onePage, pageOf_setEntry (p := 0) htable.space.apart onePage_table,
    if_pos (present_entry _ _), hpages, pageOf_none (tableOf_zero rfl _)]

end UserMemory
