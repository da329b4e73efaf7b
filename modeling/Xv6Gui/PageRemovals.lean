import Xv6Gui.UserMemory

/-!
# The jump of deallocuvm

deallocuvm leaves out the rest of a table that is not there. The loop over every page of the
range does the same in every memory, also where freeing a page changes the directory.
-/
namespace PageRemovals

open WordMemory PageEntries PageTables PageViews PageOwnership UserMemory GuardedRuns

/-- The loop over the pages of a list, one after the other. -/
def removePages (L : Layout) (pgdir : ℕ) : List ℕ → Kernel → Except Fault Kernel
  | [], s => .ok s
  | p :: l, s =>
    match walkpgdir pgdir (4096 * p) false s with
    | (none, s) => removePages L pgdir l s
    | (some pte, s) =>
      let e := entry s.mem pte.page pte.index
      if Present e then
        if pteAddr e = 0 then .error (.panic "kfree")
        else
          kfree L (p2v (pteAddr e)) s >>= fun s =>
            removePages L pgdir l { s with mem := setEntry s.mem pte.page pte.index 0 }
      else removePages L pgdir l s

/-- The pages from `q` on that start below `oldsz`. -/
def pagesFrom (q oldsz : ℕ) : List ℕ := List.range' q ((oldsz + 4095) / 4096 - q)

def pagesBetween (newsz oldsz : ℕ) : List ℕ := pagesFrom (pgroundup newsz / pgsize) oldsz

/-- The pages of the list that are present lie on pages that `kfree` takes, apart from the
directory and its tables. -/
structure Removable (L : Layout) (mem : Pages) (d : ℕ) (l : List ℕ) : Prop where
  apart : Apart mem d
  valid : ∀ p ∈ l, ∀ e, pageOf mem d p = some e → L.Valid (frame e)
  ne_dir : ∀ p ∈ l, ∀ e, pageOf mem d p = some e → frame e ≠ d
  ne_table : ∀ p ∈ l, ∀ e, pageOf mem d p = some e → ∀ i, tableOf mem d i ≠ some (frame e)

/-- The entries of the pages that were present are zero and all other entries are as before. -/
structure Removed (mem mem' : Pages) (d : ℕ) (l : List ℕ) : Prop where
  dir : mem' d = mem d
  entries : ∀ i t j, tableOf mem d i = some t → j < 1024 →
    entry mem' t j =
      if 1024 * i + j ∈ l ∧ Present (entry mem t j) then 0 else entry mem t j
  others : ∀ g, (∀ i, tableOf mem d i ≠ some g) →
    (∀ p ∈ l, ∀ e, pageOf mem d p = some e → g ≠ frame e) → mem' g = mem g

/-- The pages that hold what is present of a list. -/
def framesOf (mem : Pages) (d : ℕ) (l : List ℕ) : List ℕ := (l.filterMap (pageOf mem d)).map frame

variable {L : Layout} {pool : List ℕ} {mem mem' : Pages} {d i n p q t newsz oldsz : ℕ} {e : Word}
  {l : List ℕ} {s : Kernel}

section Ranges

theorem pagesFrom_nil (h : oldsz ≤ 4096 * q) : pagesFrom q oldsz = [] := by
  have hlen : (oldsz + 4095) / 4096 - q = 0 := by omega
  rw [pagesFrom, hlen, List.range'_zero]

theorem pagesFrom_cons (h : 4096 * q < oldsz) :
    pagesFrom q oldsz = q :: pagesFrom (q + 1) oldsz := by
  have hlen : (oldsz + 4095) / 4096 - q = (oldsz + 4095) / 4096 - (q + 1) + 1 := by omega
  rw [pagesFrom, hlen, List.range'_succ, pagesFrom]

theorem mem_pagesFrom : p ∈ pagesFrom q oldsz ↔ q ≤ p ∧ 4096 * p < oldsz := by
  rw [pagesFrom, List.mem_range'_1]
  omega

theorem pagesBetween_nodup (newsz oldsz : ℕ) : (pagesBetween newsz oldsz).Nodup :=
  List.nodup_range'

end Ranges

section Jump

theorem removePages_no_table (hp : p < 1048576) (h : tableOf s.mem d (p / 1024) = none)
    (l : List ℕ) : removePages L d (p :: l) s = removePages L d l s := by
  have hpage : 4096 * p / 4096 = p := by omega
  rw [removePages, walk_no_table (by omega) (hpage.symm ▸ h)]

/-- Pages of a table that is not there are left out. -/
theorem removePages_skip {k : ℕ} (h : tableOf s.mem d i = none) (hold : oldsz ≤ kernbase)
    (hk : ∀ j < k, (q + j) / 1024 = i) :
    removePages L d (pagesFrom q oldsz) s = removePages L d (pagesFrom (q + k) oldsz) s := by
  induction k with
  | zero => rw [Nat.add_zero]
  | succ k ih =>
    rw [ih fun j hj => hk j (Nat.lt_succ_of_lt hj)]
    by_cases hlt : 4096 * (q + k) < oldsz
    case pos =>
      have hpage : q + k < 1048576 := by
        dsimp only [kernbase] at hold
        omega
      have htable : tableOf s.mem d ((q + k) / 1024) = none := by
        rw [hk k (Nat.lt_succ_self k), h]
      rw [pagesFrom_cons hlt, removePages_no_table hpage htable, Nat.add_assoc]
    case neg => rw [pagesFrom_nil (by omega), pagesFrom_nil (by omega)]

theorem deallocuvmLoop_pages (hold : oldsz ≤ kernbase) (hq : q ≤ 1048576)
    (hn : 1048576 < n + q) :
    deallocuvmLoop L d oldsz n (4096 * q) s = removePages L d (pagesFrom q oldsz) s := by
  induction n generalizing q s with
  | zero => omega
  | succ n ih =>
    by_cases hlt : 4096 * q < oldsz
    case neg => rw [deallocuvmLoop, if_neg hlt, pagesFrom_nil (by omega), removePages]
    case pos =>
      have hq' : q < 524288 := by
        dsimp only [kernbase] at hold
        omega
      cases ht : tableOf s.mem d (q / 1024) with
      | none =>
        -- `q` is followed by the pages that are left of its table
        have hnext : 1024 * (q / 1024 + 1) = q + (1024 - q % 1024) := by omega
        rw [deallocuvmLoop_jump hold hlt ht, hnext]
        have hrest := ih (q := q + (1024 - q % 1024)) (s := s) (by omega) (by omega)
        exact hrest.trans (removePages_skip ht hold fun j hj => by omega).symm
      | some t =>
        have hpage : 4096 * q / 4096 = q := by omega
        have hva : 4096 * q < 4294967296 := by omega
        have hwalk := walk_table hva (hpage.symm ▸ ht) false
        have hstep : ∀ s', deallocuvmLoop L d oldsz n (4096 * (q + 1)) s' =
            removePages L d (pagesFrom (q + 1) oldsz) s' := fun s' => ih (by omega) (by omega)
        rw [deallocuvmLoop_page hold hlt ht, pagesFrom_cons hlt, removePages, hwalk, hpage]
        simp only [hstep]

end Jump

section Effects

theorem removePages_absent (hp : p < 1048576) (h : pageOf s.mem d p = none) (l : List ℕ) :
    removePages L d (p :: l) s = removePages L d l s := by
  have hpage : 4096 * p / 4096 = p := by omega
  cases ht : tableOf s.mem d (p / 1024) with
  | none => exact removePages_no_table hp ht l
  | some t =>
    rw [removePages, walk_table (by omega) (hpage.symm ▸ ht), hpage]
    exact if_neg (not_present_of_page ht h)

theorem removePages_present (hp : p < 1048576) (h : pageOf s.mem d p = some e)
    (ht : tableOf s.mem d (p / 1024) = some t) (hvalid : L.Valid (frame e)) (l : List ℕ) :
    removePages L d (p :: l) s =
      removePages L d l ⟨unmapped s.mem t p e, frame e :: s.freelist⟩ := by
  have hpage : 4096 * p / 4096 = p := by omega
  obtain ⟨t', ht', hentry, hpresent⟩ := table_of_page h
  obtain rfl : t = t' := Option.some.inj (ht.symm.trans ht')
  have haddr : pteAddr e ≠ 0 := pteAddr_ne_zero hvalid
  have hfree : kfree L (p2v (pteAddr e)) s =
      .ok ⟨fill s.mem (frame e) 1, frame e :: s.freelist⟩ := kfree_eq hvalid
  rw [removePages, walk_table (by omega) (hpage.symm ▸ ht), hpage]
  simp only [hentry, if_pos hpresent, if_neg haddr, hfree]
  rfl

theorem framesOf_none (h : pageOf mem d p = none) (l : List ℕ) :
    framesOf mem d (p :: l) = framesOf mem d l := by
  rw [framesOf, List.filterMap_cons_none h, framesOf]

theorem framesOf_some (h : pageOf mem d p = some e) (l : List ℕ) :
    framesOf mem d (p :: l) = frame e :: framesOf mem d l := by
  rw [framesOf, List.filterMap_cons_some h, List.map_cons, framesOf]

theorem Removable.tail (h : Removable L mem d (p :: l)) : Removable L mem d l :=
  ⟨h.apart, fun q hq => h.valid q (List.mem_cons_of_mem p hq),
    fun q hq => h.ne_dir q (List.mem_cons_of_mem p hq),
    fun q hq => h.ne_table q (List.mem_cons_of_mem p hq)⟩

section Step

variable (h : Removable L mem d (p :: l)) (he : pageOf mem d p = some e)
  (ht : tableOf mem d (p / 1024) = some t)

include h he

theorem freed_dir : fill mem (frame e) 1 d = mem d :=
  fill_of_ne (h.ne_dir p List.mem_cons_self e he).symm 1

theorem freed_table (hi : tableOf mem d i = some q) : fill mem (frame e) 1 q = mem q := by
  refine fill_of_ne ?_ 1
  rintro rfl
  exact h.ne_table p List.mem_cons_self e he i hi

include ht

theorem unmapped_dir : unmapped mem t p e d = mem d := by
  rw [unmapped, setEntry_of_ne (h.apart.ne_dir _ t ht).symm, freed_dir h he]

theorem unmapped_tableOf : tableOf (unmapped mem t p e) d = tableOf mem d :=
  tableOf_congr (unmapped_dir h he ht)

theorem unmapped_entry {j : ℕ} (hi : tableOf mem d i = some q) (hj : j < 1024) :
    entry (unmapped mem t p e) q j = if 1024 * i + j = p then 0 else entry mem q j := by
  have hsame : entry (fill mem (frame e) 1) q = entry mem q :=
    entry_congr (freed_table h he hi)
  by_cases hq : q = t
  case pos =>
    -- an entry of the same table
    have hip : i = p / 1024 := h.apart.once i _ t (hq ▸ hi) ht
    rw [hq] at hsame
    rw [hq, unmapped]
    by_cases hjp : j = p % 1024
    · rw [hjp, entry_setEntry_self, if_pos (by omega)]
    · rw [entry_setEntry_of_ne hjp, hsame, if_neg (by omega)]
  case neg =>
    have hip : 1024 * i + j ≠ p := by
      intro hp
      have hdiv : p / 1024 = i := by omega
      exact hq (Option.some.inj (hi.symm.trans (hdiv ▸ ht)))
    rw [unmapped, entry_congr (setEntry_of_ne hq _ _), hsame, if_neg hip]

theorem unmapped_pageOf (hpq : q ≠ p) : pageOf (unmapped mem t p e) d q = pageOf mem d q := by
  have htables := congrFun (unmapped_tableOf h he ht) (q / 1024)
  cases hi : tableOf mem d (q / 1024) with
  | none => rw [pageOf_none hi, pageOf_none (htables.trans hi)]
  | some u =>
    have hentry := unmapped_entry h he ht hi (Nat.mod_lt q (by decide : 0 < 1024))
    rw [if_neg (by omega)] at hentry
    rw [pageOf_table hi, pageOf_table (htables.trans hi), hentry]

theorem unmapped_later (hnodup : (p :: l).Nodup) :
    ∀ q ∈ l, pageOf (unmapped mem t p e) d q = pageOf mem d q := by
  intro q hq
  refine unmapped_pageOf h he ht ?_
  rintro rfl
  exact (List.nodup_cons.mp hnodup).1 hq

theorem Removable.step (hnodup : (p :: l).Nodup) : Removable L (unmapped mem t p e) d l := by
  have htables := unmapped_tableOf h he ht
  have hpages := unmapped_later h he ht hnodup
  constructor
  case apart =>
    constructor
    · intro i u hi
      exact h.apart.ne_dir i u (htables ▸ hi)
    · intro i j u hi hj
      exact h.apart.once i j u (htables ▸ hi) (htables ▸ hj)
  case valid => exact fun q hq v hv => h.tail.valid q hq v (hpages q hq ▸ hv)
  case ne_dir => exact fun q hq v hv => h.tail.ne_dir q hq v (hpages q hq ▸ hv)
  case ne_table =>
    intro q hq v hv i
    rw [htables]
    exact h.tail.ne_table q hq v (hpages q hq ▸ hv) i

end Step

theorem Removed.nil (mem : Pages) (d : ℕ) : Removed mem mem d [] := by
  refine ⟨rfl, ?_, fun _ _ _ => rfl⟩
  intro i t j _ _
  rw [if_neg fun hc => List.not_mem_nil hc.1]

theorem Removed.absent (h : Removed mem mem' d l) (hp : pageOf mem d p = none) :
    Removed mem mem' d (p :: l) := by
  constructor
  case dir => exact h.dir
  case entries =>
    intro i t j ht hj
    have hentry := h.entries i t j ht hj
    by_cases hpj : 1024 * i + j = p
    case pos =>
      have hdiv : p / 1024 = i := by omega
      have hmod : p % 1024 = j := by omega
      have hnot : ¬Present (entry mem t j) := hmod ▸ not_present_of_page (hdiv ▸ ht) hp
      rw [hentry, if_neg fun hc => hnot hc.2, if_neg fun hc => hnot hc.2]
    case neg => simp only [hentry, List.mem_cons, hpj, false_or]
  case others =>
    intro g ht hg
    exact h.others g ht fun q hq => hg q (List.mem_cons_of_mem p hq)

/-- The first page is freed and unmapped, and then the others are removed. -/
theorem Removed.present (hs : Removable L mem d (p :: l)) (hnodup : (p :: l).Nodup)
    (he : pageOf mem d p = some e) (ht : tableOf mem d (p / 1024) = some t)
    (h : Removed (unmapped mem t p e) mem' d l) : Removed mem mem' d (p :: l) := by
  have htables := unmapped_tableOf hs he ht
  constructor
  case dir => exact h.dir.trans (unmapped_dir hs he ht)
  case entries =>
    intro i u j hi hj
    have hentry := h.entries i u j (by rw [htables, hi]) hj
    rw [unmapped_entry hs he ht hi hj] at hentry
    by_cases hpj : 1024 * i + j = p
    case pos =>
      have hdiv : p / 1024 = i := by omega
      have hmod : p % 1024 = j := by omega
      obtain ⟨t', ht', hat, hpresent⟩ := table_of_page he
      obtain rfl : t' = u := Option.some.inj (ht'.symm.trans (hdiv ▸ hi))
      rw [hmod] at hat
      rw [if_pos hpj, ite_self] at hentry
      rw [hentry, if_pos ⟨hpj ▸ List.mem_cons_self, hat ▸ hpresent⟩]
    case neg =>
      rw [if_neg hpj] at hentry
      simp only [hentry, List.mem_cons, hpj, false_or]
  case others =>
    intro g hg hgf
    have hgt : g ≠ t := fun hgt => hg _ (hgt ▸ ht)
    have hge : g ≠ frame e := hgf p List.mem_cons_self e he
    have hrest : mem' g = unmapped mem t p e g := by
      refine h.others g (fun i => by rw [htables]; exact hg i) ?_
      intro q hq v hv
      have hpages := unmapped_later hs he ht hnodup q hq
      exact hgf q (List.mem_cons_of_mem p hq) v (hpages ▸ hv)
    rw [hrest, unmapped, setEntry_of_ne hgt, fill_of_ne hge]

theorem removePages_removed (h : Removable L s.mem d l) (hnodup : l.Nodup)
    (hl : ∀ p ∈ l, p < 1048576) :
    ∃ s', removePages L d l s = .ok s' ∧ Removed s.mem s'.mem d l ∧
      s'.freelist = (framesOf s.mem d l).reverse ++ s.freelist := by
  induction l generalizing s with
  | nil => exact ⟨s, rfl, Removed.nil s.mem d, rfl⟩
  | cons p l ih =>
    have hp := hl p List.mem_cons_self
    have hl' : ∀ q ∈ l, q < 1048576 := fun q hq => hl q (List.mem_cons_of_mem p hq)
    have hnodup' := (List.nodup_cons.mp hnodup).2
    cases he : pageOf s.mem d p with
    | none =>
      obtain ⟨s', hrun, hrem, hfree⟩ := ih h.tail hnodup' hl'
      refine ⟨s', ?_, hrem.absent he, ?_⟩
      · rw [removePages_absent hp he, hrun]
      · rw [framesOf_none he, hfree]
    | some e =>
      obtain ⟨t, ht, -, -⟩ := table_of_page he
      have hvalid := h.valid p List.mem_cons_self e he
      obtain ⟨s', hrun, hrem, hfree⟩ := ih (s := ⟨unmapped s.mem t p e, frame e :: s.freelist⟩)
        (h.step he ht hnodup) hnodup' hl'
      have hframes : framesOf (unmapped s.mem t p e) d l = framesOf s.mem d l := by
        rw [framesOf, framesOf, List.filterMap_congr (unmapped_later h he ht hnodup)]
      refine ⟨s', ?_, Removed.present h hnodup he ht hrem, ?_⟩
      · rw [removePages_present hp he ht hvalid, hrun]
      · rw [hfree, hframes, framesOf_some he, List.reverse_cons, List.append_assoc]
        rfl

end Effects

/-- Every address space of the kernel has such pages. -/
theorem Space.removable (h : Space L pool mem d) (hold : oldsz ≤ kernbase) (newsz : ℕ) :
    Removable L mem d (pagesBetween newsz oldsz) := by
  have hheld : ∀ p ∈ pagesBetween newsz oldsz, ∀ e, pageOf mem d p = some e →
      heldBy mem d (.page p) = some (frame e) := by
    intro p hp e he
    refine heldBy_page ?_ he
    have hlt := (mem_pagesFrom.mp hp).2
    dsimp only [kernbase, userPages] at hold ⊢
    omega
  exact ⟨h.apart, fun p hp e he => h.valid _ _ (hheld p hp e he),
    fun p hp e he => h.page_ne_dir (hheld p hp e he),
    fun p hp e he => h.page_ne_table (hheld p hp e he)⟩

theorem deallocuvm_pages (L : Layout) (d : ℕ) (s : Kernel) (hnew : newsz < oldsz)
    (hold : oldsz ≤ kernbase) :
    deallocuvm L d oldsz newsz s =
      removePages L d (pagesBetween newsz oldsz) s >>= fun s => .ok (newsz, s) := by
  have hsmall : newsz < 2147483648 := by
    dsimp only [kernbase] at hold
    omega
  have hround : pgroundup newsz = 4096 * ((newsz + 4095) / 4096) := pgroundup_eq (by omega)
  have hfirst : pgroundup newsz / pgsize = (newsz + 4095) / 4096 := by
    rw [hround]
    exact Nat.mul_div_cancel_left _ (by decide)
  rw [deallocuvm, if_neg (Nat.not_le.mpr hnew), pagesBetween, hfirst, hround,
    deallocuvmLoop_pages hold (by omega) (by dsimp only [allPages]; omega)]

/-- deallocuvm does what the loop over every page does, in every memory. Each present page of the
range is freed once, its entry is cleared, and no other entry changes. -/
theorem deallocuvm_removes (L : Layout) (d oldsz newsz : ℕ) (s : Kernel) (hnew : newsz < oldsz)
    (hold : oldsz ≤ kernbase) :
    deallocuvm L d oldsz newsz s =
        (removePages L d (pagesBetween newsz oldsz) s >>= fun s => .ok (newsz, s)) ∧
      (Removable L s.mem d (pagesBetween newsz oldsz) →
        ∃ s', deallocuvm L d oldsz newsz s = .ok (newsz, s') ∧
          Removed s.mem s'.mem d (pagesBetween newsz oldsz) ∧
          s'.freelist = (framesOf s.mem d (pagesBetween newsz oldsz)).reverse ++ s.freelist) := by
  have hpages := deallocuvm_pages L d s hnew hold
  refine ⟨hpages, ?_⟩
  intro h
  have hlt : ∀ p ∈ pagesBetween newsz oldsz, p < 1048576 := by
    intro p hp
    have hp' := (mem_pagesFrom.mp hp).2
    dsimp only [kernbase] at hold
    omega
  obtain ⟨s', hrun, hrem, hfree⟩ := removePages_removed h (pagesBetween_nodup _ _) hlt
  exact ⟨s', by rw [hpages, hrun, ok_bind], hrem, hfree⟩

theorem deallocuvm_removes_page :
    ∃ s', deallocuvm sampleLayout 300 4096 0 ⟨onePage, samplePool⟩ = .ok (0, s') ∧
      Removed onePage s'.mem 300 (pagesBetween 0 4096) ∧
      s'.freelist = (framesOf onePage 300 (pagesBetween 0 4096)).reverse ++ samplePool :=
  (deallocuvm_removes sampleLayout 300 4096 0 ⟨onePage, samplePool⟩ (by decide) (by decide)).2
    (Space.removable onePage_space (by decide) 0)

end PageRemovals
