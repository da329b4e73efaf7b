import Xv6Gui.PageViews
import Xv6Gui.Ledgers

/-!
# Which page an address space holds

An address space holds its directory, its tables and the pages of its user part, each under a key
of its own, and none of them is free. What an allocation or a mapping does to memory is what it
does to this ledger: a new table or page is claimed from the free pages.
-/
namespace PageOwnership

open WordMemory PageEntries PageTables PageViews Ledgers

/-- The pages below KERNBASE. -/
abbrev userPages : ℕ := 524288

inductive Key where
  | dir
  | table (i : ℕ)
  | page (p : ℕ)
  deriving DecidableEq, Repr

def heldBy (mem : Pages) (d : ℕ) : Key → Option ℕ
  | .dir => some d
  | .table i => tableOf mem d i
  | .page p => if p < userPages then (pageOf mem d p).map frame else none

/-- The free pages are those of `pool`: the free list, and what has been taken from it but is
not in the address space yet. -/
def ledger (pool : List ℕ) (mem : Pages) (d : ℕ) : Ledger Key ℕ := ⟨heldBy mem d, {f | f ∉ pool}⟩

structure Space (L : Layout) (pool : List ℕ) (mem : Pages) (d : ℕ) : Prop where
  sound : Sound ∅ (ledger pool mem d)
  valid : ∀ k f, heldBy mem d k = some f → L.Valid f
  free_valid : ∀ f ∈ pool, L.Valid f
  nodup : pool.Nodup
  kernel : ∀ p e, userPages ≤ p → pageOf mem d p = some e → ¬User e

/-- Free pages have been added to the space, and its directory and tables are the only other
pages that have been written. -/
structure Grown (L : Layout) (pool : List ℕ) (mem : Pages) (pool' : List ℕ) (mem' : Pages)
    (d : ℕ) : Prop where
  grows : Grows (ledger pool mem d) (ledger pool' mem' d)
  space : Space L pool' mem' d
  kept : ∀ g, g ∉ pool → g ≠ d → (∀ i, tableOf mem d i ≠ some g) → mem' g = mem g

variable {L : Layout} {pool pool' pool'' : List ℕ} {mem mem' mem'' : Pages} {d f g i p t : ℕ}
  {v e : Word} {k : Key} {s : Kernel}

theorem heldBy_page (hp : p < userPages) (he : pageOf mem d p = some e) :
    heldBy mem d (.page p) = some (frame e) := by
  rw [heldBy, if_pos hp, he, Option.map_some]

theorem heldBy_page_none (he : pageOf mem d p = none) : heldBy mem d (.page p) = none := by
  rw [heldBy, he, Option.map_none, ite_self]

theorem valid_lt (h : L.Valid f) : f < 1048576 := h.2.trans (by decide)

section Congruence

variable (hd : mem' d = mem d) (ht : ∀ i t, tableOf mem d i = some t → mem' t = mem t)

include hd ht

theorem pages_congr : pageOf mem' d = pageOf mem d := by
  funext p
  have htables := tableOf_congr hd
  exact pageOf_congr (congrFun htables _) (ht _)

theorem heldBy_congr : heldBy mem' d = heldBy mem d := by
  funext k
  cases k with
  | dir => rfl
  | table i => rw [heldBy, heldBy, tableOf_congr hd]
  | page p => rw [heldBy, heldBy, pages_congr hd ht]

end Congruence

namespace Space

theorem not_free (h : Space L pool mem d) (hk : heldBy mem d k = some f) : f ∉ pool :=
  (h.sound.held_used k f hk).1

theorem apart (h : Space L pool mem d) : Apart mem d where
  ne_dir i t ht := by
    rintro rfl
    cases h.sound.once (.table i) .dir t ht rfl
  once i j t hi hj := by
    cases h.sound.once (.table i) (.table j) t hi hj
    rfl

theorem dir_not_free (h : Space L pool mem d) : d ∉ pool := h.not_free (k := .dir) rfl

theorem table_not_free (h : Space L pool mem d) (ht : tableOf mem d i = some t) : t ∉ pool :=
  h.not_free (k := .table i) ht

theorem page_ne_dir (h : Space L pool mem d) (hk : heldBy mem d (.page p) = some f) : f ≠ d := by
  rintro rfl
  cases h.sound.once (.page p) .dir f hk rfl

theorem page_ne_table (h : Space L pool mem d) (hk : heldBy mem d (.page p) = some f) (i : ℕ) :
    tableOf mem d i ≠ some f := by
  intro ht
  cases h.sound.once (.page p) (.table i) f hk ht

/-- The pages that are claimed were free. -/
theorem grows (h : Space L pool mem d) (hg : Grows (ledger pool mem d) (ledger pool' mem' d))
    (hnodup : pool'.Nodup) (hkernel : ∀ p e, userPages ≤ p → pageOf mem' d p = some e → ¬User e) :
    Space L pool' mem' d := by
  have hfree : ∀ f ∈ pool', f ∈ pool := by
    intro f hf
    by_contra hn
    exact hg.used_mono hn hf
  constructor
  case sound => exact h.sound.grows hg
  case valid =>
    intro k f hk
    cases hl : heldBy mem d k with
    | none =>
      have hpool : f ∈ pool := by
        by_contra hn
        exact hg.fresh k f hl hk hn
      exact h.free_valid f hpool
    | some f' =>
      have hkept := hg.kept k f' hl
      change heldBy mem' d k = some f' at hkept
      rw [hk] at hkept
      obtain rfl := Option.some.inj hkept
      exact h.valid k f hl
  case free_valid => exact fun f hf => h.free_valid f (hfree f hf)
  case nodup => exact hnodup
  case kernel => exact hkernel

/-- A space that nobody writes stays one while pages leave the pool. -/
theorem shared (h : Space L pool mem d) (hsub : ∀ f ∈ pool', f ∈ pool) (hnodup : pool'.Nodup)
    (hkept : ∀ g, g ∉ pool → mem' g = mem g) : Space L pool' mem' d := by
  have hd : mem' d = mem d := hkept d h.dir_not_free
  have ht : ∀ i t, tableOf mem d i = some t → mem' t = mem t :=
    fun i t ht => hkept t (h.table_not_free ht)
  have hheld := heldBy_congr hd ht
  constructor
  case sound =>
    constructor
    case reserved_used => exact fun f hf => absurd hf (Set.notMem_empty f)
    case held_used =>
      intro k f hk
      have hk' : heldBy mem d k = some f := by
        rw [← hheld]
        exact hk
      exact ⟨fun hf => h.not_free hk' (hsub f hf), Set.notMem_empty f⟩
    case once =>
      intro k k' f hk hk'
      change heldBy mem' d k = some f at hk
      change heldBy mem' d k' = some f at hk'
      rw [hheld] at hk hk'
      exact h.sound.once k k' f hk hk'
  case valid => exact fun k f hk => h.valid k f (by rw [← hheld, hk])
  case free_valid => exact fun f hf => h.free_valid f (hsub f hf)
  case nodup => exact hnodup
  case kernel => exact fun p e hp he => h.kernel p e hp (by rw [← pages_congr hd ht, he])

end Space

namespace Grown

theorem refl (h : Space L pool mem d) : Grown L pool mem pool mem d :=
  ⟨Grows.refl _, h, fun _ _ _ _ => rfl⟩

theorem free_mono (h : Grown L pool mem pool' mem' d) (hf : f ∈ pool') : f ∈ pool := by
  by_contra hn
  exact h.grows.used_mono hn hf

theorem table_of (h : Grown L pool mem pool' mem' d) (ht : tableOf mem' d i = some t) :
    tableOf mem d i = some t ∨ t ∈ pool := by
  cases hi : tableOf mem d i with
  | none =>
    right
    by_contra hn
    exact h.grows.fresh (.table i) t hi ht hn
  | some t' =>
    have hkept := h.grows.kept (.table i) t' hi
    change tableOf mem' d i = some t' at hkept
    rw [ht] at hkept
    exact .inl hkept.symm

theorem trans (h : Grown L pool mem pool' mem' d) (h' : Grown L pool' mem' pool'' mem'' d) :
    Grown L pool mem pool'' mem'' d := by
  refine ⟨h.grows.trans h'.grows, h'.space, ?_⟩
  intro g hg hd ht
  have hg' : g ∉ pool' := fun hf => hg (h.free_mono hf)
  have ht' : ∀ i, tableOf mem' d i ≠ some g := by
    intro i hi
    rcases h.table_of hi with hi | hf
    · exact ht i hi
    · exact hg hf
  rw [h'.kept g hg' hd ht', h.kept g hg hd ht]

end Grown

theorem tableOf_zero (hzero : mem d = fun _ => 0) (i : ℕ) : tableOf mem d i = none := by
  have hentry : entry mem d i = 0 := by
    rw [entry, hzero, word]
    decide
  rw [tableOf, hentry]
  exact if_neg fun h => not_present_zero h.2

theorem heldBy_zero (hzero : mem d = fun _ => 0) (hk : heldBy mem d k = some f) :
    k = .dir ∧ f = d := by
  cases k with
  | dir => exact ⟨rfl, (Option.some.inj hk).symm⟩
  | table i =>
    rw [heldBy, tableOf_zero hzero] at hk
    cases hk
  | page p =>
    rw [heldBy_page_none (pageOf_none (tableOf_zero hzero _))] at hk
    cases hk

/-- A directory that has just been cleared. -/
theorem Space.cleared (hd : L.Valid d) (hpool : ∀ f ∈ pool, L.Valid f) (hnodup : (d :: pool).Nodup)
    (hzero : mem d = fun _ => 0) : Space L pool mem d := by
  constructor
  case sound =>
    constructor
    case reserved_used => exact fun f hf => absurd hf (Set.notMem_empty f)
    case held_used =>
      intro k f hk
      rw [(heldBy_zero hzero hk).2]
      exact ⟨(List.nodup_cons.mp hnodup).1, Set.notMem_empty d⟩
    case once =>
      exact fun k k' f hk hk' => (heldBy_zero hzero hk).1.trans (heldBy_zero hzero hk').1.symm
  case valid =>
    intro k f hk
    rw [(heldBy_zero hzero hk).2]
    exact hd
  case free_valid => exact hpool
  case nodup => exact (List.nodup_cons.mp hnodup).2
  case kernel =>
    intro p e _ he
    rw [pageOf_none (tableOf_zero hzero _)] at he
    cases he

/-- What is written to a free page is not seen in the space. -/
theorem Space.writeFree (h : Space L pool mem d) (hf : f ∈ pool) (m : Memory) :
    Grown L pool mem pool (Function.update mem f m) d ∧
      pageOf (Function.update mem f m) d = pageOf mem d := by
  have hkept : ∀ g, g ∉ pool → Function.update mem f m g = mem g := by
    intro g hg
    have hne : g ≠ f := by
      rintro rfl
      exact hg hf
    exact Function.update_of_ne hne _ _
  have hd := hkept d h.dir_not_free
  have ht : ∀ i t, tableOf mem d i = some t → Function.update mem f m t = mem t :=
    fun i t ht => hkept t (h.table_not_free ht)
  have hledger : ledger pool (Function.update mem f m) d = ledger pool mem d := by
    rw [ledger, heldBy_congr hd ht, ledger]
  refine ⟨⟨?_, h.shared (fun _ hg => hg) h.nodup hkept, fun g hg _ _ => hkept g hg⟩,
    pages_congr hd ht⟩
  rw [hledger]
  exact Grows.refl _

theorem heldBy_setEntry (h : Apart mem d) (ht : tableOf mem d (p / 1024) = some t)
    (hp : p < userPages) (v : Word) :
    heldBy (setEntry mem t (p % 1024) v) d =
      Function.update (heldBy mem d) (.page p) (if Present v then some (frame v) else none) := by
  funext k
  cases k with
  | dir => rw [Function.update_of_ne (by rintro ⟨⟩)]; rfl
  | table j =>
    rw [Function.update_of_ne (by rintro ⟨⟩), heldBy, heldBy,
      tableOf_setEntry (h.ne_dir _ t ht)]
  | page q =>
    rw [heldBy, pageOf_setEntry h ht]
    by_cases hq : q = p
    · rw [if_pos hq, hq, if_pos hp, Function.update_self, apply_ite (Option.map frame),
        Option.map_some, Option.map_none]
    · have hkey : Key.page q ≠ .page p := fun he => hq (Key.page.inj he)
      rw [if_neg hq, Function.update_of_ne hkey, heldBy]

section Claims

variable (h : Space L pool mem d)

include h

/-- The page `f` leaves the pool. -/
theorem Space.claim (hpool : pool.Perm (f :: pool')) (hk : heldBy mem d k = none)
    (hheld : heldBy mem' d = Function.update (heldBy mem d) k (some f)) :
    Grows (ledger pool mem d) (ledger pool' mem' d) := by
  have hnot : f ∉ pool' := (List.nodup_cons.mp (hpool.nodup_iff.mp h.nodup)).1
  have hclaim : ledger pool' mem' d = (ledger pool mem d).claim k f := by
    apply Ledger.ext
    · exact hheld
    · ext g
      have hmem : g ∈ pool ↔ g = f ∨ g ∈ pool' := by rw [hpool.mem_iff, List.mem_cons]
      change g ∉ pool' ↔ g = f ∨ g ∉ pool
      rw [hmem]
      constructor
      case mp =>
        intro hg
        by_cases hgf : g = f
        · exact .inl hgf
        · exact .inr fun hor => hor.elim hgf hg
      case mpr =>
        rintro (rfl | hg)
        · exact hnot
        · exact fun hg' => hg (.inr hg')
  rw [hclaim]
  refine grows_claim hk ?_ fun k' c hc => (h.sound.held_used k' c hc).1
  exact fun hn => hn (hpool.mem_iff.mpr List.mem_cons_self)

theorem Space.newTable (hpool : pool.Perm (f :: pool')) (hi : i < 1024)
    (hnone : tableOf mem d i = none) : Grown L pool mem pool' (withTable mem d i f) d ∧
      pageOf (withTable mem d i f) d = pageOf mem d := by
  have hfree : f ∈ pool := hpool.mem_iff.mpr List.mem_cons_self
  have hf := valid_lt (h.free_valid f hfree)
  have hne : f ≠ d := fun he => h.dir_not_free (he ▸ hfree)
  have hfresh : ∀ j, tableOf mem d j ≠ some f := fun j hj => h.table_not_free hj hfree
  have hpages : pageOf (withTable mem d i f) d = pageOf mem d := by
    funext p
    exact pageOf_withTable hi hf hne h.apart hnone hfresh p
  have hheld : heldBy (withTable mem d i f) d =
      Function.update (heldBy mem d) (.table i) (some f) := by
    funext k
    cases k with
    | dir => rw [Function.update_of_ne (by rintro ⟨⟩)]; rfl
    | page p => rw [Function.update_of_ne (by rintro ⟨⟩), heldBy, heldBy, hpages]
    | table j =>
      rw [heldBy, tableOf_withTable hi hf hne]
      by_cases hj : j = i
      · rw [if_pos hj, hj, Function.update_self]
      · have hkey : Key.table j ≠ .table i := fun he => hj (Key.table.inj he)
        rw [if_neg hj, Function.update_of_ne hkey, heldBy]
  have hgrows := h.claim (k := .table i) hpool hnone hheld
  have hnodup : pool'.Nodup := (List.nodup_cons.mp (hpool.nodup_iff.mp h.nodup)).2
  refine ⟨⟨hgrows, h.grows hgrows hnodup ?_, ?_⟩, hpages⟩
  · intro p e hp he
    exact h.kernel p e hp (by rw [← hpages, he])
  · intro g hg hd _
    exact withTable_of_ne hd (fun he => hg (he ▸ hfree)) i

variable (ht : tableOf mem d (p / 1024) = some t)

include ht

/-- A page of the user part is mapped. -/
theorem Space.mapUser (hpool : pool.Perm (f :: pool')) (hp : p < userPages)
    (hnone : pageOf mem d p = none) (hv : Present v) (hf : frame v = f) :
    Grown L pool mem pool' (setEntry mem t (p % 1024) v) d := by
  have hheld := heldBy_setEntry h.apart ht hp v
  rw [if_pos hv, hf] at hheld
  have hgrows := h.claim hpool (heldBy_page_none hnone) hheld
  have hnodup : pool'.Nodup := (List.nodup_cons.mp (hpool.nodup_iff.mp h.nodup)).2
  refine ⟨hgrows, h.grows hgrows hnodup ?_, ?_⟩
  · intro q e hq he
    rw [pageOf_setEntry h.apart ht, if_neg (by omega)] at he
    exact h.kernel q e hq he
  · intro g _ _ hg
    exact setEntry_of_ne (fun he => hg _ (he ▸ ht)) _ _

/-- A page of the kernel's part is mapped, and the space holds no more for it. -/
theorem Space.mapKernel (hp : userPages ≤ p) (hv : ¬User v) :
    Grown L pool mem pool (setEntry mem t (p % 1024) v) d := by
  have hheld : heldBy (setEntry mem t (p % 1024) v) d = heldBy mem d := by
    funext k
    cases k with
    | dir => rfl
    | table j => rw [heldBy, heldBy, tableOf_setEntry (h.apart.ne_dir _ t ht)]
    | page q =>
      rw [heldBy, heldBy]
      by_cases hq : q < userPages
      · rw [if_pos hq, if_pos hq, pageOf_setEntry h.apart ht, if_neg (by omega)]
      · rw [if_neg hq, if_neg hq]
  have hgrows : Grows (ledger pool mem d) (ledger pool (setEntry mem t (p % 1024) v) d) := by
    rw [ledger, ledger, hheld]
    exact Grows.refl _
  refine ⟨hgrows, h.grows hgrows h.nodup ?_, ?_⟩
  · intro q e hq he
    rw [pageOf_setEntry h.apart ht] at he
    by_cases hqp : q = p
    · rw [if_pos hqp] at he
      by_cases hpres : Present v
      · rw [if_pos hpres] at he
        exact Option.some.inj he ▸ hv
      · rw [if_neg hpres] at he
        cases he
    · rw [if_neg hqp] at he
      exact h.kernel q e hq he
  · intro g _ _ hg
    exact setEntry_of_ne (fun he => hg _ (he ▸ ht)) _ _

end Claims

end PageOwnership
