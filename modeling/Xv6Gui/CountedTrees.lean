import Mathlib.Algebra.BigOperators.Group.Finset.Piecewise
import Mathlib.Algebra.Order.BigOperators.Group.Finset
import Mathlib.Data.Multiset.Count

/-!
# Trees that count the names of their nodes

Inner nodes name their parent and, with multiplicity, their children; a child may be a leaf and
then be named from several places. Counted are the times a node is named, by its parent or as
a parent. A leaf or an empty inner node can be added and dropped again, and each changes the
counts of the two nodes involved only.
-/
namespace CountedTrees

structure Tree (α : Type*) where
  live : Finset α
  up : α → α
  kids : α → Multiset α

variable {α : Type*} [DecidableEq α] {t t' : Tree α} {root d i j c : α}

inductive Reaches (t : Tree α) (root : α) : α → Prop where
  | root : Reaches t root root
  | kid {d c : α} : Reaches t root d → d ∈ t.live → c ∈ t.kids d → Reaches t root c

/-- Every inner node but the root has one name, from its parent, and hangs on the root. -/
structure Rooted (t : Tree α) (root : α) : Prop where
  root_live : root ∈ t.live
  up_root : t.up root = root
  up_live : ∀ d ∈ t.live, t.up d ∈ t.live
  kid : ∀ d ∈ t.live, ∀ c ∈ t.live, c ∈ t.kids d → c ≠ root ∧ t.up c = d
  once : ∀ c ∈ t.live, c ≠ root → (t.kids (t.up c)).count c = 1
  reach : ∀ d ∈ t.live, Reaches t root d

/-- How often `i` is named from `d`. -/
def Tree.names (t : Tree α) (d i : α) : ℕ := (if t.up d = i then 1 else 0) + (t.kids d).count i

def Tree.links (t : Tree α) (i : α) : ℕ := ∑ d ∈ t.live, t.names d i

/-- `t'` is `t` with one more name for `i`, in `d`. -/
structure AddsLeaf (t t' : Tree α) (d i : α) : Prop where
  live : t'.live = t.live
  parent : d ∈ t.live
  up : ∀ e ∈ t.live, t'.up e = t.up e
  kids : ∀ e ∈ t.live, t'.kids e = if e = d then i ::ₘ t.kids e else t.kids e

/-- `t'` is `t` with the new inner node `i` under `d`. -/
structure AddsNode (t t' : Tree α) (d i : α) : Prop where
  live : t'.live = insert i t.live
  fresh : i ∉ t.live
  parent : d ∈ t.live
  up : ∀ e ∈ t.live, t'.up e = t.up e
  up_self : t'.up i = d
  kids : ∀ e ∈ t.live, t'.kids e = if e = d then i ::ₘ t.kids e else t.kids e
  kids_self : t'.kids i = 0

/-- The trees differ at most away from their inner nodes. -/
structure Agrees (t t' : Tree α) : Prop where
  live : t'.live = t.live
  up : ∀ e ∈ t.live, t'.up e = t.up e
  kids : ∀ e ∈ t.live, t'.kids e = t.kids e

omit [DecidableEq α] in
theorem Reaches.mono (hlive : t.live ⊆ t'.live)
    (hkids : ∀ d ∈ t.live, ∀ c ∈ t.kids d, c ∈ t'.kids d) (h : Reaches t root c) :
    Reaches t' root c := by
  induction h with
  | root => exact .root
  | kid _ hd hc ih => exact .kid ih (hlive hd) (hkids _ hd _ hc)

theorem Agrees.links (h : Agrees t t') (j : α) : t'.links j = t.links j := by
  simp only [Tree.links, h.live]
  refine Finset.sum_congr rfl fun e he => ?_
  simp only [Tree.names, h.up e he, h.kids e he]

theorem Agrees.rooted (h : Agrees t t') (hr : Rooted t root) : Rooted t' root := by
  refine ⟨?_, ?_, ?_, ?_, ?_, ?_⟩
  · rw [h.live]
    exact hr.root_live
  · rw [h.up root hr.root_live]
    exact hr.up_root
  · intro d hd
    rw [h.live] at hd ⊢
    rw [h.up d hd]
    exact hr.up_live d hd
  · intro d hd c hc hk
    rw [h.live] at hd hc
    rw [h.kids d hd] at hk
    rw [h.up c hc]
    exact hr.kid d hd c hc hk
  · intro c hc hne
    rw [h.live] at hc
    rw [h.up c hc, h.kids _ (hr.up_live c hc)]
    exact hr.once c hc hne
  · intro d hd
    rw [h.live] at hd
    exact (hr.reach d hd).mono h.live.ge fun e he c hc => by rwa [h.kids e he]

theorem links_of_kid (hd : d ∈ t.live) (hi : i ∈ t.kids d) : 0 < t.links i := by
  have hname : 0 < t.names d i :=
    Nat.add_pos_right _ (Multiset.count_pos.mpr hi)
  exact hname.trans_le (Finset.single_le_sum (f := fun e => t.names e i)
    (fun _ _ => Nat.zero_le _) hd)

theorem links_of_up (hd : d ∈ t.live) (hi : t.up d = i) : 0 < t.links i := by
  have hname : 0 < t.names d i := by
    rw [Tree.names, if_pos hi]
    exact Nat.add_pos_left Nat.one_pos _
  exact hname.trans_le (Finset.single_le_sum (f := fun e => t.names e i)
    (fun _ _ => Nat.zero_le _) hd)

theorem named_of_links (h : 0 < t.links i) : ∃ d ∈ t.live, t.up d = i ∨ i ∈ t.kids d := by
  obtain ⟨d, hd, hn⟩ := Finset.exists_ne_zero_of_sum_ne_zero h.ne'
  refine ⟨d, hd, ?_⟩
  by_cases hup : t.up d = i
  · exact Or.inl hup
  · rw [Tree.names, if_neg hup, Nat.zero_add] at hn
    exact Or.inr (Multiset.count_ne_zero.mp hn)

/-- An inner node is named: the root by itself, the others by their parent. -/
theorem Rooted.links_pos (h : Rooted t root) (hd : d ∈ t.live) : 0 < t.links d := by
  by_cases hroot : d = root
  · rw [hroot]
    exact links_of_up h.root_live h.up_root
  · apply links_of_kid (h.up_live d hd)
    apply Multiset.count_pos.mp
    rw [h.once d hd hroot]
    exact Nat.one_pos

theorem sum_parent (hd : d ∈ t.live) (n : ℕ) :
    ∑ e ∈ t.live, (if e = d then n else 0) = n := by
  rw [Finset.sum_ite_eq' t.live d, if_pos hd]

theorem names_parent (hkids : ∀ e ∈ t.live, t'.kids e = if e = d then i ::ₘ t.kids e else t.kids e)
    (hup : ∀ e ∈ t.live, t'.up e = t.up e) {e : α} (he : e ∈ t.live) (j : α) :
    t'.names e j = t.names e j + if e = d then (if i = j then 1 else 0) else 0 := by
  simp only [Tree.names, hup e he, hkids e he]
  by_cases hed : e = d
  · rw [if_pos hed, if_pos hed, Multiset.count_cons, Nat.add_assoc]
    simp only [eq_comm (a := j)]
  · rw [if_neg hed, if_neg hed, Nat.add_zero]

theorem AddsLeaf.links (h : AddsLeaf t t' d i) (j : α) :
    t'.links j = t.links j + if i = j then 1 else 0 := by
  simp only [Tree.links, h.live]
  rw [Finset.sum_congr rfl fun e he => names_parent h.kids h.up he j, Finset.sum_add_distrib,
    sum_parent h.parent]

theorem AddsNode.links (h : AddsNode t t' d i) (j : α) :
    t'.links j = t.links j + (if i = j then 1 else 0) + if d = j then 1 else 0 := by
  simp only [Tree.links, h.live]
  rw [Finset.sum_insert h.fresh, Finset.sum_congr rfl fun e he => names_parent h.kids h.up he j,
    Finset.sum_add_distrib, sum_parent h.parent]
  simp only [Tree.names, h.up_self, h.kids_self, Multiset.count_zero]
  omega

theorem AddsLeaf.kids_of_ne (h : AddsLeaf t t' d i) {e : α} (he : e ∈ t.live) (hc : c ≠ i) :
    (t'.kids e).count c = (t.kids e).count c := by
  rw [h.kids e he]
  split
  · rw [Multiset.count_cons_of_ne hc]
  · rfl

theorem AddsNode.kids_of_ne (h : AddsNode t t' d i) {e : α} (he : e ∈ t.live) (hc : c ≠ i) :
    (t'.kids e).count c = (t.kids e).count c := by
  rw [h.kids e he]
  split
  · rw [Multiset.count_cons_of_ne hc]
  · rfl

theorem mem_kids_iff {e : α} (h : (t'.kids e).count c = (t.kids e).count c) :
    c ∈ t'.kids e ↔ c ∈ t.kids e := by
  rw [← Multiset.count_pos, ← Multiset.count_pos, h]

/-- A leaf that comes or goes leaves the inner nodes where they hang. -/
theorem AddsLeaf.rooted_iff (h : AddsLeaf t t' d i) (hi : i ∉ t.live) :
    Rooted t' root ↔ Rooted t root := by
  have hne : ∀ {c}, c ∈ t.live → c ≠ i := by
    rintro c hc rfl
    exact hi hc
  have hkid : ∀ {e c}, e ∈ t.live → c ∈ t.live → (c ∈ t'.kids e ↔ c ∈ t.kids e) :=
    fun he hc => mem_kids_iff (h.kids_of_ne he (hne hc))
  constructor
  · intro hr
    have hup : ∀ e ∈ t.live, t.up e ∈ t.live := by
      intro e he
      rw [← h.up e he, ← h.live]
      exact hr.up_live e (h.live ▸ he)
    refine ⟨h.live ▸ hr.root_live, ?_, hup, ?_, ?_, ?_⟩
    · rw [← h.up root (h.live ▸ hr.root_live)]
      exact hr.up_root
    · intro e he c hc hk
      rw [← h.up c hc]
      exact hr.kid e (h.live ▸ he) c (h.live ▸ hc) ((hkid he hc).mpr hk)
    · intro c hc hroot
      rw [← h.kids_of_ne (hup c hc) (hne hc), ← h.up c hc]
      exact hr.once c (h.live ▸ hc) hroot
    · have hreach : ∀ c, Reaches t' root c → c ∈ t.live → Reaches t root c := by
        intro c hc
        induction hc with
        | root => exact fun _ => .root
        | kid _ hd hk ih =>
          intro hlive
          rw [h.live] at hd
          exact .kid (ih hd) hd ((hkid hd hlive).mp hk)
      exact fun e he => hreach e (hr.reach e (h.live ▸ he)) he
  · intro hr
    refine ⟨h.live ▸ hr.root_live, ?_, ?_, ?_, ?_, ?_⟩
    · rw [h.up root hr.root_live]
      exact hr.up_root
    · intro e he
      rw [h.live] at he ⊢
      rw [h.up e he]
      exact hr.up_live e he
    · intro e he c hc hk
      rw [h.live] at he hc
      rw [h.up c hc]
      exact hr.kid e he c hc ((hkid he hc).mp hk)
    · intro c hc hroot
      rw [h.live] at hc
      rw [h.up c hc, h.kids_of_ne (hr.up_live c hc) (hne hc)]
      exact hr.once c hc hroot
    · intro e he
      rw [h.live] at he
      refine (hr.reach e he).mono h.live.ge fun e he c hc => ?_
      rw [h.kids e he]
      split
      · exact Multiset.mem_cons_of_mem hc
      · exact hc

/-- A new inner node that nothing names yet hangs where it is put. -/
theorem AddsNode.rooted (h : AddsNode t t' d i) (hr : Rooted t root)
    (hi : ∀ e ∈ t.live, i ∉ t.kids e) : Rooted t' root := by
  have hne : ∀ {c}, c ∈ t.live → c ≠ i := by
    rintro c hc rfl
    exact h.fresh hc
  have hlive : ∀ {c}, c ∈ t.live → c ∈ t'.live := fun hc => h.live ▸ Finset.mem_insert_of_mem hc
  have hcases : ∀ {c}, c ∈ t'.live → c = i ∨ c ∈ t.live := fun hc =>
    Finset.mem_insert.mp (h.live ▸ hc)
  have hnew : i ∈ t'.kids d := by
    rw [h.kids d h.parent, if_pos rfl]
    exact Multiset.mem_cons_self i _
  refine ⟨hlive hr.root_live, ?_, ?_, ?_, ?_, ?_⟩
  · rw [h.up root hr.root_live]
    exact hr.up_root
  · intro e he
    rcases hcases he with rfl | he
    · rw [h.up_self]
      exact hlive h.parent
    · rw [h.up e he]
      exact hlive (hr.up_live e he)
  · intro e he c hc hk
    rcases hcases he with rfl | he
    · rw [h.kids_self] at hk
      exact absurd hk (Multiset.notMem_zero c)
    · rcases hcases hc with rfl | hc
      · refine ⟨?_, ?_⟩
        · rintro rfl
          exact h.fresh hr.root_live
        · rw [h.up_self]
          rw [h.kids e he] at hk
          split at hk
          · next hed => exact hed.symm
          · exact absurd hk (hi e he)
      · rw [h.up c hc]
        exact hr.kid e he c hc ((mem_kids_iff (h.kids_of_ne he (hne hc))).mp hk)
  · intro c hc hroot
    rcases hcases hc with rfl | hc
    · rw [h.up_self, h.kids d h.parent, if_pos rfl, Multiset.count_cons_self,
        Multiset.count_eq_zero.mpr (hi d h.parent)]
    · rw [h.up c hc, h.kids_of_ne (hr.up_live c hc) (hne hc)]
      exact hr.once c hc hroot
  · have hreach : ∀ e ∈ t.live, Reaches t' root e := by
      intro e he
      refine (hr.reach e he).mono (fun _ => hlive) fun e he c hc => ?_
      rw [h.kids e he]
      split
      · exact Multiset.mem_cons_of_mem hc
      · exact hc
    intro e he
    rcases hcases he with rfl | he
    · exact .kid (hreach d h.parent) (hlive h.parent) hnew
    · exact hreach e he

/-- An inner node without children can be taken away again. -/
theorem AddsNode.rooted_drop (h : AddsNode t t' d i) (hr : Rooted t' root) (hroot : i ≠ root) :
    Rooted t root := by
  have hne : ∀ {c}, c ∈ t.live → c ≠ i := by
    rintro c hc rfl
    exact h.fresh hc
  have hlive : ∀ {c}, c ∈ t.live → c ∈ t'.live := fun hc => h.live ▸ Finset.mem_insert_of_mem hc
  have hback : ∀ {c}, c ∈ t'.live → c ≠ i → c ∈ t.live := fun hc hn =>
    (Finset.mem_insert.mp (h.live ▸ hc)).resolve_left hn
  have hrootLive : root ∈ t.live := hback hr.root_live (Ne.symm hroot)
  have hkid : ∀ {e c}, e ∈ t.live → c ∈ t.live → (c ∈ t'.kids e ↔ c ∈ t.kids e) :=
    fun he hc => mem_kids_iff (h.kids_of_ne he (hne hc))
  have hup : ∀ e ∈ t.live, t.up e ∈ t.live := by
    intro e he
    rw [← h.up e he]
    apply hback (hr.up_live e (hlive he))
    intro hei
    by_cases her : e = root
    · rw [her, hr.up_root] at hei
      exact hroot hei.symm
    · have honce := hr.once e (hlive he) her
      rw [hei, h.kids_self] at honce
      exact nomatch honce
  refine ⟨hrootLive, ?_, hup, ?_, ?_, ?_⟩
  · rw [← h.up root hrootLive]
    exact hr.up_root
  · intro e he c hc hk
    rw [← h.up c hc]
    exact hr.kid e (hlive he) c (hlive hc) ((hkid he hc).mpr hk)
  · intro c hc hcr
    rw [← h.kids_of_ne (hup c hc) (hne hc), ← h.up c hc]
    exact hr.once c (hlive hc) hcr
  · have hreach : ∀ c, Reaches t' root c → c ∈ t.live → Reaches t root c := by
      intro c hc
      induction hc with
      | root => exact fun _ => .root
      | @kid e c _ he hk ih =>
        intro hc
        have hei : e ≠ i := by
          rintro rfl
          rw [h.kids_self] at hk
          exact absurd hk (Multiset.notMem_zero c)
        exact .kid (ih (hback he hei)) (hback he hei) ((hkid (hback he hei) hc).mp hk)
    exact fun e he => hreach e (hr.reach e (hlive he)) he

/-- The tree without its inner node `i` and the name that `d` has for it. -/
def Tree.drop (t : Tree α) (d i : α) : Tree α where
  live := t.live.erase i
  up := t.up
  kids e := if e = d then (t.kids e).erase i else t.kids e

theorem Rooted.drop (h : Rooted t root) (hd : d ∈ t.live) (hi : i ∈ t.live) (hk : i ∈ t.kids d)
    (hempty : t.kids i = 0) : AddsNode (t.drop d i) t d i := by
  have hdi : d ≠ i := by
    rintro rfl
    rw [hempty] at hk
    exact absurd hk (Multiset.notMem_zero d)
  refine ⟨(Finset.insert_erase hi).symm, Finset.notMem_erase i _, Finset.mem_erase.mpr ⟨hdi, hd⟩,
    fun _ _ => rfl, (h.kid d hd i hi hk).2, ?_, hempty⟩
  intro e _
  simp only [Tree.drop]
  split
  · next hed =>
    subst hed
    exact (Multiset.cons_erase hk).symm
  · rfl

/-- The parent of an empty inner node keeps a name when the node is dropped. -/
theorem Rooted.links_parent (h : Rooted t root) (hd : d ∈ t.live) (hi : i ∈ t.live)
    (hk : i ∈ t.kids d) (hempty : t.kids i = 0) : 1 < t.links d := by
  have hadd := h.drop hd hi hk hempty
  have hpos := (hadd.rooted_drop h (h.kid d hd i hi hk).1).links_pos hadd.parent
  have hne : i ≠ d := by
    rintro rfl
    exact hadd.fresh hadd.parent
  have hlinks := hadd.links d
  rw [if_neg hne, if_pos rfl] at hlinks
  omega

/-- An empty inner node is named once, by its parent. -/
theorem Rooted.links_empty (h : Rooted t root) (hd : d ∈ t.live) (hi : i ∈ t.live)
    (hk : i ∈ t.kids d) (hempty : t.kids i = 0) : t.links i = 1 := by
  have hadd := h.drop hd hi hk hempty
  have hkid := h.kid d hd i hi hk
  have hrooted := hadd.rooted_drop h hkid.1
  have hzero : (t.drop d i).links i = 0 := by
    apply Nat.eq_zero_of_not_pos
    intro hpos
    obtain ⟨e, he, hup | hmem⟩ := named_of_links hpos
    · exact hadd.fresh (hup ▸ hrooted.up_live e he)
    · have he' : e ∈ t.live := Finset.mem_of_mem_erase he
      have hmem' : i ∈ t.kids e := by
        rw [hadd.kids e he]
        split
        · exact Multiset.mem_cons_self i _
        · exact hmem
      have hed : e = d := (h.kid e he' i hi hmem').2.symm.trans hkid.2
      have honce := h.once i hi hkid.1
      rw [hkid.2, hadd.kids d hadd.parent, if_pos rfl, Multiset.count_cons_self] at honce
      have hcount := Multiset.count_pos.mpr (hed ▸ hmem)
      omega
  have hdi : d ≠ i := by
    rintro rfl
    exact hadd.fresh hadd.parent
  rw [hadd.links i, hzero, if_pos rfl, if_neg hdi]

end CountedTrees
