import Mathlib.Data.List.Perm.Basic

/-!
# Circular singly linked lists

A list whose elements lead to one another and whose last element leads back to the first can be
entered at any element. A search that follows the links finds what is in the list.
-/
namespace CircularLists

variable {α : Type*}

/-- Each element leads to the next, and the last one to `z`. -/
def Leads (next : α → α) : List α → α → Prop
  | [], _ => True
  | a :: l, z => next a = l.headD z ∧ Leads next l z

/-- The first element from `x` on at which to stop, with at most `n` elements looked at. -/
def seek (stop : α → Prop) [DecidablePred stop] (next : α → α) : ℕ → α → Option α
  | 0, _ => none
  | n + 1, x => if stop x then some x else seek stop next n (next x)

variable {next next' : α → α} {a x z : α} {l r : List α}

theorem headD_append (l r : List α) (z : α) : (l ++ r).headD z = l.headD (r.headD z) := by
  cases l with
  | nil => rfl
  | cons a l => rfl

theorem leads_append : Leads next (l ++ r) z ↔ Leads next l (r.headD z) ∧ Leads next r z := by
  induction l with
  | nil => exact ⟨fun h => ⟨trivial, h⟩, fun h => h.2⟩
  | cons a l ih =>
    rw [List.cons_append, Leads, Leads, ih, headD_append, and_assoc]

theorem Leads.congr (h : Leads next l z) (hnext : ∀ a ∈ l, next' a = next a) :
    Leads next' l z := by
  induction l with
  | nil => trivial
  | cons a l ih =>
    obtain ⟨ha, hl⟩ := List.forall_mem_cons.mp hnext
    exact ⟨ha.trans h.1, ih h.2 hl⟩

/-- A circle may be entered anywhere. -/
theorem Leads.rotate (h : Leads next (a :: l) a) (hx : x ∈ a :: l) :
    ∃ r, Leads next (x :: r) x ∧ (x :: r).Perm (a :: l) := by
  obtain ⟨s, t, hst⟩ := List.append_of_mem hx
  have hfirst : s.headD x = a := by
    cases s with
    | nil => exact (List.cons.inj hst).1.symm
    | cons b s => exact (List.cons.inj hst).1.symm
  rw [hst] at h ⊢
  obtain ⟨hs, ht⟩ := leads_append.mp h
  have hperm : (x :: t ++ s).Perm (s ++ x :: t) := List.perm_append_comm
  refine ⟨t ++ s, ?_, hperm⟩
  have hcircle : Leads next (x :: t ++ s) x := by
    rw [leads_append, hfirst]
    exact ⟨ht, hs⟩
  exact hcircle

theorem exists_first {P : α → Prop} (h : ∃ a ∈ l, P a) :
    ∃ s x t, l = s ++ x :: t ∧ P x ∧ ∀ a ∈ s, ¬P a := by
  induction l with
  | nil =>
    obtain ⟨a, ha, -⟩ := h
    cases ha
  | cons b l ih =>
    by_cases hb : P b
    · exact ⟨[], b, l, rfl, hb, fun a ha => absurd ha List.not_mem_nil⟩
    · have hrest : ∃ a ∈ l, P a := by
        obtain ⟨a, ha, hP⟩ := h
        rcases List.mem_cons.mp ha with rfl | ha
        · exact absurd hP hb
        · exact ⟨a, ha, hP⟩
      obtain ⟨s, x, t, rfl, hx, hs⟩ := ih hrest
      exact ⟨b :: s, x, t, rfl, hx, List.forall_mem_cons.mpr ⟨hb, hs⟩⟩

/-- The induction is on the elements still ahead. -/
theorem seek_leads (stop : α → Prop) [DecidablePred stop] {n : ℕ} (h : Leads next (x :: l) z)
    (hstop : ∃ y ∈ x :: l, stop y) (hn : l.length < n) :
    ∃ y ∈ x :: l, stop y ∧ seek stop next n x = some y := by
  induction l generalizing x n with
  | nil =>
    obtain ⟨y, hy, hs⟩ := hstop
    obtain rfl := List.mem_singleton.mp hy
    obtain ⟨n, rfl⟩ := Nat.exists_eq_succ_of_ne_zero (Nat.ne_zero_of_lt hn)
    exact ⟨y, hy, hs, if_pos hs⟩
  | cons b l ih =>
    obtain ⟨n, rfl⟩ := Nat.exists_eq_succ_of_ne_zero (Nat.ne_zero_of_lt hn)
    by_cases hx : stop x
    · exact ⟨x, List.mem_cons_self, hx, if_pos hx⟩
    · obtain ⟨hnext, hrest⟩ := h
      change next x = b at hnext
      have hahead : ∃ y ∈ b :: l, stop y := by
        obtain ⟨y, hy, hs⟩ := hstop
        rcases List.mem_cons.mp hy with rfl | hy
        · exact absurd hs hx
        · exact ⟨y, hy, hs⟩
      obtain ⟨y, hy, hs, hseek⟩ := ih hrest hahead (Nat.lt_of_succ_lt_succ hn)
      refine ⟨y, List.mem_cons_of_mem _ hy, hs, ?_⟩
      rw [seek, if_neg hx, hnext]
      exact hseek

/-- From anywhere in a circle the search finds an element to stop at, if there is one. -/
theorem Leads.seek (h : Leads next (a :: l) a) (stop : α → Prop) [DecidablePred stop]
    (hx : x ∈ a :: l) (hstop : ∃ y ∈ a :: l, stop y) {n : ℕ} (hn : (a :: l).length ≤ n) :
    ∃ y ∈ a :: l, stop y ∧ CircularLists.seek stop next n x = some y := by
  obtain ⟨r, hr, hperm⟩ := h.rotate hx
  have hlength := hperm.length_eq
  rw [List.length_cons] at hlength
  have hstop' : ∃ y ∈ x :: r, stop y := by
    obtain ⟨y, hy, hs⟩ := hstop
    exact ⟨y, hperm.mem_iff.mpr hy, hs⟩
  obtain ⟨y, hy, hs, hseek⟩ := seek_leads (n := n) stop hr hstop' (by omega)
  exact ⟨y, hperm.mem_iff.mp hy, hs, hseek⟩

end CircularLists
