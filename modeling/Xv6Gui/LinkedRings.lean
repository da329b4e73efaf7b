import Xv6Gui.LinkedSlots

/-!
# Circular doubly linked lists

A ring runs from a sentinel through its slots and back. It is a list with the sentinel for
both end marks, whose head and tail are the links of the sentinel itself, so a splice needs
no case for the ends.
-/
namespace LinkedRings

open LinkedSlots

variable {α : Type*} [DecidableEq α] {sentinel x y : α} {l : List α}

structure Ring (α : Type*) where
  next : α → α
  prev : α → α

def Ring.links (k : Ring α) (sentinel : α) : Links α :=
  ⟨k.next, k.prev, k.next sentinel, k.prev sentinel⟩

/-- The ring runs through exactly the slots of `l`, in this order. -/
def Threads (sentinel : α) (k : Ring α) (l : List α) : Prop := Linked sentinel (k.links sentinel) l

def Ring.unlink (k : Ring α) (x : α) : Ring α :=
  let prev := Function.update k.prev (k.next x) (k.prev x)
  ⟨Function.update k.next (prev x) (k.next x), prev⟩

/-- Link `x` between the sentinel and the first slot. -/
def Ring.pushFront (sentinel : α) (k : Ring α) (x : α) : Ring α :=
  let next := Function.update k.next x (k.next sentinel)
  let prev := Function.update k.prev x sentinel
  ⟨Function.update next sentinel x, Function.update prev (next sentinel) x⟩

variable {k : Ring α}

omit [DecidableEq α] in
theorem threads_nil (hn : k.next sentinel = sentinel) (hp : k.prev sentinel = sentinel) :
    Threads sentinel k [] :=
  ⟨⟨hn, hp⟩, List.nodup_nil, List.not_mem_nil⟩

theorem Threads.unlink (h : Threads sentinel k l) (hx : x ∈ l) :
    Threads sentinel (k.unlink x) (l.erase x) := by
  have hself : k.next x ≠ x := h.next_ne hx
  have hnx : x ≠ sentinel := fun he => h.proper (he ▸ hx)
  have hprev : (Function.update k.prev (k.next x) (k.prev x)) x = k.prev x :=
    Function.update_of_ne hself.symm _ _
  have hhead : k.prev x = sentinel ↔ x = k.next sentinel := h.prev_null hx
  have htail : k.next x = sentinel ↔ x = k.prev sentinel := h.next_null hx
  have hrem := h.remove hx
  have hnull : ∀ {y}, y ∈ l.erase x → y ≠ sentinel := fun hy he =>
    h.proper (he ▸ List.mem_of_mem_erase hy)
  have hnext : (k.unlink x).next = Function.update k.next (k.prev x) (k.next x) := by
    simp only [Ring.unlink, hprev]
  have hback : (k.unlink x).prev = Function.update k.prev (k.next x) (k.prev x) := rfl
  have hfirst : (k.unlink x).next sentinel =
      if x = k.next sentinel then k.next x else k.next sentinel := by
    rw [hnext, Function.update_apply]
    exact if_congr (eq_comm.trans hhead) rfl rfl
  have hlast : (k.unlink x).prev sentinel =
      if x = k.prev sentinel then k.prev x else k.prev sentinel := by
    rw [hback, Function.update_apply]
    exact if_congr (eq_comm.trans htail) rfl rfl
  have hnextof : ∀ y, y ≠ sentinel → (k.unlink x).next y = (if k.prev x = sentinel then k.next
      else Function.update k.next (k.prev x) (k.next x)) y := by
    intro y hy
    rw [hnext]
    split
    · next hf => exact Function.update_of_ne (hf ▸ hy) _ _
    · rfl
  have hbackof : ∀ y, y ≠ sentinel → (k.unlink x).prev y = (if k.next x = sentinel then k.prev
      else Function.update k.prev (k.next x) (k.prev x)) y := by
    intro y hy
    rw [hback]
    split
    · next hf => exact Function.update_of_ne (hf ▸ hy) _ _
    · rfl
  refine ⟨?_, hrem.nodup, hrem.proper⟩
  change Segment (k.unlink x).next (k.unlink x).prev sentinel ((k.unlink x).next sentinel)
    (l.erase x) sentinel ((k.unlink x).prev sentinel)
  rw [hfirst, hlast]
  exact (segment_congr (fun y hy => hnextof y (hnull hy)) fun y hy =>
    hbackof y (hnull hy)).mpr hrem.segment

theorem Threads.pushFront (h : Threads sentinel k l) (hx : x ∉ l) (hs : x ≠ sentinel) :
    Threads sentinel (k.pushFront sentinel x) (x :: l) := by
  have hold : (Function.update k.next x (k.next sentinel)) sentinel = k.next sentinel :=
    Function.update_of_ne hs.symm _ _
  have hfirst : (k.pushFront sentinel x).next sentinel = x := Function.update_self _ _ _
  have hnext : (k.pushFront sentinel x).next x = k.next sentinel := by
    simp only [Ring.pushFront, Function.update_of_ne hs, Function.update_self]
  have hhead : k.next sentinel ≠ x := by
    intro he
    cases l with
    | nil => exact hs (he.symm.trans h.segment.1)
    | cons y ys => exact hx (by simp [← he.symm.trans h.segment.1])
  have hlinks : (k.pushFront sentinel x).prev =
      Function.update (Function.update k.prev x sentinel) (k.next sentinel) x := by
    simp only [Ring.pushFront, hold]
  have hprev : (k.pushFront sentinel x).prev x = sentinel := by
    rw [hlinks, Function.update_of_ne hhead.symm, Function.update_self]
  refine ⟨⟨hfirst, hprev, ?_⟩, List.nodup_cons.mpr ⟨hx, h.nodup⟩, by simp [Ne.symm hs, h.proper]⟩
  simp only [Ring.links, hfirst, hnext]
  cases l with
  | nil =>
    have hempty : k.next sentinel = sentinel := h.segment.1
    exact ⟨hempty, by rw [hlinks, hempty, Function.update_self]⟩
  | cons y ys =>
    obtain ⟨hy, _, hrest⟩ := h.segment
    change k.next sentinel = y at hy
    obtain ⟨hyys, _⟩ := List.nodup_cons.mp h.nodup
    have hys : y ≠ sentinel := fun he => h.proper (by simp [he])
    have hyx : y ≠ x := fun he => hx (by simp [he])
    have hkeep : ∀ {z}, z ≠ x → z ≠ sentinel →
        (k.pushFront sentinel x).next z = k.next z := fun hzx hzs => by
      simp only [Ring.pushFront, Function.update_of_ne hzs, Function.update_of_ne hzx]
    have hback : ∀ {z}, z ≠ x → z ≠ y →
        (k.pushFront sentinel x).prev z = k.prev z := fun hzx hzy => by
      rw [hlinks, hy, Function.update_of_ne hzy, Function.update_of_ne hzx]
    refine ⟨hy, by rw [hlinks, hy, Function.update_self], ?_⟩
    rw [hkeep hyx hys, hback hs.symm hys.symm]
    refine (segment_congr ?_ ?_).mpr hrest
    · intro z hz
      exact hkeep (fun he => hx (by simp [← he, hz])) fun he => h.proper (by simp [← he, hz])
    · intro z hz
      exact hback (fun he => hx (by simp [← he, hz])) fun he => hyys (he ▸ hz)

theorem Threads.moveToFront (h : Threads sentinel k l) (hx : x ∈ l) :
    Threads sentinel ((k.unlink x).pushFront sentinel x) (x :: l.erase x) :=
  (h.unlink hx).pushFront (fun hm => (h.nodup.mem_erase_iff.mp hm).1 rfl)
    fun he => h.proper (he ▸ hx)

omit [DecidableEq α] in
theorem segment_inverse {next prev : α → α} {before first after last : α}
    (h : Segment next prev before first l after last) (hx : x ∈ l) :
    (prev x = before ∧ first = x ∨ next (prev x) = x) ∧
      (next x = after ∧ last = x ∨ prev (next x) = x) := by
  induction l generalizing before first with
  | nil => cases hx
  | cons y ys ih =>
    obtain ⟨rfl, hp, hrest⟩ := h
    rcases List.mem_cons.mp hx with rfl | hx
    · refine ⟨Or.inl ⟨hp, rfl⟩, ?_⟩
      cases ys with
      | nil => exact Or.inl hrest
      | cons z zs =>
        obtain ⟨hz, hpz, _⟩ := hrest
        exact Or.inr (by rw [hz, hpz])
    · obtain ⟨hleft, hright⟩ := ih hrest hx
      refine ⟨Or.inr ?_, hright⟩
      rcases hleft with ⟨hb, hf⟩ | hn
      · rw [hb, hf]
      · exact hn

omit [DecidableEq α] in
/-- Each link is the inverse of the other, the sentinel's included. -/
theorem Threads.inverse (h : Threads sentinel k l) (hx : x = sentinel ∨ x ∈ l) :
    k.next (k.prev x) = x ∧ k.prev (k.next x) = x := by
  rcases hx with rfl | hx
  · cases l with
    | nil =>
      have hn : k.next x = x := h.segment.1
      have hp : k.prev x = x := h.segment.2
      rw [hp, hn, hp]
      exact ⟨rfl, rfl⟩
    | cons y ys =>
      have hlast : k.next (k.prev x) = x := h.segment.next_last (by simp)
      obtain ⟨hy, hp, _⟩ := h.segment
      change k.next x = y at hy
      rw [hy]
      exact ⟨hlast, hp⟩
  · obtain ⟨hleft, hright⟩ := segment_inverse h.segment hx
    constructor
    · rcases hleft with ⟨hp, hf⟩ | hn
      · exact (congrArg k.next hp).trans hf
      · exact hn
    · rcases hright with ⟨hn, hl⟩ | hp
      · exact (congrArg k.prev hn).trans hl
      · exact hp

/-- The first slot from `x` on that meets `P`, or none once the walk is back at the sentinel.
A walk over more slots than it may visit has no answer. -/
def scan (sentinel : α) (succ : α → α) (P : α → Bool) : ℕ → α → Option (Option α)
  | 0, x => if x = sentinel then some none else none
  | n + 1, x =>
    if x = sentinel then some none
    else if P x then some (some x)
    else scan sentinel succ P n (succ x)

theorem scan_segment {next prev : α → α} {before first last : α} {n : ℕ} (P : α → Bool)
    (h : Segment next prev before first l sentinel last) (hs : sentinel ∉ l) (hn : l.length ≤ n) :
    scan sentinel next P n first = some (l.find? P) := by
  induction l generalizing before first n with
  | nil => cases n <;> simp only [scan, h.1, if_true, List.find?_nil]
  | cons y ys ih =>
    obtain ⟨rfl, _, hrest⟩ := h
    obtain ⟨n, rfl⟩ : ∃ m, n = m + 1 := ⟨n - 1, by simp only [List.length_cons] at hn; omega⟩
    have hfirst : first ≠ sentinel := fun he => hs (by simp [he])
    have hys : sentinel ∉ ys := fun hm => hs (by simp [hm])
    simp only [scan, if_neg hfirst, List.find?_cons]
    cases hP : P first with
    | true => simp only [if_true]
    | false =>
      simp only [Bool.false_eq_true, if_false]
      exact ih hrest hys (by simpa using hn)

theorem Threads.scan_next (h : Threads sentinel k l) (P : α → Bool) {n : ℕ} (hn : l.length ≤ n) :
    scan sentinel k.next P n (k.next sentinel) = some (l.find? P) :=
  scan_segment P h.segment h.proper hn

theorem Threads.scan_prev (h : Threads sentinel k l) (P : α → Bool) {n : ℕ} (hn : l.length ≤ n) :
    scan sentinel k.prev P n (k.prev sentinel) = some (l.reverse.find? P) :=
  scan_segment P h.segment.reverse (by simpa using h.proper) (by simpa using hn)

end LinkedRings
