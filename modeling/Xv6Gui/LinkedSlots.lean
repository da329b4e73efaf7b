import Mathlib.Data.List.Basic
import Mathlib.Logic.Function.Basic
import Mathlib.Data.List.Nodup

/-!
# Doubly linked lists threaded through an array of slots

Links are total functions on the addresses, with one address reserved as the end mark.
A segment is described from both ends, so that it can be cut at any slot and a write to
one end does not disturb the rest. Removing and appending are the splices of the textbook,
with the head and the tail repaired.
-/
namespace LinkedSlots

variable {α : Type*}

/-- `next` leads from `first` through the list to `after`, and `prev` leads from `last`
through its reverse to `before`. -/
def Segment (next prev : α → α) : α → α → List α → α → α → Prop
  | before, first, [], after, last => first = after ∧ last = before
  | before, first, x :: xs, after, last =>
      first = x ∧ prev x = before ∧ Segment next prev x (next x) xs after last

structure Links (α : Type*) where
  next : α → α
  prev : α → α
  head : α
  tail : α

/-- The links thread exactly the slots of `l`, in this order, with `null` at both ends. -/
structure Linked (null : α) (k : Links α) (l : List α) : Prop where
  segment : Segment k.next k.prev null k.head l null k.tail
  nodup : l.Nodup
  proper : null ∉ l

variable {next prev next' prev' : α → α} {before first after last : α}

theorem segment_append {xs ys : List α} :
    Segment next prev before first (xs ++ ys) after last ↔
      ∃ m k, Segment next prev before first xs m k ∧ Segment next prev k m ys after last := by
  induction xs generalizing before first with
  | nil =>
    constructor
    · exact fun h => ⟨first, before, ⟨rfl, rfl⟩, h⟩
    · rintro ⟨m, k, ⟨rfl, rfl⟩, h⟩; exact h
  | cons x xs ih =>
    simp only [List.cons_append, Segment, ih]
    constructor
    · rintro ⟨hf, hp, m, k, h, h'⟩; exact ⟨m, k, ⟨hf, hp, h⟩, h'⟩
    · rintro ⟨m, k, ⟨hf, hp, h⟩, h'⟩; exact ⟨hf, hp, m, k, h, h'⟩

theorem segment_congr {xs : List α} (hn : ∀ x ∈ xs, next' x = next x)
    (hp : ∀ x ∈ xs, prev' x = prev x) :
    Segment next' prev' before first xs after last ↔
      Segment next prev before first xs after last := by
  induction xs generalizing before first with
  | nil => exact Iff.rfl
  | cons x xs ih =>
    have hx : x ∈ x :: xs := List.mem_cons_self
    have hxs : Segment next' prev' x (next x) xs after last ↔
        Segment next prev x (next x) xs after last :=
      ih (fun y hy => hn y (List.mem_cons_of_mem x hy))
        fun y hy => hp y (List.mem_cons_of_mem x hy)
    simp only [Segment, hn x hx, hp x hx, hxs]

theorem Segment.last_mem {xs : List α} (h : Segment next prev before first xs after last)
    (hne : xs ≠ []) : last ∈ xs := by
  induction xs generalizing before first with
  | nil => exact absurd rfl hne
  | cons x xs ih =>
    obtain ⟨_, _, h⟩ := h
    cases xs with
    | nil => simp [h.2]
    | cons y ys => exact List.mem_cons_of_mem x (ih h (by simp))

theorem Segment.first_mem {xs : List α} (h : Segment next prev before first xs after last)
    (hne : xs ≠ []) : first ∈ xs := by
  cases xs with
  | nil => exact absurd rfl hne
  | cons x xs => rw [h.1]; exact List.mem_cons_self

theorem Segment.next_last {xs : List α} (h : Segment next prev before first xs after last)
    (hne : xs ≠ []) : next last = after := by
  induction xs generalizing before first with
  | nil => exact absurd rfl hne
  | cons x xs ih =>
    obtain ⟨_, _, h⟩ := h
    cases xs with
    | nil => rw [h.2]; exact h.1
    | cons y ys => exact ih h (by simp)

/-- The successor of a slot is the next slot of the segment or what lies after it. -/
theorem Segment.next_mem {xs : List α} (h : Segment next prev before first xs after last) {x : α}
    (hx : x ∈ xs) : next x ∈ xs ∨ next x = after := by
  obtain ⟨ys, zs, rfl⟩ := List.append_of_mem hx
  obtain ⟨m, k, _, hm, _, hz⟩ := segment_append.mp h
  cases zs with
  | nil => exact Or.inr hz.1
  | cons z zs => exact Or.inl (by rw [hz.1]; simp)

theorem Segment.prev_mem {xs : List α} (h : Segment next prev before first xs after last) {x : α}
    (hx : x ∈ xs) : prev x ∈ xs ∨ prev x = before := by
  obtain ⟨ys, zs, rfl⟩ := List.append_of_mem hx
  obtain ⟨m, k, hy, rfl, hp, _⟩ := segment_append.mp h
  by_cases hne : ys = []
  · subst hne; exact Or.inr (hp.trans hy.2)
  · exact Or.inl (by rw [hp]; simp [hy.last_mem hne])

theorem Segment.reverse {xs : List α} (h : Segment next prev before first xs after last) :
    Segment prev next after last xs.reverse before first := by
  induction xs generalizing before first with
  | nil => exact ⟨h.2, h.1⟩
  | cons x xs ih =>
    obtain ⟨rfl, hp, h⟩ := h
    rw [List.reverse_cons, segment_append]
    exact ⟨first, next first, ih h, rfl, rfl, hp, rfl⟩

/-- Visiting the slots from `p` by following `succ` up to the first slot that stops. -/
inductive Path (stop : α → Prop) (succ : α → α) : α → List α → α → Prop where
  | done {p} : stop p → Path stop succ p [] p
  | visit {p l q} : ¬stop p → Path stop succ (succ p) l q → Path stop succ p (p :: l) q

section Paths

variable {stop stop' : α → Prop} {succ : α → α} {p q q' : α} {l l' : List α}

theorem Path.unique (h : Path stop succ p l q) (h' : Path stop succ p l' q') :
    l = l' ∧ q = q' := by
  induction h generalizing l' with
  | done hp =>
    cases h' with
    | done => exact ⟨rfl, rfl⟩
    | visit hn => exact absurd hp hn
  | visit hn _ ih =>
    cases h' with
    | done hp => exact absurd hp hn
    | visit _ h' =>
      obtain ⟨hl, hq⟩ := ih h'
      exact ⟨by rw [hl], hq⟩

theorem Path.stopped (h : Path stop succ p l q) : stop q := by
  induction h with
  | done hp => exact hp
  | visit _ _ ih => exact ih

theorem Path.suffix (h : Path stop succ p l q) {x : α} (hx : x ∈ l) :
    ∃ l', Path stop succ x l' q ∧ l'.length ≤ l.length := by
  induction h with
  | done => simp at hx
  | @visit p l q hn h ih =>
    rcases List.mem_cons.mp hx with rfl | hx
    · exact ⟨x :: l, .visit hn h, Nat.le_refl _⟩
    · obtain ⟨l', h', hlen⟩ := ih hx
      exact ⟨l', h', Nat.le_succ_of_le hlen⟩

/-- A walk that ends has met no slot twice. -/
theorem Path.nodup (h : Path stop succ p l q) : l.Nodup := by
  induction h with
  | done => exact List.nodup_nil
  | @visit p l q hn h ih =>
    refine List.nodup_cons.mpr ⟨?_, ih⟩
    intro hp
    obtain ⟨l', h', hlen⟩ := h.suffix hp
    obtain ⟨rfl, _⟩ := h'.unique (.visit hn h)
    exact absurd hlen (Nat.not_succ_le_self l.length)

/-- Stopping in more places still ends the walk. -/
theorem Path.stops_earlier (hs : ∀ p, stop p → stop' p) (h : Path stop succ p l q) :
    ∃ l' q', Path stop' succ p l' q' := by
  induction h with
  | @done p hp => exact ⟨[], p, .done (hs p hp)⟩
  | @visit p l q hn h ih =>
    by_cases hp : stop' p
    · exact ⟨[], p, .done hp⟩
    · obtain ⟨l', q', h'⟩ := ih
      exact ⟨p :: l', q', .visit hp h'⟩

/-- A walk that would have stopped earlier but did not is a walk to the later stop. -/
theorem Path.stops_later (hs : ∀ p, stop p → stop' p) (h : Path stop' succ p l q) (hq : stop q) :
    Path stop succ p l q := by
  induction h with
  | done => exact .done hq
  | visit hn _ ih => exact .visit (fun hp => hn (hs _ hp)) (ih hq)

/-- Every visited slot lies in a set that the successors do not leave. -/
theorem Path.mem_closed {good : α → Prop} (h : Path stop succ p l q)
    (hsucc : ∀ x, good x → ¬stop x → good (succ x)) (hp : good p) :
    (∀ x ∈ l, good x ∧ ¬stop x) ∧ good q := by
  induction h with
  | done => exact ⟨by simp, hp⟩
  | visit hn _ ih =>
    obtain ⟨hl, hq⟩ := ih (hsucc _ hp hn)
    exact ⟨by simpa using ⟨⟨hp, hn⟩, hl⟩, hq⟩

theorem Path.of_nil (h : Path stop succ p [] q) : p = q ∧ stop p := by
  cases h with
  | done hp => exact ⟨rfl, hp⟩

theorem Path.of_cons {x : α} (h : Path stop succ p (x :: l) q) :
    p = x ∧ ¬stop x ∧ Path stop succ (succ x) l q := by
  cases h with
  | visit hn h => exact ⟨rfl, hn, h⟩

theorem Path.congr {succ' : α → α} (h : Path stop succ p l q)
    (hs : ∀ x ∈ l, succ' x = succ x) : Path stop succ' p l q := by
  induction h with
  | done hp => exact .done hp
  | visit hn _ ih =>
    obtain ⟨hx, hl⟩ := List.forall_mem_cons.mp hs
    exact .visit hn (hx ▸ ih hl)

/-- A walk ends at the first of its slots that stops a search. -/
theorem Path.cut {xs ys : List α} (h : Path stop succ p (xs ++ q :: ys) q')
    (hxs : ∀ x ∈ xs, ¬stop' x) (hq : stop' q) : Path stop' succ p xs q := by
  induction xs generalizing p with
  | nil =>
    cases h with
    | visit _ _ => exact .done hq
  | cons x xs ih =>
    cases h with
    | visit _ h =>
      exact .visit (hxs x List.mem_cons_self)
        (ih h fun y hy => hxs y (List.mem_cons_of_mem x hy))

/-- A search that none of the slots of a walk stops runs through all of them. -/
theorem Path.exhaust (h : Path stop succ p l q) (hl : ∀ x ∈ l, ¬stop' x) (hq : stop' q) :
    Path stop' succ p l q := by
  induction h with
  | done => exact .done hq
  | @visit p l q _ _ ih =>
    exact .visit (hl p List.mem_cons_self) (ih (fun x hx => hl x (List.mem_cons_of_mem p hx)) hq)

theorem Segment.path {null : α} {xs : List α} (hx : null ∉ xs)
    (h : Segment next prev before first xs null last) :
    Path (· = null) next first xs null := by
  induction xs generalizing before first with
  | nil => rw [h.1]; exact .done rfl
  | cons x xs ih =>
    obtain ⟨rfl, _, h⟩ := h
    exact .visit (fun hn => hx (by simp [hn])) (ih (fun hm => hx (by simp [hm])) h)

end Paths

theorem Linked.forward {null : α} {k : Links α} {l : List α} (h : Linked null k l) :
    Path (· = null) k.next k.head l null := h.segment.path h.proper

theorem Linked.backward {null : α} {k : Links α} {l : List α} (h : Linked null k l) :
    Path (· = null) k.prev k.tail l.reverse null :=
  h.segment.reverse.path (by simpa using h.proper)

theorem Linked.tail_mem {null : α} {k : Links α} {l : List α} (h : Linked null k l)
    (hne : l ≠ []) : k.tail ∈ l := h.segment.last_mem hne

theorem Linked.head_mem {null : α} {k : Links α} {l : List α} (h : Linked null k l)
    (hne : l ≠ []) : k.head ∈ l := h.segment.first_mem hne

theorem Linked.tail_null {null : α} {k : Links α} {l : List α} (h : Linked null k l) :
    k.tail = null ↔ l = [] := by
  constructor
  · intro ht
    by_contra hne
    exact h.proper (ht ▸ h.tail_mem hne)
  · rintro rfl; exact h.segment.2

theorem Linked.head_null {null : α} {k : Links α} {l : List α} (h : Linked null k l) :
    k.head = null ↔ l = [] := by
  constructor
  · intro ht
    by_contra hne
    exact h.proper (ht ▸ h.head_mem hne)
  · rintro rfl; exact h.segment.1

theorem Linked.next_null {null : α} {k : Links α} {l : List α} (h : Linked null k l) {x : α}
    (hx : x ∈ l) : k.next x = null ↔ x = k.tail := by
  have hne : l ≠ [] := List.ne_nil_of_mem hx
  constructor
  · intro hn
    obtain ⟨ys, zs, rfl⟩ := List.append_of_mem hx
    obtain ⟨m, q, _, _, _, hz⟩ := segment_append.mp h.segment
    cases zs with
    | nil => exact hz.2.symm
    | cons z zs => exact absurd (show null ∈ ys ++ x :: z :: zs by simp [← hn, hz.1]) h.proper
  · rintro rfl; exact h.segment.next_last hne

theorem Linked.reverse {null : α} {k : Links α} {l : List α} (h : Linked null k l) :
    Linked null ⟨k.prev, k.next, k.tail, k.head⟩ l.reverse :=
  ⟨h.segment.reverse, List.nodup_reverse.mpr h.nodup, by simpa using h.proper⟩

theorem Linked.prev_null {null : α} {k : Links α} {l : List α} (h : Linked null k l) {x : α}
    (hx : x ∈ l) : k.prev x = null ↔ x = k.head :=
  h.reverse.next_null (List.mem_reverse.mpr hx)

/-- No slot of the list is its own successor; such links are left for free slots. -/
theorem Linked.next_ne {null : α} {k : Links α} {l : List α} (h : Linked null k l) {x : α}
    (hx : x ∈ l) : k.next x ≠ x := by
  intro he
  obtain ⟨ys, zs, rfl⟩ := List.append_of_mem hx
  obtain ⟨m, q, _, _, _, hz⟩ := segment_append.mp h.segment
  cases zs with
  | nil => exact h.proper (by simp [← hz.1, he])
  | cons z zs =>
    have hzx : z = x := hz.1.symm.trans he
    have hnd := (List.nodup_append'.mp h.nodup).2.1
    simp [hzx] at hnd

theorem Linked.prev_ne {null : α} {k : Links α} {l : List α} (h : Linked null k l) {x : α}
    (hx : x ∈ l) : k.prev x ≠ x := h.reverse.next_ne (List.mem_reverse.mpr hx)

section Splices

variable [DecidableEq α] {null : α}

/-- Take `x` out: its neighbours are joined, and the head or the tail moves past it. -/
def Links.remove (null : α) (k : Links α) (x : α) : Links α where
  next := if k.prev x = null then k.next else Function.update k.next (k.prev x) (k.next x)
  prev := if k.next x = null then k.prev else Function.update k.prev (k.next x) (k.prev x)
  head := if x = k.head then k.next x else k.head
  tail := if x = k.tail then k.prev x else k.tail

/-- Link `x` behind the tail; it also becomes the head of an empty list. -/
def Links.append (null : α) (k : Links α) (x : α) : Links α where
  next :=
    if k.tail = null then Function.update k.next x null
    else Function.update (Function.update k.next x null) k.tail x
  prev := Function.update k.prev x k.tail
  head := if k.head = null then x else k.head
  tail := x

def Links.moveToEnd (null : α) (k : Links α) (x : α) : Links α :=
  (k.remove null x).append null x

theorem Segment.update_next {xs : List α} (h : Segment next prev before first xs after last)
    (hnd : xs.Nodup) (hne : xs ≠ []) (c : α) :
    Segment (Function.update next last c) prev before first xs c last := by
  induction xs generalizing before first with
  | nil => exact absurd rfl hne
  | cons x xs ih =>
    obtain ⟨rfl, hp, h⟩ := h
    obtain ⟨hx, hnd⟩ := List.nodup_cons.mp hnd
    refine ⟨rfl, hp, ?_⟩
    cases xs with
    | nil => rw [h.2]; exact ⟨by simp, rfl⟩
    | cons y ys =>
      have hlast : first ≠ last := fun he => hx (he ▸ h.last_mem (by simp))
      rw [Function.update_of_ne hlast]
      exact ih h hnd (by simp)

/-- Redirect the end of a segment that starts at the head, which moves if it was empty. -/
theorem Segment.redirect {xs : List α} {x p : α} (h : Segment next prev null first xs x p)
    (hnd : xs.Nodup) (hproper : null ∉ xs) (n : α) :
    Segment (if p = null then next else Function.update next p n) prev null
      (if p = null then n else first) xs n p := by
  by_cases hne : xs = []
  · subst hne
    rw [if_pos h.2, if_pos h.2]
    exact ⟨rfl, h.2⟩
  · have hp : p ≠ null := fun hp => hproper (hp ▸ h.last_mem hne)
    rw [if_neg hp, if_neg hp]
    exact h.update_next hnd hne n

/-- The tail is the last slot of the list. -/
theorem Linked.erase_tail {k : Links α} {l : List α} (h : Linked null k l) (hne : l ≠ []) :
    l.erase k.tail ++ [k.tail] = l := by
  obtain ⟨xs, x, rfl⟩ := List.eq_nil_or_concat l |>.resolve_left hne
  rw [List.concat_eq_append] at h ⊢
  obtain ⟨m, q, _, hm, _, hx⟩ := segment_append.mp h.segment
  have htail : k.tail = x := hx.2
  have hfresh : x ∉ xs := fun hx => by simpa [hx] using List.nodup_append'.mp h.nodup
  rw [htail, List.erase_append_right _ hfresh, List.erase_cons_head, List.append_nil]

theorem Linked.remove {k : Links α} {l : List α} (h : Linked null k l) {x : α} (hx : x ∈ l) :
    Linked null (k.remove null x) (l.erase x) := by
  have hhead := h.prev_null hx
  have htail := h.next_null hx
  obtain ⟨hseg, hnd, hproper⟩ := h
  obtain ⟨xs, ys, rfl⟩ := List.append_of_mem hx
  obtain ⟨hndx, hndxy, hdisj⟩ := List.nodup_append'.mp hnd
  obtain ⟨hxy, hndy⟩ := List.nodup_cons.mp hndxy
  have hxx : x ∉ xs := fun hm => hdisj hm List.mem_cons_self
  have hnx : null ∉ xs := fun hm => hproper (by simp [hm])
  have hny : null ∉ ys := fun hm => hproper (by simp [hm])
  rw [List.erase_append_right _ hxx, List.erase_cons_head]
  obtain ⟨m, p, hleft, rfl, hp, hright⟩ := segment_append.mp hseg
  have hleft' := hleft.redirect hndx hnx (k.next m)
  have hright' := (hright.reverse.redirect (List.nodup_reverse.mpr hndy)
    (by simpa using hny) (k.prev m)).reverse
  rw [List.reverse_reverse, hp] at hright'
  have hpy : p = null ∨ p ∉ ys := by
    by_cases hne : xs = []
    · subst hne; exact Or.inl hleft.2
    · exact Or.inr fun hm => hdisj (hleft.last_mem hne) (List.mem_cons_of_mem m hm)
  have hqx : k.next m = null ∨ k.next m ∉ xs := by
    by_cases hne : ys = []
    · subst hne; exact Or.inl hright.1
    · exact Or.inr fun hm => hdisj hm (List.mem_cons_of_mem m (hright.first_mem hne))
  refine ⟨segment_append.mpr ⟨k.next m, p, ?_, ?_⟩,
    List.nodup_append'.mpr ⟨hndx, hndy, fun a ha hb => hdisj ha (List.mem_cons_of_mem m hb)⟩,
    by simp [hnx, hny]⟩
  · rw [hp] at hhead
    simp only [Links.remove, hp, ← hhead]
    refine (segment_congr (fun _ _ => rfl) ?_).mpr hleft'
    intro y hy
    split
    · rfl
    · next hq => exact Function.update_of_ne (ne_of_mem_of_not_mem hy (hqx.resolve_left hq)) _ _
  · simp only [Links.remove, hp, ← htail]
    refine (segment_congr ?_ fun _ _ => rfl).mpr hright'
    intro y hy
    split
    · rfl
    · next hq => exact Function.update_of_ne (ne_of_mem_of_not_mem hy (hpy.resolve_left hq)) _ _

theorem Linked.append {k : Links α} {l : List α} (h : Linked null k l) {x : α} (hx : x ∉ l)
    (hnull : x ≠ null) : Linked null (k.append null x) (l ++ [x]) := by
  have hhead := h.head_null
  have htail := h.tail_null
  obtain ⟨hseg, hnd, hproper⟩ := h
  refine ⟨?_, List.nodup_append'.mpr ⟨hnd, List.nodup_singleton x, by simpa using hx⟩,
    by simp [hproper, Ne.symm hnull]⟩
  by_cases hne : l = []
  · subst hne
    simp only [Links.append, hhead.mpr rfl, htail.mpr rfl, if_true, List.nil_append]
    exact ⟨rfl, by simp, by simp, rfl⟩
  · have ht : k.tail ≠ null := fun h => hne (htail.mp h)
    have hh : k.head ≠ null := fun h => hne (hhead.mp h)
    have hxt : x ≠ k.tail := fun he => hx (he ▸ hseg.last_mem hne)
    simp only [Links.append, if_neg ht, if_neg hh]
    refine segment_append.mpr ⟨x, k.tail, ?_, rfl, by simp, ?_, rfl⟩
    · have hfresh : Segment (Function.update k.next x null)
          (Function.update k.prev x k.tail) null k.head l null k.tail :=
        (segment_congr (fun y hy => Function.update_of_ne (ne_of_mem_of_not_mem hy hx) _ _)
          (fun y hy => Function.update_of_ne (ne_of_mem_of_not_mem hy hx) _ _)).mpr hseg
      exact hfresh.update_next hnd hne x
    · rw [Function.update_of_ne hxt, Function.update_self]

theorem Linked.moveToEnd {k : Links α} {l : List α} (h : Linked null k l) {x : α} (hx : x ∈ l) :
    Linked null (k.moveToEnd null x) (l.erase x ++ [x]) :=
  (h.remove hx).append (fun hm => (h.nodup.mem_erase_iff.mp hm).1 rfl)
    (fun he => h.proper (he ▸ hx))

/-- Taking a slot out leaves the links of the slots outside the list alone. -/
theorem Linked.remove_frame {k : Links α} {l : List α} (h : Linked null k l) {x i : α}
    (hx : x ∈ l) (hi : i ∉ l) :
    (k.remove null x).prev i = k.prev i ∧ (k.remove null x).next i = k.next i := by
  have hne : ∀ {y}, y ∈ l ∨ y = null → y ≠ null → i ≠ y := fun hy hn he =>
    hi (he ▸ hy.resolve_right hn)
  constructor
  · simp only [Links.remove]
    split
    · rfl
    · next hn => exact Function.update_of_ne (hne (h.segment.next_mem hx) hn) _ _
  · simp only [Links.remove]
    split
    · rfl
    · next hn => exact Function.update_of_ne (hne (h.segment.prev_mem hx) hn) _ _

theorem Linked.append_frame {k : Links α} {l : List α} (h : Linked null k l) {x i : α}
    (hi : i ∉ l) (hx : i ≠ x) :
    (k.append null x).prev i = k.prev i ∧ (k.append null x).next i = k.next i := by
  refine ⟨Function.update_of_ne hx _ _, ?_⟩
  simp only [Links.append]
  split
  · exact Function.update_of_ne hx _ _
  · next ht =>
    have hne : l ≠ [] := fun hl => ht (h.tail_null.mpr hl)
    have htail : i ≠ k.tail := ne_of_mem_of_not_mem (h.tail_mem hne) hi |>.symm
    rw [Function.update_of_ne htail, Function.update_of_ne hx]

theorem Linked.moveToEnd_frame {k : Links α} {l : List α} (h : Linked null k l) {x i : α}
    (hx : x ∈ l) (hi : i ∉ l) :
    (k.moveToEnd null x).prev i = k.prev i ∧ (k.moveToEnd null x).next i = k.next i := by
  have hr := h.remove_frame hx hi
  have ha := (h.remove hx).append_frame (x := x) (fun hm => hi (List.mem_of_mem_erase hm))
    (fun he => hi (he ▸ hx))
  exact ⟨ha.1.trans hr.1, ha.2.trans hr.2⟩

omit [DecidableEq α] in
/-- Links written outside the threaded slots do not change the list. -/
theorem Linked.congr {k k' : Links α} {l : List α} (h : Linked null k l)
    (hn : ∀ x ∈ l, k'.next x = k.next x) (hp : ∀ x ∈ l, k'.prev x = k.prev x)
    (hh : k'.head = k.head) (ht : k'.tail = k.tail) : Linked null k' l := by
  refine ⟨?_, h.nodup, h.proper⟩
  rw [hh, ht]
  exact (segment_congr hn hp).mpr h.segment

end Splices

end LinkedSlots
