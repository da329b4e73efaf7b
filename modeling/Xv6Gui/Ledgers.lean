import Mathlib.Data.Set.Basic
import Mathlib.Logic.Function.Basic

/-!
# Ledgers of exclusive holdings

A ledger says which key holds which item and which items count as used. In a sound ledger no
item has two keys and what is held is used; in an exact one every used item is reserved or held.
A ledger grows when unused items go to keys that hold nothing, and shrinks when keys give up
what they hold.
-/
namespace Ledgers

variable {κ β : Type*}

@[ext]
structure Ledger (κ β : Type*) where
  held : κ → Option β
  used : Set β

structure Sound (reserved : Set β) (l : Ledger κ β) : Prop where
  reserved_used : ∀ b ∈ reserved, b ∈ l.used
  held_used : ∀ k b, l.held k = some b → b ∈ l.used ∧ b ∉ reserved
  once : ∀ k k' b, l.held k = some b → l.held k' = some b → k = k'

structure Exact (reserved : Set β) (l : Ledger κ β) : Prop extends Sound reserved l where
  accounted : ∀ b ∈ l.used, b ∈ reserved ∨ ∃ k, l.held k = some b

structure Grows (l m : Ledger κ β) : Prop where
  kept : ∀ k b, l.held k = some b → m.held k = some b
  fresh : ∀ k b, l.held k = none → m.held k = some b → b ∉ l.used
  once : ∀ k k' b, l.held k = none → m.held k = some b → m.held k' = some b → k = k'
  used : ∀ b, b ∈ m.used ↔ b ∈ l.used ∨ ∃ k, l.held k = none ∧ m.held k = some b

/-- The keys of `K` give up what they hold. -/
structure Shrinks (K : Set κ) (l m : Ledger κ β) : Prop where
  given : ∀ k ∈ K, m.held k = none
  kept : ∀ k ∉ K, m.held k = l.held k
  used : ∀ b, b ∈ m.used ↔ b ∈ l.used ∧ ∀ k ∈ K, l.held k ≠ some b

variable {reserved : Set β} {l m n : Ledger κ β} {K : Set κ}

theorem Grows.refl (l : Ledger κ β) : Grows l l := by
  constructor
  case kept => exact fun _ _ h => h
  case fresh =>
    intro k b hk hb
    rw [hk] at hb
    cases hb
  case once =>
    intro k k' b hk hb
    rw [hk] at hb
    cases hb
  case used =>
    intro b
    refine ⟨.inl, ?_⟩
    rintro (hb | ⟨k, hk, hb⟩)
    · exact hb
    · rw [hk] at hb
      cases hb

/-- A key that holds nothing in the end held nothing in between. -/
theorem Grows.held_none (h : Grows l m) {k : κ} (hk : m.held k = none) : l.held k = none := by
  cases hl : l.held k with
  | none => rfl
  | some b =>
    rw [h.kept k b hl] at hk
    cases hk

theorem Grows.used_mono (h : Grows l m) {b : β} (hb : b ∈ l.used) : b ∈ m.used :=
  (h.used b).mpr (.inl hb)

theorem Grows.trans (h : Grows l m) (h' : Grows m n) : Grows l n := by
  -- a key is new in one of the two steps, and its item was unused before that step
  have hcases : ∀ k b, l.held k = none → n.held k = some b →
      m.held k = some b ∨ m.held k = none := by
    intro k b _ hn
    cases hm : m.held k with
    | none => exact .inr rfl
    | some c =>
      have hc := h'.kept k c hm
      rw [hn] at hc
      exact .inl hc.symm
  constructor
  case kept => exact fun k b hb => h'.kept k b (h.kept k b hb)
  case fresh =>
    intro k b hk hb
    rcases hcases k b hk hb with hm | hm
    · exact h.fresh k b hk hm
    · exact fun hu => h'.fresh k b hm hb (h.used_mono hu)
  case once =>
    intro k k' b hk hb hb'
    rcases hcases k b hk hb with hm | hm
    · cases hm' : m.held k' with
      | none => exact absurd ((h.used b).mpr (.inr ⟨k, hk, hm⟩)) (h'.fresh k' b hm' hb')
      | some c =>
        have hc := h'.kept k' c hm'
        rw [hb'] at hc
        obtain rfl := Option.some.inj hc
        exact h.once k k' b hk hm hm'
    · exact h'.once k k' b hm hb hb'
  case used =>
    intro b
    rw [h'.used b, h.used b]
    constructor
    case mp =>
      rintro ((hu | ⟨k, hk, hb⟩) | ⟨k, hk, hb⟩)
      · exact .inl hu
      · exact .inr ⟨k, hk, h'.kept k b hb⟩
      · exact .inr ⟨k, h.held_none hk, hb⟩
    case mpr =>
      rintro (hu | ⟨k, hk, hb⟩)
      · exact .inl (.inl hu)
      · rcases hcases k b hk hb with hm | hm
        · exact .inl (.inr ⟨k, hk, hm⟩)
        · exact .inr ⟨k, hm, hb⟩

theorem Sound.grows (hl : Sound reserved l) (h : Grows l m) : Sound reserved m := by
  constructor
  case reserved_used => exact fun b hb => h.used_mono (hl.reserved_used b hb)
  case held_used =>
    intro k b hb
    cases hk : l.held k with
    | none =>
      refine ⟨(h.used b).mpr (.inr ⟨k, hk, hb⟩), ?_⟩
      exact fun hr => h.fresh k b hk hb (hl.reserved_used b hr)
    | some c =>
      have hc := h.kept k c hk
      rw [hb] at hc
      obtain rfl := Option.some.inj hc
      obtain ⟨hu, hr⟩ := hl.held_used k b hk
      exact ⟨h.used_mono hu, hr⟩
  case once =>
    intro k k' b hb hb'
    cases hk : l.held k with
    | none => exact h.once k k' b hk hb hb'
    | some c =>
      cases hk' : l.held k' with
      | none => exact (h.once k' k b hk' hb' hb).symm
      | some c' =>
        have hc := h.kept k c hk
        have hc' := h.kept k' c' hk'
        rw [hb] at hc
        rw [hb'] at hc'
        obtain rfl := Option.some.inj hc
        obtain rfl := Option.some.inj hc'
        exact hl.once k k' b hk hk'

theorem Exact.grows (hl : Exact reserved l) (h : Grows l m) : Exact reserved m := by
  refine ⟨hl.toSound.grows h, ?_⟩
  intro b hb
  rcases (h.used b).mp hb with hu | ⟨k, -, hk⟩
  · rcases hl.accounted b hu with hr | ⟨k, hk⟩
    · exact .inl hr
    · exact .inr ⟨k, h.kept k b hk⟩
  · exact .inr ⟨k, hk⟩

theorem Shrinks.held (h : Shrinks K l m) {k : κ} {b : β} (hb : m.held k = some b) :
    k ∉ K ∧ l.held k = some b := by
  by_cases hk : k ∈ K
  · rw [h.given k hk] at hb
    cases hb
  · exact ⟨hk, (h.kept k hk).symm.trans hb⟩

theorem Sound.shrinks (hl : Sound reserved l) (h : Shrinks K l m) : Sound reserved m := by
  constructor
  case reserved_used =>
    intro b hb
    refine (h.used b).mpr ⟨hl.reserved_used b hb, ?_⟩
    exact fun k _ hk => (hl.held_used k b hk).2 hb
  case held_used =>
    intro k b hb
    obtain ⟨hk, hb⟩ := h.held hb
    obtain ⟨hu, hr⟩ := hl.held_used k b hb
    refine ⟨(h.used b).mpr ⟨hu, ?_⟩, hr⟩
    intro k' hk' hb'
    exact hk (hl.once k k' b hb hb' ▸ hk')
  case once => exact fun k k' b hb hb' => hl.once k k' b (h.held hb).2 (h.held hb').2

theorem Exact.shrinks (hl : Exact reserved l) (h : Shrinks K l m) : Exact reserved m := by
  refine ⟨hl.toSound.shrinks h, ?_⟩
  intro b hb
  obtain ⟨hu, hnone⟩ := (h.used b).mp hb
  rcases hl.accounted b hu with hr | ⟨k, hk⟩
  · exact .inl hr
  · have hkK : k ∉ K := fun hkK => hnone k hkK hk
    exact .inr ⟨k, (h.kept k hkK).trans hk⟩

theorem Shrinks.refl (h : ∀ k ∈ K, l.held k = none) : Shrinks K l l := by
  refine ⟨h, fun _ _ => rfl, ?_⟩
  intro b
  refine ⟨fun hb => ⟨hb, ?_⟩, And.left⟩
  intro k hk hkb
  rw [h k hk] at hkb
  cases hkb

theorem Shrinks.trans {K' : Set κ} (h : Shrinks K l m) (h' : Shrinks K' m n) :
    Shrinks (K ∪ K') l n := by
  constructor
  case given =>
    intro k hk
    by_cases hk' : k ∈ K'
    · exact h'.given k hk'
    · rw [h'.kept k hk', h.given k (hk.resolve_right hk')]
  case kept =>
    intro k hk
    rw [h'.kept k fun hk' => hk (.inr hk'), h.kept k fun hk' => hk (.inl hk')]
  case used =>
    intro b
    rw [h'.used b, h.used b]
    constructor
    case mp =>
      rintro ⟨⟨hb, hK⟩, hK'⟩
      refine ⟨hb, ?_⟩
      intro k hk
      by_cases hkK : k ∈ K
      · exact hK k hkK
      · rw [← h.kept k hkK]
        exact hK' k (hk.resolve_left hkK)
    case mpr =>
      rintro ⟨hb, hboth⟩
      refine ⟨⟨hb, fun k hk => hboth k (.inl hk)⟩, ?_⟩
      intro k hk hkb
      exact hboth k (.inr hk) (h.held hkb).2

/-- What new keys took they give up again. -/
theorem Grows.shrinks (h : Grows l m) (hK : ∀ k ∈ K, l.held k = none) (h' : Shrinks K m n) :
    Grows l n := by
  constructor
  case kept =>
    intro k b hb
    have hk : k ∉ K := by
      intro hk
      rw [hK k hk] at hb
      cases hb
    rw [h'.kept k hk]
    exact h.kept k b hb
  case fresh => exact fun k b hk hb => h.fresh k b hk (h'.held hb).2
  case once => exact fun k k' b hk hb hb' => h.once k k' b hk (h'.held hb).2 (h'.held hb').2
  case used =>
    intro b
    rw [h'.used b, h.used b]
    constructor
    case mp =>
      rintro ⟨hb | ⟨k, hk, hb⟩, hgiven⟩
      · exact .inl hb
      · have hkK : k ∉ K := fun hkK => hgiven k hkK hb
        exact .inr ⟨k, hk, (h'.kept k hkK).trans hb⟩
    case mpr =>
      rintro (hb | ⟨k, hk, hb⟩)
      · exact ⟨.inl hb, fun k hk hkb => h.fresh k b (hK k hk) hkb hb⟩
      · obtain ⟨hkK, hm⟩ := h'.held hb
        refine ⟨.inr ⟨k, hk, hm⟩, ?_⟩
        intro k' hk' hkb
        obtain rfl := h.once k k' b hk hm hkb
        exact hkK hk'

section Claim

variable [DecidableEq κ]

/-- Key `k` takes item `b`. -/
def Ledger.claim (l : Ledger κ β) (k : κ) (b : β) : Ledger κ β where
  held := Function.update l.held k (some b)
  used := insert b l.used

@[simp] theorem held_claim_self (l : Ledger κ β) (k : κ) (b : β) :
    (l.claim k b).held k = some b := Function.update_self ..

theorem held_claim_of_ne (l : Ledger κ β) {k k' : κ} (b : β) (h : k' ≠ k) :
    (l.claim k b).held k' = l.held k' := Function.update_of_ne h _ _

theorem grows_claim {k : κ} {b : β} (hk : l.held k = none) (hb : b ∉ l.used)
    (hl : ∀ k' c, l.held k' = some c → c ∈ l.used) : Grows l (l.claim k b) := by
  have hheld : ∀ k', k' ≠ k → (l.claim k b).held k' = l.held k' :=
    fun k' h => held_claim_of_ne l b h
  have hself := held_claim_self l k b
  constructor
  case kept =>
    intro k' c hc
    have hne : k' ≠ k := by
      rintro rfl
      rw [hk] at hc
      cases hc
    rw [hheld k' hne]
    exact hc
  case fresh =>
    intro k' c hk' hc
    by_cases h : k' = k
    · subst h
      rw [hself] at hc
      obtain rfl := Option.some.inj hc
      exact hb
    · rw [hheld k' h, hk'] at hc
      cases hc
  case once =>
    intro k' k'' c hk' hc hc'
    by_cases h : k' = k
    · subst h
      rw [hself] at hc
      obtain rfl := Option.some.inj hc
      by_cases h' : k'' = k'
      · exact h'.symm
      · rw [hheld k'' h'] at hc'
        exact absurd (hl k'' b hc') hb
    · rw [hheld k' h, hk'] at hc
      cases hc
  case used =>
    intro c
    constructor
    case mp =>
      rintro (rfl | hu)
      · exact .inr ⟨k, hk, hself⟩
      · exact .inl hu
    case mpr =>
      rintro (hu | ⟨k', hk', hc⟩)
      · exact .inr hu
      · by_cases h : k' = k
        · subst h
          rw [hself] at hc
          exact .inl (Option.some.inj hc).symm
        · rw [hheld k' h, hk'] at hc
          cases hc

end Claim

end Ledgers
