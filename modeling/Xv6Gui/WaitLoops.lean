import Xv6Gui.GuardedRuns

/-!
# Loops that wait under a lock

The calls of several processes run in sections under one lock, and a section may leave its
process asleep inside its call. A section that changes the data wakes all who sleep there, or
leaves none of them a reason to go on.
-/
namespace WaitLoops

open GuardedRuns

variable {P A D R φ : Type} [DecidableEq P]

/-- What a section leaves behind; `call` is where its process goes on, none where it returns. -/
structure Turn (A D R : Type) where
  data : D
  call : Option A
  asleep : Bool
  wakes : Bool
  result : Option R

/-- The sections that a process may run, told whether it has been killed, and the calls that
it may begin. -/
structure Monitor (P A D R φ : Type) where
  turn : P → A → Bool → D → Except φ (Turn A D R)
  entry : A → Bool
  disabled : φ

structure State (P A D R : Type) where
  data : D
  call : P → Option A
  asleep : P → Bool
  killed : P → Bool
  returned : P → Option R

inductive Event (P A : Type) where
  | begin (p : P) (a : A)
  | run (p : P)
  | kill (p : P)

def start (P A R : Type) (d : D) : State P A D R :=
  ⟨d, fun _ => none, fun _ => false, fun _ => false, fun _ => none⟩

def State.leave (s : State P A D R) (p : P) (o : Turn A D R) : State P A D R where
  data := o.data
  call := Function.update s.call p o.call
  asleep q := if q = p then o.asleep else s.asleep q && !o.wakes
  killed := s.killed
  returned := Function.update s.returned p o.result

def step (M : Monitor P A D R φ) (s : State P A D R) : Event P A → Except φ (State P A D R)
  | .begin p a =>
    if (s.call p).isNone && M.entry a then .ok { s with call := Function.update s.call p (some a) }
    else .error M.disabled
  | .run p =>
    match s.call p with
    | none => .error M.disabled
    | some a =>
      if s.asleep p then .error M.disabled
      else do
        let o ← M.turn p a (s.killed p) s.data
        .ok (s.leave p o)
  | .kill p => .ok { s with
      killed := Function.update s.killed p true
      asleep := Function.update s.asleep p false }

/-- Who sleeps is blocked, and who makes a difference to the blocked wakes them. -/
structure Fair (M : Monitor P A D R φ) (Blocked : A → D → Prop) : Prop where
  sleeps : ∀ p a k d o, M.turn p a k d = .ok o → o.asleep = true →
    ∃ b, o.call = some b ∧ Blocked b o.data
  wakes : ∀ p a k d o b, M.turn p a k d = .ok o → o.wakes = false → Blocked b d →
    Blocked b o.data

section Runs

variable {M : Monitor P A D R φ} {Blocked : A → D → Prop} {s t : State P A D R} {p q : P}

theorem run_eq_ok (h : step M s (.run p) = .ok t) : ∃ a o, s.call p = some a ∧
    s.asleep p = false ∧ M.turn p a (s.killed p) s.data = .ok o ∧ t = s.leave p o := by
  simp only [step] at h
  split at h
  · cases h
  · rename_i a ha
    split at h
    · cases h
    · rename_i hs
      obtain ⟨o, ho, ht⟩ := bind_eq_ok.mp h
      cases ht
      exact ⟨a, o, ha, Bool.eq_false_iff.mpr hs, ho, rfl⟩

theorem begin_eq_ok {a : A} (h : step M s (.begin p a) = .ok t) : s.call p = none ∧
    M.entry a = true ∧ t = { s with call := Function.update s.call p (some a) } := by
  simp only [step] at h
  split at h
  · rename_i he
    obtain ⟨hn, he⟩ := Bool.and_eq_true_iff.mp he
    cases h
    exact ⟨Option.isNone_iff_eq_none.mp hn, he, rfl⟩
  · cases h

theorem leave_call_self {o : Turn A D R} : (s.leave p o).call p = o.call :=
  Function.update_self ..

theorem leave_call_of_ne {o : Turn A D R} (h : q ≠ p) : (s.leave p o).call q = s.call q :=
  Function.update_of_ne h ..

/-- Nobody sleeps without a reason. -/
def Rested (Blocked : A → D → Prop) (s : State P A D R) : Prop :=
  ∀ p, s.asleep p = true → ∃ a, s.call p = some a ∧ Blocked a s.data

theorem leave_rested (hM : Fair M Blocked) (h : Rested Blocked s) {a : A} {k : Bool}
    {o : Turn A D R} (ho : M.turn p a k s.data = .ok o) :
    Rested Blocked (s.leave p o) := by
  intro q hq
  by_cases hqp : q = p
  · subst hqp
    obtain ⟨b, hb, hblocked⟩ := hM.sleeps q a k s.data o ho (by simpa [State.leave] using hq)
    exact ⟨b, leave_call_self.trans hb, hblocked⟩
  · obtain ⟨hasleep, hwakes⟩ : s.asleep q = true ∧ o.wakes = false := by
      simpa [State.leave, hqp] using hq
    obtain ⟨b, hb, hblocked⟩ := h q hasleep
    exact ⟨b, (leave_call_of_ne hqp).trans hb,
      hM.wakes p a k s.data o b ho hwakes hblocked⟩

theorem step_rested (hM : Fair M Blocked) (h : Rested Blocked s) {e : Event P A}
    (ht : step M s e = .ok t) : Rested Blocked t := by
  cases e with
  | begin p a =>
    obtain ⟨hn, -, rfl⟩ := begin_eq_ok ht
    intro q hq
    obtain ⟨b, hb, hblocked⟩ := h q hq
    refine ⟨b, ?_, hblocked⟩
    refine (Function.update_of_ne ?_ ..).trans hb
    rintro rfl
    rw [hn] at hb
    cases hb
  | run p =>
    obtain ⟨a, o, -, -, ho, rfl⟩ := run_eq_ok ht
    exact leave_rested hM h ho
  | kill p =>
    cases ht
    intro q hq
    refine h q ?_
    by_cases hqp : q = p
    · subst hqp
      simp at hq
    · simpa [Function.update_of_ne hqp] using hq

/-- Whoever sleeps in a reachable state has still a reason to. -/
theorem reachable_rested (hM : Fair M Blocked) {d : D}
    (h : Reachable (step M) (start P A R d) s) : Rested Blocked s := by
  refine reachable_invariant (fun _ _ _ h ht => step_rested hM h ht) ?_ h
  intro p hp
  cases hp

end Runs

end WaitLoops
