import Mathlib.Data.List.Basic

/-!
# Runs of a machine whose steps may fault

A step takes a state and an event to a next state or to a fault, and a fault ends the run.
`Along P` says that a run meets `P` at each step it takes, and `Stays good` that no step
faults or leaves `good`. An auxiliary invariant turns an equivalence of single steps into
an equivalence of whole runs; it is needed only where the guard has held so far.
-/
namespace GuardedRuns

universe u v

variable {σ ε : Type*} {φ : Type u} {α β : Type v}

@[simp] theorem ok_bind (a : α) (f : α → Except φ β) : (Except.ok a >>= f) = f a := rfl

@[simp] theorem error_bind (e : φ) (f : α → Except φ β) :
    (Except.error e >>= f) = Except.error e := rfl

@[simp] theorem pure_eq_ok (a : α) : (pure a : Except φ α) = .ok a := rfl

theorem bind_eq_ok {x : Except φ α} {f : α → Except φ β} {b : β} :
    x >>= f = .ok b ↔ ∃ a, x = .ok a ∧ f a = .ok b := by
  cases x with
  | error e => simp
  | ok a => simp

theorem bind_eq_error {x : Except φ α} {f : α → Except φ β} {e : φ} :
    x >>= f = .error e ↔ x = .error e ∨ ∃ a, x = .ok a ∧ f a = .error e := by
  cases x with
  | error e' => simp
  | ok a => simp

theorem map_eq_ok {x : Except φ α} {f : α → β} {b : β} :
    f <$> x = .ok b ↔ ∃ a, x = .ok a ∧ f a = b := by
  cases x with
  | error e => exact ⟨nofun, nofun⟩
  | ok a =>
    constructor
    · rintro ⟨⟩
      exact ⟨a, rfl, rfl⟩
    · rintro ⟨_, ⟨⟩, rfl⟩
      rfl

theorem bind_returns {x : Except φ α} {f : α → Except φ β} {a : α} (h : x = .ok a)
    (hf : ∃ b, f a = .ok b) : ∃ b, x >>= f = .ok b := by
  rw [h]
  exact hf

/-- A loop over a list returns if every round does, from what the rounds before have done. -/
theorem foldlM_returns {f : α → β → Except φ α} {P : List β → α → Prop} {l : List β}
    (hround : ∀ done b rest s, l = done ++ b :: rest → P done s →
      ∃ t, f s b = .ok t ∧ P (done ++ [b]) t) {s : α} (hs : P [] s) :
    ∃ t, l.foldlM f s = .ok t ∧ P l t := by
  have hsuffix : ∀ rest done s, l = done ++ rest → P done s →
      ∃ t, rest.foldlM f s = .ok t ∧ P l t := by
    intro rest
    induction rest with
    | nil =>
      intro done s hl hs
      rw [List.append_nil] at hl
      exact ⟨s, rfl, hl ▸ hs⟩
    | cons b rest ih =>
      intro done s hl hs
      obtain ⟨t, ht, hP⟩ := hround done b rest s hl hs
      rw [List.foldlM_cons, ht, ok_bind]
      exact ih (done ++ [b]) t (by rw [hl, List.append_assoc]; rfl) hP
  exact hsuffix l [] s rfl hs

/-- The run that takes the events in order and reaches the last state without a fault. -/
inductive Execution (step : σ → ε → Except φ σ) : σ → List ε → σ → Prop where
  | nil (s) : Execution step s [] s
  | cons {s t u e es} : step s e = .ok t → Execution step t es u → Execution step s (e :: es) u

def Reachable (step : σ → ε → Except φ σ) (initial s : σ) : Prop :=
  ∃ es, Execution step initial es s

/-- The state a run ends in, computed. -/
def run (step : σ → ε → Except φ σ) : σ → List ε → Except φ σ
  | s, [] => .ok s
  | s, e :: es => step s e >>= fun t => run step t es

/-- Every step the run takes meets `P`; nothing is asked after a fault. -/
def Along (step : σ → ε → Except φ σ) (P : σ → ε → Prop) : σ → List ε → Prop
  | _, [] => True
  | s, e :: es => P s e ∧ ∀ t, step s e = .ok t → Along step P t es

instance decidableAlong (step : σ → ε → Except φ σ) (P : σ → ε → Prop)
    [∀ s e, Decidable (P s e)] : ∀ s es, Decidable (Along step P s es)
  | _, [] => .isTrue trivial
  | s, e :: es =>
    match h : step s e with
    | .error _ => decidable_of_iff (P s e) (by simp [Along, h])
    | .ok t =>
      have := decidableAlong step P t es
      decidable_of_iff (P s e ∧ Along step P t es) (by simp [Along, h])

/-- No step of the run faults and every state of it is good. -/
def Stays (step : σ → ε → Except φ σ) (good : σ → Prop) (s : σ) (es : List ε) : Prop :=
  good s ∧ Along step (fun s e => ∃ t, step s e = .ok t ∧ good t) s es

/-- Every state the run visits is good; a fault ends the run without a further state. -/
def Visits (step : σ → ε → Except φ σ) (good : σ → Prop) (s : σ) (es : List ε) : Prop :=
  good s ∧ Along step (fun s e => ∀ t, step s e = .ok t → good t) s es

/-- What the steps of a run put out, one after another. -/
def emitted (step : σ → ε → Except φ σ) (out : σ → ε → List α) : σ → List ε → List α
  | _, [] => []
  | s, e :: es => out s e ++
    match step s e with
    | .error _ => []
    | .ok t => emitted step out t es

variable {step : σ → ε → Except φ σ}

theorem execution_of_run {σ : Type v} {step : σ → ε → Except φ σ} {s t : σ} {es : List ε}
    (h : run step s es = .ok t) : Execution step s es t := by
  induction es generalizing s with
  | nil =>
    cases h
    exact .nil _
  | cons e es ih =>
    obtain ⟨u, hu, ht⟩ := bind_eq_ok.mp h
    exact .cons hu (ih ht)

/-- Read a fact off a computed run. -/
theorem execution_of_map {σ : Type v} (step : σ → ε → Except φ σ) (s : σ) (es : List ε)
    (f : σ → β) {b : β} (h : (run step s es).map f = .ok b) :
    ∃ t, Execution step s es t ∧ f t = b := by
  cases hr : run step s es with
  | error e => simp [hr, Except.map] at h
  | ok t => exact ⟨t, execution_of_run hr, by simpa [hr, Except.map] using h⟩

theorem Execution.append {s t u : σ} {xs ys : List ε} (h : Execution step s xs t)
    (k : Execution step t ys u) : Execution step s (xs ++ ys) u := by
  induction h with
  | nil => exact k
  | cons h _ ih => exact .cons h (ih k)

theorem Execution.unique {s t u : σ} {es : List ε} (h : Execution step s es t)
    (k : Execution step s es u) : t = u := by
  induction h with
  | nil => cases k; rfl
  | cons h _ ih =>
    cases k with
    | cons k hk =>
      rw [h] at k
      cases k
      exact ih hk

theorem Reachable.tail {s₀ s t : σ} {e : ε} (h : Reachable step s₀ s)
    (ht : step s e = .ok t) : Reachable step s₀ t := by
  obtain ⟨es, h⟩ := h
  exact ⟨es ++ [e], h.append (.cons ht (.nil t))⟩

theorem execution_invariant {inv : σ → Prop}
    (hstep : ∀ s e t, inv s → step s e = .ok t → inv t) {s t : σ} {es : List ε}
    (h : Execution step s es t) (hs : inv s) : inv t := by
  induction h with
  | nil => exact hs
  | cons h _ ih => exact ih (hstep _ _ _ hs h)

/-- What holds initially and is kept by each step holds of every reachable state. -/
theorem reachable_invariant {inv : σ → Prop}
    (hstep : ∀ s e t, inv s → step s e = .ok t → inv t) {s₀ s : σ} (h₀ : inv s₀)
    (h : Reachable step s₀ s) : inv s := by
  obtain ⟨es, h⟩ := h
  exact execution_invariant hstep h h₀

/-- The two step properties need to agree only where the invariant and the caller's
obligation hold, and the invariant is used only after steps that met the guard. -/
theorem along_iff {inv : σ → Prop} {admissible P guard : σ → ε → Prop}
    (hiff : ∀ s e, inv s → admissible s e → (P s e ↔ guard s e))
    (hstep : ∀ s e t, inv s → admissible s e → guard s e → step s e = .ok t → inv t)
    {s : σ} {es : List ε} (hs : inv s) (ha : Along step admissible s es) :
    Along step P s es ↔ Along step guard s es := by
  induction es generalizing s with
  | nil => exact Iff.rfl
  | cons e es ih =>
    obtain ⟨hadm, hrest⟩ := ha
    have he := hiff s e hs hadm
    constructor
    · rintro ⟨hp, hp'⟩
      refine ⟨he.mp hp, ?_⟩
      intro t ht
      exact (ih (hstep s e t hs hadm (he.mp hp) ht) (hrest t ht)).mp (hp' t ht)
    · rintro ⟨hg, hg'⟩
      refine ⟨he.mpr hg, ?_⟩
      intro t ht
      exact (ih (hstep s e t hs hadm hg ht) (hrest t ht)).mpr (hg' t ht)

theorem along_of_forall {P : σ → ε → Prop} (h : ∀ s e, P s e) (s : σ) (es : List ε) :
    Along step P s es := by
  induction es generalizing s with
  | nil => trivial
  | cons e es ih => exact ⟨h s e, fun t _ => ih t⟩

theorem along_of_mem {P : ε → Prop} (s : σ) {es : List ε} (h : ∀ e ∈ es, P e) :
    Along step (fun _ e => P e) s es := by
  induction es generalizing s with
  | nil => trivial
  | cons e es ih =>
    obtain ⟨he, hes⟩ := List.forall_mem_cons.mp h
    exact ⟨he, fun t _ => ih t hes⟩

theorem Along.append {P : σ → ε → Prop} {s : σ} {xs ys : List ε} (h : Along step P s xs)
    (k : ∀ t, Execution step s xs t → Along step P t ys) : Along step P s (xs ++ ys) := by
  induction xs generalizing s with
  | nil => exact k s (.nil s)
  | cons e xs ih => exact ⟨h.1, fun t ht => ih (h.2 t ht) fun u hu => k u (.cons ht hu)⟩

theorem Along.left {P : σ → ε → Prop} {s : σ} {xs ys : List ε}
    (h : Along step P s (xs ++ ys)) : Along step P s xs := by
  induction xs generalizing s with
  | nil => trivial
  | cons e xs ih => exact ⟨h.1, fun t ht => ih (h.2 t ht)⟩

theorem Along.right {P : σ → ε → Prop} {s t : σ} {xs ys : List ε}
    (h : Along step P s (xs ++ ys)) (hx : Execution step s xs t) : Along step P t ys := by
  induction hx with
  | nil => exact h
  | cons he _ ih => exact ih (h.2 _ he)

theorem Along.reached {P : σ → ε → Prop} {s t : σ} {xs ys : List ε} {e : ε}
    (h : Along step P s (xs ++ e :: ys)) (hx : Execution step s xs t) : P t e :=
  (h.right hx).1

theorem Along.and {P Q : σ → ε → Prop} {s : σ} {es : List ε} (h : Along step P s es)
    (k : Along step Q s es) : Along step (fun s e => P s e ∧ Q s e) s es := by
  induction es generalizing s with
  | nil => trivial
  | cons e es ih => exact ⟨⟨h.1, k.1⟩, fun t ht => ih (h.2 t ht) (k.2 t ht)⟩

theorem stays_iff {inv good : σ → Prop} {admissible guard : σ → ε → Prop}
    (hgood : ∀ s, inv s → good s)
    (hiff : ∀ s e, inv s → admissible s e →
      ((∃ t, step s e = .ok t ∧ good t) ↔ guard s e))
    (hstep : ∀ s e t, inv s → admissible s e → guard s e → step s e = .ok t → inv t)
    {s : σ} {es : List ε} (hs : inv s) (ha : Along step admissible s es) :
    Stays step good s es ↔ Along step guard s es := by
  rw [← along_iff hiff hstep hs ha]
  exact ⟨And.right, fun h => ⟨hgood s hs, h⟩⟩

theorem visits_iff {inv good : σ → Prop} {admissible guard : σ → ε → Prop}
    (hgood : ∀ s, inv s → good s)
    (hiff : ∀ s e, inv s → admissible s e →
      ((∀ t, step s e = .ok t → good t) ↔ guard s e))
    (hstep : ∀ s e t, inv s → admissible s e → guard s e → step s e = .ok t → inv t)
    {s : σ} {es : List ε} (hs : inv s) (ha : Along step admissible s es) :
    Visits step good s es ↔ Along step guard s es := by
  rw [← along_iff hiff hstep hs ha]
  exact ⟨And.right, fun h => ⟨hgood s hs, h⟩⟩

/-- What each step from a state of the invariant meets, the whole run meets. -/
theorem along_of_invariant {inv : σ → Prop} {admissible P : σ → ε → Prop}
    (hP : ∀ s e, inv s → admissible s e → P s e)
    (hstep : ∀ s e t, inv s → admissible s e → step s e = .ok t → inv t)
    {s : σ} {es : List ε} (hs : inv s) (ha : Along step admissible s es) : Along step P s es := by
  induction es generalizing s with
  | nil => trivial
  | cons e es ih =>
    exact ⟨hP s e hs ha.1, fun t ht => ih (hstep s e t hs ha.1 ht) (ha.2 t ht)⟩

theorem visits_of_invariant {inv good : σ → Prop} {admissible : σ → ε → Prop}
    (hgood : ∀ s, inv s → good s)
    (hstep : ∀ s e t, inv s → admissible s e → step s e = .ok t → inv t)
    {s : σ} {es : List ε} (hs : inv s) (ha : Along step admissible s es) :
    Visits step good s es :=
  ⟨hgood s hs, along_of_invariant (fun s e h k t ht => hgood t (hstep s e t h k ht)) hstep hs ha⟩

/-- A run that stays good reaches only good states, whatever prefix of it is taken. -/
theorem Visits.reached {good : σ → Prop} {s t : σ} {xs ys : List ε}
    (h : Visits step good s (xs ++ ys)) (hx : Execution step s xs t) : good t := by
  induction hx with
  | nil => exact h.1
  | cons he _ ih =>
    obtain ⟨_, hg, hrest⟩ := h
    exact ih ⟨hg _ he, hrest _ he⟩

theorem Visits.last {good : σ → Prop} {s t : σ} {es : List ε} (h : Visits step good s es)
    (hx : Execution step s es t) : good t :=
  Visits.reached ((List.append_nil es).symm ▸ h) hx

theorem Along.mono {P Q : σ → ε → Prop} (h : ∀ s e, P s e → Q s e) {s : σ} {es : List ε}
    (hp : Along step P s es) : Along step Q s es := by
  induction es generalizing s with
  | nil => trivial
  | cons e es ih => exact ⟨h s e hp.1, fun t ht => ih (hp.2 t ht)⟩

theorem Stays.visits {good : σ → Prop} {s : σ} {es : List ε} (h : Stays step good s es) :
    Visits step good s es := by
  refine ⟨h.1, h.2.mono ?_⟩
  rintro s e ⟨t, ht, hg⟩ u hu
  rw [ht] at hu
  cases hu
  exact hg

/-- A run returns if every step does, and what a step establishes about its output holds of the
output of the run if it can be composed. -/
theorem run_emits {σ : Type v} {step : σ → ε → Except φ σ} {inv : σ → Prop}
    {out : σ → ε → List α} {R : σ → List α → σ → Prop} (hrefl : ∀ s, R s [] s)
    (htrans : ∀ s t u o o', R s o t → R t o' u → R s (o ++ o') u)
    (hstep : ∀ s e, inv s → ∃ t, step s e = .ok t ∧ inv t ∧ R s (out s e) t)
    {s : σ} (hs : inv s) (es : List ε) :
    ∃ t, run step s es = .ok t ∧ inv t ∧ R s (emitted step out s es) t := by
  induction es generalizing s with
  | nil => exact ⟨s, rfl, hs, hrefl s⟩
  | cons e es ih =>
    obtain ⟨t, ht, hinv, hR⟩ := hstep s e hs
    obtain ⟨u, hu, hinv', hR'⟩ := ih hinv
    refine ⟨u, ?_, hinv', ?_⟩
    · rw [run, ht, ok_bind]
      exact hu
    · simp only [emitted, ht]
      exact htrans _ _ _ _ _ hR hR'

/-- A run is followed, event by event, by one of another machine on what it puts out. -/
theorem emitted_simulates {σ : Type v} {τ : Type*} {ψ : Type*} {step : σ → ε → Except φ σ}
    {step' : τ → α → Except ψ τ} {inv : σ → Prop} {R : σ → τ → Prop} {P : τ → α → Prop}
    {out : σ → ε → List α} (hinv : ∀ s e t, inv s → step s e = .ok t → inv t)
    (hstep : ∀ s e t u, inv s → step s e = .ok t → R s u →
      ∃ v, Execution step' u (out s e) v ∧ Along step' P u (out s e) ∧ R t v)
    {s t : σ} {es : List ε} (h : Execution step s es t) (hs : inv s) {u : τ} (hR : R s u) :
    ∃ v, Execution step' u (emitted step out s es) v ∧
      Along step' P u (emitted step out s es) ∧ R t v := by
  induction h generalizing u with
  | nil => exact ⟨u, .nil u, trivial, hR⟩
  | cons ht _ ih =>
    obtain ⟨v, hv, hP, hRv⟩ := hstep _ _ _ u hs ht hR
    obtain ⟨w, hw, hP', hRw⟩ := ih (hinv _ _ _ hs ht) hRv
    simp only [emitted, ht]
    refine ⟨w, hv.append hw, hP.append fun x hx => ?_, hRw⟩
    cases hv.unique hx
    exact hP'

end GuardedRuns
