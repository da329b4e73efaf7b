import Mathlib.Data.List.Basic

/-!
# Runs of a machine that answers each input

A step takes a state and an input to an output and a next state. Two machines whose states
are related and whose answers agree give the same outputs on every sequence of inputs, and
a machine that takes its inputs in batches gives the outputs of the one that does not.
-/
namespace TransducerRuns

variable {σ τ ι ω : Type*}

/-- The state after a sequence of inputs. -/
def final (step : σ → ι → ω × σ) : σ → List ι → σ
  | s, [] => s
  | s, i :: is => final step (step s i).2 is

/-- The answers to a sequence of inputs, in order. -/
def outputs (step : σ → ι → ω × σ) : σ → List ι → List ω
  | _, [] => []
  | s, i :: is => (step s i).1 :: outputs step (step s i).2 is

variable {step : σ → ι → ω × σ} {step' : τ → ι → ω × τ}

theorem final_append (s : σ) (is js : List ι) :
    final step s (is ++ js) = final step (final step s is) js := by
  induction is generalizing s with
  | nil => rfl
  | cons i is ih => exact ih (step s i).2

theorem outputs_append (s : σ) (is js : List ι) :
    outputs step s (is ++ js) = outputs step s is ++ outputs step (final step s is) js := by
  induction is generalizing s with
  | nil => rfl
  | cons i is ih => rw [List.cons_append, outputs, outputs, ih, final, List.cons_append]

/-- One step takes a whole batch of inputs and gives all their answers. -/
def batch (step : σ → ι → ω × σ) (s : σ) (is : List ι) : List ω × σ :=
  (outputs step s is, final step s is)

/-- How the inputs are split into batches shows neither in the answers nor in the state. -/
theorem batch_flatten (s : σ) (iss : List (List ι)) :
    (outputs (batch step) s iss).flatten = outputs step s iss.flatten ∧
      final (batch step) s iss = final step s iss.flatten := by
  induction iss generalizing s with
  | nil => exact ⟨rfl, rfl⟩
  | cons is iss ih =>
    obtain ⟨ho, hf⟩ := ih (final step s is)
    constructor
    · rw [List.flatten_cons, outputs_append, ← ho]
      rfl
    · rw [List.flatten_cons, final_append, ← hf]
      rfl

/-- Related states that give equal answers and step to related states stay so. -/
theorem simulation {R : σ → τ → Prop}
    (hstep : ∀ s t i, R s t → (step s i).1 = (step' t i).1 ∧ R (step s i).2 (step' t i).2)
    {s : σ} {t : τ} (h : R s t) (is : List ι) :
    outputs step s is = outputs step' t is ∧ R (final step s is) (final step' t is) := by
  induction is generalizing s t with
  | nil => exact ⟨rfl, h⟩
  | cons i is ih =>
    obtain ⟨ho, hn⟩ := hstep s t i h
    obtain ⟨hos, hr⟩ := ih hn
    exact ⟨by rw [outputs, outputs, ho, hos], hr⟩

end TransducerRuns
