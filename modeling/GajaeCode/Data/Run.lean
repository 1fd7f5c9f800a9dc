import Mathlib

/-! Runs of a deterministic machine: a step per input, properties that every step of a run has in the state it meets,
and the induction over runs. -/
namespace GajaeCode.Data

variable {σ ι : Type*}

def run (step : σ → ι → σ) (state : σ) (inputs : List ι) : σ := inputs.foldl step state

/-- Every step of the run has the property in the state it meets. -/
def Along (step : σ → ι → σ) (P : σ → ι → Prop) : σ → List ι → Prop
  | _, [] => True
  | state, input :: rest => P state input ∧ Along step P (step state input) rest

variable {step : σ → ι → σ} {P Q : σ → ι → Prop} {state : σ} {before after inputs : List ι}

@[simp] theorem run_nil : run step state [] = state := rfl

@[simp] theorem run_cons {input} : run step state (input :: inputs) = run step (step state input) inputs := rfl

@[simp] theorem run_append : run step state (before ++ after) = run step (run step state before) after :=
  List.foldl_append

/-- The rule for runs: what every step with the property keeps, holds at the end of a run of such steps. -/
theorem run_induction {I : σ → Prop} (hstep : ∀ state input, I state → P state input → I (step state input))
    (h : I state) (halong : Along step P state inputs) : I (run step state inputs) := by
  induction inputs generalizing state with
  | nil => exact h
  | cons input rest ih => exact ih (hstep state input h halong.1) halong.2

theorem run_invariant {I : σ → Prop} (hstep : ∀ state input, I state → I (step state input)) (h : I state)
    (inputs : List ι) : I (run step state inputs) := by
  induction inputs generalizing state with
  | nil => exact h
  | cons input rest ih => exact ih (hstep state input h)

end GajaeCode.Data
