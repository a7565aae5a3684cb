/-
# Machines that answer calls

A machine takes a call, answers it and goes on in another state. `answers` are its answers
to a list of calls, `after` is the state it is left in.

`answers_eq_of_simulation` is the rule by which one machine is shown to implement another:
a relation between their states, kept by every call of some kind and enough for equal
answers, gives equal answers to all lists of such calls.
-/

import Mathlib.Tactic

namespace JamDuna.Basis

variable {σ τ ι ω : Type} {step : σ → ι → ω × σ} {step' : τ → ι → ω × τ} {allowed : ι → Prop}

/-- The answers to a list of calls. -/
def answers (step : σ → ι → ω × σ) : σ → List ι → List ω
  | _, [] => []
  | s, i :: is => (step s i).1 :: answers step (step s i).2 is

/-- The state after a list of calls. -/
def after (step : σ → ι → ω × σ) (s : σ) (calls : List ι) : σ :=
  calls.foldl (fun s i => (step s i).2) s

variable {s : σ} {calls : List ι}

/-- **The simulation rule.** -/
theorem answers_eq_of_simulation {R : σ → τ → Prop} (hstep : ∀ s t i, allowed i → R s t →
      (step s i).1 = (step' t i).1 ∧ R (step s i).2 (step' t i).2)
    {t : τ} (h : R s t) (hcalls : ∀ i ∈ calls, allowed i) :
    answers step s calls = answers step' t calls := by
  induction calls generalizing s t with
  | nil => rfl
  | cons i is ih =>
    obtain ⟨hi, his⟩ := List.forall_mem_cons.mp hcalls
    obtain ⟨hanswer, hnext⟩ := hstep s t i hi h
    rw [answers, answers, hanswer, ih hnext his]

/-- What every call of some kind keeps holds after a list of them. -/
theorem after_invariant {I : σ → Prop} (hstep : ∀ s i, allowed i → I s → I (step s i).2)
    (h : I s) (hcalls : ∀ i ∈ calls, allowed i) : I (after step s calls) := by
  induction calls generalizing s with
  | nil => exact h
  | cons i is ih =>
    obtain ⟨hi, his⟩ := List.forall_mem_cons.mp hcalls
    exact ih (hstep s i hi h) his

end JamDuna.Basis
