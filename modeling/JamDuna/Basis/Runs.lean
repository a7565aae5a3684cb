/-
# Runs of a labelled transition system

A chain of blocks, a sequence of calls on a trie and a sequence of dispute
extrinsics are runs of a step relation whose labels are the inputs. `Run step s
as t` says that `t` is reached from `s` by the inputs `as`, in order.

`Run.invariant` is the rule every safety result of the development goes through:
a relation between the inputs so far and the state, true at the start and kept
by a step, holds of every run. `Run.preserves` is its form without the inputs, and
`Run.congr` compares the runs of two step relations under an invariant.

`Along step P s as` says that `P` holds of every input when its turn comes, for a step that may
fail. `along_congr` compares two such properties, step by step.
-/

import Mathlib.Tactic

namespace JamDuna.Basis

variable {σ α : Type} {step : σ → α → σ → Prop} {s t u : σ}

/-- `t` is reached from `s` by the inputs in the list, in order. -/
inductive Run (step : σ → α → σ → Prop) (s : σ) : List α → σ → Prop
  | refl : Run step s [] s
  | snoc {as : List α} {a : α} {t u : σ} : Run step s as t → step t a u → Run step s (as ++ [a]) u

theorem Run.single {a : α} (h : step s a t) : Run step s [a] t := Run.snoc .refl h

variable {as : List α}

/-- **The invariant rule.** What relates the empty history to the start and is
kept by a step relates every history to the state it leads to. -/
theorem Run.invariant {P : List α → σ → Prop} (h : Run step s as t) (h0 : P [] s)
    (hstep : ∀ as t a u, P as t → step t a u → P (as ++ [a]) u) : P as t := by
  induction h with
  | refl => exact h0
  | snoc _ hs ih => exact hstep _ _ _ _ ih hs

/-- A property of states that a step keeps holds at the end of a run when it
holds at its start. -/
theorem Run.preserves {P : σ → Prop} (h : Run step s as t)
    (hstep : ∀ t a u, step t a u → P t → P u) (hs : P s) : P t :=
  Run.invariant (P := fun _ t => P t) h hs fun _ _ _ _ ht hst => hstep _ _ _ hst ht

theorem Run.trans {bs : List α} (h : Run step s as t) (h' : Run step t bs u) :
    Run step s (as ++ bs) u := by
  induction h' with
  | refl => simpa using h
  | snoc _ hs ih => simpa [List.append_assoc] using Run.snoc ih hs

/-- Two steps that agree in the states with an invariant have the same runs from such
a state. -/
theorem Run.congr {step' : σ → α → σ → Prop} {I : σ → Prop} (hs : I s)
    (hkeep : ∀ t a u, I t → step t a u → I u) (h : ∀ t a u, I t → (step t a u ↔ step' t a u)) :
    Run step s as t ↔ Run step' s as t := by
  constructor
  · intro hrun
    suffices Run step' s as t ∧ I t from this.1
    induction hrun with
    | refl => exact ⟨.refl, hs⟩
    | snoc _ hst ih => exact ⟨.snoc ih.1 ((h _ _ _ ih.2).mp hst), hkeep _ _ _ ih.2 hst⟩
  · intro hrun
    suffices Run step s as t ∧ I t from this.1
    induction hrun with
    | refl => exact ⟨.refl, hs⟩
    | snoc _ hst ih =>
      have hst' := (h _ _ _ ih.2).mpr hst
      exact ⟨.snoc ih.1 hst', hkeep _ _ _ ih.2 hst'⟩

/-- A run computed by a partial step function is a run of every relation that
holds of its steps. -/
theorem Run.of_foldlM {f : σ → α → Option σ} (hf : ∀ s a t, f s a = some t → step s a t)
    (h : as.foldlM f s = some t) : Run step s as t := by
  induction as generalizing s with
  | nil =>
    obtain rfl : s = t := Option.some.inj h
    exact .refl
  | cons a as ih =>
    rw [List.foldlM_cons] at h
    obtain ⟨s', hs', h⟩ := Option.bind_eq_some_iff.mp h
    exact Run.trans (.single (hf s a s' hs')) (ih h)

theorem run_of_foldlM {f : σ → α → Option σ} (h : as.foldlM f s = some t) :
    Run (fun s a t => f s a = some t) s as t := Run.of_foldlM (fun _ _ _ h => h) h

variable {next : σ → α → Option σ} {P Q : σ → α → Prop}

/-- Every input has the property in the state that it meets. -/
def Along (next : σ → α → Option σ) (P : σ → α → Prop) : σ → List α → Prop
  | _, [] => True
  | s, a :: as => P s a ∧ ∀ t, next s a = some t → Along next P t as

/-- Two properties that agree in the states with an invariant, which they keep, agree along every
sequence of inputs. -/
theorem along_congr {I : σ → Prop} (h : ∀ s a, I s → (P s a ↔ Q s a))
    (hkeep : ∀ s a t, I s → P s a → next s a = some t → I t) {as : List α} (hs : I s) :
    Along next P s as ↔ Along next Q s as := by
  induction as generalizing s with
  | nil => exact Iff.rfl
  | cons a as ih =>
    constructor
    · rintro ⟨hP, hrest⟩
      exact ⟨(h s a hs).mp hP, fun t ht => (ih (hkeep s a t hs hP ht)).mp (hrest t ht)⟩
    · rintro ⟨hQ, hrest⟩
      have hP := (h s a hs).mpr hQ
      exact ⟨hP, fun t ht => (ih (hkeep s a t hs hP ht)).mpr (hrest t ht)⟩

/-- The last of the inputs, in the state that the others lead to. -/
theorem Along.last {as : List α} {a : α} (h : Along next P s (as ++ [a]))
    (hrun : as.foldlM next s = some t) : P t a := by
  induction as generalizing s with
  | nil =>
    cases hrun
    exact h.1
  | cons b as ih =>
    rw [List.foldlM_cons] at hrun
    obtain ⟨s', hs', hrun⟩ := Option.bind_eq_some_iff.mp hrun
    exact ih (h.2 s' hs') hrun

end JamDuna.Basis
