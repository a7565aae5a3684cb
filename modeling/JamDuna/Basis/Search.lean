/-
# Searching along a step function

`search taken next n i` looks at `i`, `next i`, `next (next i)` and so on for something
that is not taken, at most `n` times. What it finds is the first such thing on the way
(`search_spec`), and it finds something as soon as the way passes anything that is free.
-/

import Mathlib.Logic.Function.Iterate
import Mathlib.Tactic

namespace JamDuna.Basis

variable {α : Type} {taken : α → Bool} {next : α → α}

/-- The loop that goes on while something is taken, for at most so many rounds. -/
def search (taken : α → Bool) (next : α → α) : ℕ → α → Option α
  | 0, _ => none
  | n + 1, i => if taken i then search taken next n (next i) else some i

/-- **What is found** is the first on the way that is not taken. -/
theorem search_spec {n : ℕ} {i j : α} (h : search taken next n i = some j) :
    ∃ k < n, next^[k] i = j ∧ taken j = false ∧ ∀ l < k, taken (next^[l] i) = true := by
  induction n generalizing i with
  | zero => cases h
  | succ n ih =>
    rw [search] at h
    split_ifs at h with hi
    · obtain ⟨k, hk, hj, hfree, hbefore⟩ := ih h
      refine ⟨k + 1, by omega, hj, hfree, fun l hl => ?_⟩
      cases l with
      | zero => exact hi
      | succ l => exact hbefore l (by omega)
    · cases h
      exact ⟨0, by omega, rfl, by simpa using hi, by omega⟩

/-- **A search that passes something free ends.** -/
theorem exists_search_eq_some {n k : ℕ} {i : α} (hk : k < n) (h : taken (next^[k] i) = false) :
    ∃ j, search taken next n i = some j := by
  induction n generalizing i k with
  | zero => omega
  | succ n ih =>
    rw [search]
    split_ifs with hi
    · cases k with
      | zero =>
        rw [Function.iterate_zero_apply, hi] at h
        cases h
      | succ k => exact ih (show k < n by omega) h
    · exact ⟨i, rfl⟩

end JamDuna.Basis
