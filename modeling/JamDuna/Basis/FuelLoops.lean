/-
# Loops with a bound on the rounds

A loop that may run for ever is a function of its state that says what a round does
(`Round`), iterated as often as the fuel allows (`loop`). Its result is that of a round at
the head of the loop (`reached_of_loop`), where an invariant holds (`Reached.invariant`); a
measure that falls in every round gives the fuel that is enough (`loop_returns`).
-/

import Mathlib.Tactic

namespace JamDuna.Basis

variable {σ ρ : Type}

/-- What a round of a loop does: it goes on with a state, or it ends with a result. -/
inductive Round (σ ρ : Type) where
  | next (s : σ)
  | done (r : ρ)

/-- The loop, for at most so many rounds. -/
def loop (round : σ → Round σ ρ) : ℕ → σ → Option ρ
  | 0, _ => none
  | fuel + 1, s =>
    match round s with
    | .next s' => loop round fuel s'
    | .done r => some r

/-- A state at the head of the loop. -/
def Reached (round : σ → Round σ ρ) : σ → σ → Prop :=
  Relation.ReflTransGen fun s s' => round s = .next s'

variable {round : σ → Round σ ρ} {s : σ}

theorem Reached.refl : Reached round s s := Relation.ReflTransGen.refl

theorem Reached.next {t u : σ} (h : Reached round s t) (hround : round t = .next u) :
    Reached round s u := Relation.ReflTransGen.tail h hround

/-- What holds at the start and is kept by a round holds at the head of the loop. -/
theorem Reached.invariant {P : σ → Prop} {t : σ} (h : Reached round s t) (hs : P s)
    (hnext : ∀ t u, Reached round s t → P t → round t = .next u → P u) : P t := by
  induction h with
  | refl => exact hs
  | tail hreached hround ih => exact hnext _ _ hreached ih hround

/-- The result of a loop is the result of a round from a state at its head. -/
theorem reached_of_loop {fuel : ℕ} {r : ρ} (h : loop round fuel s = some r) :
    ∃ t, Reached round s t ∧ round t = .done r := by
  induction fuel generalizing s with
  | zero => cases h
  | succ fuel ih =>
    unfold loop at h
    split at h
    · next s' hround =>
      obtain ⟨t, hreached, hdone⟩ := ih h
      exact ⟨t, Relation.ReflTransGen.head hround hreached, hdone⟩
    · next r' hround =>
      cases h
      exact ⟨s, .refl, hround⟩

/-- **A loop whose measure falls in every round returns** within as many rounds. -/
theorem loop_returns {P : σ → Prop} (measure : σ → ℕ) (hs : P s)
    (hnext : ∀ t u, P t → round t = .next u → P u ∧ measure u < measure t) :
    ∃ r, loop round (measure s + 1) s = some r := by
  suffices ∀ fuel t, P t → measure t < fuel → ∃ r, loop round fuel t = some r from
    this _ s hs (Nat.lt_succ_self _)
  intro fuel
  induction fuel with
  | zero => exact fun t _ hfuel => absurd hfuel (Nat.not_lt_zero _)
  | succ fuel ih =>
    intro t ht hfuel
    unfold loop
    split
    · next u hround =>
      obtain ⟨hu, hless⟩ := hnext t u ht hround
      exact ih u hu (by omega)
    · next r _ => exact ⟨r, rfl⟩

end JamDuna.Basis
