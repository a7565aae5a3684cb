/-
# The weight of a finite map

A map with finitely many entries weighs the sum of what its entries weigh. Changing
one entry changes the weight by the difference of the two (`mapWeight_update`), so a
counter that is moved along with every change keeps equal to the weight.
-/

import Mathlib.Algebra.BigOperators.Finprod
import Mathlib.Tactic

namespace JamDuna.Basis

open Function Finset

variable {κ β : Type*}

/-- What an entry weighs, if there is one. -/
def entryWeight (w : κ → β → ℕ) (k : κ) (v : Option β) : ℕ := v.elim 0 (w k)

@[simp] theorem entryWeight_none (w : κ → β → ℕ) (k : κ) : entryWeight w k none = 0 := rfl

@[simp] theorem entryWeight_some (w : κ → β → ℕ) (k : κ) (v : β) :
    entryWeight w k (some v) = w k v := rfl

/-- The keys of a map. -/
def keys (f : κ → Option β) : Set κ := {k | f k ≠ none}

/-- The sum of the weights of all entries. -/
noncomputable def mapWeight (w : κ → β → ℕ) (f : κ → Option β) : ℕ := ∑ᶠ k, entryWeight w k (f k)

theorem support_entryWeight_finite {f : κ → Option β} (hf : (keys f).Finite) (w : κ → β → ℕ) :
    (support fun k => entryWeight w k (f k)).Finite := by
  refine hf.subset fun k hk hnone => hk ?_
  simp only [hnone, entryWeight_none]

/-- Replacing one value of a function changes its sum by the difference. -/
theorem finsum_update_add [DecidableEq κ] {g : κ → ℕ} (hg : g.support.Finite) (k : κ) (x : ℕ) :
    (∑ᶠ i, update g k x i) + g k = (∑ᶠ i, g i) + x := by
  have hsub : support g ⊆ (insert k hg.toFinset : Finset κ) := by
    intro i hi
    exact mem_coe.mpr (mem_insert_of_mem (hg.mem_toFinset.mpr hi))
  have hsub' : support (update g k x) ⊆ (insert k hg.toFinset : Finset κ) := by
    intro i hi
    by_cases hik : i = k
    · rw [hik]
      exact mem_coe.mpr (mem_insert_self k _)
    · rw [mem_support, update_of_ne hik] at hi
      exact hsub hi
  rw [finsum_eq_sum_of_support_subset _ hsub, finsum_eq_sum_of_support_subset _ hsub',
    sum_update_of_mem (mem_insert_self k _)]
  have hsplit := add_sum_erase (insert k hg.toFinset) g (mem_insert_self k _)
  rw [erase_eq] at hsplit
  omega

/-- An entry weighs no more than the map. -/
theorem entryWeight_le_mapWeight (w : κ → β → ℕ) {f : κ → Option β} (hf : (keys f).Finite)
    (k : κ) : entryWeight w k (f k) ≤ mapWeight w f :=
  single_le_finsum k (support_entryWeight_finite hf w) fun _ => Nat.zero_le _

variable [DecidableEq κ] {f : κ → Option β}

theorem keys_update_finite (hf : (keys f).Finite) (k : κ) (v : Option β) :
    (keys (update f k v)).Finite := by
  refine (hf.insert k).subset fun i hi => ?_
  by_cases hik : i = k
  · exact .inl hik
  · have hne : update f k v i ≠ none := hi
    rw [update_of_ne hik] at hne
    exact .inr hne

/-- **The weight after one change.** -/
theorem mapWeight_update (w : κ → β → ℕ) (hf : (keys f).Finite) (k : κ) (v : Option β) :
    mapWeight w (update f k v) + entryWeight w k (f k) = mapWeight w f + entryWeight w k v := by
  have hcomp : (fun i => entryWeight w i (update f k v i)) =
      update (fun i => entryWeight w i (f i)) k (entryWeight w k v) := by
    funext i
    by_cases hik : i = k
    · subst hik
      rw [update_self, update_self]
    · rw [update_of_ne hik, update_of_ne hik]
  rw [mapWeight, hcomp]
  exact finsum_update_add (support_entryWeight_finite hf w) k _

end JamDuna.Basis
