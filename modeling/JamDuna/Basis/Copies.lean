/-
# Copies of a ledger

A ledger gives every key an amount. Several workers each change a copy of it, and the copies
are merged key by key. If no key gains more by the merge than it gained in all copies
together, the sum of the merged ledger exceeds that of the base by no more than the copies
did together (`finsum_merge_le`). For one key it is enough to name a copy that accounts for
the merged amount when no other copy has lost anything there (`le_sum_of_mem`).
-/

import Mathlib.Algebra.BigOperators.Finprod
import Mathlib.Tactic

namespace JamDuna.Basis

open List

variable {κ ι : Type}

instance finite_uint32 : Finite UInt32 :=
  Finite.of_injective UInt32.toFin fun _ _ h => UInt32.toFin_inj.mp h

variable {f : ι → ℤ} {rs : List ι}

theorem sum_nonneg_of_forall (h : ∀ r ∈ rs, 0 ≤ f r) : 0 ≤ (rs.map f).sum := by
  refine sum_nonneg fun x hx => ?_
  obtain ⟨r, hr, rfl⟩ := mem_map.mp hx
  exact h r hr

/-- One term of a sum, when no other is negative. -/
theorem le_sum_of_mem {before after : List ι} {r : ι}
    (h : ∀ r' ∈ before ++ after, 0 ≤ f r') : f r ≤ ((before ++ r :: after).map f).sum := by
  have hbefore := sum_nonneg_of_forall fun r' hr' => h r' (mem_append_left _ hr')
  have hafter := sum_nonneg_of_forall fun r' hr' => h r' (mem_append_right _ hr')
  rw [map_append, sum_append, map_cons, sum_cons]
  omega

/-- The sum over the keys of what several copies gained. -/
theorem sum_gains [Fintype κ] (base : κ → ℤ) (copy : ι → κ → ℤ) (rs : List ι) :
    ∑ k, (rs.map fun r => copy r k - base k).sum =
      (rs.map fun r => (∑ k, copy r k) - ∑ k, base k).sum := by
  induction rs with
  | nil => simp
  | cons r rs ih =>
    simp only [map_cons, sum_cons]
    rw [Finset.sum_add_distrib, Finset.sum_sub_distrib, ih]

/-- **The sum of a merged ledger.** -/
theorem finsum_merge_le [Finite κ] {base merged : κ → ℕ} {copy : ι → κ → ℕ}
    (h : ∀ k, (merged k : ℤ) ≤ base k + (rs.map fun r => (copy r k : ℤ) - base k).sum) :
    ((∑ᶠ k, merged k : ℕ) : ℤ) ≤ (∑ᶠ k, base k : ℕ) +
      (rs.map fun r => ((∑ᶠ k, copy r k : ℕ) : ℤ) - (∑ᶠ k, base k : ℕ)).sum := by
  cases nonempty_fintype κ
  simp only [finsum_eq_sum_of_fintype]
  push_cast
  rw [← sum_gains (fun k => (base k : ℤ)) (fun r k => (copy r k : ℤ)) rs, ← Finset.sum_add_distrib]
  exact Finset.sum_le_sum fun k _ => h k

end JamDuna.Basis
