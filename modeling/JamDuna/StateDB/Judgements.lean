/-
# Filing the verdicts

What `verdict2result`, `sortSet` and `sortSet_Prime` of `statedb/disputes.go`
do to the three judgement sets. `judged k` lists the reports with exactly `k`
positive votes; the sets grow by `judged 0`, `judged 2` and `judged 5`, and are
sorted afterwards (`fileAll_verdict2result`). For the extrinsic alone, whose
verdicts are in order already, the sets are those lists themselves
(`sortSetPrime_badSet`, `sortSetPrime_goodSet`).
-/

import JamDuna.StateDB.DisputeChecks

namespace JamDuna.StateDB

open JamDuna.Types JamDuna.Basis

/-- The reports with exactly `k` positive votes, in the order of the
verdicts. -/
def judged (k : ℕ) (v : List Verdict) : List Hash := (v.filter (·.positiveCount = k)).map (·.target)

theorem mem_judged {k : ℕ} {v : List Verdict} {h : Hash} :
    h ∈ judged k v ↔ ∃ x ∈ v, x.positiveCount = k ∧ x.target = h := by
  simp [judged, and_assoc]

/-- `judged` keeps the order of the verdicts. -/
theorem judged_sublist (k : ℕ) (v : List Verdict) : (judged k v).Sublist (v.map (·.target)) :=
  List.filter_sublist.map _

theorem judged_cons (k : ℕ) (x : Verdict) (v : List Verdict) :
    judged k (x :: v) = if x.positiveCount = k then x.target :: judged k v else judged k v := by
  unfold judged
  split_ifs with h <;> simp [h]

/-- Filing the results appends each of the three lists to its set. -/
theorem foldl_file (s : DisputeState) (v : List Verdict) :
    (verdict2result v).foldl DisputeState.file s = { s with
        badSet := s.badSet ++ judged 0 v
        wonkySet := s.wonkySet ++ judged wonkyTrueThreshold v
        goodSet := s.goodSet ++ judged validatorsSuperMajority v } := by
  induction v generalizing s with
  | nil => simp [verdict2result, judged]
  | cons x v ih =>
    have hcons : verdict2result (x :: v) = ⟨x.target, x.positiveCount⟩ :: verdict2result v := rfl
    rw [hcons, List.foldl_cons, ih]
    simp only [DisputeState.file, judged_cons, validatorsSuperMajority, wonkyTrueThreshold,
      totalValidators]
    -- the three counts are different numbers, so at most one list takes the report
    split_ifs <;> first | omega | simp [List.append_assoc]

/-- **What `sortSet` does to the judgement sets.** -/
theorem fileAll_verdict2result (s : DisputeState) (v : List Verdict) :
    s.fileAll (verdict2result v) = { s with
        badSet := exchangeSort (s.badSet ++ judged 0 v)
        wonkySet := exchangeSort (s.wonkySet ++ judged wonkyTrueThreshold v)
        goodSet := exchangeSort (s.goodSet ++ judged validatorsSuperMajority v) } := by
  simp [DisputeState.fileAll, foldl_file, sortByHash]

variable {v : List Verdict} (h : (v.map (·.target)).Pairwise (· < ·))
include h

/-- Verdicts in order are judged into lists in order. -/
theorem judged_sorted (k : ℕ) : (judged k v).Pairwise (· < ·) := h.sublist (judged_sublist k v)

theorem exchangeSort_judged (k : ℕ) : exchangeSort (judged k v) = judged k v :=
  exchangeSort_eq_self ((judged_sorted h k).imp le_of_lt)

theorem sortSetPrime_badSet : (sortSetPrime (verdict2result v)).badSet = judged 0 v := by
  simp [sortSetPrime, fileAll_verdict2result, exchangeSort_judged h]

theorem sortSetPrime_goodSet :
    (sortSetPrime (verdict2result v)).goodSet = judged validatorsSuperMajority v := by
  simp [sortSetPrime, fileAll_verdict2result, exchangeSort_judged h]

/-- Of verdicts in order, each report has one verdict. -/
theorem verdict_eq_of_target_eq {x y : Verdict} (hx : x ∈ v) (hy : y ∈ v)
    (hxy : x.target = y.target) : x = y :=
  List.inj_on_of_nodup_map (h.imp fun hab => ne_of_lt hab) hx hy hxy

/-- A report is judged with one count only. -/
theorem judged_disjoint {k k' : ℕ} (hk : k ≠ k') : (judged k v).Disjoint (judged k' v) := by
  intro t ht ht'
  obtain ⟨x, hx, hxk, hxt⟩ := mem_judged.mp ht
  obtain ⟨y, hy, hyk, hyt⟩ := mem_judged.mp ht'
  have hxy := verdict_eq_of_target_eq h hx hy (hxt.trans hyt.symm)
  exact hk (by rw [← hxk, ← hyk, hxy])

end JamDuna.StateDB
