/-
# The judgement sets along a run

The three sets of `DisputeState` (`statedb/disputes.go`) are seen here as one
map from a `Judgement` to the reports that have it. `Judged` is the invariant of
a run: each set is strictly sorted, holds exactly the reports whose verdict had
the matching count, and no report has two judgements. `Judged.step` shows that
an accepted extrinsic keeps it.

`clearReportAvailabilityAssignments` is tied to the sets by
`Accepts.core_cleared`: the cores that lose their report are those whose report
enters the bad or the wonky set.
-/

import JamDuna.StateDB.DisputeRuns

namespace JamDuna.StateDB

open JamDuna.Types JamDuna.Basis List JamState

variable {ed25519Verify : Ed25519Key → Bytes → Ed25519Signature → Bool}
  {reportHash : WorkReport → Hash}

/-- The three judgements of a report. -/
inductive Judgement where
  | good
  | bad
  | wonky
  deriving DecidableEq, Repr

/-- The number of positive votes that leads to a judgement. -/
def Judgement.count : Judgement → ℕ
  | good => validatorsSuperMajority
  | bad => 0
  | wonky => wonkyTrueThreshold

theorem Judgement.count_injective : Function.Injective Judgement.count := by
  intro q q' h
  cases q <;> cases q' <;> first | rfl | exact absurd h (by decide)

/-- The reports with a given judgement. -/
def DisputeState.reports (s : DisputeState) : Judgement → List Hash
  | .good => s.goodSet
  | .bad => s.badSet
  | .wonky => s.wonkySet

variable {j j' : JamState} {d : Dispute} {ds : List Dispute}

/-- An accepted verdict has the count of some judgement. -/
theorem Accepted.exists_judgement (h : Accepted ed25519Verify j d)
    {v : Verdict} (hv : v ∈ d.verdict) : ∃ q : Judgement, v.positiveCount = q.count := by
  rcases h.votes_count v hv with hc | hc | hc
  · exact ⟨.bad, hc⟩
  · exact ⟨.good, hc⟩
  · exact ⟨.wonky, hc⟩

theorem Accepted.not_mem_reports (h : Accepted ed25519Verify j d)
    (q : Judgement) {k : ℕ} {t : Hash} (ht : t ∈ judged k d.verdict) :
    t ∉ j.disputesState.reports q := by
  obtain ⟨v, hv, -, rfl⟩ := mem_judged.mp ht
  obtain ⟨hgood, hbad, hwonky⟩ := h.verdicts_new v hv
  cases q <;> assumption

/-- An accepted extrinsic adds to each set the reports judged so, and sorts. -/
theorem Accepts.reports_eq (h : Accepts ed25519Verify reportHash j d j') (q : Judgement) :
    j'.disputesState.reports q =
      exchangeSort (j.disputesState.reports q ++ judged q.count d.verdict) := by
  rw [h.disputesState_eq.2]
  cases q <;> rfl

theorem Accepts.mem_reports_iff
    (h : Accepts ed25519Verify reportHash j d j') (q : Judgement) (t : Hash) :
    t ∈ j'.disputesState.reports q ↔
      t ∈ j.disputesState.reports q ∨ t ∈ judged q.count d.verdict := by
  rw [h.reports_eq, mem_exchangeSort, mem_append]

/-- The judgement sets after the extrinsics `ds`. -/
structure Judged (ds : List Dispute) (s : DisputeState) : Prop where
  sorted : ∀ q, (s.reports q).Pairwise (· < ·)
  mem_iff : ∀ q t, t ∈ s.reports q ↔ ∃ d ∈ ds, t ∈ judged q.count d.verdict
  disjoint : ∀ q q', q ≠ q' → (s.reports q).Disjoint (s.reports q')

theorem Judged.empty : Judged [] {} := by
  refine ⟨fun q => ?_, fun q t => ?_, fun q q' _ => ?_⟩ <;> cases q <;> simp [DisputeState.reports]

/-- **An accepted extrinsic keeps the judgement sets sorted, exact and
disjoint.** -/
theorem Judged.step (hj : Judged ds j.disputesState) (h : Accepts ed25519Verify reportHash j d j') :
    Judged (ds ++ [d]) j'.disputesState := by
  have ha := h.disputesState_eq.1
  refine ⟨fun q => ?_, fun q t => ?_, fun q q' hne t ht ht' => ?_⟩
  · rw [h.reports_eq, exchangeSort_strict_iff, nodup_append']
    refine ⟨(hj.sorted q).imp fun hab => ne_of_lt hab,
      (judged_sorted ha.verdicts_sorted _).imp fun hab => ne_of_lt hab, fun t ht hnew => ?_⟩
    exact ha.not_mem_reports q hnew ht
  · rw [h.mem_reports_iff, hj.mem_iff]
    simp only [mem_append, mem_singleton, or_and_right, exists_or, exists_eq_left]
  · rw [h.mem_reports_iff] at ht ht'
    rcases ht with ht | ht <;> rcases ht' with ht' | ht'
    · exact hj.disjoint q q' hne ht ht'
    · exact ha.not_mem_reports q ht' ht
    · exact ha.not_mem_reports q' ht ht'
    · exact judged_disjoint ha.verdicts_sorted (Judgement.count_injective.ne hne) ht ht'

/-- The judgement sets along a run. -/
theorem judged_of_run {j₀ : JamState} (h₀ : j₀.disputesState = {})
    (h : Run (DisputeStep ed25519Verify reportHash) j₀ ds j) : Judged ds j.disputesState := by
  refine h.invariant (P := fun ds j => Judged ds j.disputesState) (h₀ ▸ Judged.empty) ?_
  rintro ds j d j' hj ⟨i, hi, hacc⟩
  exact Judged.step (hi ▸ hj) hacc

theorem reports_subset (h : Run (DisputeStep ed25519Verify reportHash) j ds j') (q : Judgement) :
    j.disputesState.reports q ⊆ j'.disputesState.reports q := by
  refine h.preserves (P := fun i => j.disputesState.reports q ⊆ i.disputesState.reports q) ?_
    (Subset.refl _)
  rintro i d i' ⟨m, hm, hacc⟩ hsub t ht
  exact (hacc.mem_reports_iff q t).mpr (.inl (hm ▸ hsub ht))

/-- The report enters the bad or the wonky set between the two states. -/
def NewlyCondemned (s s' : DisputeState) (t : Hash) : Prop :=
  (t ∈ s'.badSet ∧ t ∉ s.badSet) ∨ (t ∈ s'.wonkySet ∧ t ∉ s.wonkySet)

/-- The inner loop clears a core when some result is about its report and short
of a supermajority. -/
theorem clearCore_some (results : List VerdictResult) (a : CoreState) :
    clearCore reportHash results (some a) =
      if ∃ h ∈ results, reportHash a.workReport = h.workReportHash ∧
        h.positveCount < totalValidators * 2 / 3 then none else some a :=
  foldl_ite_const (fun h : VerdictResult => reportHash a.workReport = h.workReportHash ∧
    h.positveCount < totalValidators * 2 / 3) none (some a) results

/-- A report is newly condemned exactly when its verdict is short of a
supermajority. -/
theorem Accepts.newlyCondemned_iff {j j' : JamState} {d : Dispute}
    (h : Accepts ed25519Verify reportHash j d j') (t : Hash) :
    NewlyCondemned j.disputesState j'.disputesState t ↔
      ∃ r ∈ verdict2result d.verdict, t = r.workReportHash ∧
        r.positveCount < totalValidators * 2 / 3 := by
  have ha := h.disputesState_eq.1
  have hnew : ∀ q : Judgement, (t ∈ j'.disputesState.reports q ∧ t ∉ j.disputesState.reports q) ↔
      t ∈ judged q.count d.verdict := by
    intro q
    rw [h.mem_reports_iff]
    exact ⟨fun ⟨h1, h2⟩ => h1.resolve_left h2, fun h1 => ⟨.inr h1, ha.not_mem_reports q h1⟩⟩
  have hiff : NewlyCondemned j.disputesState j'.disputesState t ↔
      t ∈ judged Judgement.bad.count d.verdict ∨ t ∈ judged Judgement.wonky.count d.verdict :=
    or_congr (hnew .bad) (hnew .wonky)
  rw [hiff, mem_judged, mem_judged]
  simp only [verdict2result, mem_map, exists_exists_and_eq_and]
  constructor
  · rintro (⟨v, hv, hc, rfl⟩ | ⟨v, hv, hc, rfl⟩) <;> exact ⟨v, hv, rfl, by rw [hc]; decide⟩
  · rintro ⟨v, hv, rfl, hlt⟩
    rcases ha.votes_count v hv with hc | hc | hc
    · exact .inl ⟨v, hv, hc, rfl⟩
    · rw [hc] at hlt
      exact absurd hlt (by decide)
    · exact .inr ⟨v, hv, hc, rfl⟩

/-- **A core is cleared exactly when its report is newly judged bad or wonky**,
and every other core is unchanged. -/
theorem Accepts.core_cleared {j j' : JamState} {d : Dispute}
    (h : Accepts ed25519Verify reportHash j d j') (c : Fin totalCores) :
    (j.core c = none → j'.core c = none) ∧ ∀ a, j.core c = some a →
        (NewlyCondemned j.disputesState j'.disputesState (reportHash a.workReport) →
          j'.core c = none) ∧
        (¬ NewlyCondemned j.disputesState j'.disputesState (reportHash a.workReport) →
          j'.core c = some a) := by
  have hcore : j'.core c = clearCore reportHash (verdict2result d.verdict) (j.core c) := by
    obtain ⟨r, hr, rfl⟩ := h
    obtain ⟨-, rfl⟩ := isValidateDispute_eq_ok.mp hr
    simp [core_eq, processDispute, clearReportAvailabilityAssignments, updateOffender, sortSet]
  rw [hcore]
  refine ⟨fun hnone => by rw [hnone]; rfl, fun a ha => ?_⟩
  rw [ha, clearCore_some, h.newlyCondemned_iff]
  exact ⟨fun hc => if_pos hc, fun hc => if_neg hc⟩

/-- **The judgement sets form a growing partition.** Along every run from an
empty dispute state the sets are strictly sorted and pairwise disjoint, no
report leaves its set, every accepted verdict is in exactly the set of its count,
and the next extrinsic clears exactly the cores whose report it newly judges bad
or wonky. -/
theorem judgements_partition {j₀ j : JamState} {ds : List Dispute} (h₀ : j₀.disputesState = {})
    (h : Run (DisputeStep ed25519Verify reportHash) j₀ ds j) :
    (∀ q, (j.disputesState.reports q).Pairwise (· < ·)) ∧
      (∀ q q', q ≠ q' → (j.disputesState.reports q).Disjoint (j.disputesState.reports q')) ∧
      (∀ ds' j', Run (DisputeStep ed25519Verify reportHash) j ds' j' →
        ∀ q, j.disputesState.reports q ⊆ j'.disputesState.reports q) ∧
      (∀ d ∈ ds, ∀ v ∈ d.verdict, ∃ q : Judgement, v.positiveCount = q.count ∧
        ∀ q', v.target ∈ j.disputesState.reports q' ↔ q' = q) ∧
      ∀ i d j', i.disputesState = j.disputesState → Accepts ed25519Verify reportHash i d j' →
        ∀ c : Fin totalCores, (i.core c = none → j'.core c = none) ∧ ∀ a, i.core c = some a →
            (NewlyCondemned i.disputesState j'.disputesState (reportHash a.workReport) →
              j'.core c = none) ∧
            (¬ NewlyCondemned i.disputesState j'.disputesState (reportHash a.workReport) →
              j'.core c = some a) := by
  have hj := judged_of_run h₀ h
  refine ⟨hj.sorted, hj.disjoint, fun ds' j' h' => reports_subset h', ?_,
    fun i d j' _ hacc => hacc.core_cleared⟩
  intro d hd v hv
  -- the count is one of the three, since the extrinsic was accepted when it came
  have hcount : ∀ d ∈ ds, ∀ v ∈ d.verdict, ∃ q : Judgement, v.positiveCount = q.count := by
    refine h.invariant (P := fun ds _ => ∀ d ∈ ds, ∀ v ∈ d.verdict,
      ∃ q : Judgement, v.positiveCount = q.count) (by simp) ?_
    rintro ds j d j' ih ⟨i, -, hacc⟩ e he v hv
    rcases mem_append.mp he with he | he
    · exact ih e he v hv
    · rw [mem_singleton.mp he] at hv
      exact hacc.disputesState_eq.1.exists_judgement hv
  obtain ⟨q, hq⟩ := hcount d hd v hv
  have hmem : v.target ∈ j.disputesState.reports q :=
    (hj.mem_iff q _).mpr ⟨d, hd, mem_judged.mpr ⟨v, hv, hq, rfl⟩⟩
  refine ⟨q, hq, fun q' => ⟨fun hm => ?_, fun hqq => hqq ▸ hmem⟩⟩
  by_contra hne
  exact hj.disjoint q' q hne hm hmem

/-- The bad verdict of `twoCulprits` is in the bad set and in no other. -/
theorem judgements_partition_twoCulprits :
    ∃ q : Judgement, (verdictWith 1 0).positiveCount = q.count ∧
      ∀ q', (1 : Hash) ∈ (freshState.processDispute (fun _ => 0) [⟨1, 0⟩] twoCulprits.culprit
        twoCulprits.fault).disputesState.reports q' ↔ q' = q :=
  (judgements_partition rfl run_twoCulprits).2.2.2.1 twoCulprits (by simp) (verdictWith 1 0)
    (by simp [twoCulprits])

end JamDuna.StateDB
