/-
# The dispute state along a run

`ProcessDispute` of `statedb/disputes.go` applied again and again. A step of a
run is one accepted extrinsic (`DisputeStep`); between two of them the rest of
the chain may do anything to the state except touch the judgements.

Two invariants tie the state to the extrinsics accepted so far. The judgement
sets hold exactly the reports of the verdicts with the matching count, are
strictly sorted and pairwise disjoint (`Judged`). The offenders are, up to
order, the keys of all culprits and faults (`offenders_perm`), so the list is free of
duplicates exactly when no extrinsic names a key in both of its lists.
-/

import JamDuna.Basis.Runs
import JamDuna.StateDB.Judgements

namespace JamDuna.StateDB

open JamDuna.Types JamDuna.Basis List JamState

variable {ed25519Verify : Ed25519Key → Bytes → Ed25519Signature → Bool}
  {reportHash : WorkReport → Hash}

/-- The extrinsic `d` is accepted in `j` and leads to `j'`. -/
def Accepts (ed25519Verify : Ed25519Key → Bytes → Ed25519Signature → Bool)
    (reportHash : WorkReport → Hash) (j : JamState) (d : Dispute) (j' : JamState) : Prop :=
  ∃ r, j.isValidateDispute ed25519Verify d = .ok r ∧
    j' = j.processDispute reportHash r d.culprit d.fault

/-- The next accepted extrinsic: other parts of the chain may have changed the
state in the meantime, but not its judgements. -/
def DisputeStep (ed25519Verify : Ed25519Key → Bytes → Ed25519Signature → Bool)
    (reportHash : WorkReport → Hash) (j : JamState) (d : Dispute) (j' : JamState) : Prop :=
  ∃ i, i.disputesState = j.disputesState ∧ Accepts ed25519Verify reportHash i d j'

/-- The keys an extrinsic reports, in the order `updateOffender` appends them. -/
def offenderKeys (d : Dispute) : List Ed25519Key := d.culprit.map (·.key) ++ d.fault.map (·.key)

/-- `ApplyStateTransitionDispute` accepts an extrinsic only when
`IsValidateDispute` does. -/
theorem applyStateTransitionDispute_accepts {j j' : JamState} {mark : Option (List Ed25519Key)}
    {d : Dispute} (h : j.applyStateTransitionDispute reportHash ed25519Verify mark d = .ok j') :
    Accepts ed25519Verify reportHash j d j' := by
  obtain ⟨-, h⟩ := check_bind_eq_ok.mp h
  obtain ⟨r, hr, hj⟩ := bind_eq_ok.mp h
  exact ⟨r, hr, (Except.ok.inj hj).symm⟩

/-- **What an accepted extrinsic does to the dispute state.** -/
theorem Accepts.disputesState_eq {j j' : JamState} {d : Dispute}
    (h : Accepts ed25519Verify reportHash j d j') :
    Accepted ed25519Verify j d ∧ j'.disputesState =
      { badSet := exchangeSort (j.disputesState.badSet ++ judged 0 d.verdict)
        wonkySet := exchangeSort (j.disputesState.wonkySet ++ judged wonkyTrueThreshold d.verdict)
        goodSet :=
          exchangeSort (j.disputesState.goodSet ++ judged validatorsSuperMajority d.verdict)
        offenders := exchangeSort (j.disputesState.offenders ++ offenderKeys d) } := by
  obtain ⟨r, hr, rfl⟩ := h
  obtain ⟨ha, rfl⟩ := isValidateDispute_eq_ok.mp hr
  refine ⟨ha, ?_⟩
  simp [processDispute, clearReportAvailabilityAssignments,
    updateOffender, sortSet, fileAll_verdict2result, sortByKey, offenderKeys]

section

variable {j j' : JamState} {d : Dispute} (h : DisputeStep ed25519Verify reportHash j d j')
include h

/-- A step adds the reported keys to the offenders, up to order. -/
theorem DisputeStep.offenders_perm :
    j'.disputesState.offenders.Perm (j.disputesState.offenders ++ offenderKeys d) := by
  obtain ⟨i, hi, hacc⟩ := h
  rw [(hacc.disputesState_eq).2, ← hi]
  exact exchangeSort_perm _

/-- A step leaves the offenders sorted. -/
theorem DisputeStep.offenders_sorted : j'.disputesState.offenders.Pairwise (· ≤ ·) := by
  obtain ⟨i, -, hacc⟩ := h
  rw [(hacc.disputesState_eq).2]
  exact exchangeSort_sorted _

/-- **A step keeps the offenders free of duplicates exactly when no key is both
a culprit and a fault.** Within the culprits and within the faults the order
checks exclude a repetition, and the keys are new. -/
theorem DisputeStep.offenders_nodup_iff :
    j'.disputesState.offenders.Nodup ↔
      j.disputesState.offenders.Nodup ∧ (d.culprit.map (·.key)).Disjoint (d.fault.map (·.key)) := by
  rw [h.offenders_perm.nodup_iff]
  obtain ⟨i, hi, hacc⟩ := h
  have ha := hacc.disputesState_eq.1
  have hculprit : (d.culprit.map (·.key)).Nodup := ha.culprits_sorted.imp fun hab => ne_of_lt hab
  have hfault : (d.fault.map (·.key)).Nodup := ha.faults_sorted.imp fun hab => ne_of_lt hab
  have hnew : j.disputesState.offenders.Disjoint (offenderKeys d) := by
    intro k hk hkeys
    rw [← hi] at hk
    rcases mem_append.mp hkeys with hc | hf
    · obtain ⟨c, hmem, rfl⟩ := mem_map.mp hc
      exact (ha.culprits_new c hmem).1 hk
    · obtain ⟨f, hmem, rfl⟩ := mem_map.mp hf
      exact (ha.faults_new f hmem).1 hk
  rw [nodup_append']
  unfold offenderKeys at hnew ⊢
  rw [nodup_append']
  simp [hculprit, hfault, hnew]

end

variable {ds : List Dispute}

/-- Along a run the offenders hold exactly the reported keys. -/
theorem mem_offenders_iff {j₀ j : JamState} (h₀ : j₀.disputesState = {})
    (h : Run (DisputeStep ed25519Verify reportHash) j₀ ds j) (k : Ed25519Key) :
    k ∈ j.disputesState.offenders ↔ ∃ d ∈ ds, k ∈ offenderKeys d := by
  refine h.invariant (P := fun ds j => k ∈ j.disputesState.offenders ↔
    ∃ d ∈ ds, k ∈ offenderKeys d) (by simp [h₀]) fun ds j d j' ih hs => ?_
  rw [hs.offenders_perm.mem_iff, mem_append, ih]
  constructor
  · rintro (⟨e, he, hk⟩ | hk)
    · exact ⟨e, by simp [he], hk⟩
    · exact ⟨d, by simp, hk⟩
  · rintro ⟨e, he, hk⟩
    rcases mem_append.mp he with he | he
    · exact .inl ⟨e, he, hk⟩
    · exact .inr (mem_singleton.mp he ▸ hk)

/-- Along a run the offenders are in order, and free of duplicates exactly when
no extrinsic names a key in both lists. -/
theorem offenders_sorted_nodup_iff {j₀ j : JamState}
    (h₀ : j₀.disputesState = {}) (h : Run (DisputeStep ed25519Verify reportHash) j₀ ds j) :
    j.disputesState.offenders.Pairwise (· ≤ ·) ∧ (j.disputesState.offenders.Nodup ↔
      ∀ d ∈ ds, (d.culprit.map (·.key)).Disjoint (d.fault.map (·.key))) := by
  refine h.invariant (P := fun ds j => j.disputesState.offenders.Pairwise (· ≤ ·) ∧
    (j.disputesState.offenders.Nodup ↔
      ∀ d ∈ ds, (d.culprit.map (·.key)).Disjoint (d.fault.map (·.key)))) (by simp [h₀]) ?_
  rintro ds j d j' ⟨-, ih⟩ hs
  refine ⟨hs.offenders_sorted, ?_⟩
  rw [hs.offenders_nodup_iff, ih]
  simp only [mem_append, mem_singleton, or_imp, forall_and, forall_eq]

theorem offenders_subset {j j' : JamState}
    (h : Run (DisputeStep ed25519Verify reportHash) j ds j') :
    j.disputesState.offenders ⊆ j'.disputesState.offenders :=
  h.preserves (P := fun i => j.disputesState.offenders ⊆ i.disputesState.offenders)
    (fun _ _ _ hs hsub _ hk => hs.offenders_perm.mem_iff.mpr (mem_append_left _ (hsub hk)))
    fun _ hk => hk

/-- **The offenders along every run.** From an empty dispute state the list
holds exactly the keys of the accepted culprits and faults and never loses one;
it increases strictly exactly when no accepted extrinsic names one key both as a
culprit and as a fault. -/
theorem offenders_invariant {j₀ j : JamState} {ds : List Dispute}
    (h₀ : j₀.disputesState = {}) (h : Run (DisputeStep ed25519Verify reportHash) j₀ ds j) :
    (∀ k, k ∈ j.disputesState.offenders ↔ ∃ d ∈ ds, k ∈ offenderKeys d) ∧
      (∀ ds' j', Run (DisputeStep ed25519Verify reportHash) j ds' j' →
        j.disputesState.offenders ⊆ j'.disputesState.offenders) ∧
      (j.disputesState.offenders.Pairwise (· < ·) ↔
        ∀ d ∈ ds, (d.culprit.map (·.key)).Disjoint (d.fault.map (·.key))) := by
  refine ⟨mem_offenders_iff h₀ h, fun ds' j' h' => offenders_subset h', ?_⟩
  obtain ⟨hsorted, hnodup⟩ := offenders_sorted_nodup_iff h₀ h
  rw [← hnodup]
  constructor
  · intro hlt
    exact hlt.imp fun hab => ne_of_lt hab
  · intro hnd
    exact hsorted.imp₂ (fun _ _ hle hne => lt_of_le_of_ne hle hne) hnd

/-- A bad verdict with two culprits. -/
def twoCulprits : Dispute where
  verdict := [verdictWith 1 0]
  culprit := [⟨1, 0, zeroSignature⟩, ⟨1, 1, zeroSignature⟩]
  fault := []

theorem run_twoCulprits : Run (DisputeStep (fun _ _ _ => true) fun _ => 0) freshState [twoCulprits]
    (freshState.processDispute (fun _ => 0) [⟨1, 0⟩] twoCulprits.culprit twoCulprits.fault) :=
  Run.single ⟨freshState, rfl, [⟨1, 0⟩], by decide +kernel, rfl⟩

theorem offenders_twoCulprits : (freshState.processDispute (fun _ => 0) [⟨1, 0⟩] twoCulprits.culprit
      twoCulprits.fault).disputesState.offenders.Pairwise (· < ·) :=
  (offenders_invariant rfl run_twoCulprits).2.2.mpr (by simp [twoCulprits])

/-- A bad and a good verdict; the key 0 is a culprit of the one and a fault of
the other. -/
def doubleOffender : Dispute where
  verdict := [verdictWith 1 0, verdictWith 2 5]
  culprit := [⟨1, 0, zeroSignature⟩, ⟨1, 1, zeroSignature⟩]
  fault := [⟨2, false, 0, zeroSignature⟩]

/-- The extrinsic is accepted, and the key 0 enters the list twice. -/
theorem doubleOffender_repeats : freshState.disputesState = {} ∧
      ∃ j, Run (DisputeStep (fun _ _ _ => true) fun _ => 0) freshState [doubleOffender] j ∧
        j.disputesState.offenders = [0, 0, 1] ∧
        ¬ j.disputesState.offenders.Pairwise (· < ·) := by
  refine ⟨rfl, _, Run.single ⟨freshState, rfl, [⟨1, 0⟩, ⟨2, 5⟩], by decide +kernel, rfl⟩, ?_, ?_⟩
  · decide +kernel
  · decide +kernel

end JamDuna.StateDB
