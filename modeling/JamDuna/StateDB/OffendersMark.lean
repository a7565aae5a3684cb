/-
# The offenders mark of an accepted block

Three places of a block's transition look at the offenders mark of its header:
`VerifyBlockHeader` of `statedb/statedb.go`, the gate before the dispute part in
`ApplyStateTransitionFromBlock`, and `ApplyStateTransitionDispute`, both of
`statedb/applystatetransition.go`. The first and the third only ask that every key
of the mark is the key of a culprit or a fault; the gate skips the dispute part,
and with it `IsValidateDispute`, when the extrinsic has no verdict.

So the keys of the mark are among those of the extrinsic (`AcceptedBlock.subset`),
but the mark need not list all of them, and an extrinsic of culprits and faults
without a verdict is not looked at: `offendersMark_exact_iff` says for which
accepted blocks the mark is the list of the extrinsic's keys and the extrinsic was
validated.
-/

import JamDuna.StateDB.AtMostOnce

namespace JamDuna.StateDB

open JamDuna.Types JamDuna.Basis

/-- The check of the offenders mark in `VerifyBlockHeader`. An absent mark has no
keys. -/
def Block.verifyOffendersMark (blk : Block) : Except (Stop BlockError) Unit :=
  failIf (!(blk.offendersMark.getD []).all fun k =>
      (blk.disputes.culprit.map (·.key)).contains k || (blk.disputes.fault.map (·.key)).contains k)
    (.errorf "VerifyBlockHeader Failed: OffenderMarkNotInDisputeExtrinsic")

/-- `VerifyBlockHeader`. `rest` is the outcome of what follows the offenders mark:
the author's key, the seal, the entropy signature and the extrinsic hash. -/
def Block.verifyBlockHeader (authorIndex : UInt16) (rest : Except (Stop BlockError) Unit)
    (blk : Block) : Except (Stop BlockError) Unit := do
  failIf (decide (totalValidators ≤ authorIndex.toNat))
    (.errorf "VerifyBlockHeader Failed: InvalidAuthorIndex")
  blk.verifyOffendersMark
  rest

/-- The block passes the header check and the transition. -/
def AcceptedBlock (x : External) (j : JamState) (o : BlockOutcome) (authorIndex : UInt16)
    (rest : Except (Stop BlockError) Unit) (blk : Block) : Prop :=
  blk.verifyBlockHeader authorIndex rest = .ok () ∧
    ∃ r, j.applyStateTransitionFromBlock x o blk = .ok r

/-- The extrinsic passes `IsValidateDispute` in the state in which the dispute part
of the block runs. -/
def Block.DisputeValidated (x : External) (j : JamState) (blk : Block) : Prop :=
  ∃ r, (j.applyStateRecentHistoryDagga blk.parentStateRoot).isValidateDispute x.ed25519Verify
    blk.disputes = .ok r

/-- The mark is the list of the keys of culprits followed by those of faults, and
an extrinsic that names culprits or faults has been validated. -/
def Block.OffendersMarkExact (x : External) (j : JamState) (blk : Block) : Prop :=
  blk.offendersMark.getD [] = offenderKeys blk.disputes ∧
    (offenderKeys blk.disputes ≠ [] → blk.DisputeValidated x j)

variable {x : External} {j : JamState} {o : BlockOutcome} {authorIndex : UInt16}
  {rest : Except (Stop BlockError) Unit} {blk : Block}

theorem verifyOffendersMark_eq_ok : blk.verifyOffendersMark = .ok () ↔
      ∀ k ∈ blk.offendersMark.getD [], k ∈ offenderKeys blk.disputes := by
  simp [Block.verifyOffendersMark, offenderKeys]

/-- The keys of the mark are keys of the extrinsic. -/
theorem AcceptedBlock.subset (h : AcceptedBlock x j o authorIndex rest blk) :
    ∀ k ∈ blk.offendersMark.getD [], k ∈ offenderKeys blk.disputes := by
  obtain ⟨-, hheader⟩ := check_bind_eq_ok.mp h.1
  exact verifyOffendersMark_eq_ok.mp (check_bind_eq_ok.mp hheader).1

/-- The dispute part of a block runs exactly when there is a verdict. -/
theorem AcceptedBlock.validated (h : AcceptedBlock x j o authorIndex rest blk)
    (hv : blk.disputes.verdict ≠ []) : blk.DisputeValidated x j := by
  obtain ⟨r, hr⟩ := h.2
  obtain ⟨-, hr⟩ := check_bind_eq_ok.mp hr
  obtain ⟨d, hd, -⟩ := bind_eq_ok.mp hr
  rw [JamState.applyDisputes, if_pos (by simpa using hv)] at hd
  obtain ⟨results, hresults, -⟩ := applyStateTransitionDispute_accepts (mapError_eq_ok.mp hd)
  exact ⟨results, hresults⟩

/-- `IsValidateDispute` refuses culprits and faults without a verdict. -/
theorem Block.DisputeValidated.offenderKeys_eq_nil (h : blk.DisputeValidated x j)
    (hv : blk.disputes.verdict = []) : offenderKeys blk.disputes = [] := by
  obtain ⟨r, hr⟩ := h
  have ha := (isValidateDispute_eq_ok.mp hr).1
  have hculprit : blk.disputes.culprit = [] := by
    refine List.eq_nil_iff_forall_not_mem.mpr fun c hc => ?_
    simpa [hv] using ha.culprits_present c hc
  have hfault : blk.disputes.fault = [] := by
    refine List.eq_nil_iff_forall_not_mem.mpr fun f hf => ?_
    simpa [hv] using ha.faults_present f hf
  rw [offenderKeys, hculprit, hfault]
  rfl

/-- **When the mark of an accepted block is exact.** It is when an extrinsic
without verdicts names no culprit and no fault, and the mark of an extrinsic with
verdicts has its keys in their order, none of them repeated, and none is missing. The
transition enforces only that each key of the mark is one of them. -/
theorem offendersMark_exact_iff (h : AcceptedBlock x j o authorIndex rest blk) :
    blk.OffendersMarkExact x j ↔ (blk.disputes.verdict = [] → offenderKeys blk.disputes = []) ∧
        (blk.disputes.verdict ≠ [] →
          (blk.offendersMark.getD []).Sublist (offenderKeys blk.disputes) ∧
          (offenderKeys blk.disputes).length ≤ (blk.offendersMark.getD []).length) := by
  constructor
  · rintro ⟨hmark, hvalid⟩
    refine ⟨fun hv => ?_, fun _ => ⟨hmark ▸ .refl _, hmark ▸ le_rfl⟩⟩
    by_contra hkeys
    exact hkeys ((hvalid hkeys).offenderKeys_eq_nil hv)
  · rintro ⟨hnone, hsome⟩
    by_cases hv : blk.disputes.verdict = []
    · have hkeys := hnone hv
      refine ⟨?_, fun hne => absurd hkeys hne⟩
      rw [hkeys]
      refine List.eq_nil_iff_forall_not_mem.mpr fun k hk => ?_
      simpa [hkeys] using h.subset k hk
    · obtain ⟨horder, hall⟩ := hsome hv
      exact ⟨horder.eq_of_length_le hall, fun _ => h.validated hv⟩

/-- The first block after `freshState`, with an extrinsic and a mark. -/
def disputeBlock (d : Dispute) (mark : Option (List Ed25519Key)) : Block :=
  { (plainBlock 1 0 []).2 with disputes := d, offendersMark := mark }

theorem acceptedBlock_of_isSome (hheader : blk.verifyBlockHeader authorIndex rest = .ok ())
    (h : (j.applyStateTransitionFromBlock x o blk).toOption.isSome) :
    AcceptedBlock x j o authorIndex rest blk := by
  obtain ⟨r, hr⟩ := Option.isSome_iff_exists.mp h
  exact ⟨hheader, r, ok_of_toOption hr⟩

theorem offendersMark_exact_twoCulprits :
    (disputeBlock twoCulprits (some [0, 1])).OffendersMarkExact trusting freshState := by
  have haccepted : AcceptedBlock trusting freshState plainOutcome 0 (.ok ())
      (disputeBlock twoCulprits (some [0, 1])) :=
    acceptedBlock_of_isSome (by decide +kernel) (by decide +kernel)
  exact (offendersMark_exact_iff haccepted).mpr ⟨by decide, fun _ => by decide⟩

/-- Two accepted blocks without an exact mark: a culprit with no verdict and an
unchecked signature is skipped, and a bad verdict with two culprits passes with an
empty mark. -/
theorem offendersMark_not_exact :
    (AcceptedBlock ⟨fun _ _ _ => false, fun _ => 0, WorkReport.workPackageHash⟩ freshState
        plainOutcome 0 (.ok ()) (disputeBlock ⟨[], [⟨1, 0, zeroSignature⟩], []⟩ none) ∧
      ¬ (disputeBlock ⟨[], [⟨1, 0, zeroSignature⟩], []⟩ none).OffendersMarkExact
        ⟨fun _ _ _ => false, fun _ => 0, WorkReport.workPackageHash⟩ freshState) ∧
    AcceptedBlock trusting freshState plainOutcome 0 (.ok ()) (disputeBlock twoCulprits (some [])) ∧
      ¬ (disputeBlock twoCulprits (some [])).OffendersMarkExact trusting freshState := by
  refine ⟨⟨acceptedBlock_of_isSome (by decide +kernel) (by decide +kernel), fun h => ?_⟩,
    acceptedBlock_of_isSome (by decide +kernel) (by decide +kernel), fun h => ?_⟩
  all_goals exact absurd h.1 (by decide)

end JamDuna.StateDB
