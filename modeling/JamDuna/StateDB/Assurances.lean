/-
# Availability

`statedb/assurances.go`: the checks of the assurances of a block, and
`ComputeAvailabilityAssignments`, which takes the reports that became available
from their cores together with those that timed out.
-/

import JamDuna.StateDB.State
import JamDuna.Types.Extrinsics

namespace JamDuna.StateDB

open JamDuna.Types JamDuna.Basis JamState

/-- The errors of `jamerrors` that the assurance checks return. -/
inductive AssuranceError where
  | errABadSignature
  | errABadValidatorIndex
  | errABadCore
  | errABadParentHash
  | errADuplicateAssurer
  | errANotSortedAssurers
  deriving DecidableEq, Repr

section

variable (ed25519Verify : Ed25519Key → Bytes → Ed25519Signature → Bool) (computeHash : Bytes → Hash)

/-- `hasRecentWR` of `getWRStatus`. -/
def JamState.hasRecentWR (j : JamState) (c : Fin totalCores) : Bool := (j.core c).isSome

/-- `checkAssuranceInline`. -/
def JamState.checkAssurance (j : JamState) (a : Assurance) (anchor : Hash) :
    Except (Stop AssuranceError) Unit := do
  failIf (a.anchor != anchor) .errABadParentHash
  match j.safroleState.currValidators[a.validatorIndex.toNat]? with
  | none => .error (.err .errABadValidatorIndex)
  | some validator =>
    failIf (!a.validBitfield j.hasRecentWR) .errABadCore
    failIf (!a.verifySignature ed25519Verify computeHash validator) .errABadSignature

/-- The loop of `ValidateAssurances`; `prevIndex` is `none` for the source's `-1`. -/
def JamState.validateAssurancesFrom (j : JamState) (anchor : Hash) :
    Option ℕ → List Assurance → Except (Stop AssuranceError) Unit
  | _, [] => .ok ()
  | prevIndex, a :: assurances => do
    j.checkAssurance ed25519Verify computeHash a anchor
    failIf (prevIndex == some a.validatorIndex.toNat) .errADuplicateAssurer
    failIf (prevIndex.any fun p => decide (a.validatorIndex.toNat < p)) .errANotSortedAssurers
    j.validateAssurancesFrom anchor (some a.validatorIndex.toNat) assurances

/-- `ValidateAssurances`, without the timeout check that only its own test
driver asks for. -/
def JamState.validateAssurances (j : JamState) (assurances : List Assurance) (anchor : Hash) :
    Except (Stop AssuranceError) Unit :=
  j.validateAssurancesFrom ed25519Verify computeHash anchor none assurances

/-- `GetValidAssurances`, which returns the assurances as they are when every one
passes. -/
def JamState.getValidAssurances (j : JamState) (assurances : List Assurance) (anchor : Hash) :
    Except (Stop AssuranceError) Unit :=
  forM assurances fun a => j.checkAssurance ed25519Verify computeHash a anchor

end

/-- The tally of `CountAvailableWR` for a core. -/
def countAvailableWR (assurances : List Assurance) (c : Fin totalCores) : ℕ :=
  assurances.countP (·.getBitFieldBit c)

/-- The core has more than two thirds of the validators. -/
def isThresholdReached (assurances : List Assurance) (c : Fin totalCores) : Bool :=
  2 * totalValidators / 3 < countAvailableWR assurances c

/-- `GetReportTimeouts`, for the report of a core. -/
def isTimedOut (timeslot : UInt32) (a : CoreState) : Bool :=
  a.timeslot + UInt32.ofNat unavailableWorkReplacementPeriod ≤ timeslot

/-- The reports that `ComputeAvailabilityAssignments` returns. -/
def JamState.availableReports (j : JamState) (assurances : List Assurance) : List WorkReport :=
  (List.finRange totalCores).filterMap fun c =>
    if isThresholdReached assurances c then
      (j.core c).map (·.workReport) else none

/-- The cores after `ComputeAvailabilityAssignments`: a report that is available
or timed out leaves. -/
def JamState.computeAvailabilityAssignments (j : JamState) (assurances : List Assurance)
    (timeslot : UInt32) : JamState :=
  { j with availabilityAssignments := Vector.ofFn fun c =>
      (j.core c).filter fun a =>
        !(isThresholdReached assurances c || isTimedOut timeslot a) }

section

variable {j : JamState} {assurances : List Assurance} {c : Fin totalCores} {t : UInt32}
  {a : CoreState}

/-- A report that stays on its core is neither available nor timed out. -/
theorem core_computeAvailabilityAssignments_eq_some :
    (j.computeAvailabilityAssignments assurances t).core c = some a ↔
      j.core c = some a ∧ isThresholdReached assurances c = false ∧ isTimedOut t a = false := by
  simp [core_eq, computeAvailabilityAssignments, Option.filter_eq_some_iff]

/-- The available reports come from cores that reached the threshold. -/
theorem mem_availableReports {w : WorkReport} : w ∈ j.availableReports assurances ↔
    ∃ c a, isThresholdReached assurances c = true ∧ j.core c = some a ∧ a.workReport = w := by
  unfold availableReports
  rw [List.mem_filterMap]
  constructor
  · rintro ⟨c, -, hc⟩
    split_ifs at hc with ht
    · obtain ⟨a, ha, rfl⟩ := Option.map_eq_some_iff.mp hc
      exact ⟨c, a, ht, ha, rfl⟩
  · rintro ⟨c, a, ht, ha, rfl⟩
    exact ⟨c, List.mem_finRange c, by rw [if_pos ht, ha]; rfl⟩

/-- More than two thirds of the validators set the bit of the core. -/
def Supermajority (assurances : List Assurance) (c : Fin totalCores) : Prop :=
  2 * totalValidators <
    3 * ((assurances.filter (·.getBitFieldBit c)).map (·.validatorIndex)).toFinset.card

variable {ed25519Verify : Ed25519Key → Bytes → Ed25519Signature → Bool} {computeHash : Bytes → Hash}
  {anchor : Hash}

/-- The order that the loop checks: every validator is above those before it. -/
theorem pairwise_of_validateAssurancesFrom {prev : Option ℕ}
    (h : j.validateAssurancesFrom ed25519Verify computeHash anchor prev assurances = .ok ()) :
    (∀ p ∈ prev, ∀ a ∈ assurances, p < a.validatorIndex.toNat) ∧
      assurances.Pairwise fun a b => a.validatorIndex.toNat < b.validatorIndex.toNat := by
  induction assurances generalizing prev with
  | nil => exact ⟨fun _ _ _ ha => absurd ha List.not_mem_nil, .nil⟩
  | cons a assurances ih =>
    obtain ⟨-, h⟩ := check_bind_eq_ok.mp h
    obtain ⟨hdup, h⟩ := check_bind_eq_ok.mp h
    obtain ⟨hsort, h⟩ := check_bind_eq_ok.mp h
    obtain ⟨hrest, hpair⟩ := ih h
    refine ⟨fun p hp b hb => ?_, hpair.cons (hrest _ rfl)⟩
    obtain rfl := Option.mem_def.mp hp
    have hlt : p < a.validatorIndex.toNat := by
      simp only [failIf_eq_ok, beq_eq_false_iff_ne, ne_eq, Option.some.injEq, Option.any_some,
        decide_eq_false_iff_not] at hdup hsort
      omega
    rcases List.mem_cons.mp hb with rfl | hb
    · exact hlt
    · exact hlt.trans (hrest _ rfl b hb)

/-- The tally counts every validator once. -/
theorem isThresholdReached_iff
    (h : j.validateAssurances ed25519Verify computeHash assurances anchor = .ok ()) :
    isThresholdReached assurances c = true ↔ Supermajority assurances c := by
  have hnodup : ((assurances.filter (·.getBitFieldBit c)).map (·.validatorIndex)).Nodup := by
    refine List.pairwise_map.mpr (List.Pairwise.filter _ ?_)
    exact (pairwise_of_validateAssurancesFrom h).2.imp fun hlt heq => by
      rw [heq] at hlt
      exact lt_irrefl _ hlt
  rw [Supermajority, List.toFinset_card_of_nodup hnodup, List.length_map, isThresholdReached,
    countAvailableWR, List.countP_eq_length_filter, decide_eq_true_iff, totalValidators]
  omega

/-- What a block at slot `t` is to do: the reports of the cores with a supermajority are
available, and a report stays on its core while it is not and its period is not over. -/
structure AvailabilityExact (j : JamState) (assurances : List Assurance) (t : UInt32) : Prop where
  available : ∀ w, w ∈ j.availableReports assurances ↔
    ∃ c a, Supermajority assurances c ∧ j.core c = some a ∧ a.workReport = w
  stays : ∀ c a, (j.computeAvailabilityAssignments assurances t).core c = some a ↔
    j.core c = some a ∧ ¬ Supermajority assurances c ∧
      t.toNat < a.timeslot.toNat + unavailableWorkReplacementPeriod

/-- **Availability is exactly supermajority** among accepted assurances, unless the end of a
period, taken modulo `2 ^ 32`, comes too early for a report without one. -/
theorem availabilityExact_iff
    (h : j.validateAssurances ed25519Verify computeHash assurances anchor = .ok ()) :
    AvailabilityExact j assurances t ↔ ∀ c a, j.core c = some a → ¬ Supermajority assurances c →
      a.timeslot.toNat + unavailableWorkReplacementPeriod < 2 ^ 32 ∨
        t.toNat < (a.timeslot.toNat + unavailableWorkReplacementPeriod) % 2 ^ 32 := by
  have hslot := t.toNat_lt
  have hstays : ∀ c a, (j.computeAvailabilityAssignments assurances t).core c = some a ↔
      j.core c = some a ∧ ¬ Supermajority assurances c ∧
        t.toNat < (a.timeslot.toNat + unavailableWorkReplacementPeriod) % 2 ^ 32 := by
    intro c a
    rw [core_computeAvailabilityAssignments_eq_some, ← Bool.not_eq_true, isThresholdReached_iff h,
      isTimedOut, decide_eq_false_iff_not, UInt32.not_le, UInt32.lt_iff_toNat_lt, UInt32.toNat_add]
    rfl
  constructor
  · intro hexact c a ha hminor
    have hiff := (hstays c a).symm.trans (hexact.stays c a)
    by_contra hwrap
    have hout := mt hiff.mpr fun hin => hwrap (.inr hin.2.2)
    have hin : t.toNat < a.timeslot.toNat + unavailableWorkReplacementPeriod := by omega
    exact hout ⟨ha, hminor, hin⟩
  · intro hexact
    refine ⟨fun w => by simp only [mem_availableReports, isThresholdReached_iff h], fun c a => ?_⟩
    rw [hstays]
    refine and_congr_right fun ha => and_congr_right fun hminor => ?_
    have := hexact c a ha hminor
    omega

end

/-- A state with a report of slot `t` on every core. -/
def pendingSince (t : UInt32) : JamState :=
  { freshState with availabilityAssignments := Vector.replicate _ (some ⟨plainReport 1 0 [], t⟩) }

/-- An assurance of both cores. -/
def fullAssurance (v : UInt16) : Assurance := ⟨0, Vector.replicate _ 3, v, Vector.replicate _ 0⟩

/-- Five assurances of six validators. -/
theorem availabilityExact_fullAssurance :
    AvailabilityExact (pendingSince 7) ([0, 1, 2, 3, 4].map fullAssurance) 8 := by
  have haccepted : (pendingSince 7).validateAssurances (fun _ _ _ => true) (fun _ => 0)
      ([0, 1, 2, 3, 4].map fullAssurance) 0 = .ok () := by decide +kernel
  refine (availabilityExact_iff haccepted).mpr fun c a ha _ => .inl ?_
  obtain rfl : ⟨plainReport 1 0 [], 7⟩ = a := by
    simpa [core_eq, pendingSince] using ha
  decide

/-- A report of slot `2 ^ 32 - 3` is cleared in the next slot. -/
theorem cleared_after_wrap :
    (pendingSince 4294967293).validateAssurances (fun _ _ _ => true) (fun _ => 0) [] 0 = .ok () ∧
      ((pendingSince 4294967293).computeAvailabilityAssignments [] 4294967294).core 0 = none ∧
      ¬ AvailabilityExact (pendingSince 4294967293) [] 4294967294 := by
  refine ⟨rfl, by decide +kernel, fun h => ?_⟩
  have hstays := (h.stays 0 _).mpr ⟨rfl, by unfold Supermajority; decide, by decide⟩
  revert hstays
  decide +kernel

end JamDuna.StateDB
