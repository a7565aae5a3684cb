/-
# Who guaranteed a report

An accepted guarantee names its guarantors by index. Three places turn the index
into a validator: `VerifyValidator` looks it up in the set that `chooseValidatorSet`
picks for the slot of the guarantee, `checkAssignment` in the assignments of the
current or the previous rotation, and `ProcessGuarantees` credits the key of the
current set or of the previous assignments (`statedb/guarantees.go`).

The slot of an accepted guarantee is in the current or in the previous rotation
(`rotation_of_accepted`), and an epoch is a whole number of rotations, so the three
agree (`guarantor_identity`). `IsPreviousValidators` compares a rotation index with
a slot, which does no harm (`isPreviousValidators_iff`).
-/

import JamDuna.StateDB.AtMostOnce
import JamDuna.StateDB.Rotation

namespace JamDuna.StateDB

open JamDuna.Types JamDuna.Basis Option UInt32 JamState

/-- A slot that is at most one rotation behind is in this rotation or the last. -/
theorem rotation_of_slot {t s : ℕ} (hle : s ≤ t)
    (h : t - s ≤ t % validatorCoreRotationPeriod + validatorCoreRotationPeriod) :
    s / validatorCoreRotationPeriod = t / validatorCoreRotationPeriod ∨
      s / validatorCoreRotationPeriod + 1 = t / validatorCoreRotationPeriod := by
  simp only [validatorCoreRotationPeriod] at h ⊢
  omega

/-- The slots of the last rotation are in the epoch of the slot one rotation
back, and that is this epoch or the last. -/
theorem epoch_of_rotation {t s : ℕ}
    (h : s / validatorCoreRotationPeriod + 1 = t / validatorCoreRotationPeriod) :
    s / epochLength = (t - validatorCoreRotationPeriod) / epochLength ∧
      (t / epochLength = s / epochLength ∨ t / epochLength = s / epochLength + 1) := by
  simp only [validatorCoreRotationPeriod] at h ⊢
  simp only [epochLength]
  omega

/-- `IsPreviousValidators` without the wrap-around of `uint32`. -/
theorem isPreviousValidators_iff (j : JamState) (s : UInt32) :
    j.isPreviousValidators s = true ↔ s.toNat / validatorCoreRotationPeriod + 1 =
          j.safroleState.timeslot.toNat / validatorCoreRotationPeriod ∧
        s.toNat / epochLength + 1 = j.safroleState.timeslot.toNat / epochLength := by
  generalize ht : j.safroleState.timeslot = t
  have hs := s.toNat_lt
  have ht' := t.toNat_lt
  have hself : s / 4 = t ↔ s.toNat / 4 = t.toNat := by
    rw [← UInt32.toNat_inj, UInt32.toNat_div]
    rfl
  have hprev : s / 4 = t / 4 - 1 ↔ s.toNat / 4 + 1 = t.toNat / 4 := by
    rw [← UInt32.toNat_inj, UInt32.toNat_sub, UInt32.toNat_div, UInt32.toNat_div]
    simp only [reduceToNat]
    omega
  have hepoch : s / 12 + 1 = t / 12 ↔ s.toNat / 12 + 1 = t.toNat / 12 := by
    rw [← UInt32.toNat_inj, UInt32.toNat_add, UInt32.toNat_div, UInt32.toNat_div]
    simp only [reduceToNat]
    omega
  have hdef : j.isPreviousValidators s =
      if s / 4 = t then false else if s / 4 = t / 4 - 1 then s / 12 + 1 == t / 12 else false := by
    rw [← ht]
    rfl
  rw [hdef]
  simp only [validatorCoreRotationPeriod, epochLength]
  split_ifs with h₁ h₂
  · rw [hself] at h₁
    simp only [false_iff]
    omega
  · rw [beq_iff_eq, hepoch]
    exact ⟨fun h => ⟨hprev.mp h₂, h⟩, fun h => h.2⟩
  · simp only [false_iff]
    exact fun h => h₂ (hprev.mpr h.1)

section

variable {ed25519Verify : Ed25519Key → Bytes → Ed25519Signature → Bool}
  {reportHash : WorkReport → Hash} {ctx : GuaranteeContext} {j : JamState} {g : Guarantee}

/-- The assignments that `checkAssignment` compares with. -/
def GuaranteeContext.compared (ctx : GuaranteeContext) (g : Guarantee) : List GuarantorAssignment :=
  if ctx.slot / ofNat validatorCoreRotationPeriod =
      g.slot / ofNat validatorCoreRotationPeriod then ctx.assignments
  else ctx.prevAssignments

/-- An accepted assignment: the slot is not too old, and every guarantor is assigned
to the core of the report. -/
theorem checkAssignment_eq_ok (h : checkAssignment ctx g = .ok ()) :
    ctx.slot.toNat ≤ g.slot.toNat + (ctx.slot.toNat % validatorCoreRotationPeriod +
        validatorCoreRotationPeriod) ∧
      ∀ sig ∈ g.signatures, ∃ a, (ctx.compared g)[sig.validatorIndex.toNat]? = some a ∧
        a.coreIndex = g.report.coreIndex.toUInt16 := by
  obtain ⟨hold, h⟩ := check_bind_eq_ok.mp h
  constructor
  · rw [failIf_eq_ok, decide_eq_false_iff_not] at hold
    have hsum : (ctx.slot % ofNat validatorCoreRotationPeriod +
        ofNat validatorCoreRotationPeriod).toNat = ctx.slot.toNat % 4 + 4 := by
      rw [UInt32.toNat_add, UInt32.toNat_mod]
      show (ctx.slot.toNat % 4 + 4) % 2 ^ 32 = ctx.slot.toNat % 4 + 4
      omega
    rw [hsum] at hold
    simp only [validatorCoreRotationPeriod]
    omega
  · intro sig hsig
    have hcheck := forM_eq_ok.mp h sig hsig
    split at hcheck
    · exact absurd hcheck (by simp)
    · rename_i a ha
      refine ⟨a, ha, ?_⟩
      rw [failIf_eq_ok] at hcheck
      simpa using hcheck

variable {ε : Type} {validators : List Validator}

/-- The loop of `VerifyValidator` finds a validator for every signature, and counts
those that do not verify. -/
theorem verifyValidator_loop {text : Bytes}
    {sigs : List GuaranteeCredential} {n m : ℕ}
    (h : sigs.foldlM (fun n i =>
      match validators[i.validatorIndex.toNat]? with
      | none => Except.error (Stop.panic : Stop ε)
      | some v => Except.ok (if ed25519Verify v.ed25519 text i.signature then n else n + 1)) n =
        .ok m) :
    n ≤ m ∧ ∀ sig ∈ sigs, ∃ v, validators[sig.validatorIndex.toNat]? = some v ∧
      (m = n → ed25519Verify v.ed25519 text sig.signature = true) := by
  induction sigs generalizing n with
  | nil =>
    cases h
    exact ⟨le_refl _, nofun⟩
  | cons sig sigs ih =>
    rw [List.foldlM_cons] at h
    obtain ⟨n', hn', h⟩ := bind_eq_ok.mp h
    obtain ⟨hle, hall⟩ := ih h
    split at hn'
    · exact absurd hn' (by simp)
    · rename_i v hv
      have hstep := Except.ok.inj hn'
      split_ifs at hstep with hver
      · subst hstep
        refine ⟨hle, fun s hs => ?_⟩
        rcases List.mem_cons.mp hs with rfl | hs
        · exact ⟨v, hv, fun _ => hver⟩
        · exact hall s hs
      · refine ⟨by omega, fun s hs => ?_⟩
        rcases List.mem_cons.mp hs with rfl | hs
        · exact ⟨v, hv, fun hm => by omega⟩
        · obtain ⟨v', hv', -⟩ := hall s hs
          exact ⟨v', hv', fun hm => by omega⟩

/-- Accepted signatures verify under the keys of the given validators. -/
theorem verifyValidator_eq_ok {bad : ε}
    (h : g.verifyValidator ed25519Verify reportHash validators bad = .ok ()) :
    ∀ sig ∈ g.signatures, ∃ v, validators[sig.validatorIndex.toNat]? = some v ∧
      ed25519Verify v.ed25519 (xG ++ (reportHash g.report).bytes) sig.signature = true := by
  obtain ⟨m, hloop, hm⟩ := bind_eq_ok.mp h
  rw [failIf_eq_ok, decide_eq_false_iff_not] at hm
  intro sig hsig
  obtain ⟨v, hv, hver⟩ := (verifyValidator_loop hloop).2 sig hsig
  exact ⟨v, hv, hver (by omega)⟩

/-- What `VerifyGuarantee` has established about the guarantors. -/
theorem verifyGuarantee_guarantors (h : j.verifyGuarantee ed25519Verify reportHash ctx g = .ok ()) :
    (0 < ctx.slot → checkAssignment ctx g = .ok () ∧ g.slot ≤ ctx.slot) ∧
      g.verifyValidator ed25519Verify reportHash (j.chooseValidatorSet g.slot)
        GuaranteeError.errGBadSignature = .ok () := by
  obtain ⟨-, h⟩ := check_bind_eq_ok.mp h
  obtain ⟨-, h⟩ := check_bind_eq_ok.mp h
  split_ifs at h with hcore
  obtain ⟨honcore, h⟩ := check_bind_eq_ok.mp h
  obtain ⟨-, hsigs⟩ := check_bind_eq_ok.mp h
  refine ⟨fun hslot => ?_, hsigs⟩
  obtain ⟨-, h⟩ := check_bind_eq_ok.mp honcore
  obtain ⟨-, h⟩ := check_bind_eq_ok.mp h
  obtain ⟨-, h⟩ := check_bind_eq_ok.mp h
  rw [if_pos hslot] at h
  obtain ⟨hassign, htime⟩ := check_bind_eq_ok.mp h
  refine ⟨hassign, ?_⟩
  unfold checkReportTimeOut at htime
  rw [if_neg (by rintro h0; rw [h0] at hslot; exact absurd hslot (by decide))] at htime
  split_ifs at htime with hfuture
  exact UInt32.not_lt.mp hfuture

end

section

variable {j : JamState} {prev : List GuarantorAssignment} {g : Guarantee}

/-- The key that `ProcessGuarantees` credits for a signature. -/
def JamState.credited (j : JamState) (prevAssignment : List GuarantorAssignment) (g : Guarantee)
    (sig : GuaranteeCredential) : Option Ed25519Key :=
  if g.slot / ofNat validatorCoreRotationPeriod =
      j.safroleState.timeslot / ofNat validatorCoreRotationPeriod then
    (j.safroleState.currValidators[sig.validatorIndex.toNat]?).map (·.ed25519)
  else if sig.validatorIndex.toNat < j.safroleState.prevValidators.length then
    (prevAssignment[sig.validatorIndex.toNat]?).map (·.validator.ed25519)
  else none

variable {keys : List Ed25519Key}

theorem reporters_eq_ok (h : j.reporters prev g = .ok keys) :
    keys = g.signatures.filterMap (j.credited prev g) := by
  unfold reporters at h
  dsimp only at h
  split_ifs at h with hrot
  · cases h
    exact List.filterMap_congr fun sig _ => by rw [credited, if_pos hrot]
  · refine foldlM_append_eq_ok (fun acc sig acc' hstep => ?_) h
    rw [credited, if_neg hrot]
    split_ifs at hstep ⊢ with hidx
    · cases ha : prev[sig.validatorIndex.toNat]? with
      | none => simp [ha] at hstep
      | some a =>
        rw [ha] at hstep
        exact (Except.ok.inj hstep).symm
    · cases hstep
      exact (List.append_nil _).symm

/-- The reporters are the credited keys of all guarantees. -/
theorem processGuarantees_reporters {gs : List Guarantee} {j' : JamState}
    (h : j.processGuarantees prev gs = .ok (j', keys)) :
    keys = gs.flatMap fun g => g.signatures.filterMap (j.credited prev g) := by
  induction gs generalizing j j' keys with
  | nil =>
    cases h
    rfl
  | cons g gs ih =>
    obtain ⟨keys₁, hkeys, h⟩ := bind_eq_ok.mp h
    obtain ⟨⟨j₁, keys₂⟩, hrest, h⟩ := bind_eq_ok.mp h
    cases h
    rw [reporters_eq_ok hkeys, ih hrest]
    rfl

end

section

variable (ed25519Verify : Ed25519Key → Bytes → Ed25519Signature → Bool)
  (reportHash : WorkReport → Hash) (ctx : GuaranteeContext) (j : JamState)

/-- The validator `v` stands behind a signature in all three places: its key
verified the signature, its core was compared with that of the report, and its key
is credited. -/
structure GuarantorIs (g : Guarantee) (sig : GuaranteeCredential) (v : Validator) : Prop where
  signed : (j.chooseValidatorSet g.slot)[sig.validatorIndex.toNat]? = some v
  verified : ed25519Verify v.ed25519 (xG ++ (reportHash g.report).bytes) sig.signature = true
  assigned : ∃ a, (ctx.compared g)[sig.validatorIndex.toNat]? = some a ∧ a.validator = v ∧
    (0 < ctx.slot → a.coreIndex = g.report.coreIndex.toUInt16)
  /-- Within the current rotation the key is always credited, and in the previous one
  when the index is in the range of the previous set. -/
  credited : j.credited ctx.prevAssignments g sig = if g.slot / ofNat validatorCoreRotationPeriod =
          j.safroleState.timeslot / ofNat validatorCoreRotationPeriod ∨
        sig.validatorIndex.toNat < j.safroleState.prevValidators.length then some v.ed25519
    else none

variable {ed25519Verify reportHash ctx j} {blake2 : Bytes → Hash} {entropy : Entropy}
  {g : Guarantee}

/-- **The slot of an accepted guarantee** is in the current or in the previous
rotation. -/
theorem rotation_of_accepted (hslot : 0 < ctx.slot)
    (h : j.verifyGuarantee ed25519Verify reportHash ctx g = .ok ()) :
    g.slot.toNat / validatorCoreRotationPeriod = ctx.slot.toNat / validatorCoreRotationPeriod ∨
      g.slot.toNat / validatorCoreRotationPeriod + 1 =
        ctx.slot.toNat / validatorCoreRotationPeriod := by
  obtain ⟨hassign, hle⟩ := (verifyGuarantee_guarantors h).1 hslot
  have hbound := (checkAssignment_eq_ok hassign).1
  refine rotation_of_slot (le_iff_toNat_le.mp hle) ?_
  omega

/-- The set that verifies the signatures is the one of the epoch of the guarantee. -/
theorem chooseValidatorSet_of_accepted (hslot : 0 < ctx.slot)
    (htime : ctx.slot = j.safroleState.timeslot)
    (h : j.verifyGuarantee ed25519Verify reportHash ctx g = .ok ()) :
    j.chooseValidatorSet g.slot = if g.slot.toNat / epochLength = ctx.slot.toNat / epochLength then
        j.safroleState.currValidators
      else j.safroleState.prevValidators := by
  have hiff := isPreviousValidators_iff j g.slot
  rw [← htime] at hiff
  have hrot := rotation_of_accepted hslot h
  unfold chooseValidatorSet
  by_cases hprev : j.isPreviousValidators g.slot = true
  · have hp := hiff.mp hprev
    rw [if_pos hprev, if_neg (by omega)]
  · rw [if_neg hprev, if_pos]
    have hn := mt hiff.mpr hprev
    simp only [validatorCoreRotationPeriod, epochLength] at hrot hn ⊢
    omega

section

variable (htime : ctx.slot = j.safroleState.timeslot)
  (hassign : calculateAssignments blake2 entropy j.safroleState ctx.slot =
    some (ctx.prevAssignments, ctx.assignments))
  (h : j.verifyGuarantee ed25519Verify reportHash ctx g = .ok ())
include htime hassign h

/-- The validators of the compared assignments are the set that verifies the
signatures, unless that is empty. -/
theorem compared_validators (hne : j.chooseValidatorSet g.slot ≠ []) :
    (ctx.compared g).map (·.validator) = j.chooseValidatorSet g.slot := by
  obtain ⟨hcurr, hprev⟩ := calculateAssignments_spec hassign
  have hsame : ctx.slot / ofNat validatorCoreRotationPeriod =
      g.slot / ofNat validatorCoreRotationPeriod ↔ ctx.slot.toNat / 4 = g.slot.toNat / 4 := by
    rw [← UInt32.toNat_inj, UInt32.toNat_div, UInt32.toNat_div]
    rfl
  unfold GuaranteeContext.compared
  by_cases hzero : ctx.slot = 0
  · -- before the first slot there is one validator set
    have hchoose : j.chooseValidatorSet g.slot = j.safroleState.currValidators := by
      refine if_neg fun hp => ?_
      have hrot := ((isPreviousValidators_iff j g.slot).mp hp).1
      rw [← htime, hzero] at hrot
      simp at hrot
    rw [hzero] at hprev
    rw [hchoose]
    split_ifs
    · exact hcurr
    · simpa using hprev
  · have hpos : 0 < ctx.slot := UInt32.pos_iff_ne_zero.mpr hzero
    have hchoose := chooseValidatorSet_of_accepted hpos htime h
    rw [hchoose] at hne ⊢
    rcases rotation_of_accepted hpos h with hrot | hrot
    · rw [if_pos (hsame.mpr hrot.symm), hcurr, if_pos]
      simp only [validatorCoreRotationPeriod, epochLength] at hrot ⊢
      omega
    · obtain ⟨hepoch, hnext⟩ := epoch_of_rotation hrot
      rw [if_neg (fun hc => by
        have := hsame.mp hc
        simp only [validatorCoreRotationPeriod] at hrot
        omega), hprev, ← hepoch]
      by_cases hc : g.slot.toNat / epochLength = ctx.slot.toNat / epochLength
      · rw [if_pos (.inl hc), if_pos hc]
      · rw [if_neg hc] at hne
        rw [if_neg hc, if_neg]
        exact not_or.mpr ⟨hc, fun hlen => hne (List.length_eq_zero_iff.mp hlen)⟩

/-- **One signature of an accepted guarantee** has one validator behind it. -/
theorem guarantorIs_of_accepted {sig : GuaranteeCredential} (hsig : sig ∈ g.signatures) :
    ∃ v, GuarantorIs ed25519Verify reportHash ctx j g sig v := by
  obtain ⟨hchecked, hsigs⟩ := verifyGuarantee_guarantors h
  obtain ⟨v, hv, hver⟩ := verifyValidator_eq_ok hsigs sig hsig
  have hmap := compared_validators htime hassign h (List.ne_nil_of_mem (List.mem_of_getElem? hv))
  obtain ⟨a, ha, hav⟩ : ∃ a, (ctx.compared g)[sig.validatorIndex.toNat]? = some a ∧
      a.validator = v := by
    rw [← hmap, List.getElem?_map] at hv
    exact map_eq_some_iff.mp hv
  refine ⟨v, hv, hver, ⟨a, ha, hav, fun hpos => ?_⟩, ?_⟩
  · obtain ⟨a', ha', hcore⟩ := (checkAssignment_eq_ok (hchecked hpos).1).2 sig hsig
    obtain rfl := some.inj (ha.symm.trans ha')
    exact hcore
  · unfold GuaranteeContext.compared at ha hmap
    unfold credited
    rw [htime] at ha hmap
    by_cases hrot : g.slot / ofNat validatorCoreRotationPeriod =
        j.safroleState.timeslot / ofNat validatorCoreRotationPeriod
    · rw [if_pos hrot.symm] at hmap
      rw [if_pos hrot, if_pos (.inl hrot), ← (calculateAssignments_spec hassign).1, hmap, hv]
      rfl
    · rw [if_neg (Ne.symm hrot)] at ha
      rw [if_neg hrot]
      simp only [hrot, false_or, ha, map_some, hav]

end

/-- **Guarantor identity.** In a block whose guarantees are accepted, with the
assignments that `CalculateAssignments` computes for its slot, every signature has
one validator behind it: the key that verified it, the validator whose assignment
was compared with the core of the report, and the key credited are those of the same
validator of the set that the slot of the guarantee selects. The reporters are
exactly the credited keys, and when the previous set is not smaller than the current
one every guarantor is credited. -/
theorem guarantor_identity {gs : List Guarantee} {j' : JamState} {keys : List Ed25519Key}
    (htime : ctx.slot = j.safroleState.timeslot)
    (hassign : calculateAssignments blake2 entropy j.safroleState ctx.slot =
      some (ctx.prevAssignments, ctx.assignments))
    (h : j.applyGuarantees ed25519Verify reportHash ctx gs = .ok (j', keys)) :
    keys = gs.flatMap (fun g => g.signatures.filterMap (j.credited ctx.prevAssignments g)) ∧
      ∀ g ∈ gs, (0 < ctx.slot → j.chooseValidatorSet g.slot =
          if g.slot.toNat / epochLength = ctx.slot.toNat / epochLength then
            j.safroleState.currValidators
          else j.safroleState.prevValidators) ∧
        ∀ sig ∈ g.signatures, ∃ v, GuarantorIs ed25519Verify reportHash ctx j g sig v ∧
          (j.safroleState.currValidators.length ≤ j.safroleState.prevValidators.length →
            j.credited ctx.prevAssignments g sig = some v.ed25519) := by
  obtain ⟨hverify, h⟩ := check_bind_eq_ok.mp h
  obtain ⟨-, h⟩ := check_bind_eq_ok.mp h
  obtain ⟨-, h⟩ := check_bind_eq_ok.mp h
  obtain ⟨-, h⟩ := check_bind_eq_ok.mp h
  refine ⟨processGuarantees_reporters h, fun g hg => ?_⟩
  have hg := forM_eq_ok.mp hverify g hg
  refine ⟨fun hpos => chooseValidatorSet_of_accepted hpos htime hg, fun sig hsig => ?_⟩
  obtain ⟨v, hv⟩ := guarantorIs_of_accepted htime hassign hg hsig
  refine ⟨v, hv, fun hlen => ?_⟩
  have hidx : sig.validatorIndex.toNat < (j.chooseValidatorSet g.slot).length :=
    (List.getElem?_eq_some_iff.mp hv.signed).1
  have hprev : sig.validatorIndex.toNat < j.safroleState.prevValidators.length := by
    unfold chooseValidatorSet at hidx
    split_ifs at hidx
    · exact hidx
    · exact lt_of_lt_of_le hidx hlen
  rw [hv.credited, if_pos (.inr hprev)]

end

/-- The state of slot 13, the second of its epoch: the previous validators have the
keys 10 to 15, the current ones 0 to 5. -/
def epochStartState : JamState :=
  { freshState with
    authorizationsPool := Vector.replicate _ [0]
    recentBlocks := [⟨0, 0, 0, []⟩]
    safroleState := ⟨0, 13, (List.range 6).map fun k => ⟨Fin.ofNat _ k⟩,
      (List.range 6).map fun k => ⟨Fin.ofNat _ (10 + k)⟩⟩ }

/-- Its assignments, for zero entropy and a constant hash. -/
def epochStartContext : GuaranteeContext :=
  let assignments := (rotateGuarantors (fun _ => 0) ⟨0, 0, 0, 0⟩ epochStartState.safroleState).getD
    ([], [])
  ⟨13, [], fun _ => .ok none, assignments.1, assignments.2⟩

/-- A guarantee of slot 11, in the epoch before, by the guarantors 0 and 4 of
core 0. -/
def lastEpochGuarantee : Guarantee :=
  ⟨plainReport 1 0 [], 11, [⟨0, zeroSignature⟩, ⟨4, zeroSignature⟩]⟩

theorem guarantor_identity_epochStart :
    ∃ j' keys, epochStartState.applyGuarantees (fun _ _ _ => true) WorkReport.workPackageHash
        epochStartContext [lastEpochGuarantee] = .ok (j', keys) ∧
      keys = [10, 14] ∧
      ∀ sig ∈ lastEpochGuarantee.signatures, ∃ v, GuarantorIs (fun _ _ _ => true)
        WorkReport.workPackageHash epochStartContext epochStartState lastEpochGuarantee sig v := by
  obtain ⟨⟨j', keys⟩, hok, hkeys⟩ : ∃ r ∈ (epochStartState.applyGuarantees (fun _ _ _ => true)
      WorkReport.workPackageHash epochStartContext [lastEpochGuarantee]).toOption,
      r.2 = [10, 14] := by decide +kernel
  have hok := ok_of_toOption hok
  have hassign : calculateAssignments (fun _ => 0) ⟨0, 0, 0, 0⟩ epochStartState.safroleState
      epochStartContext.slot =
        some (epochStartContext.prevAssignments, epochStartContext.assignments) := by
    decide +kernel
  obtain ⟨-, hall⟩ := guarantor_identity rfl hassign hok
  refine ⟨j', keys, hok, hkeys, fun sig hsig => ?_⟩
  obtain ⟨v, hv, -⟩ := (hall lastEpochGuarantee (by simp)).2 sig hsig
  exact ⟨v, hv⟩

end JamDuna.StateDB
