/-
# When checking a dispute panics

`Verdict.Verify` of `types/dispute.go` reads `validators[vote.Index]` for a
`uint16` that came with the block. It is called from `checkSignature`, the
second check of `IsValidateDispute`; nothing before it looks at the indices, and
`checkVote`, which runs later, only compares them with each other.

`isValidateDispute_returns_iff` says which extrinsics make the validation
return: those in which every vote that the signature check reaches names a
validator. No other check can panic (`isValidateDispute_eq_panic`).
-/

import JamDuna.StateDB.DisputeChecks

namespace JamDuna.StateDB

open JamDuna.Types JamDuna.Basis JamState

variable {ed25519Verify : Ed25519Key → Bytes → Ed25519Signature → Bool}

/-- The validators whose signatures a verdict carries: those of its epoch, when
that is the current or the previous one. -/
def JamState.signers (j : JamState) (v : Verdict) : Option (List Validator) :=
  let currEpoch := j.safroleState.timeslot / UInt32.ofNat epochLength
  if v.epoch = currEpoch then some j.safroleState.currValidators
  else if 0 < currEpoch ∧ v.epoch = currEpoch - 1 then some j.safroleState.prevValidators
  else none

/-- A vote panics exactly when its index is past the end of the list. -/
theorem verifyVote_eq_panic {validators : List Validator} {target : Hash} {vote : Vote} :
    Verdict.verifyVote ed25519Verify validators target vote = .error .panic ↔
      validators.length ≤ vote.index.toNat := by
  unfold Verdict.verifyVote
  cases hget : validators[vote.index.toNat]? with
  | none => simpa using List.getElem?_eq_none_iff.mp hget
  | some validator =>
    obtain ⟨hlt, -⟩ := List.getElem?_eq_some_iff.mp hget
    simp [Nat.not_le.mpr hlt]

variable {j : JamState} {α : Type} {pre : α → Check Unit} {set : List Hash} {s : DisputeState}
  {d : Dispute}

/-- The signature check panics exactly when the verification against the
validators of the verdict's epoch does. -/
theorem checkSignature_eq_panic {v : Verdict} :
    j.checkSignature ed25519Verify v = .error .panic ↔ ∃ validators, j.signers v = some validators ∧
        v.verify ed25519Verify validators = .error .panic := by
  unfold checkSignature signers
  simp only
  split_ifs <;> simp

theorem checkOrdered_ne_panic {κ : Type} [LinearOrder κ] {key : α → κ}
    {dup ord : DisputeError} {l : List α} (hpre : ∀ x ∈ l, pre x ≠ .error .panic) :
    checkOrdered pre key dup ord l ≠ .error .panic :=
  forM_ne_panic fun i _ =>
    check_bind_ne_panic (hpre _ (List.get_mem l i))
      (check_bind_ne_panic (forM_ne_panic fun _ _ => failIf_ne_panic) failIf_ne_panic)

theorem checkOffender_ne_panic {e : DisputeError} {key : Ed25519Key} :
    j.checkOffender e key ≠ .error .panic := by
  unfold checkOffender
  cases j.checkIfKeyOffend key <;> simp

theorem checkVote_ne_panic {v : List Verdict} : checkVote v ≠ .error .panic :=
  forM_ne_panic fun _ _ =>
    check_bind_ne_panic (checkOrdered_ne_panic fun _ _ => by simp) failIf_ne_panic

theorem enoughLoop_ne_panic {targets : List Hash} {check : ℕ → Check Unit} {n : ℕ}
    (hcheck : ∀ n, check n ≠ .error .panic) : enoughLoop targets check n set ≠ .error .panic := by
  induction set generalizing n with
  | nil => simp [enoughLoop]
  | cons s set ih => exact check_bind_ne_panic (hcheck _) ih

theorem validLoop_ne_panic {target : α → Hash} {missing : α → DisputeError} {found : Bool}
    {xs : List α} (hpre : ∀ x, pre x ≠ .error .panic) :
    validLoop set target pre missing found xs ≠ .error .panic := by
  induction xs generalizing found with
  | nil => simp [validLoop]
  | cons x xs ih =>
    exact check_bind_ne_panic (hpre x) (check_bind_ne_panic failIf_ne_panic ih)

theorem isFaultEnoughAndValid_ne_panic {f : List Fault} :
    isFaultEnoughAndValid s f ≠ .error .panic :=
  check_bind_ne_panic (enoughLoop_ne_panic fun _ => failIf_ne_panic)
    (validLoop_ne_panic fun _ => failIf_ne_panic)

theorem isCulpritEnoughAndValid_ne_panic {c : List Culprit} :
    isCulpritEnoughAndValid s c ≠ .error .panic :=
  check_bind_ne_panic
    (enoughLoop_ne_panic fun _ => check_bind_ne_panic failIf_ne_panic failIf_ne_panic)
    (validLoop_ne_panic fun _ => by simp)

/-- **Only the signature check can panic.** -/
theorem isValidateDispute_eq_panic :
    j.isValidateDispute ed25519Verify d = .error .panic ↔
      checkNotPresentVerdict d.verdict d.culprit d.fault = .ok () ∧
        forM d.verdict (j.checkSignature ed25519Verify) = .error .panic := by
  have hpresent : checkNotPresentVerdict d.verdict d.culprit d.fault ≠ .error .panic :=
    check_bind_ne_panic (forM_ne_panic fun _ _ => failIf_ne_panic)
      (forM_ne_panic fun _ _ => failIf_ne_panic)
  unfold isValidateDispute
  rw [check_bind_eq_error, check_bind_eq_error]
  constructor
  · rintro (h | ⟨hp, h | ⟨-, h⟩⟩)
    · exact absurd h hpresent
    · exact ⟨hp, h⟩
    · refine absurd h (check_bind_ne_panic (checkOrdered_ne_panic fun _ _ => by simp) ?_)
      refine check_bind_ne_panic (checkOrdered_ne_panic fun _ _ => failIf_ne_panic) ?_
      refine check_bind_ne_panic (checkOrdered_ne_panic fun _ _ => failIf_ne_panic) ?_
      refine check_bind_ne_panic (forM_ne_panic fun _ _ => checkOffender_ne_panic) ?_
      refine check_bind_ne_panic (forM_ne_panic fun _ _ => checkOffender_ne_panic) ?_
      refine check_bind_ne_panic (forM_ne_panic fun _ _ => check_bind_ne_panic failIf_ne_panic
        (check_bind_ne_panic failIf_ne_panic failIf_ne_panic)) ?_
      refine check_bind_ne_panic checkVote_ne_panic ?_
      refine check_bind_ne_panic isFaultEnoughAndValid_ne_panic ?_
      exact check_bind_ne_panic isCulpritEnoughAndValid_ne_panic (by simp [pure, Except.pure])
  · rintro ⟨hp, h⟩
    exact .inr ⟨hp, .inl h⟩

/-- The signature check looks at this vote: the targets are present, the
verdicts before its own pass, its verdict is of an epoch that is accepted, and
the votes before it are signed. -/
def VoteReached (ed25519Verify : Ed25519Key → Bytes → Ed25519Signature → Bool) (j : JamState)
    (d : Dispute) (vote : Vote) : Prop :=
  checkNotPresentVerdict d.verdict d.culprit d.fault = .ok () ∧
    ∃ before v after, d.verdict = before ++ v :: after ∧
      (∀ w ∈ before, j.checkSignature ed25519Verify w = .ok ()) ∧
      ∃ validators, j.signers v = some validators ∧
        ∃ votesBefore votesAfter, v.votes.toList = votesBefore ++ vote :: votesAfter ∧
          ∀ w ∈ votesBefore, Verdict.verifyVote ed25519Verify validators v.target w = .ok ()

theorem isValidateDispute_panics_iff
    (hcurr : j.safroleState.currValidators.length = totalValidators)
    (hprev : j.safroleState.prevValidators.length = totalValidators) :
    j.isValidateDispute ed25519Verify d = .error .panic ↔
      ∃ vote, VoteReached ed25519Verify j d vote ∧ totalValidators ≤ vote.index.toNat := by
  have hlength : ∀ v validators, j.signers v = some validators →
      validators.length = totalValidators := by
    intro v validators h
    unfold signers at h
    simp only at h
    split_ifs at h
    · exact Option.some.inj h ▸ hcurr
    · exact Option.some.inj h ▸ hprev
  rw [isValidateDispute_eq_panic, forM_eq_error]
  constructor
  · rintro ⟨hp, before, v, after, hd, hb, hv⟩
    obtain ⟨validators, hs, hverify⟩ := checkSignature_eq_panic.mp hv
    obtain ⟨vb, vote, va, hvotes, hok, hvote⟩ := forM_eq_error.mp hverify
    refine ⟨vote, ⟨hp, before, v, after, hd, hb, validators, hs, vb, va, hvotes, hok⟩, ?_⟩
    rw [← hlength v validators hs]
    exact verifyVote_eq_panic.mp hvote
  · rintro ⟨vote, ⟨hp, before, v, after, hd, hb, validators, hs, vb, va, hvotes, hok⟩, hlarge⟩
    refine ⟨hp, before, v, after, hd, hb, checkSignature_eq_panic.mpr ⟨validators, hs, ?_⟩⟩
    refine forM_eq_error.mpr ⟨vb, vote, va, hvotes, hok, verifyVote_eq_panic.mpr ?_⟩
    rw [hlength v validators hs]
    exact hlarge

/-- **With full validator sets the validation returns a result or an error
exactly when every vote reached by the signature check names a validator.** -/
theorem isValidateDispute_returns_iff {j : JamState} {d : Dispute}
    (hcurr : j.safroleState.currValidators.length = totalValidators)
    (hprev : j.safroleState.prevValidators.length = totalValidators) :
    ((∃ r, j.isValidateDispute ed25519Verify d = .ok r) ∨
        ∃ e, j.isValidateDispute ed25519Verify d = .error (.err e)) ↔
      ∀ vote, VoteReached ed25519Verify j d vote → vote.index.toNat < totalValidators := by
  have hpanic := @isValidateDispute_panics_iff ed25519Verify j d hcurr hprev
  constructor
  · intro hret vote hreached
    by_contra hlarge
    have h := hpanic.mpr ⟨vote, hreached, Nat.not_lt.mp hlarge⟩
    rcases hret with ⟨r, hr⟩ | ⟨e, he⟩
    · rw [hr] at h
      cases h
    · rw [he] at h
      cases h
  · intro hvotes
    rcases hres : j.isValidateDispute ed25519Verify d with (e | _) | r
    · exact .inr ⟨e, rfl⟩
    · obtain ⟨vote, hreached, hlarge⟩ := hpanic.mp hres
      exact absurd (hvotes vote hreached) hlarge.not_gt
    · exact .inl ⟨r, rfl⟩

/-- Votes of validators only: the check of a bad verdict without culprits
returns an error. -/
theorem isValidateDispute_returns_unanswered :
    (∃ r, freshState.isValidateDispute (fun _ _ _ => true) ⟨[verdictWith 1 0], [], []⟩ = .ok r) ∨
      ∃ e, freshState.isValidateDispute (fun _ _ _ => true) ⟨[verdictWith 1 0], [], []⟩ =
        .error (.err e) := by
  refine (isValidateDispute_returns_iff (by decide +kernel) (by decide +kernel)).mpr ?_
  rintro vote ⟨-, before, v, after, hd, -, validators, -, vb, va, hvotes, -⟩
  have hd : [verdictWith 1 0] = before ++ v :: after := hd
  have hv : v = verdictWith 1 0 := by
    have hmem : v ∈ [verdictWith 1 0] := by rw [hd]; simp
    simpa using hmem
  have hvote : vote ∈ (verdictWith 1 0).votes.toList := by rw [← hv, hvotes]; simp
  have hall : ∀ w ∈ (verdictWith 1 0).votes.toList, w.index.toNat < totalValidators := by
    decide +kernel
  exact hall vote hvote

/-- A verdict whose first vote names validator 6 of 6. -/
def strayVerdict : Verdict :=
  ⟨1, 0, Vector.ofFn fun i => ⟨true, UInt16.ofNat (i.val + 6), zeroSignature⟩⟩

theorem strayVerdict_panics : freshState.safroleState.currValidators.length = totalValidators ∧
      freshState.safroleState.prevValidators.length = totalValidators ∧
      freshState.isValidateDispute (fun _ _ _ => true) ⟨[strayVerdict], [], []⟩ =
        .error .panic := by
  decide +kernel

end JamDuna.StateDB
