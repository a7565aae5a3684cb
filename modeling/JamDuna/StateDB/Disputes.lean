/-
# Checking and applying a dispute extrinsic

`statedb/disputes.go`, and `ApplyStateTransitionDispute` of
`statedb/applystatetransition.go`.

`IsValidateDispute` is a fixed sequence of checks, in the order of the source:
targets present, signatures of the verdicts, order of verdicts, culprits and
faults, keys not yet offending, reports not yet judged, votes, and last the two
counting checks on the freshly judged sets. `ProcessDispute` then files the
verdicts, the offenders and clears the cores.

Two pairs of loops of the source are written once with parameters: the order
checks of verdicts, culprits, faults and votes (`checkOrdered`), and the two
counting checks (`enoughLoop`, `validLoop`). In the counting checks the source
declares `counter` and `found` before the loop, so both carry over from one
round to the next; the loops here take them as arguments for that reason.

Logging is left out. The hash of a report, `common.ComputeHash` of its
encoding, is the parameter `reportHash`.
-/

import JamDuna.Basis.ExchangeSort
import JamDuna.Types.Dispute
import JamDuna.StateDB.State

namespace JamDuna.StateDB

open JamDuna.Types JamDuna.Basis

/-- The errors of `jamerrors` that the dispute checks return, and the two kinds
of error built on the spot. -/
inductive DisputeError where
  | errDNotSortedWorkReports
  | errDNotUniqueVotes
  | errDNotSortedValidVerdicts
  | errDNotHomogenousJudgements
  | errDMissingCulpritsBadVerdict
  | errDSingleCulpritBadVerdict
  | errDTwoCulpritsBadVerdictNotSorted
  | errDAlreadyRecordedVerdict
  | errDCulpritAlreadyInOffenders
  | errDOffenderNotPresentVerdict
  | errDMissingFaultsGoodVerdict
  | errDTwoFaultOffendersGoodVerdict
  | errDAlreadyRecordedVerdictWithFaults
  | errDFaultOffenderInOffendersList
  | errDAuditorMarkedOffender
  | errDBadSignatureInVerdict
  | errDBadSignatureInCulprits
  | errDAgeTooOldInVerdicts
  /-- `fmt.Errorf` of a fixed text. -/
  | errorf (text : String)
  /-- `fault Error: work report hash %x should be in good set`. -/
  | faultNotInGoodSet (target : Hash)
  deriving DecidableEq, Repr

/-- The monad of the dispute checks. -/
abbrev Check := Except (Stop DisputeError)

/-- `statedb.VerdictResult`. -/
structure VerdictResult where
  workReportHash : Hash
  positveCount : ℕ
  deriving DecidableEq, Repr

section

variable (ed25519Verify : Ed25519Key → Bytes → Ed25519Signature → Bool)

/-- `checkNotPresentVerdict`: every culprit and fault is about a report that
this extrinsic has a verdict for. -/
def checkNotPresentVerdict (v : List Verdict) (c : List Culprit) (f : List Fault) : Check Unit := do
  let targetMap := v.map (·.target)
  forM c fun culprit => failIf (!targetMap.contains culprit.target) .errDOffenderNotPresentVerdict
  forM f fun fault => failIf (!targetMap.contains fault.target) .errDOffenderNotPresentVerdict

/-- `checkSignature`: the verdict is of the current or the previous epoch, and
its votes are signed by that epoch's validators. -/
def JamState.checkSignature (j : JamState) (v : Verdict) : Check Unit :=
  let currEpoch := j.safroleState.timeslot / UInt32.ofNat epochLength
  if v.epoch = currEpoch then
    withError .errDBadSignatureInVerdict (v.verify ed25519Verify j.safroleState.currValidators)
  else if 0 < currEpoch ∧ v.epoch = currEpoch - 1 then
    withError .errDBadSignatureInVerdict (v.verify ed25519Verify j.safroleState.prevValidators)
  else .error (.err .errDAgeTooOldInVerdicts)

/-- The position before `i`. -/
def predecessor {n : ℕ} (i : Fin n) : Fin n := ⟨i.val - 1, by omega⟩

/-- One round of an order check at position `i`: the element's own check, no
equal key at another position, and no larger key just before. -/
def checkOrderedAt {α κ : Type} [LinearOrder κ] (pre : α → Check Unit) (key : α → κ)
    (dup ord : DisputeError) (l : List α) (i : Fin l.length) : Check Unit := do
  pre (l.get i)
  forM (List.finRange l.length) fun j => failIf (i != j && key (l.get j) == key (l.get i)) dup
  failIf (decide (0 < i.val ∧ key (l.get i) < key (l.get (predecessor i)))) ord

/-- The order check of a list by a key, with the errors for an equal key and
for a key out of order. -/
def checkOrdered {α κ : Type} [LinearOrder κ] (pre : α → Check Unit) (key : α → κ)
    (dup ord : DisputeError) (l : List α) : Check Unit :=
  forM (List.finRange l.length) (checkOrderedAt pre key dup ord l)

/-- `checkVerdicts`. -/
def checkVerdicts (v : List Verdict) : Check Unit :=
  checkOrdered (fun _ => .ok ()) (·.target) .errDNotSortedWorkReports .errDNotSortedValidVerdicts v

/-- `checkCulprit`. -/
def checkCulprit (c : List Culprit) : Check Unit :=
  checkOrdered (fun culprit => failIf (!culprit.verify ed25519Verify) .errDBadSignatureInCulprits)
    (·.key) .errDTwoCulpritsBadVerdictNotSorted .errDTwoCulpritsBadVerdictNotSorted c

/-- `checkFault`. -/
def checkFault (f : List Fault) : Check Unit :=
  checkOrdered (fun fault => failIf (!fault.verify ed25519Verify) .errDBadSignatureInVerdict)
    (·.key) .errDTwoFaultOffendersGoodVerdict .errDTwoFaultOffendersGoodVerdict f

/-- `checkIfKeyOffend`, with the text of the error it returns. -/
def JamState.checkIfKeyOffend (j : JamState) (key : Ed25519Key) : Option String :=
  if j.disputesState.offenders.contains key then some "already in the offenders"
  else if (j.safroleState.currValidators.map (·.ed25519)).contains key then none
  else if (j.safroleState.prevValidators.map (·.ed25519)).contains key then none
  else some "already in the Offenders"

/-- The handling of `checkIfKeyOffend` in `IsValidateDispute`: only the first of
its two texts becomes the error `e`. -/
def JamState.checkOffender (j : JamState) (e : DisputeError) (key : Ed25519Key) : Check Unit :=
  match j.checkIfKeyOffend key with
  | none => .ok ()
  | some text => .error (.err (if text = "already in the offenders" then e else .errorf text))

/-- `checkWorkReportHash`: no verdict is about a report judged before. -/
def checkWorkReportHash (v : List Verdict) (goodSet badSet wonkySet : List Hash) : Check Unit :=
  forM v fun verdict => do
    failIf (goodSet.contains verdict.target) .errDAlreadyRecordedVerdict
    failIf (badSet.contains verdict.target) .errDAlreadyRecordedVerdict
    failIf (wonkySet.contains verdict.target) .errDAlreadyRecordedVerdictWithFaults

/-- `checkVote`: the votes of a verdict are in order of their index, and the
number of positive ones is one of three. -/
def checkVote (v : List Verdict) : Check Unit :=
  forM v fun verdict => do
    checkOrdered (fun _ => .ok ()) (·.index.toNat) .errDNotUniqueVotes .errDNotSortedWorkReports
      verdict.votes.toList
    let voteCounter := verdict.positiveCount
    failIf (!(voteCounter == 0 || voteCounter == validatorsSuperMajority ||
      voteCounter == wonkyTrueThreshold)) .errDNotHomogenousJudgements

/-- `verdict2result`. -/
def verdict2result (v : List Verdict) : List VerdictResult :=
  v.map fun verdict => ⟨verdict.target, verdict.positiveCount⟩

/-- `sortByHash`. -/
def sortByHash (set : List Hash) : List Hash := exchangeSort set

/-- `sortByKey`. -/
def sortByKey (set : List Ed25519Key) : List Ed25519Key := exchangeSort set

/-- One round of the loops of `sortSet` and `sortSet_Prime`. -/
def DisputeState.file (s : DisputeState) (v : VerdictResult) : DisputeState :=
  if v.positveCount = 0 then { s with badSet := s.badSet ++ [v.workReportHash] }
  else if v.positveCount = totalValidators / 3 then
    { s with wonkySet := s.wonkySet ++ [v.workReportHash] }
  else if v.positveCount = totalValidators * 2 / 3 + 1 then
    { s with goodSet := s.goodSet ++ [v.workReportHash] }
  else s

/-- File every result, then sort the three sets. -/
def DisputeState.fileAll (s : DisputeState) (results : List VerdictResult) : DisputeState :=
  let s := results.foldl DisputeState.file s
  { s with
    badSet := sortByHash s.badSet
    wonkySet := sortByHash s.wonkySet
    goodSet := sortByHash s.goodSet }

/-- `sortSet`. -/
def JamState.sortSet (j : JamState) (results : List VerdictResult) : JamState :=
  { j with disputesState := j.disputesState.fileAll results }

/-- `sortSet_Prime`: the sets of this extrinsic alone. -/
def sortSetPrime (results : List VerdictResult) : DisputeState := DisputeState.fileAll {} results

/-- The first loop of the counting checks. `counter` is not reset between two
reports of `set`. -/
def enoughLoop (targets : List Hash) (check : ℕ → Check Unit) : ℕ → List Hash → Check Unit
  | _, [] => .ok ()
  | counter, s :: set => do
    let counter := targets.foldl (fun n t => if s = t then n + 1 else n) counter
    check counter
    enoughLoop targets check counter set

/-- The second loop of the counting checks. `found` is not reset between two
elements. -/
def validLoop {α : Type} (set : List Hash) (target : α → Hash) (pre : α → Check Unit)
    (missing : α → DisputeError) : Bool → List α → Check Unit
  | _, [] => .ok ()
  | found, x :: xs => do
    pre x
    let found := set.foldl (fun b s => if s = target x then true else b) found
    failIf (!found) (missing x)
    validLoop set target pre missing found xs

/-- `isFaultEnoughAndValid`. -/
def isFaultEnoughAndValid (statePrime : DisputeState) (f : List Fault) : Check Unit := do
  enoughLoop (f.map (·.target))
    (fun counter => failIf (decide (counter < 1)) .errDMissingFaultsGoodVerdict) 0
    statePrime.goodSet
  validLoop statePrime.goodSet (·.target)
    (fun fault => failIf fault.voting .errDAuditorMarkedOffender)
    (fun fault => .faultNotInGoodSet fault.target) false f

/-- `isCulpritEnoughAndValid`. -/
def isCulpritEnoughAndValid (statePrime : DisputeState) (c : List Culprit) : Check Unit := do
  enoughLoop (c.map (·.target)) (fun counter => do
      failIf (counter == 0) .errDMissingCulpritsBadVerdict
      failIf (decide (counter < 2)) .errDSingleCulpritBadVerdict) 0
    statePrime.badSet
  validLoop statePrime.badSet (·.target) (fun _ => .ok ())
    (fun _ => .errDOffenderNotPresentVerdict) false c

/-- `IsValidateDispute`. -/
def JamState.isValidateDispute (j : JamState) (input : Dispute) : Check (List VerdictResult) := do
  checkNotPresentVerdict input.verdict input.culprit input.fault
  forM input.verdict (j.checkSignature ed25519Verify)
  checkVerdicts input.verdict
  checkCulprit ed25519Verify input.culprit
  checkFault ed25519Verify input.fault
  forM input.culprit fun c => j.checkOffender .errDCulpritAlreadyInOffenders c.key
  forM input.fault fun f => j.checkOffender .errDFaultOffenderInOffendersList f.key
  checkWorkReportHash input.verdict j.disputesState.goodSet j.disputesState.badSet
    j.disputesState.wonkySet
  checkVote input.verdict
  let result := verdict2result input.verdict
  let statePrime := sortSetPrime result
  isFaultEnoughAndValid statePrime input.fault
  isCulpritEnoughAndValid statePrime input.culprit
  return result

end

section

variable (reportHash : WorkReport → Hash)

/-- `updateOffender`. -/
def JamState.updateOffender (j : JamState) (c : List Culprit) (f : List Fault) : JamState :=
  { j with disputesState := { j.disputesState with
      offenders := sortByKey (j.disputesState.offenders ++ c.map (·.key) ++ f.map (·.key)) } }

/-- The inner loop of `clearReportAvailabilityAssignments`, for one core. -/
def clearCore (results : List VerdictResult) (core : Option CoreState) : Option CoreState :=
  match core with
  | none => none
  | some a =>
    results.foldl (fun acc h =>
      if reportHash a.workReport = h.workReportHash ∧ h.positveCount < totalValidators * 2 / 3
      then none else acc) (some a)

/-- `clearReportAvailabilityAssignments`. -/
def JamState.clearReportAvailabilityAssignments (j : JamState) (results : List VerdictResult) :
    JamState :=
  { j with availabilityAssignments := j.availabilityAssignments.map (clearCore reportHash results) }

/-- `ProcessDispute`. -/
def JamState.processDispute (j : JamState) (results : List VerdictResult) (c : List Culprit)
    (f : List Fault) : JamState :=
  ((j.sortSet results).updateOffender c f).clearReportAvailabilityAssignments reportHash results

variable (ed25519Verify : Ed25519Key → Bytes → Ed25519Signature → Bool)

/-- The check of the header's offenders mark in `ApplyStateTransitionDispute`:
when there are verdicts, it holds only keys of culprits and faults. -/
def checkOffendersMark (offendersMark : Option (List Ed25519Key)) (disputes : Dispute) :
    Check Unit :=
  if disputes.verdict = [] then .ok ()
  else match offendersMark with
    | none => .error (.err (.errorf "OffendersMark is nil"))
    | some mark =>
      failIf (!mark.all fun k => (disputes.culprit.map (·.key)).contains k ||
        (disputes.fault.map (·.key)).contains k)
        (.errorf "OffendersMark is not in Culprit or Fault")

/-- `ApplyStateTransitionDispute`. -/
def JamState.applyStateTransitionDispute (j : JamState) (offendersMark : Option (List Ed25519Key))
    (disputes : Dispute) : Check JamState := do
  checkOffendersMark offendersMark disputes
  let result ← j.isValidateDispute ed25519Verify disputes
  return j.processDispute reportHash result disputes.culprit disputes.fault

end

/-- A signature of zero bytes. -/
def zeroSignature : Ed25519Signature := Vector.replicate 64 0

/-- A verdict of epoch 0 on the report `t` by the validators 0 to 4, the first
`n` of which vote for it. -/
def verdictWith (t : Hash) (n : ℕ) : Verdict :=
  ⟨t, 0, Vector.ofFn fun i => ⟨decide (i.val < n), UInt16.ofNat i.val, zeroSignature⟩⟩

end JamDuna.StateDB
