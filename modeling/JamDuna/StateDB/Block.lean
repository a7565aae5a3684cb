/-
# A block

`ApplyStateTransitionFromBlock` of `statedb/applystatetransition.go` and the
recent history of `statedb/history.go`, over the components of the state that
decide which packages are accumulated: disputes, availability, guarantees,
accumulation and recent history, in the order of the source.

What the other parts of the transition contribute is a `BlockOutcome`: the
accounts and the guarantor assignments the checks read, the Safrole state after
the tickets, the number of reports the gas paid for, the accumulation root's
super-peak and the new authorization pools. Tickets, preimages, seals and epoch
marks only make further blocks invalid and are left out; so is the comparison of
the parent's state root, since the root is not part of the state.
-/

import JamDuna.StateDB.Assurances
import JamDuna.StateDB.Disputes
import JamDuna.StateDB.Guarantees

namespace JamDuna.StateDB

open JamDuna.Types JamDuna.Basis

/-- `types.Block`: the fields that the modelled parts read. -/
structure Block where
  slot : UInt32
  headerHash : Hash
  parentHeaderHash : Hash
  parentStateRoot : Hash
  offendersMark : Option (List Ed25519Key)
  disputes : Dispute
  assurances : List Assurance
  guarantees : List Guarantee

/-- What the parts of the transition that are not modelled contribute. -/
structure BlockOutcome where
  getService : UInt32 → Except String (Option ServiceAccount)
  prevAssignments : List GuarantorAssignment
  assignments : List GuarantorAssignment
  currValidators : List Validator
  prevValidators : List Validator
  numAccumulations : ℕ
  superPeak : Hash
  authorizationsPool : Vector (List Hash) totalCores

/-- Why a block is refused. -/
inductive BlockError where
  | dispute (e : DisputeError)
  | assurance (e : AssuranceError)
  | guarantee (e : GuaranteeError)
  | errTTimeslotNotMonotonic
  | errorf (text : String)
  deriving DecidableEq, Repr

/-- The functions of the libraries outside the repository. -/
structure External where
  ed25519Verify : Ed25519Key → Bytes → Ed25519Signature → Bool
  computeHash : Bytes → Hash
  reportHash : WorkReport → Hash

/-- `ApplyStateRecentHistoryDagga`: the last entry takes the state root. -/
def JamState.applyStateRecentHistoryDagga (j : JamState) (previousStateRoot : Hash) : JamState :=
  { j with recentBlocks := j.recentBlocks.modify (j.recentBlocks.length - 1) fun b =>
      { b with stateRoot := previousStateRoot } }

/-- The packages of a list of guarantees with their segment roots, sorted by
package: `reported` of `ApplyStateRecentHistory`. -/
def reportedItems (gs : List Guarantee) : List SegmentRootLookupItem :=
  (gs.map fun g =>
    ⟨g.report.workPackageHash, g.report.availabilitySpec.exportedSegmentRoot⟩).insertionSort
      fun x y => x.workPackageHash ≤ y.workPackageHash

/-- `ApplyStateRecentHistory`. -/
def JamState.applyStateRecentHistory (j : JamState) (blk : Block) (superPeak : Hash) : JamState :=
  let n : HistoryState := ⟨blk.headerHash, superPeak, 0, reportedItems blk.guarantees⟩
  let post := j.recentBlocks ++ [n]
  { j with recentBlocks :=
      if recentHistorySize < post.length then (post.take (recentHistorySize + 1)).drop 1
      else post }

/-- The parent of a block is the last recent block, when there is one. -/
def JamState.checkParent (j : JamState) (blk : Block) : Except (Stop BlockError) Unit :=
  failIf (j.recentBlocks.getLast?.any fun b => blk.parentHeaderHash != b.headerHash)
    (.errorf "ParentHeaderHash does not match recent block")

/-- The dispute part of a block: nothing happens without a verdict. -/
def JamState.applyDisputes (x : External) (j : JamState) (blk : Block) :
    Except (Stop BlockError) JamState :=
  if blk.disputes.verdict.length ≠ 0 then
    mapError .dispute
      (j.applyStateTransitionDispute x.reportHash x.ed25519Verify blk.offendersMark blk.disputes)
  else .ok j

/-- The availability part of a block. -/
def JamState.checkAssurances (x : External) (j : JamState) (blk : Block) :
    Except (Stop BlockError) Unit := do
  mapError .assurance
    (j.getValidAssurances x.ed25519Verify x.computeHash blk.assurances blk.parentHeaderHash)
  mapError .assurance
    (j.validateAssurances x.ed25519Verify x.computeHash blk.assurances blk.parentHeaderHash)

/-- The Safrole state after the tickets of a block. -/
def JamState.withSafrole (j : JamState) (o : BlockOutcome) (slot : UInt32) : JamState :=
  { j with safroleState :=
      ⟨j.safroleState.epochFirstSlot, slot, o.currValidators, o.prevValidators⟩ }

/-- The context in which the guarantees of a block are checked. -/
def guaranteeContext (o : BlockOutcome) (blk : Block) (available : List WorkReport) :
    GuaranteeContext :=
  ⟨blk.slot, available, o.getService, o.prevAssignments, o.assignments⟩

/-- The accumulation part of a block, up to the recent history: the state after
it, and the reports that were accumulated. -/
def JamState.finishBlock (j : JamState) (o : BlockOutcome) (blk : Block)
    (available : List WorkReport) (oldTimeslot : UInt32) : JamState × List WorkReport :=
  let wStar := j.accumulatableSequence blk.slot available
  let j := j.applyStateTransitionAccumulation available wStar o.numAccumulations oldTimeslot
  let j := { j with authorizationsPool := o.authorizationsPool }
  (j.applyStateRecentHistory blk o.superPeak, wStar.take o.numAccumulations)

/-- `ApplyStateTransitionFromBlock`: the state after a valid block, and the
reports accumulated in it. -/
def JamState.applyStateTransitionFromBlock (x : External) (j : JamState) (o : BlockOutcome)
    (blk : Block) : Except (Stop BlockError) (JamState × List WorkReport) := do
  j.checkParent blk
  let oldTimeslot := j.safroleState.timeslot
  let j ← (j.applyStateRecentHistoryDagga blk.parentStateRoot).applyDisputes x blk
  j.checkAssurances x blk
  let available := j.availableReports blk.assurances
  let j := j.computeAvailabilityAssignments blk.assurances blk.slot
  failIf (decide (blk.slot ≤ j.safroleState.timeslot)) .errTTimeslotNotMonotonic
  let (j, _) ← mapError .guarantee ((j.withSafrole o blk.slot).applyGuarantees x.ed25519Verify
    x.reportHash (guaranteeContext o blk available) blk.guarantees)
  return j.finishBlock o blk available oldTimeslot

end JamDuna.StateDB
