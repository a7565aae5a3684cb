/-
# Checking and applying guarantees

`statedb/guarantees.go`, and `ApplyStateTransitionAvailabilityAssignments` of
`statedb/applystatetransition.go`: every guarantee of a block is verified alone
(`VerifyGuarantee`), then come the checks across the extrinsic, and then the
reports are put on their cores (`ProcessGuarantees`).

What the checks read outside the chain state is a `GuaranteeContext`: the slot of
the block, the reports that became available in it, the accounts of the services
and the guarantor assignments, which `CalculateAssignments` draws from the
entropy. The three loops of `checkRecentBlock` end in one test per flag, since a
flag is never taken back.
-/

import JamDuna.StateDB.Accumulate
import JamDuna.Types.Extrinsics

namespace JamDuna.StateDB

open JamDuna.Types JamDuna.Basis

/-- `LookupAnchorMaxAge`, `L`. -/
abbrev lookupAnchorMaxAge : ℕ := 24

/-- `ValidatorCoreRotationPeriod` and `RotationPeriod`, `R`. -/
abbrev validatorCoreRotationPeriod : ℕ := 4

/-- `AccumulationGasAllocation`, `G_A`. -/
abbrev accumulationGasAllocation : ℕ := 10000000

/-- The errors of `jamerrors` that the guarantee checks return, and those built
on the spot. -/
inductive GuaranteeError where
  | errGBadCodeHash
  | errGBadCoreIndex
  | errGBadSignature
  | errGCoreEngaged
  | errGDependencyMissing
  | errGDuplicatePackageTwoReports
  | errGFutureReportSlot
  | errGInsufficientGuarantees
  | errGDuplicateGuarantors
  | errGOutOfOrderGuarantee
  | errGWorkReportGasTooHigh
  | errGServiceItemTooLow
  | errGBadValidatorIndex
  | errGWrongAssignment
  | errGAnchorNotRecent
  | errGBadBeefyMMRRoot
  | errGBadServiceID
  | errGBadStateRoot
  | errGDuplicatePackageRecentHistory
  | errGReportEpochBeforeLast
  | errGSegmentRootLookupInvalidNotRecentBlocks
  | errGSegmentRootLookupInvalidUnexpectedValue
  | errGCoreWithoutAuthorizer
  | errGCoreUnexpectedAuthorizer
  /-- `fmt.Errorf` of a fixed text, and an error of the store. -/
  | errorf (text : String)
  /-- `invalid prerequisite work package(from %s), core %v, package %v`. -/
  | invalidPrerequisite (source : String) (core : UInt64) (package : Hash)
  deriving DecidableEq, Repr

/-- The monad of the guarantee checks. -/
abbrev GuaranteeCheck := Except (Stop GuaranteeError)

/-- What the checks read besides the chain state. -/
structure GuaranteeContext where
  slot : UInt32
  available : List WorkReport
  getService : UInt32 → Except String (Option ServiceAccount)
  prevAssignments : List GuarantorAssignment
  assignments : List GuarantorAssignment

section

variable (ed25519Verify : Ed25519Key → Bytes → Ed25519Signature → Bool)
  (reportHash : WorkReport → Hash) (ctx : GuaranteeContext)

/-- `GetService`, with its error returned. -/
def GuaranteeContext.service (id : UInt32) : GuaranteeCheck (Option ServiceAccount) :=
  match ctx.getService id with
  | .ok account => .ok account
  | .error text => .error (.err (.errorf text))

/-- `checkServicesExist`. -/
def checkServicesExist (g : Guarantee) : GuaranteeCheck Unit :=
  forM g.report.results fun result => do
    let account ← ctx.service result.serviceID
    failIf account.isNone .errGBadServiceID

/-- `CheckSortedSignatures`. -/
def checkSortedSignatures (g : Guarantee) : GuaranteeCheck Unit :=
  forM (g.signatures.zip g.signatures.tail) fun (prev, s) => do
    failIf (decide (totalValidators ≤ s.validatorIndex.toNat)) .errGBadValidatorIndex
    failIf (decide (s.validatorIndex ≤ prev.validatorIndex)) .errGDuplicateGuarantors

/-- `checkReportPendingOnCore`: the authorizer of the report is in the pool of
its core. -/
def JamState.checkReportPendingOnCore (j : JamState) (g : Guarantee) (core : Fin totalCores) :
    GuaranteeCheck Unit := do
  failIf ((j.authorizers core).length == 0) .errGCoreWithoutAuthorizer
  failIf (!(j.authorizers core).contains g.report.authorizerHash) .errGCoreUnexpectedAuthorizer

/-- `checkAssignment`. -/
def checkAssignment (g : Guarantee) : GuaranteeCheck Unit := do
  let ts := ctx.slot
  let rotation := UInt32.ofNat validatorCoreRotationPeriod
  failIf (decide ((ts.toNat : ℤ) - g.slot.toNat > (ts % rotation + rotation).toNat))
    .errGReportEpochBeforeLast
  let lookup := if ts / rotation = g.slot / rotation then ctx.assignments else ctx.prevAssignments
  forM g.signatures fun sig =>
    match lookup[sig.validatorIndex.toNat]? with
    | none => .error (.err .errGWrongAssignment)
    | some a => failIf (a.coreIndex != g.report.coreIndex.toUInt16) .errGWrongAssignment

/-- `checkReportTimeOut`. -/
def JamState.checkReportTimeOut (j : JamState) (g : Guarantee) (core : Fin totalCores)
    (ts : UInt32) : GuaranteeCheck Unit :=
  if ts = 0 then .ok ()
  else if ts < g.slot then .error (.err .errGFutureReportSlot)
  else match j.core core with
    | none => .ok ()
    | some a =>
      let timeout := a.timeslot + UInt32.ofNat unavailableWorkReplacementPeriod
      failIf (!decide (timeout ≤ ts)) .errGCoreEngaged

/-- `checkTimeSlotHeader`. -/
def checkTimeSlotHeader (g : Guarantee) : GuaranteeCheck Unit :=
  let validAnchor := if UInt32.ofNat lookupAnchorMaxAge > ctx.slot then 0
    else ctx.slot - UInt32.ofNat lookupAnchorMaxAge
  failIf (decide (g.report.refineContext.lookupAnchorSlot < validAnchor)) .errGReportEpochBeforeLast

/-- `checkRecentBlock`. -/
def JamState.checkRecentBlock (j : JamState) (g : Guarantee) : GuaranteeCheck Unit := do
  let refine := g.report.refineContext
  failIf (!j.recentBlocks.any fun b => b.headerHash == refine.anchor) .errGAnchorNotRecent
  failIf (!j.recentBlocks.any fun b => b.stateRoot == refine.stateRoot) .errGBadStateRoot
  failIf (!j.recentBlocks.any fun b => b.b == refine.beefyRoot) .errGBadBeefyMMRRoot

/-- The packages reported in the recent blocks. -/
def JamState.recentReported (j : JamState) : List SegmentRootLookupItem :=
  j.recentBlocks.flatMap (·.reported)

/-- `getPrereqFromAvailabilityAssignments`: the prerequisites, not the packages,
of the reports on the cores. -/
def JamState.getPrereqFromAvailabilityAssignments (j : JamState) : List Hash :=
  j.availabilityAssignments.toList.flatMap fun core =>
    match core with
    | none => []
    | some a => a.workReport.refineContext.prerequisites

/-- `checkAnyPrereq`: the package is not in the recent blocks, not accumulated,
not about to be released from the ready queue, and not a prerequisite of a report
on a core. -/
def JamState.checkAnyPrereq (j : JamState) (g : Guarantee) : GuaranteeCheck Unit := do
  let workPackageHash := g.report.workPackageHash
  failIf (workPackageHash == 0) (.errorf "invalid work package hash")
  failIf ((j.recentReported.map (·.workPackageHash)).contains workPackageHash)
    .errGDuplicatePackageRecentHistory
  failIf (j.accumulated.contains workPackageHash)
    (.invalidPrerequisite "accumulation history" g.report.coreIndex workPackageHash)
  failIf ((j.getReadyQueue ctx.slot ctx.available).contains workPackageHash)
    (.invalidPrerequisite "ready work package" g.report.coreIndex workPackageHash)
  failIf (j.getPrereqFromAvailabilityAssignments.contains workPackageHash)
    (.invalidPrerequisite "availability_assignment" g.report.coreIndex workPackageHash)

/-- `checkCodeHash`. -/
def checkCodeHash (g : Guarantee) : GuaranteeCheck Unit :=
  forM g.report.results fun result => do
    match ← ctx.service result.serviceID with
    | none => .error (.err .errGBadCodeHash)
    | some account => failIf (result.codeHash != account.codeHash) .errGBadCodeHash

/-- `checkGas`. The sum is a `uint64`. -/
def checkGas (g : Guarantee) : GuaranteeCheck Unit := do
  let sumRg := g.report.results.foldl (fun n result => n + result.gas) (0 : UInt64)
  failIf (decide (UInt64.ofNat accumulationGasAllocation < sumRg)) .errGWorkReportGasTooHigh
  forM g.report.results fun result =>
    match ctx.getService result.serviceID with
    | .ok (some account) => failIf (decide (result.gas < account.gasLimitG)) .errGServiceItemTooLow
    | _ => .ok ()

/-- `IsPreviousValidators`. The first comparison is with the slot itself. -/
def JamState.isPreviousValidators (j : JamState) (egTimeslot : UInt32) : Bool :=
  let currTimeslot := j.safroleState.timeslot
  let rotation := UInt32.ofNat validatorCoreRotationPeriod
  let epoch := UInt32.ofNat epochLength
  if egTimeslot / rotation = currTimeslot then false
  else if egTimeslot / rotation = currTimeslot / rotation - 1 then
    egTimeslot / epoch + 1 == currTimeslot / epoch
  else false

/-- `chooseValidatorSet`. -/
def JamState.chooseValidatorSet (j : JamState) (slot : UInt32) : List Validator :=
  if j.isPreviousValidators slot then j.safroleState.prevValidators
  else j.safroleState.currValidators

/-- The checks of `VerifyGuarantee` that concern the core of the report. -/
def JamState.verifyOnCore (j : JamState) (g : Guarantee) (core : Fin totalCores) :
    GuaranteeCheck Unit := do
  failIf (decide (g.signatures.length < 2)) .errGInsufficientGuarantees
  checkSortedSignatures g
  j.checkReportPendingOnCore g core
  if 0 < ctx.slot then do
    checkAssignment ctx g
    j.checkReportTimeOut g core ctx.slot
  else .ok ()

/-- The block-level checks of `VerifyGuarantee`, in the order of its slice of
functions. -/
def JamState.verifyInBlock (j : JamState) (g : Guarantee) : GuaranteeCheck Unit := do
  checkTimeSlotHeader ctx g
  j.checkRecentBlock g
  j.checkAnyPrereq ctx g
  checkCodeHash ctx g
  checkGas ctx g

/-- `VerifyGuarantee`. -/
def JamState.verifyGuarantee (j : JamState) (g : Guarantee) : GuaranteeCheck Unit := do
  failIf (!g.report.checkReportSize) (.errorf "guarantee work report size exceeds maximum")
  checkServicesExist ctx g
  if h : g.report.coreIndex.toNat < totalCores then do
    j.verifyOnCore ctx g ⟨g.report.coreIndex.toNat, h⟩
    j.verifyInBlock ctx g
    g.verifyValidator ed25519Verify reportHash (j.chooseValidatorSet g.slot) .errGBadSignature
  else .error (.err .errGBadCoreIndex)

end

/-- `CheckSortedGuarantees`. -/
def checkSortedGuarantees (gs : List Guarantee) : GuaranteeCheck Unit :=
  forM (gs.zip gs.tail) fun (prev, g) =>
    failIf (decide (g.report.coreIndex ≤ prev.report.coreIndex)) .errGOutOfOrderGuarantee

/-- `checkLength`: no package is reported twice in the block. -/
def checkLength : List Guarantee → GuaranteeCheck Unit
  | [] => .ok ()
  | g :: gs => do
    failIf ((gs.map (·.report.workPackageHash)).contains g.report.workPackageHash)
      .errGDuplicatePackageTwoReports
    checkLength gs

/-- `checkPrereq`: what a report depends on is in a recent block or in this one. -/
def JamState.checkPrereq (j : JamState) (g : Guarantee) (egs : List Guarantee) :
    GuaranteeCheck Unit :=
  let prereqSet := j.recentReported.map (·.workPackageHash) ++ egs.map (·.report.workPackageHash)
  forM (dependencies g.report) fun hash => failIf (!prereqSet.contains hash) .errGDependencyMissing

/-- The entry of a package in the recent blocks that `checkRecentWorkPackage`
finds: the first one. -/
def JamState.recentSegmentRoot (j : JamState) (package : Hash) : Option Hash :=
  (j.recentReported.find? fun item => item.workPackageHash == package).map (·.segmentRoot)

/-- `checkRecentWorkPackage`: the segment roots a report relies on agree with the
recent blocks, then with the block's own guarantees, and each one is found. -/
def JamState.checkRecentWorkPackage (j : JamState) (g : Guarantee) (egs : List Guarantee) :
    GuaranteeCheck Unit := do
  let lookups := g.report.segmentRootLookup
  if lookups.length = 0 ∨ j.recentBlocks.length = 0 then .ok ()
  else
    forM lookups fun l =>
      failIf ((j.recentSegmentRoot l.workPackageHash).any (· != l.segmentRoot))
        .errGSegmentRootLookupInvalidUnexpectedValue
    forM egs fun eg => forM lookups fun l =>
      failIf (eg.report.workPackageHash == l.workPackageHash &&
          eg.report.availabilitySpec.exportedSegmentRoot != l.segmentRoot)
        .errGSegmentRootLookupInvalidUnexpectedValue
    forM lookups fun l =>
      failIf ((j.recentSegmentRoot l.workPackageHash).isNone &&
          !(egs.map (·.report.workPackageHash)).contains l.workPackageHash)
        .errGSegmentRootLookupInvalidNotRecentBlocks

/-- The report of a guarantee goes to its core when the core is free. -/
def JamState.assignReport (j : JamState) (g : Guarantee) : JamState :=
  { j with availabilityAssignments := Vector.ofFn fun c =>
      if c.val = g.report.coreIndex.toNat ∧ j.core c = none then
        some ⟨g.report, j.safroleState.timeslot⟩
      else j.core c }

/-- The tally of `ProcessGuarantees` for one guarantee: the keys of its
guarantors. -/
def JamState.reporters (j : JamState) (prevAssignment : List GuarantorAssignment)
    (g : Guarantee) : GuaranteeCheck (List Ed25519Key) :=
  let rotation := UInt32.ofNat validatorCoreRotationPeriod
  if g.slot / rotation = j.safroleState.timeslot / rotation then
    .ok (g.signatures.filterMap fun sig =>
      (j.safroleState.currValidators[sig.validatorIndex.toNat]?).map (·.ed25519))
  else g.signatures.foldlM (fun keys sig =>
    if sig.validatorIndex.toNat < j.safroleState.prevValidators.length then
      match prevAssignment[sig.validatorIndex.toNat]? with
      | none => .error (.err (.errorf "ProcessGuarantees: previous assignment index out of range"))
      | some a => .ok (keys ++ [a.validator.ed25519])
    else .ok keys) []

/-- `ProcessGuarantees`: the cores after the guarantees, and the reporters. -/
def JamState.processGuarantees (j : JamState) (prevAssignment : List GuarantorAssignment) :
    List Guarantee → GuaranteeCheck (JamState × List Ed25519Key)
  | [] => .ok (j, [])
  | g :: gs => do
    let keys ← j.reporters prevAssignment g
    let (j', reports) ← (j.assignReport g).processGuarantees prevAssignment gs
    return (j', keys ++ reports)

/-- `ApplyStateTransitionAvailabilityAssignments`. -/
def JamState.applyGuarantees (ed25519Verify : Ed25519Key → Bytes → Ed25519Signature → Bool)
    (reportHash : WorkReport → Hash) (ctx : GuaranteeContext) (j : JamState)
    (guarantees : List Guarantee) : GuaranteeCheck (JamState × List Ed25519Key) := do
  forM guarantees (j.verifyGuarantee ed25519Verify reportHash ctx)
  checkSortedGuarantees guarantees
  checkLength guarantees
  forM guarantees fun g => do
    j.checkRecentWorkPackage g guarantees
    j.checkPrereq g guarantees
  j.processGuarantees ctx.prevAssignments guarantees

end JamDuna.StateDB
