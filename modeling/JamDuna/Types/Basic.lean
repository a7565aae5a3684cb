/-
# Hashes, keys, work reports: the records of `common` and `types`

`common/ethereum_common.go`, `types/const.go`, `types/workreport.go`,
`types/workresult.go`, `types/availabilityspecifier.go`,
`types/refinementcontext.go`, `types/accumulatecontext.go`,
`types/validator.go`.

A `common.Hash` is an array of 32 bytes. The consensus code only compares
hashes, for equality and with `bytes.Compare`; read as a big-endian number the
lexicographic order of the bytes is the order of the numbers, so `Hash` is
`Fin (2 ^ 256)` and `Hash.bytes` gives the bytes back. `Ed25519Key` is declared
in Go as `common.Hash`, and a signature is 64 bytes.

Records that are hashed as a whole keep every field of the source. `Validator`
keeps the one key the modelled functions read.
-/

import Mathlib.Tactic

namespace JamDuna

/-- A Go byte slice. -/
abbrev Bytes := List UInt8

/-- `common.Hash`: 32 bytes, as the big-endian number they spell. -/
abbrev Hash := Fin (2 ^ 256)

instance Hash.neZero : NeZero (2 ^ 256 : ℕ) := ⟨Nat.pos_iff_ne_zero.mp (Nat.two_pow_pos 256)⟩

/-- The 32 bytes of a hash, most significant first. -/
def Hash.bytes (h : Hash) : Bytes :=
  (List.range 32).map fun i => UInt8.ofNat (h.val / 256 ^ (31 - i))

/-- The lower-case hexadecimal digits of a byte slice. -/
def hexString (b : Bytes) : String :=
  String.ofList (b.flatMap fun x => [Nat.digitChar (x.toNat / 16), Nat.digitChar (x.toNat % 16)])

/-- `Hash.Hex`. -/
def Hash.hex (h : Hash) : String := "0x" ++ hexString h.bytes

/-- `types.Ed25519Key`. -/
abbrev Ed25519Key := Hash

/-- `types.Ed25519Signature`: 64 bytes. -/
abbrev Ed25519Signature := Vector UInt8 64

namespace Types

/-- `TotalCores`, `C` of the protocol. -/
abbrev totalCores : ℕ := 2

/-- `TotalValidators`, `V`. -/
abbrev totalValidators : ℕ := 6

/-- `EpochLength`, `E`. -/
abbrev epochLength : ℕ := 12

/-- `SecondsPerSlot`, `P`. -/
abbrev secondsPerSlot : ℕ := 6

/-- `RecentHistorySize`, `H`. -/
abbrev recentHistorySize : ℕ := 8

/-- `UnavailableWorkReplacementPeriod`, `U`. -/
abbrev unavailableWorkReplacementPeriod : ℕ := 5

/-- `ValidatorsSuperMajority`: the votes a verdict carries. -/
abbrev validatorsSuperMajority : ℕ := 2 * totalValidators / 3 + 1

/-- `WonkyTrueThreshold`. -/
abbrev wonkyTrueThreshold : ℕ := totalValidators / 3

/-- `types.Validator`, less the Bandersnatch and BLS keys and the metadata. -/
structure Validator where
  ed25519 : Ed25519Key
  deriving DecidableEq, Repr

/-- `statedb.Entropy`: the accumulated entropy, and its values at the last three
changes of the epoch. -/
structure Entropy where
  eta0 : Hash
  eta1 : Hash
  eta2 : Hash
  eta3 : Hash
  deriving DecidableEq, Repr

/-- `types.AvailabilitySpecifier`. -/
structure AvailabilitySpecifier where
  workPackageHash : Hash
  bundleLength : UInt32
  erasureRoot : Hash
  exportedSegmentRoot : Hash
  exportedSegmentLength : UInt16
  deriving DecidableEq, Repr

/-- `types.RefineContext`. -/
structure RefineContext where
  anchor : Hash
  stateRoot : Hash
  beefyRoot : Hash
  lookupAnchor : Hash
  lookupAnchorSlot : UInt32
  prerequisites : List Hash
  deriving DecidableEq, Repr

/-- `types.SegmentRootLookupItem`, and `types.SegmentRootLookupItemHistory`,
which has the same two fields. -/
structure SegmentRootLookupItem where
  workPackageHash : Hash
  segmentRoot : Hash
  deriving DecidableEq, Repr

/-- `types.Result`: the output blob, or an error code. -/
structure Result where
  ok : Bytes
  err : UInt8
  deriving DecidableEq, Repr

/-- `types.WorkDigest`. -/
structure WorkDigest where
  serviceID : UInt32
  codeHash : Hash
  payloadHash : Hash
  gas : UInt64
  result : Result
  gasUsed : UInt64
  numImportedSegments : UInt64
  numExtrinsics : UInt64
  numBytesExtrinsics : UInt64
  numExportedSegments : UInt64
  deriving DecidableEq, Repr

/-- `types.WorkReport`. -/
structure WorkReport where
  availabilitySpec : AvailabilitySpecifier
  refineContext : RefineContext
  coreIndex : UInt64
  authorizerHash : Hash
  authGasUsed : UInt64
  trace : Bytes
  segmentRootLookup : List SegmentRootLookupItem
  results : List WorkDigest
  deriving DecidableEq, Repr

/-- `WorkReport.GetWorkPackageHash`. -/
def WorkReport.workPackageHash (w : WorkReport) : Hash := w.availabilitySpec.workPackageHash

/-- A report with nothing but a package, a core and prerequisites. -/
def plainReport (package : Hash) (core : UInt64) (prerequisites : List Hash) : WorkReport where
  availabilitySpec := ⟨package, 0, 0, 0, 0⟩
  refineContext := ⟨0, 0, 0, 0, 0, prerequisites⟩
  coreIndex := core
  authorizerHash := 0
  authGasUsed := 0
  trace := []
  segmentRootLookup := []
  results := []

/-- `types.AccumulationQueue`: a report waiting in the ready queue, with the
package hashes it still waits for. -/
structure AccumulationQueue where
  workReport : WorkReport
  workPackageHash : List Hash
  deriving DecidableEq, Repr

end Types
end JamDuna
