/-
# Assurances and guarantees

`types/assurance.go`, `types/guarantee.go`, `types/guarantor_assignments.go`, and
`CheckReportSize` of `types/workreport.go`.

`computeHash` stands for `common.ComputeHash` (Blake2b) and `reportHash` for the
hash of an encoded report.
-/

import JamDuna.Types.Dispute

namespace JamDuna.Types

open JamDuna.Basis

/-- `Avail_bitfield_bytes`. -/
abbrev availBitfieldBytes : ℕ := (totalCores + 7) / 8

/-- `MaxEncodedWorkReportSize`. -/
abbrev maxEncodedWorkReportSize : ℕ := 48 * 2 ^ 10

/-- `types.Assurance`. -/
structure Assurance where
  anchor : Hash
  bitfield : Vector UInt8 availBitfieldBytes
  validatorIndex : UInt16
  signature : Ed25519Signature
  deriving DecidableEq, Repr

/-- `GetBitFieldBit`, for the index of a core. -/
def Assurance.getBitFieldBit (a : Assurance) (c : Fin totalCores) : Bool :=
  match a.bitfield[c.val / 8]? with
  | none => false
  | some b => b.toNat.testBit (c.val % 8)

/-- `ValidBitfield`: no bit is set for a core without a report. -/
def Assurance.validBitfield (a : Assurance) (hadAvailabilityAssignments : Fin totalCores → Bool) :
    Bool :=
  (List.finRange totalCores).all fun c => !(a.getBitFieldBit c && !hadAvailabilityAssignments c)

/-- `X_A`. -/
def xA : Bytes := "jam_available".toUTF8.toList

/-- `types.GuaranteeCredential`. -/
structure GuaranteeCredential where
  validatorIndex : UInt16
  signature : Ed25519Signature
  deriving DecidableEq, Repr

/-- `types.Guarantee`. -/
structure Guarantee where
  report : WorkReport
  slot : UInt32
  signatures : List GuaranteeCredential
  deriving DecidableEq, Repr

/-- `types.GuarantorAssignment`. -/
structure GuarantorAssignment where
  coreIndex : UInt16
  validator : Validator
  deriving DecidableEq, Repr

/-- `types.ServiceAccount`: the two fields the guarantee checks read. -/
structure ServiceAccount where
  codeHash : Hash
  gasLimitG : UInt64
  deriving DecidableEq, Repr

/-- `CheckReportSize`. -/
def WorkReport.checkReportSize (w : WorkReport) : Bool :=
  w.trace.length + (w.results.map (·.result.ok.length)).sum ≤ maxEncodedWorkReportSize

variable (ed25519Verify : Ed25519Key → Bytes → Ed25519Signature → Bool)

/-- `Assurance.VerifySignature`, whose only error is the bad signature. -/
def Assurance.verifySignature (computeHash : Bytes → Hash) (a : Assurance)
    (validator : Validator) : Bool :=
  ed25519Verify validator.ed25519
    (xA ++ (computeHash (a.anchor.bytes ++ a.bitfield.toList)).bytes) a.signature

/-- `Guarantee.VerifyValidator`: the signatures of all credentials are tried, and
one that is bad is enough. An index past the end of the validators panics. -/
def Guarantee.verifyValidator {ε : Type} (reportHash : WorkReport → Hash) (g : Guarantee)
    (validators : List Validator) (bad : ε) : Except (Stop ε) Unit := do
  let signtext := xG ++ (reportHash g.report).bytes
  let numErrors ← g.signatures.foldlM (fun n i =>
    match validators[i.validatorIndex.toNat]? with
    | none => Except.error Stop.panic
    | some v => Except.ok (if ed25519Verify v.ed25519 signtext i.signature then n else n + 1)) 0
  failIf (decide (0 < numErrors)) bad

end JamDuna.Types
