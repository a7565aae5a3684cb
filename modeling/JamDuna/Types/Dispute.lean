/-
# The dispute extrinsic

`types/dispute.go`: verdicts, culprits and faults, and what each of them has
signed. A verdict carries an array of exactly `ValidatorsSuperMajority` votes,
and a vote names its validator by a `uint16` that nothing in the type bounds.

`Ed25519Verify` belongs to a library outside the repository; it is a parameter
of every function that checks a signature.
-/

import JamDuna.Basis.EarlyExit
import JamDuna.Types.Basic

namespace JamDuna.Types

open JamDuna.Basis

/-- `types.Vote`. -/
structure Vote where
  voting : Bool
  index : UInt16
  signature : Ed25519Signature
  deriving DecidableEq, Repr

/-- `types.Verdict`. -/
structure Verdict where
  target : Hash
  epoch : UInt32
  votes : Vector Vote validatorsSuperMajority
  deriving DecidableEq, Repr

/-- `types.Culprit`. -/
structure Culprit where
  target : Hash
  key : Ed25519Key
  signature : Ed25519Signature
  deriving DecidableEq, Repr

/-- `types.Fault`. -/
structure Fault where
  target : Hash
  voting : Bool
  key : Ed25519Key
  signature : Ed25519Signature
  deriving DecidableEq, Repr

/-- `types.Dispute`. -/
structure Dispute where
  verdict : List Verdict
  culprit : List Culprit
  fault : List Fault
  deriving DecidableEq, Repr

/-- `X_True`. -/
def xTrue : Bytes := "jam_valid".toUTF8.toList

/-- `X_False`. -/
def xFalse : Bytes := "jam_invalid".toUTF8.toList

/-- `X_G`. -/
def xG : Bytes := "jam_guarantee".toUTF8.toList

/-- `Vote.UnsignedBytesWithSalt`. -/
def Vote.unsignedBytesWithSalt (v : Vote) (target : Hash) : Bytes :=
  (if v.voting then xTrue else xFalse) ++ target.bytes

/-- `Culprit.UnsignedBytesWithSalt`. -/
def Culprit.unsignedBytesWithSalt (c : Culprit) : Bytes := xG ++ c.target.bytes

/-- `Fault.UnsignedBytesWithSalt`. -/
def Fault.unsignedBytesWithSalt (f : Fault) : Bytes :=
  (if f.voting then xTrue else xFalse) ++ f.target.bytes

variable (ed25519Verify : Ed25519Key → Bytes → Ed25519Signature → Bool)

/-- One round of the loop of `Verdict.Verify`. `validators[vote.Index]` panics
when the index is past the end of the slice. -/
def Verdict.verifyVote (validators : List Validator) (target : Hash) (vote : Vote) :
    Except (Stop String) Unit :=
  match validators[vote.index.toNat]? with
  | none => .error .panic
  | some validator =>
    failIf (ed25519Verify validator.ed25519 (vote.unsignedBytesWithSalt target) vote.signature
      == false) ("Invalid signature for vote " ++ toString vote.index.toNat)

/-- `Verdict.Verify`. -/
def Verdict.verify (v : Verdict) (validators : List Validator) : Except (Stop String) Unit :=
  forM v.votes.toList (Verdict.verifyVote ed25519Verify validators v.target)

/-- `Culprit.Verify`. -/
def Culprit.verify (c : Culprit) : Bool := ed25519Verify c.key c.unsignedBytesWithSalt c.signature

/-- `Fault.Verify`. -/
def Fault.verify (f : Fault) : Bool := ed25519Verify f.key f.unsignedBytesWithSalt f.signature

/-- The votes of a verdict that call the report good. -/
def Verdict.positiveCount (v : Verdict) : ℕ := v.votes.toList.countP (·.voting)

end JamDuna.Types
