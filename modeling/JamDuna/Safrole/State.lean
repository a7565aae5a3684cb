/-
# The Safrole state

`statedb/safrole.go`, with `types/validator.go`, `types/ticket.go`,
`types/ticketbody.go` and `TicketsOrKeys` of `statedb/state.go`: the four validator
sets, the entropy, the ticket accumulator and the slot-sealer series, and the
functions that choose the series of an epoch.

The node's index, the verifier key and the cached ring commitment are left out: the
first two are not read by the transition, and the cache holds what would be computed
again. A slice that may be `nil` is an `Option`. Blake2b and the Bandersnatch
functions are parameters (`Primitives`); a ring is the list of its keys, of which the
source passes the concatenation and the number.
-/

import JamDuna.Basis.EarlyExit
import JamDuna.Basis.LittleEndian
import JamDuna.Types.Basic

namespace JamDuna.Safrole

open JamDuna.Types JamDuna.Basis

/-- `TicketSubmissionEndSlot`, `Y`. -/
abbrev ticketSubmissionEndSlot : ℕ := 10

/-- `TicketEntriesPerValidator`, `N`. -/
abbrev ticketEntriesPerValidator : ℕ := 3

/-- `MaxTicketsPerExtrinsic`, `K`. -/
abbrev maxTicketsPerExtrinsic : ℕ := 3

/-- `types.Validator`. -/
structure Validator where
  bandersnatch : Hash
  ed25519 : Ed25519Key
  bls : Vector UInt8 144
  metadata : Vector UInt8 128
  deriving DecidableEq, Repr

/-- `types.Validator{}`. -/
def Validator.zero : Validator := ⟨0, 0, Vector.replicate _ 0, Vector.replicate _ 0⟩

/-- `types.TicketBody`. -/
structure TicketBody where
  id : Hash
  attempt : UInt8
  deriving DecidableEq, Repr

/-- `types.TicketBody{}`. -/
def TicketBody.zero : TicketBody := ⟨0, 0⟩

/-- `types.Ticket`. -/
structure Ticket where
  attempt : UInt8
  signature : Vector UInt8 784
  deriving DecidableEq, Repr

/-- `statedb.TicketsOrKeys`: the slot-sealer series. -/
structure TicketsOrKeys where
  tickets : Option (List TicketBody)
  keys : Option (List Hash)
  deriving DecidableEq, Repr

/-- `statedb.SafroleState`. -/
structure SafroleState where
  epochFirstSlot : UInt32
  offenderState : List Ed25519Key
  timeslot : UInt32
  entropy : Entropy
  prevValidators : List Validator
  currValidators : List Validator
  nextValidators : List Validator
  designatedValidators : List Validator
  nextEpochTicketsAccumulator : List TicketBody
  ticketsOrKeys : TicketsOrKeys
  deriving DecidableEq, Repr

/-- The cryptography that the transition calls. -/
structure Primitives where
  blake2 : Bytes → Hash
  /-- `ValidateBandersnatchKey` returns no error. -/
  validKey : Hash → Bool
  /-- `RingVrfVerifyWithCache` on a ring that is not empty. -/
  ringVrfVerify : List Hash → Vector UInt8 784 → Bytes → Option Hash
  vrfSignedOutput : Vector UInt8 96 → Option Hash
  /-- `bandersnatch.GetRingCommitment` on a ring that is not empty. -/
  ringCommitment : List Hash → Option (Vector UInt8 144)

/-- The monad of the transition; its errors are the texts. -/
abbrev Check := Except (Stop String)

namespace SafroleState

variable (P : Primitives) (s : SafroleState)

/-- `EpochAndPhase`: epoch -1 before the first slot. -/
def epochAndPhase (ts : UInt32) : ℤ × ℕ :=
  if ts < s.epochFirstSlot / UInt32.ofNat secondsPerSlot then (-1, 0)
  else (ts.toNat / epochLength, ts.toNat % epochLength)

/-- `IsNewEpoch`. -/
def isNewEpoch (currJCE : UInt32) : Bool :=
  decide ((s.epochAndPhase s.timeslot).1 < (s.epochAndPhase currJCE).1)

/-- `EpochChanged`. -/
def epochChanged (targetJCE : UInt32) : Bool :=
  decide ((s.epochAndPhase s.timeslot).1 ≠ (s.epochAndPhase targetJCE).1)

/-- Epochs do not go back with the slots. -/
theorem epoch_mono {ts ts' : UInt32} (h : ts ≤ ts') :
    (s.epochAndPhase ts).1 ≤ (s.epochAndPhase ts').1 := by
  have hle : ts.toNat ≤ ts'.toNat := UInt32.le_iff_toNat_le.mp h
  have hdiv : ts.toNat / epochLength ≤ ts'.toNat / epochLength := Nat.div_le_div_right hle
  unfold epochAndPhase
  split_ifs with h₁ h₂ h₂
  · simp
  · exact le_trans (by decide) (Int.natCast_nonneg (ts'.toNat / epochLength))
  · exact absurd (UInt32.lt_of_le_of_lt h h₂) h₁
  · exact Int.ofNat_le.mpr hdiv

/-- For a later slot the epoch has changed precisely if it is a new one. -/
theorem epochChanged_eq_isNewEpoch {target : UInt32} (h : s.timeslot < target) :
    s.epochChanged target = s.isNewEpoch target := by
  have hmono := s.epoch_mono (UInt32.le_of_lt h)
  unfold epochChanged isNewEpoch
  rw [decide_eq_decide]
  omega

/-- `GetRingSet`: a key that is not valid counts as the padding key. -/
def ringSet (validators : List Validator) : List Hash :=
  validators.map fun v => if P.validKey v.bandersnatch then v.bandersnatch else 0

/-- `CleanValidators`: offenders are replaced by the zero validator. -/
def cleanValidators (validators : List Validator) : List Validator :=
  validators.map fun v => if s.offenderState.contains v.ed25519 then .zero else v

@[simp] theorem length_cleanValidators (validators : List Validator) :
    (s.cleanValidators validators).length = validators.length := by
  simp [cleanValidators]

/-- `AdvanceEntropyAndValidator`, on the copy `s2` of the state `s`. Without next or
designated validators it returns early. -/
def advanceEntropyAndValidator (s2 s : SafroleState) (newEntropy0 : Hash) : SafroleState :=
  let s2 := { s2 with
    prevValidators := s2.currValidators
    currValidators := s2.nextValidators }
  if s2.nextValidators.length = 0 then s2
  else
    let s2 := { s2 with nextValidators := s2.cleanValidators s2.designatedValidators }
    if s2.designatedValidators.length = 0 then s2
    else { s2 with entropy := ⟨newEntropy0, s.entropy.eta0, s.entropy.eta1, s.entropy.eta2⟩ }

/-- `StableEntropy`. -/
def stableEntropy (s2 s : SafroleState) (newEntropy0 : Hash) : SafroleState :=
  { s2 with entropy := ⟨newEntropy0, s.entropy.eta1, s.entropy.eta2, s.entropy.eta3⟩ }

/-- `ComputeCurrRandomness`. -/
def computeCurrRandomness (freshRandomness : Hash) : Hash :=
  P.blake2 (s.entropy.eta0.bytes ++ freshRandomness.bytes)

/-- `computeTicketSlotBinding`: the outside-in order. It is called with
`EpochLength` tickets. -/
def computeTicketSlotBinding (inp : List TicketBody) : List TicketBody :=
  (List.range (inp.length / 2)).flatMap fun i =>
    [inp.getD i .zero, inp.getD (epochLength - 1 - i) .zero]

/-- `GenerateWinningMarker`. -/
def generateWinningMarker : Check (List TicketBody) :=
  if s.nextEpochTicketsAccumulator.length ≠ epochLength then
    .error (.err "invalid Ticket size")
  else .ok (computeTicketSlotBinding s.nextEpochTicketsAccumulator)

/-- `VerifyWinningMarker`, on two lists of the same length. -/
def verifyWinningMarker (winningMarker expectedMarker : List TicketBody) : Bool :=
  winningMarker == expectedMarker

/-- `computeFallbackAuthorityIndex`: the first four bytes of a hash, modulo the
number of validators. -/
def computeFallbackAuthorityIndex (targetRandomness : Hash) (relativeSlotIndex : ℕ)
    (validatorsLen : ℕ) : ℕ :=
  let hash := (P.blake2 (targetRandomness.bytes ++ toLE 4 relativeSlotIndex)).bytes
  ofLE (hash.take 4) % validatorsLen

/-- `ChooseFallBackValidator`, which panics without current validators. -/
def chooseFallBackValidator : Check (List Hash) :=
  if s.currValidators.length = 0 then .error .panic
  else .ok ((List.range epochLength).map fun i =>
    let authority := computeFallbackAuthorityIndex P s.entropy.eta2 i s.currValidators.length
    (s.currValidators.map (·.bandersnatch)).getD authority 0)

theorem length_computeTicketSlotBinding {inp : List TicketBody}
    (h : inp.length = epochLength) : (computeTicketSlotBinding inp).length = epochLength := by
  unfold computeTicketSlotBinding
  rw [h]
  rfl

end SafroleState

/-- Six validators whose keys start at `k`. -/
def sixValidators (k : ℕ) : List Validator :=
  (List.range totalValidators).map fun i =>
    ⟨Fin.ofNat _ (k + i), Fin.ofNat _ (k + i), Vector.replicate _ 0, Vector.replicate _ 0⟩

/-- A state of the given slot with the given accumulator. -/
def sampleState (slot : UInt32) (accumulator : List TicketBody) : SafroleState :=
  ⟨0, [], slot, ⟨0, 1, 2, 3⟩, sixValidators 10, sixValidators 20, sixValidators 30,
    sixValidators 40, accumulator, ⟨none, some ((List.range epochLength).map fun _ => 20)⟩⟩

/-- Twelve tickets. -/
def fullAccumulator : List TicketBody :=
  (List.range epochLength).map fun i => ⟨Fin.ofNat _ (i + 1), 0⟩

/-- Primitives that accept every key and every proof; the first byte of a ticket's
signature is its identifier. -/
def samplePrimitives : Primitives where
  blake2 := fun data => Fin.ofNat _ ((data.take 2).foldl (fun n b => n * 256 + b.toNat) 0)
  validKey := fun _ => true
  ringVrfVerify := fun _ signature _ => some (Fin.ofNat _ (signature.toList.headD 0).toNat)
  vrfSignedOutput := fun _ => some 0
  ringCommitment := fun _ => some (Vector.replicate _ 1)

end JamDuna.Safrole
