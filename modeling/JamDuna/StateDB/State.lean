/-
# The chain state

`statedb/state.go`: `JamState`, with the components the modelled transitions
read or write. `AvailabilityAssignments` and the two accumulation arrays are
Go arrays, so their length is part of the type; the judgement sets are slices
of 32-byte slices and are lists of hashes here.
-/

import JamDuna.Types.Basic

namespace JamDuna.StateDB

open JamDuna.Types

/-- `statedb.DisputeState`. -/
structure DisputeState where
  goodSet : List Hash := []
  badSet : List Hash := []
  wonkySet : List Hash := []
  offenders : List Ed25519Key := []
  deriving DecidableEq, Repr

/-- `statedb.SafroleState`, less the ticket machinery. -/
structure SafroleState where
  epochFirstSlot : UInt32
  timeslot : UInt32
  currValidators : List Validator
  prevValidators : List Validator
  deriving DecidableEq, Repr

/-- The phase that `SafroleState.EpochAndPhase` returns: the position of a slot in
its epoch, and 0 before the first slot. -/
def SafroleState.phase (s : SafroleState) (ts : UInt32) : ℕ :=
  if ts < s.epochFirstSlot / UInt32.ofNat secondsPerSlot then 0 else ts.toNat % epochLength

theorem SafroleState.phase_lt (s : SafroleState) (ts : UInt32) : s.phase ts < epochLength := by
  unfold SafroleState.phase
  split_ifs
  · decide
  · exact Nat.mod_lt _ (by decide)

/-- `statedb.CoreState`: the report pending on a core and the slot it was
reported in. -/
structure CoreState where
  workReport : WorkReport
  timeslot : UInt32
  deriving DecidableEq, Repr

/-- `statedb.HistoryState`: what is kept of a recent block. -/
structure HistoryState where
  headerHash : Hash
  b : Hash
  stateRoot : Hash
  reported : List SegmentRootLookupItem
  deriving DecidableEq, Repr

/-- `statedb.JamState`. -/
structure JamState where
  authorizationsPool : Vector (List Hash) totalCores
  recentBlocks : List HistoryState
  safroleState : SafroleState
  availabilityAssignments : Vector (Option CoreState) totalCores
  disputesState : DisputeState
  accumulationQueue : Vector (List AccumulationQueue) epochLength
  accumulationHistory : Vector (List Hash) epochLength
  deriving DecidableEq, Repr

section

variable (j : JamState)

/-- The report on a core. -/
def JamState.core (c : Fin totalCores) : Option CoreState := j.availabilityAssignments.get c

/-- The authorizers in the pool of a core. -/
def JamState.authorizers (c : Fin totalCores) : List Hash := j.authorizationsPool.get c

/-- The part of the ready queue that belongs to a slot of the epoch. -/
def JamState.queueSlot (n : Fin epochLength) : List AccumulationQueue := j.accumulationQueue.get n

theorem JamState.core_eq (c : Fin totalCores) : j.core c = j.availabilityAssignments[c] := rfl

theorem JamState.queueSlot_eq (n : Fin epochLength) : j.queueSlot n = j.accumulationQueue[n] := rfl

end

/-- A state at slot 0 whose validators have the keys 0 to 5 and that has judged
nothing. -/
def freshState : JamState where
  authorizationsPool := Vector.replicate _ []
  recentBlocks := []
  safroleState := ⟨0, 0, (List.range 6).map fun k => ⟨Fin.ofNat _ k⟩,
    (List.range 6).map fun k => ⟨Fin.ofNat _ k⟩⟩
  availabilityAssignments := Vector.replicate _ none
  disputesState := {}
  accumulationQueue := Vector.replicate _ []
  accumulationHistory := Vector.replicate _ []

end JamDuna.StateDB
