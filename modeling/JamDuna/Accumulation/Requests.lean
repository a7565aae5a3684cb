/-
# Preimage requests

`ReadLookup`, `ReadPreimage`, `WriteLookup` and `WritePreimage` of
`types/serviceaccount.go` as calls that an account answers, and `hostSolicit` and
`hostForget` of `statedb/pvm_hostfunctions.go`, which are made of them.

A request is for a hash and a length. The trie keeps the two apart; the overlay of the
account has one entry for a hash, with the length it was last read or written for, and this
entry answers for every length. FORGET deletes the preimage of the hash together with the
request, without looking at its length.

The arguments are those read from registers and memory, and the mode is that of an
accumulation. `append` makes a new list of timeslots here; that it may share memory with the
old one is left out.
-/

import JamDuna.Accumulation.NewService
import JamDuna.Basis.Answers

namespace JamDuna.Accumulation

open ServiceAccount

section

/-- A call on the requests and preimages of an account; no timeslots (`nil`) and an empty
preimage are deletions. -/
inductive OverlayCall where
  | readLookup (h : Hash) (z : UInt32)
  | writeLookup (h : Hash) (z : UInt32) (timeSlots : Option (List UInt32))
  | readPreimage (h : Hash)
  | writePreimage (h : Hash) (preimage : Bytes)

/-- What a call returns; `none` is a request or a preimage that is not there. -/
inductive Answer where
  | timeslots (t : Option (List UInt32))
  | preimage (p : Option Bytes)
  | done
  deriving DecidableEq, Repr

variable (env : HostEnv) (a : ServiceAccount)

/-- The account after `ReadPreimage`: a preimage found in the trie enters the overlay. -/
def ServiceAccount.cachePreimage (h : Hash) : ServiceAccount :=
  match a.preimage h, env.readServicePreimageBlob a.serviceIndex h with
  | none, some p => { a with preimage := Function.update a.preimage h (some ⟨false, false, p⟩) }
  | _, _ => a

/-- An account answers a call. -/
def ServiceAccount.call : OverlayCall → Answer × ServiceAccount
  | .readLookup h z => (.timeslots (a.lookupTimeslots env h z), a.cacheLookup env h z)
  | .writeLookup h z t => (.done, a.writeLookup h z t)
  | .readPreimage h => (.preimage (a.preimageBlob env h), a.cachePreimage env h)
  | .writePreimage h p => (.done, a.writePreimage h p)

end

/-- `PreimageExpiryPeriod`, `D`. -/
def preimageExpiryPeriod : UInt32 := 32

variable (env : HostEnv) (a : ServiceAccount)

/-- `AdjustNumStorageItems`. -/
def ServiceAccount.adjustNumStorageItems (delta : Int32) : ServiceAccount :=
  { a with
    numStorageItems :=
      if delta < 0 ∧ a.numStorageItems < (-delta).toUInt32 then 0
      else (a.numStorageItems.toInt32 + delta).toUInt32
    numStorageItemsDirty := true }

/-- `AdjustStorageSize`. -/
def ServiceAccount.adjustStorageSize (delta : Int64) : ServiceAccount :=
  if delta = 0 then a
  else { a with
    storageSize :=
      if delta < 0 ∧ a.storageSize < (-delta).toUInt64 then 0
      else (a.storageSize.toInt64 + delta).toUInt64
    storageSizeDirty := true }

/-- `ComputeThresholdDelta`. -/
def ServiceAccount.computeThresholdDelta (deltaNumStorageItems : Int32)
    (deltaStorageSize : Int64) : UInt64 :=
  if maxUint64 - deltaStorageSize.toUInt64 < a.storageSize then maxUint64
  else
    let storageOctets := a.storageSize + deltaStorageSize.toUInt64
    let octetCost : UInt64 := 1
    if 0 < octetCost ∧ maxUint64 / octetCost < storageOctets then maxUint64
    else
      let items := (a.numStorageItems.toInt32 + deltaNumStorageItems).toInt64.toUInt64
      let footprint := 100 + 10 * items + octetCost * storageOctets
      if footprint ≤ a.gratisOffset then 0 else footprint - a.gratisOffset

/-- The result codes of SOLICIT and FORGET. -/
inductive RequestResult where
  | ok
  | huh
  | full
  deriving DecidableEq, Repr

/-- `ensureCapacity` of `hostSolicit`. -/
def ServiceAccount.ensureCapacity (blobLen : UInt32) : Bool :=
  let threshold := a.computeThresholdDelta 2 (accountLookupConst + blobLen.toUInt64).toInt64
  !(threshold == maxUint64) && decide (threshold ≤ a.balance)

/-- `hostSolicit`, on the account of the running service. -/
def ServiceAccount.hostSolicit (timeslot : UInt32) (h : Hash) (z : UInt64) :
    RequestResult × ServiceAccount :=
  let blobLen := z.toUInt32
  let xs := a.cacheLookup env h blobLen
  match a.lookupTimeslots env h blobLen with
  | none =>
    if xs.ensureCapacity blobLen then
      (.ok, ((xs.writeLookup h blobLen (some [])).adjustNumStorageItems 2).adjustStorageSize
        (accountLookupConst + blobLen.toUInt64).toInt64)
    else (.full, xs)
  | some [x, y] =>
    if xs.ensureCapacity blobLen then (.ok, xs.writeLookup h blobLen (some [x, y, timeslot]))
    else (.full, xs)
  | some _ => (.huh, xs)

/-- The deletion of a request and of the preimage of its hash. -/
def ServiceAccount.forgetRequest (h : Hash) (z : UInt64) : ServiceAccount :=
  (((a.writeLookup h z.toUInt32 none).writePreimage h []).adjustNumStorageItems
    (-2)).adjustStorageSize (-(accountLookupConst + z).toInt64)

/-- `hostForget`, on the account of the running service. -/
def ServiceAccount.hostForget (timeslot : UInt32) (h : Hash) (z : UInt64) :
    RequestResult × ServiceAccount :=
  let xs := (a.cacheLookup env h z.toUInt32).cachePreimage env h
  match a.lookupTimeslots env h z.toUInt32 with
  | none => (.huh, xs)
  | some [] => (.ok, xs.forgetRequest h z)
  | some [x] => (.ok, xs.writeLookup h z.toUInt32 (some [x, timeslot]))
  | some [_, y] =>
    if y + preimageExpiryPeriod < timeslot then (.ok, xs.forgetRequest h z) else (.huh, xs)
  | some [_, y, w] =>
    if y + preimageExpiryPeriod < timeslot then
      (.ok, xs.writeLookup h z.toUInt32 (some [w, timeslot]))
    else (.huh, xs)
  | some _ => (.huh, xs)

/-- What happens to the requests of an account: a call on its overlay, or a host call. -/
inductive RequestStep where
  | call (c : OverlayCall)
  | solicit (timeslot : UInt32) (h : Hash) (z : UInt64)
  | forget (timeslot : UInt32) (h : Hash) (z : UInt64)

/-- The account after a step, and what the step returned. -/
def ServiceAccount.requestStep : RequestStep → (Answer ⊕ RequestResult) × ServiceAccount
  | .call c => ((a.call env c).map .inl id)
  | .solicit t h z => ((a.hostSolicit env t h z).map .inr id)
  | .forget t h z => ((a.hostForget env t h z).map .inr id)

variable (h : Hash) (z : UInt32)

@[simp] theorem serviceIndex_cachePreimage :
    (a.cachePreimage env h).serviceIndex = a.serviceIndex := by
  unfold cachePreimage
  split <;> rfl

@[simp] theorem lookup_cachePreimage : (a.cachePreimage env h).lookup = a.lookup := by
  unfold cachePreimage
  split <;> rfl

@[simp] theorem lookupTimeslots_cachePreimage (h' : Hash) :
    (a.cachePreimage env h).lookupTimeslots env h' z = a.lookupTimeslots env h' z := by
  simp [lookupTimeslots]

@[simp] theorem preimageBlob_cacheLookup (h' : Hash) :
    (a.cacheLookup env h z).preimageBlob env h' = a.preimageBlob env h' := by
  simp [preimageBlob]

/-- Reading a preimage changes none. -/
@[simp] theorem preimageBlob_cachePreimage (h' : Hash) :
    (a.cachePreimage env h).preimageBlob env h' = a.preimageBlob env h' := by
  unfold cachePreimage
  split
  · next p hnone hp =>
    by_cases hh : h' = h
    · subst hh
      simp [preimageBlob, hnone, hp]
    · simp [preimageBlob, Function.update_of_ne hh]
  · rfl

theorem preimageBlob_writePreimage_of_ne {h' : Hash} (hne : h' ≠ h) (p : Bytes) :
    (a.writePreimage h p).preimageBlob env h' = a.preimageBlob env h' := by
  simp [preimageBlob, writePreimage, Function.update_of_ne hne]

@[simp] theorem lookupTimeslots_adjustNumStorageItems (delta : Int32) :
    (a.adjustNumStorageItems delta).lookupTimeslots env h z = a.lookupTimeslots env h z := rfl

@[simp] theorem preimageBlob_adjustNumStorageItems (delta : Int32) :
    (a.adjustNumStorageItems delta).preimageBlob env h = a.preimageBlob env h := rfl

@[simp] theorem lookupTimeslots_adjustStorageSize (delta : Int64) :
    (a.adjustStorageSize delta).lookupTimeslots env h z = a.lookupTimeslots env h z := by
  unfold adjustStorageSize
  split_ifs <;> rfl

@[simp] theorem preimageBlob_adjustStorageSize (delta : Int64) :
    (a.adjustStorageSize delta).preimageBlob env h = a.preimageBlob env h := by
  unfold adjustStorageSize
  split_ifs <;> rfl

end JamDuna.Accumulation
