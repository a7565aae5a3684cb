/-
# Service accounts during accumulation

`types/serviceaccount.go`: the account of a service with its overlay of changed
storage, preimages and preimage requests, read through to the state trie.

A Go map is a function to `Option`. The overlay of requests is keyed by the hash
alone, as in the source, so a request that has been read or written answers for
every length. `Mutable` is left out: the account of a running service is mutable,
and elsewhere the functions here only log that it is not (`log.Crit` of the package
writes a line and returns). So are the fields `Accessed` and `Source`, which nothing
reads.
-/

import JamDuna.Types.Basic

namespace JamDuna.Accumulation

/-- `types.StorageObject`. -/
structure StorageObject where
  deleted : Bool
  dirty : Bool
  value : Bytes
  deriving DecidableEq, Repr

/-- `types.LookupObject`: a preimage request and its timeslots. -/
structure LookupObject where
  deleted : Bool
  dirty : Bool
  z : UInt32
  timeslots : List UInt32
  deriving DecidableEq, Repr

/-- `types.PreimageObject`. -/
structure PreimageObject where
  deleted : Bool
  dirty : Bool
  preimage : Bytes
  deriving DecidableEq, Repr

/-- `types.ServiceAccount`. -/
structure ServiceAccount where
  serviceIndex : UInt32
  codeHash : Hash := 0
  balance : UInt64 := 0
  gasLimitG : UInt64 := 0
  gasLimitM : UInt64 := 0
  storageSize : UInt64 := 0
  gratisOffset : UInt64 := 0
  numStorageItems : UInt32 := 0
  createTime : UInt32 := 0
  recentAccumulation : UInt32 := 0
  parentService : UInt32 := 0
  newAccount : Bool := false
  dirty : Bool := false
  numStorageItemsDirty : Bool := false
  storageSizeDirty : Bool := false
  deletedAccount : Bool := false
  storage : Bytes → Option StorageObject := fun _ => none
  lookup : Hash → Option LookupObject := fun _ => none
  preimage : Hash → Option PreimageObject := fun _ => none

/-- `types.HostEnv`: the state trie, as the accounts read it. A read that fails
and one that finds nothing are treated alike by every caller. -/
structure HostEnv where
  getService : UInt32 → Option ServiceAccount
  readServicePreimageBlob : UInt32 → Hash → Option Bytes
  readServicePreimageLookup : UInt32 → Hash → UInt32 → Option (List UInt32)

section

variable (env : HostEnv) (a : ServiceAccount)

/-- What `ReadLookup` returns: the timeslots of the request, from the overlay if it
has the hash, and otherwise from the trie. -/
def ServiceAccount.lookupTimeslots (h : Hash) (z : UInt32) : Option (List UInt32) :=
  match a.lookup h with
  | some l => if l.deleted then none else some l.timeslots
  | none => env.readServicePreimageLookup a.serviceIndex h z

/-- The account after `ReadLookup`: a request found in the trie enters the
overlay. -/
def ServiceAccount.cacheLookup (h : Hash) (z : UInt32) : ServiceAccount :=
  match a.lookup h, env.readServicePreimageLookup a.serviceIndex h z with
  | none, some t => { a with lookup := Function.update a.lookup h (some ⟨false, false, z, t⟩) }
  | _, _ => a

/-- What `ReadPreimage` returns. -/
def ServiceAccount.preimageBlob (h : Hash) : Option Bytes :=
  match a.preimage h with
  | some p => if p.deleted then none else some p.preimage
  | none => env.readServicePreimageBlob a.serviceIndex h

end

section

variable (a : ServiceAccount)

/-- `WritePreimage`: an empty preimage is a deletion. -/
def ServiceAccount.writePreimage (h : Hash) (preimage : Bytes) : ServiceAccount :=
  { a with
    dirty := true
    preimage := Function.update a.preimage h (some ⟨preimage.length == 0, true, preimage⟩) }

/-- `WriteLookup`; no timeslots (`nil`) is a deletion. -/
def ServiceAccount.writeLookup (h : Hash) (z : UInt32) (timeSlots : Option (List UInt32)) :
    ServiceAccount :=
  { a with
    dirty := true
    numStorageItemsDirty := a.numStorageItemsDirty || (a.lookup h).isNone
    storageSizeDirty := a.storageSizeDirty || (a.lookup h).isNone
    lookup := Function.update a.lookup h (some ⟨timeSlots.isNone, true, z, timeSlots.getD []⟩) }

/-- `ResetDirtyFlags`. -/
def ServiceAccount.resetDirtyFlags : ServiceAccount :=
  { a with
    dirty := false
    newAccount := false
    numStorageItemsDirty := false
    storageSizeDirty := false
    storage := fun k => (a.storage k).map fun o => { o with dirty := false }
    lookup := fun k => (a.lookup k).map fun o => { o with dirty := false }
    preimage := fun k => (a.preimage k).map fun o => { o with dirty := false } }

/-- One of the three loops of `MergeUpdates`: an entry is taken over when it is
dirty or new. -/
def mergeMap {κ β : Type} (dirty : β → Bool) (old updates : κ → Option β) : κ → Option β :=
  fun k => match updates k with
    | some v => if (old k).isNone || dirty v then some v else old k
    | none => old k

/-- `MergeUpdates`. -/
def ServiceAccount.mergeUpdates (updates : ServiceAccount) : ServiceAccount :=
  { a with
    storage := mergeMap (·.dirty) a.storage updates.storage
    lookup := mergeMap (·.dirty) a.lookup updates.lookup
    preimage := mergeMap (·.dirty) a.preimage updates.preimage
    balance := if updates.dirty then updates.balance else a.balance
    codeHash := if updates.dirty then updates.codeHash else a.codeHash
    gasLimitG := if updates.dirty then updates.gasLimitG else a.gasLimitG
    gasLimitM := if updates.dirty then updates.gasLimitM else a.gasLimitM
    gratisOffset := if updates.dirty then updates.gratisOffset else a.gratisOffset
    numStorageItems :=
      if updates.numStorageItemsDirty then updates.numStorageItems else a.numStorageItems
    numStorageItemsDirty := a.numStorageItemsDirty || updates.numStorageItemsDirty
    storageSize := if updates.storageSizeDirty then updates.storageSize else a.storageSize
    storageSizeDirty := a.storageSizeDirty || updates.storageSizeDirty
    recentAccumulation := max a.recentAccumulation updates.recentAccumulation
    deletedAccount := a.deletedAccount || updates.deletedAccount }

end

open ServiceAccount

variable (env : HostEnv) (a : ServiceAccount) (h : Hash) (z : UInt32)

@[simp] theorem serviceIndex_cacheLookup :
    (a.cacheLookup env h z).serviceIndex = a.serviceIndex := by
  unfold cacheLookup
  split <;> rfl

@[simp] theorem preimage_cacheLookup : (a.cacheLookup env h z).preimage = a.preimage := by
  unfold cacheLookup
  split <;> rfl

theorem deletedAccount_cacheLookup : (a.cacheLookup env h z).deletedAccount = a.deletedAccount := by
  unfold cacheLookup
  split <;> rfl

/-- Writing a preimage that is not empty makes it readable. -/
theorem preimageBlob_writePreimage {p : Bytes} (hp : p ≠ []) :
    (a.writePreimage h p).preimageBlob env h = some p := by
  have hlen : (p.length == 0) = false := by simpa using hp
  simp [preimageBlob, writePreimage, hlen]

/-- Writing the empty preimage leaves nothing to read. -/
theorem preimageBlob_writePreimage_nil : (a.writePreimage h []).preimageBlob env h = none := by
  simp [preimageBlob, writePreimage]

theorem lookupTimeslots_writeLookup (t : List UInt32) (z' : UInt32) :
    (a.writeLookup h z (some t)).lookupTimeslots env h z' = some t := by
  simp [lookupTimeslots, writeLookup]

theorem lookupTimeslots_writeLookup_of_ne {h' : Hash} (hne : h' ≠ h) (t : Option (List UInt32))
    (z' : UInt32) :
    (a.writeLookup h z t).lookupTimeslots env h' z' = a.lookupTimeslots env h' z' := by
  simp [lookupTimeslots, writeLookup, Function.update_of_ne hne]

@[simp] theorem lookupTimeslots_writePreimage (h' : Hash) (p : Bytes) :
    (a.writePreimage h p).lookupTimeslots env h' z = a.lookupTimeslots env h' z := rfl

@[simp] theorem preimageBlob_writeLookup (h' : Hash) (t : Option (List UInt32)) :
    (a.writeLookup h z t).preimageBlob env h' = a.preimageBlob env h' := rfl

/-- Reading a request does not change what other requests read as. -/
theorem lookupTimeslots_cacheLookup_of_ne {h' : Hash} (hne : h' ≠ h) (z' : UInt32) :
    (a.cacheLookup env h z).lookupTimeslots env h' z' = a.lookupTimeslots env h' z' := by
  unfold cacheLookup
  split
  · simp [lookupTimeslots, Function.update_of_ne hne]
  · rfl

/-- Reading a request does not change what it reads as at the same length. -/
theorem lookupTimeslots_cacheLookup_self :
    (a.cacheLookup env h z).lookupTimeslots env h z = a.lookupTimeslots env h z := by
  unfold cacheLookup
  split
  · rename_i t hnone hsome
    simp [lookupTimeslots, hnone, hsome]
  · rfl

end JamDuna.Accumulation
