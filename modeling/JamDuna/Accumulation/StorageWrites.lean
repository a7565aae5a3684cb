/-
# Storage writes

`ReadStorage` and `WriteStorage` of `types/serviceaccount.go`, and `hostWrite` of
`statedb/pvm_hostfunctions.go` on the account of the running service.

An entry of storage is read from the overlay of the account, where it may be marked
as deleted, and otherwise from the trie. The key of the overlay is `E_4(2^32 - 1)`
followed by the raw key, so it is the raw key here.

WRITE reads the value only when the 64-bit length register `vz` is not zero, and then
`vz` modulo `2 ^ 32` bytes of it; the entry is deleted when `vz` itself is zero. What
the counters change by is computed from the number of bytes that were read.
-/

import JamDuna.Accumulation.Requests

namespace JamDuna.Accumulation

open ServiceAccount

/-- `types.HostEnv` with the storage of the services. -/
structure StorageEnv extends HostEnv where
  readServiceStorage : UInt32 → Bytes → Option Bytes

/-- `AccountStorageConst`. -/
def accountStorageConst : UInt64 := 34

section

variable (env : StorageEnv) (a : ServiceAccount)

/-- `ReadStorage`. -/
def ServiceAccount.readStorage (muK : Bytes) : Option Bytes :=
  match a.storage muK with
  | some o => if o.deleted then none else some o.value
  | none => env.readServiceStorage a.serviceIndex muK

/-- `WriteStorage`. -/
def ServiceAccount.writeStorage (muK val : Bytes) (isDeleted : Bool) : ServiceAccount :=
  { a with
    dirty := true
    storage := Function.update a.storage muK (some ⟨isDeleted, true, val⟩)
    numStorageItemsDirty := a.numStorageItemsDirty || isDeleted ||
      ((a.storage muK).isNone && val.length != 0)
    storageSizeDirty := a.storageSizeDirty || isDeleted || match a.storage muK with
      | none => val.length != 0
      | some o => val.length != o.value.length }

end

/-- What WRITE reads from registers and memory: a key, the length register of the value
and the bytes read for it, none if the register is zero. -/
structure WriteArgs where
  muK : Bytes
  vz : UInt64
  v : Bytes
  length_muK : muK.length < 2 ^ 32
  length_v : v.length = vz.toUInt32.toNat

/-- `deltaItems`, `deltaSize` and `response` of `hostWrite`. -/
structure WriteDelta where
  deltaItems : Int32
  deltaSize : Int64
  response : UInt64

/-- What a write changes, from the old value and the lengths of the key and of the
value that was read. -/
def writeDelta (oldValue : Option Bytes) (keyLen valLen : UInt64) : WriteDelta :=
  match oldValue with
  | none =>
    if 0 < valLen then ⟨1, (accountStorageConst + valLen + keyLen).toInt64, maxUint64⟩
    else ⟨0, 0, maxUint64⟩
  | some old =>
    let prevLen := UInt64.ofNat old.length
    if valLen = 0 then ⟨-1, -(accountStorageConst + prevLen + keyLen).toInt64, prevLen⟩
    else ⟨0, valLen.toInt64 - prevLen.toInt64, prevLen⟩

/-- The result of WRITE: `FULL`, or the length of the old value, `NONE` if there was
none. -/
inductive WriteResult where
  | full
  | ok (response : UInt64)
  deriving DecidableEq, Repr

variable (env : StorageEnv) (a : ServiceAccount) (args : WriteArgs)

/-- The change that a write makes, from what the account holds. -/
def ServiceAccount.writeDelta : WriteDelta :=
  Accumulation.writeDelta (a.readStorage env args.muK) (UInt64.ofNat args.muK.length)
    (UInt64.ofNat args.v.length)

/-- The threshold that `hostWrite` compares the balance with. -/
def ServiceAccount.writeThreshold : UInt64 :=
  let d := a.writeDelta env args
  if 0 < d.deltaItems ∨ 0 < d.deltaSize then a.computeThresholdDelta d.deltaItems d.deltaSize
  else a.computeThreshold

/-- `hostWrite`, on the account of the running service. -/
def ServiceAccount.hostWrite : WriteResult × ServiceAccount :=
  let d := a.writeDelta env args
  if a.balance < a.writeThreshold env args then (.full, a)
  else
    let a := a.writeStorage args.muK args.v (args.vz == 0)
    let a := if d.deltaItems ≠ 0 then a.adjustNumStorageItems d.deltaItems else a
    let a := if d.deltaSize ≠ 0 then a.adjustStorageSize d.deltaSize else a
    (.ok d.response, a)

@[simp] theorem readStorage_adjustNumStorageItems (delta : Int32) (k : Bytes) :
    (a.adjustNumStorageItems delta).readStorage env k = a.readStorage env k := rfl

@[simp] theorem readStorage_adjustStorageSize (delta : Int64) (k : Bytes) :
    (a.adjustStorageSize delta).readStorage env k = a.readStorage env k := by
  unfold adjustStorageSize
  split_ifs <;> rfl

@[simp] theorem readStorage_cacheLookup (h : Hash) (z : UInt32) (k : Bytes) :
    (a.cacheLookup env.toHostEnv h z).readStorage env k = a.readStorage env k := by
  unfold cacheLookup
  split <;> rfl

@[simp] theorem readStorage_cachePreimage (h : Hash) (k : Bytes) :
    (a.cachePreimage env.toHostEnv h).readStorage env k = a.readStorage env k := by
  unfold cachePreimage
  split <;> rfl

@[simp] theorem readStorage_writeLookup (h : Hash) (z : UInt32) (t : Option (List UInt32))
    (k : Bytes) : (a.writeLookup h z t).readStorage env k = a.readStorage env k := rfl

@[simp] theorem readStorage_writePreimage (h : Hash) (p k : Bytes) :
    (a.writePreimage h p).readStorage env k = a.readStorage env k := rfl

/-- **The storage after a write.** -/
theorem readStorage_writeStorage (muK val : Bytes) (isDeleted : Bool) :
    (a.writeStorage muK val isDeleted).readStorage env =
      Function.update (a.readStorage env) muK (if isDeleted then none else some val) := by
  funext k
  by_cases hk : k = muK
  · subst hk
    simp [readStorage, writeStorage]
  · simp [readStorage, writeStorage, Function.update_of_ne hk]

end JamDuna.Accumulation
