/-
# New services

`NewXContext` and `NewXContext_Check` of `statedb/accumulate.go`, `new_check` and
`hostNew` of `statedb/pvm_hostfunctions.go`, `NewEmptyServiceAccount` and
`ComputeThreshold` of `types/serviceaccount.go`.

An accumulation starts with an index for its next new service, derived from a hash and
moved on while the state trie has an account there. NEW takes the first index from there
on that the *partial state* lacks, and proposes the one 42 further on, moved on in the same
way. So the trie is asked once, before the first NEW, and the partial state afterwards:
the two searches look at different accounts. The registrar may name an index below
`2 ^ 16` itself; there, too, only the partial state is asked.

A search goes round the range in `serviceIndexRangeSize` steps, so it has come to an end by
then or it never will; a search without end is `none`.
-/

import JamDuna.Accumulation.Parallel
import JamDuna.Basis.Search
import JamDuna.Types.Codec

namespace JamDuna.Accumulation

open JamDuna.Types JamDuna.Basis

/-- `MinPubServiceIndex`, `S`. -/
def minPubServiceIndex : UInt32 := 65536

/-- `2 ^ 32 - 2 ^ 8 - S`, `R`. -/
def serviceIndexRangeSize : UInt32 := 4294901504

/-- The indices that are given to new services. -/
def PublicIndex (i : UInt32) : Prop := 2 ^ 16 ≤ i.toNat ∧ i.toNat < 2 ^ 32 - 2 ^ 8

instance PublicIndex.decidable (i : UInt32) : Decidable (PublicIndex i) :=
  inferInstanceAs (Decidable (_ ∧ _))

/-- `S + (i - S + bump) mod R`. -/
def bumpServiceIndex (bump i : UInt32) : UInt32 :=
  minPubServiceIndex + (i - minPubServiceIndex + bump) % serviceIndexRangeSize

/-- The loop of `NewXContext_Check` and of `new_check`. -/
def findFreeIndex (taken : UInt32 → Bool) (i : UInt32) : Option UInt32 :=
  search taken (bumpServiceIndex 1) serviceIndexRangeSize.toNat i

/-- `NewXContext_Check`: `k_exist` asks the trie. -/
def newXContextCheck (env : HostEnv) (i : UInt32) : Option UInt32 :=
  findFreeIndex (fun i => (env.getService i).isSome) i

/-- `new_check`, on the accounts of the partial state. -/
def newCheck (i : UInt32) (accounts : Accounts) : Option UInt32 :=
  findFreeIndex (fun i => (accounts i).isSome)
    (if i < minPubServiceIndex then minPubServiceIndex else i)

/-- The index that `hostNew` starts from: `x_i`, brought into the range. -/
def clampServiceIndex (i : UInt32) : UInt32 :=
  if i < minPubServiceIndex then minPubServiceIndex
  else minPubServiceIndex + (i - minPubServiceIndex) % serviceIndexRangeSize

/-- `types.XContext` with the index for the next new service. -/
structure IndexedContext extends XContext where
  newServiceIndex : UInt32

variable (blake2 : Bytes → Hash) (env : HostEnv)

/-- The number that the proposed index is derived from: the first four bytes of a hash of the
service, the entropy and the slot. -/
def indexSeed (s : UInt32) (entropy : Hash) (timeslot : UInt32) : UInt32 :=
  let encoded := E s.toNat ++ (entropy.bytes ++ E timeslot.toNat)
  UInt32.ofNat (ofLE ((blake2 encoded).bytes.take 4))

/-- `NewXContext`. -/
def newIndexedContext (o : PartialState) (s : UInt32) (account : ServiceAccount) (entropy : Hash)
    (timeslot : UInt32) : Option IndexedContext :=
  (newXContextCheck env
    (indexSeed blake2 s entropy timeslot % serviceIndexRangeSize + minPubServiceIndex)).map
      fun i => ⟨newXContext o s account, i⟩

/-- `ComputeThreshold`. -/
def ServiceAccount.computeThreshold (a : ServiceAccount) : UInt64 :=
  let footprint := 100 + 10 * a.numStorageItems.toInt32.toInt64.toUInt64 + 1 * a.storageSize
  if footprint ≤ a.gratisOffset then 0 else footprint - a.gratisOffset

/-- `NewEmptyServiceAccount`. -/
def newEmptyServiceAccount (serviceIndex : UInt32) (c : Hash)
    (g m storageSize gratisOffset : UInt64) (createdSlot parentService : UInt32) :
    ServiceAccount where
  serviceIndex := serviceIndex
  codeHash := c
  gasLimitG := g
  gasLimitM := m
  storageSize := storageSize
  gratisOffset := gratisOffset
  numStorageItems := 2
  createTime := createdSlot
  parentService := parentService
  newAccount := true
  storageSizeDirty := true
  numStorageItemsDirty := true

/-- `AccountLookupConst`. -/
def accountLookupConst : UInt64 := 81

/-- What NEW reads from registers and memory; `codeHash` is `none` when its 32 bytes are not
readable. -/
structure NewArgs where
  codeHash : Option Hash
  codeLen : UInt64
  minItemGas : UInt64
  minMemoGas : UInt64
  gratisOffset : UInt64
  requestedServiceIndex : UInt64

/-- How NEW ends: in a panic of the machine, or with a result code or the new index. -/
inductive NewResult where
  | panic
  | huh
  | cash
  | full
  | ok (newServiceIndex : UInt32)
  deriving DecidableEq, Repr

variable (x : IndexedContext)

/-- The running service is the registrar and names a small index. -/
def IndexedContext.namesIndex (xs : ServiceAccount) (args : NewArgs) : Bool :=
  x.u.privilegedState.registrarServiceID == xs.serviceIndex &&
    decide (args.requestedServiceIndex < 65536)

/-- The index that NEW takes, and the one it proposes next. -/
def IndexedContext.selectIndex (xs : ServiceAccount) (args : NewArgs) : Option (UInt32 × UInt32) :=
  if x.namesIndex xs args then some (args.requestedServiceIndex.toUInt32, x.newServiceIndex)
  else
    match newCheck (clampServiceIndex x.newServiceIndex) x.u.serviceAccounts with
    | none => none
    | some newServiceIndex =>
      (newCheck (bumpServiceIndex 42 newServiceIndex) x.u.serviceAccounts).map fun next =>
        (newServiceIndex, next)

/-- The new account, with the balance it needs. -/
def newAccountOf (timeslot : UInt32) (xs : ServiceAccount) (codeHash : Hash) (args : NewArgs)
    (newServiceIndex : UInt32) : ServiceAccount :=
  let newAccount := newEmptyServiceAccount newServiceIndex codeHash args.minItemGas args.minMemoGas
    (accountLookupConst + args.codeLen) args.gratisOffset timeslot xs.serviceIndex
  { newAccount with balance := newAccount.computeThreshold }

/-- The end of `hostNew`, once the index is chosen. -/
def IndexedContext.createAccount (timeslot : UInt32) (xs : ServiceAccount) (codeHash : Hash)
    (args : NewArgs) (newServiceIndex : UInt32) : NewResult × IndexedContext :=
  let newAccount := newAccountOf timeslot xs codeHash args newServiceIndex
  if xs.balance < newAccount.balance ∨
      xs.balance - newAccount.balance < xs.computeThreshold then (.cash, x)
  else
    let xs := { xs with balance := xs.balance - newAccount.balance, dirty := true }
    let newAccount := newAccount.writeLookup codeHash args.codeLen.toUInt32 (some [])
    (.ok newServiceIndex,
      { x with u := (x.u.setAccount x.serviceIndex xs).setAccount newServiceIndex newAccount })

/-- `hostNew`; `none` when the running service has no account, where the source panics, or when
the search for an index does not end. -/
def IndexedContext.hostNew (timeslot : UInt32) (args : NewArgs) :
    Option (NewResult × IndexedContext) :=
  match x.u.serviceAccounts x.serviceIndex, args.codeHash with
  | none, _ => none
  | some _, none => some (.panic, x)
  | some xs, some codeHash =>
    if maxUint32 < args.codeLen then some (.panic, x)
    else if x.u.privilegedState.managerServiceID ≠ xs.serviceIndex ∧ args.gratisOffset ≠ 0 then
      some (.huh, x)
    else if xs.balance < xs.computeThreshold then some (.cash, x)
    else if x.namesIndex xs args ∧
        (x.u.serviceAccounts args.requestedServiceIndex.toUInt32).isSome then some (.full, x)
    else
      match x.selectIndex xs args with
      | none => none
      | some (newServiceIndex, next) =>
        some (({ x with newServiceIndex := next } : IndexedContext).createAccount timeslot xs
          codeHash args newServiceIndex)

end JamDuna.Accumulation
