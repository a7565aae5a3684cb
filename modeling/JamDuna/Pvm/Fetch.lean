/-
# FETCH, and the dispatch of host calls

`hostFetch` and `hostFunction` of `statedb/pvm_hostfunctions.go`.

The kind of data is in register 10, and each mode has its own kinds. Indices come from
registers 11 and 12. Kinds 3 and 5 compare the register as a *signed* number with a
length and then index with the unsigned one; kind 6 takes the imports of the current
work item without a look at how many there are. There the Go program can stop with a
run-time error, which is `none`; a value that is `nil` is `some none`.

In the mode of an authorization no host call is dispatched at all, so the kinds that
`hostFetch` allows there are never reached.
-/

import JamDuna.Pvm.HostMachine

namespace JamDuna.Pvm

open JamDuna.Types Accumulation

section

variable (vm : HostVM) (d : FetchData)

/-- The kinds of data that a mode allows. -/
def fetchAllowed : Mode → UInt64 → Bool
  | .isAuthorized, kind => kind == 0 || (decide (7 ≤ kind) && decide (kind ≤ 13))
  | .refine, kind => decide (kind ≤ 13)
  | .accumulate, kind => kind == 0 || kind == 1 || kind == 14 || kind == 15

/-- `l[i]` under the test `int(i) < len(l)`: the test is on the signed number. -/
def signedIndex {α : Type} (l : List α) (i : UInt64) : Option (Option α) :=
  if i.toInt64.toInt < l.length then
    match l[i.toNat]? with
    | none => none
    | some a => some (some a)
  else some none

/-- Kind 5, an imported segment by work item and segment. -/
def fetchSegment (workItem segmentIndex : UInt64) : Option (Option Bytes) :=
  match d.imports with
  | none => some none
  | some imports =>
    match signedIndex imports workItem with
    | none => none
    | some none => some none
    | some (some segments) => (signedIndex segments segmentIndex).map Option.join

/-- Kind 6, an imported segment of the current work item; a nil segment is copied as an
empty one. -/
def fetchOwnSegment (index : UInt64) : Option (Option Bytes) :=
  match (d.imports.getD [])[d.workItemIndex.toNat]? with
  | none => none
  | some segments => some ((segments[index.toNat]?).map (·.getD []))

/-- Kind 11, all work items: the number of them and their encodings, or `nil` when one of
them cannot be encoded. -/
def fetchWorkItems : Option Bytes :=
  (d.workItems.mapM WorkItemData.encodeS).map fun items => E d.workItems.length ++ items.flatten

/-- The value that FETCH hands out. -/
def fetchValue (kind omega11 omega12 : UInt64) : Option (Option Bytes) :=
  match kind.toNat with
  | 0 => some d.parameterBytes
  | 1 => some (some d.n.bytes)
  | 2 => some d.authorization
  | 3 => (signedIndex d.extrinsics omega12).map Option.join
  | 4 => some (if d.extrinsics.length = 0 then some [0] else d.encodedExtrinsics)
  | 5 => fetchSegment d omega11 omega12
  | 6 => fetchOwnSegment d omega11
  | 7 => some d.encodedWorkPackage
  | 8 => some d.configurationBlob
  | 9 => some d.authorizationToken
  | 10 => some d.refineContext
  | 11 => some (fetchWorkItems d)
  | 12 => some ((d.workItems[omega11.toNat]?).bind (·.encodeS))
  | 13 => some ((d.workItems[omega11.toNat]?).bind (·.payload))
  | 14 => some (if d.accumulateInputs.isSome then d.encodedInputs else some [0])
  | 15 => some (((d.accumulateInputs.getD [])[omega11.toNat]?).join)
  | _ => some none

/-- `hostFetch`. -/
def HostVM.hostFetch : Option HostVM :=
  let value := if fetchAllowed vm.mode (vm.reg 10)
    then fetchValue vm.data (vm.reg 10) (vm.reg 11) (vm.reg 12) else some none
  match value with
  | none => none
  | some none => some (vm.writeRegister 7 Code.none)
  | some (some v) => vm.copyOut v (vm.reg 7) (vm.reg 8) (vm.reg 9)

end

/-- The host functions that are modelled. -/
inductive HostFn where
  | fetch
  | historicalLookup
  | read
  | write
  | lookup
  | info
  | transfer
  | eject
  | solicit
  | forget
  deriving DecidableEq, Repr

/-- `hostFunction`: the tables of the two modes. -/
def HostVM.hostFunction (env : StorageEnv) (vm : HostVM) : HostFn → Option HostVM
  | .fetch => if vm.mode = .isAuthorized then some (vm.writeRegister 7 Code.what) else vm.hostFetch
  | .historicalLookup =>
    if vm.mode = .refine then vm.hostHistoricalLookup env
    else some (vm.writeRegister 7 Code.what)
  | .read => if vm.mode = .accumulate then vm.hostRead env else some (vm.writeRegister 7 Code.what)
  | .write =>
    if vm.mode = .accumulate then vm.hostWrite env else some (vm.writeRegister 7 Code.what)
  | .lookup =>
    if vm.mode = .accumulate then vm.hostLookup env else some (vm.writeRegister 7 Code.what)
  | .info => if vm.mode = .accumulate then vm.hostInfo env else some (vm.writeRegister 7 Code.what)
  | .transfer =>
    if vm.mode = .accumulate then vm.hostTransfer env else some (vm.writeRegister 7 Code.what)
  | .eject =>
    if vm.mode = .accumulate then vm.hostEject env else some (vm.writeRegister 7 Code.what)
  | .solicit =>
    if vm.mode = .accumulate then vm.hostSolicit env else some (vm.writeRegister 7 Code.what)
  | .forget =>
    if vm.mode = .accumulate then vm.hostForget env else some (vm.writeRegister 7 Code.what)

end JamDuna.Pvm
