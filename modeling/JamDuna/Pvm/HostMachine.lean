/-
# Host calls on registers and memory

The host calls of `statedb/pvm_hostfunctions.go` as the guest sees them: they read
registers and memory, and write register 7, memory and the context of the run.

| call | 7 | 8 | 9 | 10 | 11 | 12 |
| --- | --- | --- | --- | --- | --- | --- |
| `READ` | service | key | its length | destination | offset | length |
| `WRITE` | key | its length | value | its length | | |
| `LOOKUP`, `HISTORICAL_LOOKUP` | service | hash | destination | offset | length | |
| `INFO` | service | destination | offset | length | | |
| `FETCH` | destination | offset | length | kind | index | index |
| `TRANSFER` | receiver | amount | gas | memo | | |
| `EJECT` | service | hash | | | | |
| `SOLICIT`, `FORGET` | hash | length | | | | |

A call is `none` where the Go program itself stops with a run-time error: an index or a
slice out of range, or a field of a nil pointer. A panic of the guest is a state like
any other, with `panicked` set.

`vm.ServiceAccount` is the pointer that `vm.X.U.ServiceAccounts` has for the running
service, so it is read from there, and `vm.Service_index` is the index in the context.
`HostResultCode`, which is written and never read, the taint tracker and the logs are left
out.
-/

import JamDuna.Accumulation.StorageWrites
import JamDuna.Pvm.Memory
import JamDuna.Pvm.Operands

namespace JamDuna.Pvm

open JamDuna.Types JamDuna.Basis Accumulation

section

/-- `ModeIsAuthorized`, `ModeRefine` and `ModeAccumulate`. -/
inductive Mode where
  | isAuthorized
  | refine
  | accumulate
  deriving DecidableEq, Repr

namespace Code

/-- `OK`. -/
abbrev ok : UInt64 := 0
/-- `NONE`. -/
abbrev none : UInt64 := 0xffffffffffffffff
/-- `WHAT`. -/
abbrev what : UInt64 := 0xfffffffffffffffe
/-- `WHO`. -/
abbrev who : UInt64 := 0xfffffffffffffffc
/-- `FULL`. -/
abbrev full : UInt64 := 0xfffffffffffffffb
/-- `CASH`. -/
abbrev cash : UInt64 := 0xfffffffffffffff9
/-- `LOW`. -/
abbrev low : UInt64 := 0xfffffffffffffff8
/-- `HUH`. -/
abbrev huh : UInt64 := 0xfffffffffffffff7

end Code

/-- What FETCH reads of a work item; `none` is `nil`, and the encoding that fails. -/
structure WorkItemData where
  encodeS : Option Bytes
  payload : Option Bytes

/-- What FETCH reads: the inputs of a refinement and of an accumulation, with the
encodings of those that are handed out encoded. `none` is `nil`. -/
structure FetchData where
  parameterBytes : Option Bytes
  n : Hash
  authorization : Option Bytes
  extrinsics : List (Option Bytes)
  encodedExtrinsics : Option Bytes
  imports : Option (List (List (Option Bytes)))
  workItemIndex : UInt32
  encodedWorkPackage : Option Bytes
  configurationBlob : Option Bytes
  authorizationToken : Option Bytes
  refineContext : Option Bytes
  workItems : List WorkItemData
  accumulateInputs : Option (List (Option Bytes))
  encodedInputs : Option Bytes

/-- The part of `VM` that the host calls use. -/
structure HostVM where
  reg : Fin 13 → UInt64
  ram : Ram
  panicked : Bool
  mode : Mode
  timeslot : UInt32
  x : IndexedContext
  data : FetchData

variable (vm : HostVM)

/-- `WriteRegister`. -/
def HostVM.writeRegister (i : Fin 13) (value : UInt64) : HostVM :=
  { vm with reg := Function.update vm.reg i value }

@[simp] theorem HostVM.writeRegister_reg_self (i : Fin 13) (value : UInt64) :
    (vm.writeRegister i value).reg i = value :=
  Function.update_self ..

/-- `Panic`. -/
def HostVM.panic : HostVM := { vm with panicked := true }

/-- The account that the map of the context has under an index, after a change. -/
def HostVM.setAccount (s : UInt32) (a : ServiceAccount) : HostVM :=
  { vm with x := { vm.x with u := vm.x.u.setAccount s a } }

/-- `vm.ServiceAccount`. -/
def HostVM.serviceAccount : Option ServiceAccount := vm.x.u.serviceAccounts vm.x.serviceIndex

/-- The running service has an account, as `ExecuteAccumulate` sees to. -/
def HostVM.Started : Prop := vm.mode = .accumulate → vm.serviceAccount.isSome

/-- The slice `v[i:j]`; `none` is the run-time error. -/
def goSlice (v : Bytes) (i j : ℕ) : Option Bytes :=
  if i ≤ j ∧ j ≤ v.length then some ((v.take j).drop i) else none

/-- `getXUDS`: `none` is the code `NONE`, and `some none` the code `OK` with a nil
account. -/
def HostVM.getXUDS (env : StorageEnv) (serviceindex : UInt64) : Option (Option ServiceAccount) :=
  let s := serviceindex.toUInt32
  if serviceindex = maxUint64 ∨ s = vm.x.serviceIndex then some (vm.x.u.serviceAccounts s)
  else match vm.x.u.serviceAccounts s with
    | some a => some (some a)
    | none => (env.getService s).map some

/-- `min` of two words. -/
def goMin (a b : UInt64) : UInt64 := if a ≤ b then a else b

/-- `max` of two words. -/
def goMax (a b : UInt64) : UInt64 := if a ≤ b then b else a

/-- The offset of a window, within the value. -/
def clampedOffset (v : Bytes) (f : UInt64) : UInt64 := goMin f (UInt64.ofNat v.length)

/-- The length of a window, within what is left of the value. -/
def clampedLength (v : Bytes) (f l : UInt64) : UInt64 :=
  goMin l (UInt64.ofNat v.length - clampedOffset v f)

/-- The bytes of a value that a window of clamped offset and length shows. -/
def window (v : Bytes) (f l : UInt64) : Option Bytes :=
  goSlice v (clampedOffset v f).toNat (clampedOffset v f + clampedLength v f l).toNat

/-- The end of READ, FETCH and HISTORICAL_LOOKUP: the window goes to memory and the length
of the value to register 7. -/
def HostVM.copyOut (v : Bytes) (o f l : UInt64) : Option HostVM :=
  match window v f l with
  | none => none
  | some w =>
    match vm.ram.writeRAMBytes o.toUInt32 w with
    | none => some vm.panic
    | some ram => some ({ vm with ram := ram }.writeRegister 7 (UInt64.ofNat v.length))

variable (env : StorageEnv)

/-- The value of INFO. -/
def infoValue (t : ServiceAccount) : Bytes :=
  t.codeHash.bytes ++ toLE 8 t.balance.toNat ++ toLE 8 t.computeThreshold.toNat ++
    toLE 8 t.gasLimitG.toNat ++ toLE 8 t.gasLimitM.toNat ++ toLE 8 t.storageSize.toNat ++
    toLE 4 t.numStorageItems.toNat ++ toLE 8 t.gratisOffset.toNat ++
    toLE 4 t.createTime.toNat ++ toLE 4 t.recentAccumulation.toNat ++
    toLE 4 t.parentService.toNat

/-- `hostInfo`: a window that is not within the value is a panic. -/
def HostVM.hostInfo : Option HostVM :=
  let omega7 := vm.reg 7
  let fetch := if omega7 = Code.none then vm.x.serviceIndex.toUInt64 else omega7
  match vm.getXUDS env fetch with
  | none => some (vm.writeRegister 7 Code.none)
  | some none => none
  | some (some t) =>
    let vm := vm.setAccount fetch.toUInt32 t
    let val := infoValue t
    let lenval := UInt64.ofNat val.length
    if lenval < vm.reg 9 ∨ lenval < vm.reg 9 + vm.reg 10 then some vm.panic
    else vm.copyOut val (vm.reg 8) (vm.reg 9) (vm.reg 10)

/-- The account that LOOKUP asks and the index it is under. -/
def HostVM.lookupAccount (omega7 : UInt64) : Option (UInt32 × ServiceAccount) :=
  let own := if omega7 = vm.x.serviceIndex.toUInt64 ∨ omega7 = maxUint64 then vm.serviceAccount
    else none
  match own with
  | some a => some (vm.x.serviceIndex, a)
  | none => ((vm.getXUDS env omega7).join).map (omega7.toUInt32, ·)

/-- LOOKUP writes what it took of a preimage. The length of an empty preimage is not
returned. -/
def HostVM.storePreimage (v w : Bytes) : HostVM :=
  match vm.ram.writeRAMBytes (vm.reg 9).toUInt32 w with
  | none => vm.panic
  | some ram =>
    let vm := { vm with ram := ram }
    if v.length ≠ 0 then vm.writeRegister 7 (UInt64.ofNat v.length) else vm

/-- The end of LOOKUP. The slice goes from the offset to the *length* of the window. -/
def HostVM.copyPreimage (found : Option Bytes) : Option HostVM :=
  let v := found.getD []
  let f := clampedOffset v (vm.reg 10)
  let l := clampedLength v (vm.reg 10) (vm.reg 11)
  if vm.ram.canWrite (vm.reg 9).toUInt32 l.toUInt32 = false then some vm.panic
  else match found with
    | none => some (vm.writeRegister 7 Code.none)
    | some _ => (goSlice v f.toNat l.toNat).map fun w => vm.storePreimage v w

/-- `hostLookup`. -/
def HostVM.hostLookup : Option HostVM :=
  if vm.mode ≠ .accumulate then some (vm.writeRegister 7 Code.what)
  else match vm.lookupAccount env (vm.reg 7) with
    | none => some (vm.writeRegister 7 Code.none)
    | some (s, a) =>
      match vm.ram.readRAMBytes (vm.reg 8).toUInt32 32 with
      | none => some (vm.setAccount s a).panic
      | some k =>
        let h := Hash.ofBytes k
        (vm.setAccount s (a.cachePreimage env.toHostEnv h)).copyPreimage
          (a.preimageBlob env.toHostEnv h)

/-- The end of READ, on the account that is asked. -/
def HostVM.readValue (a : ServiceAccount) (muK : Bytes) : Option HostVM :=
  match a.readStorage env muK with
  | none => some (vm.writeRegister 7 Code.none)
  | some val => vm.copyOut val (vm.reg 10) (vm.reg 11) (vm.reg 12)

/-- `hostRead`. -/
def HostVM.hostRead : Option HostVM :=
  if vm.mode ≠ .accumulate then some (vm.writeRegister 7 Code.what)
  else
    let s := if vm.reg 7 = maxUint64 then vm.x.serviceIndex.toUInt64 else vm.reg 7
    match vm.ram.readRAMBytes (vm.reg 8).toUInt32 (vm.reg 9).toUInt32 with
    | none => some vm.panic
    | some muK =>
      if s = vm.x.serviceIndex.toUInt64 then
        match vm.serviceAccount with
        | none => none
        | some a => vm.readValue env a muK
      else match vm.getXUDS env s with
        | none => some (vm.writeRegister 7 Code.none)
        | some none => none
        | some (some a) => (vm.setAccount s.toUInt32 a).readValue env a muK

/-- The register that WRITE returns. -/
def writeCode : WriteResult → UInt64
  | .full => Code.full
  | .ok response => response

/-- The register that SOLICIT and FORGET return. -/
def requestCode : RequestResult → UInt64
  | .ok => Code.ok
  | .huh => Code.huh
  | .full => Code.full

/-- The value of a WRITE: nothing is read when its length register is zero. -/
def HostVM.writeValue : Option Bytes :=
  if vm.reg 10 = 0 then some [] else vm.ram.readRAMBytes (vm.reg 9).toUInt32 (vm.reg 10).toUInt32

/-- The arguments of WRITE, where key and value can be read. -/
def HostVM.writeArgs : Option WriteArgs :=
  match hk : vm.ram.readRAMBytes (vm.reg 7).toUInt32 (vm.reg 8).toUInt32, hv : vm.writeValue with
  | some muK, some v => some
    { muK := muK
      vz := vm.reg 10
      v := v
      length_muK := by
        rw [length_of_readRAMBytes vm.ram hk]
        exact (vm.reg 8).toUInt32.toNat_lt
      length_v := by
        unfold HostVM.writeValue at hv
        split_ifs at hv with hz
        · cases hv
          rw [hz]
          rfl
        · exact length_of_readRAMBytes vm.ram hv }
  | _, _ => none

/-- `hostWrite`. -/
def HostVM.hostWrite : Option HostVM :=
  if vm.mode ≠ .accumulate then some (vm.writeRegister 7 Code.what)
  else match vm.ram.readRAMBytes (vm.reg 7).toUInt32 (vm.reg 8).toUInt32 with
    | none => some vm.panic
    | some _ =>
      match vm.serviceAccount with
      | none => none
      | some a =>
        match vm.writeArgs with
        | none => some vm.panic
        | some args =>
          let r := a.hostWrite env args
          some ((vm.setAccount vm.x.serviceIndex r.2).writeRegister 7 (writeCode r.1))

/-- `M`, the size of a memo. -/
def memoSize : UInt32 := 128

/-- The transfer that TRANSFER defers. -/
def HostVM.deferredTransfer (memo : Bytes) : DeferredTransfer where
  senderIndex := vm.x.serviceIndex
  receiverIndex := (vm.reg 7).toUInt32
  amount := vm.reg 8
  memo := Vector.ofFn fun i => memo.getD i 0
  gasLimit := vm.reg 9

/-- The end of TRANSFER, once the receiver is found and the gas is enough for it. -/
def HostVM.transferFrom (sender : ServiceAccount) (memo : Bytes) : HostVM :=
  let amount := vm.reg 8
  if sender.balance < amount ∨ sender.balance - amount < sender.computeThreshold then
    vm.writeRegister 7 Code.cash
  else
    let t := vm.deferredTransfer memo
    let vm := vm.setAccount vm.x.serviceIndex
      { sender with balance := sender.balance - amount, dirty := true }
    { vm with x := { vm.x with transfers := vm.x.transfers ++ [t] } }.writeRegister 7 Code.ok

/-- `hostTransfer`. -/
def HostVM.hostTransfer : Option HostVM :=
  if vm.mode ≠ .accumulate then some (vm.writeRegister 7 Code.what)
  else match vm.ram.readRAMBytes (vm.reg 10).toUInt32 memoSize with
    | none => some vm.panic
    | some memo =>
      match (vm.getXUDS env (vm.reg 7)).join with
      | none => some (vm.writeRegister 7 Code.who)
      | some receiver =>
        let loaded := vm.setAccount (vm.reg 7).toUInt32 receiver
        if loaded.reg 9 < receiver.gasLimitM then some (loaded.writeRegister 7 Code.low)
        else match vm.serviceAccount with
          | none => none
          | some sender => some (loaded.transferFrom sender memo)

/-- SOLICIT and FORGET on the account of the running service. -/
def HostVM.requestCall
    (call : ServiceAccount → Hash → UInt64 → RequestResult × ServiceAccount) : Option HostVM :=
  if vm.mode ≠ .accumulate then some (vm.writeRegister 7 Code.what)
  else match vm.ram.readRAMBytes (vm.reg 7).toUInt32 32 with
    | none => some vm.panic
    | some h =>
      match vm.serviceAccount with
      | none => none
      | some a =>
        let r := call a (Hash.ofBytes h) (vm.reg 8)
        some ((vm.setAccount vm.x.serviceIndex r.2).writeRegister 7 (requestCode r.1))

/-- `hostSolicit`. -/
def HostVM.hostSolicit : Option HostVM :=
  vm.requestCall fun a h z => a.hostSolicit env.toHostEnv vm.timeslot h z

/-- `hostForget`. -/
def HostVM.hostForget : Option HostVM :=
  vm.requestCall fun a h z => a.hostForget env.toHostEnv vm.timeslot h z

/-- `E_32` of an index, as a code hash. -/
def ejectorHash (s : UInt32) : Hash := Hash.ofBytes (toLE 32 s.toNat)

/-- The end of EJECT: the balance goes to the running service and the account is marked as
deleted. The two may be one account, which then has its own balance added first. -/
def HostVM.ejectAccount (s : UInt32) (boldD : ServiceAccount) (h : Hash) (l : UInt32) :
    Option HostVM :=
  match vm.serviceAccount with
  | none => none
  | some xs =>
    let vm := vm.setAccount vm.x.serviceIndex
      { xs with balance := xs.balance + boldD.balance, dirty := true }
    let boldD := (vm.x.u.serviceAccounts s).getD boldD
    let boldD := (({ boldD with deletedAccount := true }.writeLookup h l none).writePreimage h [])
    some ((vm.setAccount s boldD).writeRegister 7 Code.ok)

/-- EJECT, on the account that is to go. -/
def HostVM.ejectFound (d : UInt64) (boldD : ServiceAccount) (h : Hash) : Option HostVM :=
  if boldD.deletedAccount then some (vm.writeRegister 7 Code.who)
  else if d = vm.x.serviceIndex.toUInt64 ∨ boldD.codeHash ≠ ejectorHash vm.x.serviceIndex then
    some (vm.writeRegister 7 Code.who)
  else
    let l := (goMax accountLookupConst boldD.storageSize - accountLookupConst).toUInt32
    let cached := boldD.cacheLookup env.toHostEnv h l
    let loaded := vm.setAccount d.toUInt32 cached
    match boldD.lookupTimeslots env.toHostEnv h l with
    | none => some (loaded.writeRegister 7 Code.huh)
    | some timeslots =>
      if boldD.numStorageItems ≠ 2 then some (loaded.writeRegister 7 Code.huh)
      else match timeslots with
        | [_, y] =>
          if y + preimageExpiryPeriod < vm.timeslot then loaded.ejectAccount d.toUInt32 cached h l
          else some (loaded.writeRegister 7 Code.huh)
        | _ => some (loaded.writeRegister 7 Code.huh)

/-- `hostEject`. -/
def HostVM.hostEject : Option HostVM :=
  if vm.mode ≠ .accumulate then some (vm.writeRegister 7 Code.what)
  else match vm.ram.readRAMBytes (vm.reg 8).toUInt32 32 with
    | none => some vm.panic
    | some h =>
      match vm.getXUDS env (vm.reg 7) with
      | none => some (vm.writeRegister 7 Code.who)
      | some none => none
      | some (some boldD) =>
        (vm.setAccount (vm.reg 7).toUInt32 boldD).ejectFound env (vm.reg 7) boldD (Hash.ofBytes h)

/-- The preimage was available at a timeslot. -/
def availableAt (t : UInt32) : List UInt32 → Bool
  | [] => false
  | [x] => decide (x ≤ t)
  | [x, y] => decide (x ≤ t ∧ t < y)
  | x :: y :: z :: _ => decide ((x ≤ t ∧ t < y) ∨ z ≤ t)

/-- `HistoricalLookup`; `none` is `nil`. -/
def historicalLookup (a : ServiceAccount) (t : UInt32) (h : Hash) : Option Bytes :=
  match a.preimageBlob env.toHostEnv h with
  | none => none
  | some blob =>
    match a.lookupTimeslots env.toHostEnv h (UInt32.ofNat blob.length) with
    | none => none
    | some timeslots => if availableAt t timeslots then some blob else none

/-- `hostHistoricalLookup`: a preimage that was not available is copied as an empty one. -/
def HostVM.hostHistoricalLookup : Option HostVM :=
  if vm.mode ≠ .refine then some (vm.writeRegister 7 Code.what)
  else
    let s := if vm.reg 7 = Code.none then vm.x.serviceIndex else (vm.reg 7).toUInt32
    match env.getService s with
    | none => some (vm.writeRegister 7 Code.none)
    | some a =>
      match vm.ram.readRAMBytes (vm.reg 8).toUInt32 32 with
      | none => some vm.panic
      | some h =>
        vm.copyOut ((historicalLookup env a vm.timeslot (Hash.ofBytes h)).getD [])
          (vm.reg 9) (vm.reg 10) (vm.reg 11)

/-- The guard of most calls: they belong to an accumulation, and read from memory first. -/
def HostVM.guarded (read : Option Bytes) (rest : Bytes → Option HostVM) : Option HostVM :=
  if vm.mode ≠ .accumulate then some (vm.writeRegister 7 Code.what)
  else match read with
    | none => some vm.panic
    | some b => rest b

/-- **How a guarded call ends**: before it has done anything, or as what follows the guard. -/
theorem guarded_cases {vm vm' : HostVM} {read : Option Bytes} {rest : Bytes → Option HostVM}
    (hout : vm.guarded read rest = some vm') :
    vm' = vm.writeRegister 7 Code.what ∨ vm' = vm.panic ∨
      ∃ b, read = some b ∧ rest b = some vm' := by
  unfold HostVM.guarded at hout
  split at hout
  · exact .inl (Option.some.inj hout).symm
  · split at hout
    · exact .inr (.inl (Option.some.inj hout).symm)
    · exact .inr (.inr ⟨_, rfl, hout⟩)

/-- What a call does with the account of the running service. -/
def HostVM.owned (rest : ServiceAccount → Option HostVM) : Option HostVM :=
  match vm.serviceAccount with
  | none => none
  | some a => rest a

theorem owned_cases {vm vm' : HostVM} {rest : ServiceAccount → Option HostVM}
    (hout : vm.owned rest = some vm') : ∃ a, vm.serviceAccount = some a ∧ rest a = some vm' := by
  unfold HostVM.owned at hout
  split at hout
  · cases hout
  · next a ha => exact ⟨a, ha, hout⟩

end

/-- A trie without services. -/
def emptyTrie : StorageEnv := ⟨⟨fun _ => none, fun _ _ => none, fun _ _ _ => none⟩, fun _ _ => none⟩

/-- Two writable pages of zeros. -/
def zeroRam : Ram where
  pages p := if p < 2 then some fun _ => 0 else none
  memAccess p := if p < 2 then some .mutable else none

/-- A context of service 1 with its account and no other. -/
def contextOf (a : ServiceAccount) : IndexedContext where
  serviceIndex := 1
  u :=
    { serviceAccounts := fun s => if s = 1 then some a else none
      upcomingValidators := []
      upcomingDirty := false
      queueWorkReport := fun _ => Vector.replicate _ 0
      queueDirty := false
      privilegedState := ⟨0, fun _ => 0, 0, 0, fun _ => none⟩
      privilegedDirty := false }
  transfers := []
  yield := 0
  provided := []
  newServiceIndex := 65536

/-- A machine of service 1 over two pages of zeros, with the registers from 7 on. -/
def machineOf (mode : Mode) (a : ServiceAccount) (registers : List UInt64) : HostVM where
  reg i := if i.val < 7 then 0 else registers.getD (i.val - 7) 0
  ram := zeroRam
  panicked := false
  mode := mode
  timeslot := 0
  x := contextOf a
  data := ⟨some [], 0, none, [], none, none, 0, none, none, none, none, [], none, none⟩

end JamDuna.Pvm
