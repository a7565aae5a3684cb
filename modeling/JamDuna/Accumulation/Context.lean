/-
# The accumulation context and its host calls

`types/accumulatecontext.go`, and the accumulate host calls of
`statedb/pvm_hostfunctions.go`: a service runs on its own copy of the partial
state, which BLESS, ASSIGN, DESIGNATE and PROVIDE change, and CHECKPOINT puts a
copy aside for the case that the run ends out of gas or in a panic.

The virtual machine is outside. What it contributes is the list of host calls the
service made, with the arguments as read from its registers and memory; a call
that faults on memory ends the run and is not in the list. The host calls that
touch nothing but accounts, transfers and the yield are one constructor, `other`,
with an arbitrary effect on those.

Nothing checks in BLESS that the caller is the manager, and ASSIGN checks the
assigner in the caller's own copy, which BLESS may have rewritten before.
-/

import JamDuna.Accumulation.Account

namespace JamDuna.Accumulation

open JamDuna.Types

/-- `MaxAuthorizationQueueItems`, `Q`. -/
abbrev maxAuthorizationQueueItems : ℕ := 80

/-- The queue of authorizers of one core. -/
abbrev CoreQueue := Vector Hash maxAuthorizationQueueItems

/-- The service accounts of a partial state. -/
abbrev Accounts := UInt32 → Option ServiceAccount

/-- `types.PrivilegedServiceState`. -/
structure PrivilegedServiceState where
  managerServiceID : UInt32
  authQueueServiceID : Fin totalCores → UInt32
  upcomingValidatorsServiceID : UInt32
  registrarServiceID : UInt32
  alwaysAccServiceID : UInt32 → Option UInt64

/-- `types.PartialState`. -/
structure PartialState where
  serviceAccounts : Accounts
  upcomingValidators : List Validator
  upcomingDirty : Bool
  queueWorkReport : Fin totalCores → CoreQueue
  queueDirty : Bool
  privilegedState : PrivilegedServiceState
  privilegedDirty : Bool

/-- `types.DeferredTransfer`. -/
structure DeferredTransfer where
  senderIndex : UInt32
  receiverIndex : UInt32
  amount : UInt64
  memo : Vector UInt8 128
  gasLimit : UInt64
  deriving DecidableEq, Repr

/-- `types.Provided`: a blob provided as the preimage a service has requested. -/
structure Provided where
  serviceIndex : UInt32
  data : Bytes
  deriving DecidableEq, Repr

/-- `types.XContext`, less the index for the next new service. -/
structure XContext where
  serviceIndex : UInt32
  u : PartialState
  transfers : List DeferredTransfer
  yield : Hash
  provided : List Provided

/-- `PartialState.ResetDirtyFlags`. -/
def PartialState.resetDirtyFlags (u : PartialState) : PartialState :=
  { u with
    queueDirty := false
    upcomingDirty := false
    privilegedDirty := false
    serviceAccounts := fun s => (u.serviceAccounts s).map (·.resetDirtyFlags) }

/-- `PartialState.Checkpoint`. -/
def PartialState.checkpoint (u : PartialState) : PartialState :=
  { u with serviceAccounts := fun s => (u.serviceAccounts s).map fun sa =>
      { sa with dirty := sa.newAccount || sa.dirty } }

/-- `ServiceAccounts[s] = a`. -/
def PartialState.setAccount (u : PartialState) (s : UInt32) (a : ServiceAccount) : PartialState :=
  { u with serviceAccounts := Function.update u.serviceAccounts s (some a) }

/-- The contexts of a run: the current one and the one of the last checkpoint. -/
structure VM where
  x : XContext
  y : XContext

/-- The host calls of an accumulation. -/
inductive HostCall where
  | bless (m v r : UInt64) (a : Fin totalCores → UInt32) (z : List (UInt32 × UInt64))
  | assign (c : UInt64) (q : CoreQueue) (a : UInt64)
  | designate (v : Vector Validator totalValidators)
  | checkpoint
  | provide (target : UInt64) (blob : Bytes)
  | other (accounts : Accounts → Accounts)
      (transfers : List DeferredTransfer → List DeferredTransfer) (yield : Hash → Hash)

section

variable (blake2 : Bytes → Hash) (env : HostEnv)

/-- `maxUint32`. -/
abbrev maxUint32 : UInt64 := 0xffffffff

/-- `NONE`, and `maxUint64`. -/
abbrev maxUint64 : UInt64 := 0xffffffffffffffff

/-- `hostBless`. A service that does not exist only changes the result register,
which is overwritten at the end. -/
def XContext.hostBless (x : XContext) (m v r : UInt64) (a : Fin totalCores → UInt32)
    (z : List (UInt32 × UInt64)) : XContext :=
  if maxUint32 < m ∨ maxUint32 < v ∨ maxUint32 < r then x
  else { x with u := { x.u with
    privilegedDirty := true
    privilegedState :=
      { managerServiceID := m.toUInt32
        authQueueServiceID := a
        upcomingValidatorsServiceID := v.toUInt32
        registrarServiceID := r.toUInt32
        alwaysAccServiceID := fun s => z.reverse.lookup s } } }

/-- The index in the account of the running service: `xs.ServiceIndex`. -/
def XContext.ownIndex (x : XContext) : Option UInt32 :=
  (x.u.serviceAccounts x.serviceIndex).map (·.serviceIndex)

/-- `hostAssign`, once the core exists: the caller has to be the assigner in its own
copy of the privileges. -/
def XContext.assignCore (x : XContext) (core : Fin totalCores) (q : CoreQueue) (a : UInt64) :
    XContext :=
  if x.ownIndex ≠ some (x.u.privilegedState.authQueueServiceID core) ∨ maxUint32 < a then x
  else { x with u := { x.u with
    queueDirty := true
    queueWorkReport := Function.update x.u.queueWorkReport core q
    privilegedState := { x.u.privilegedState with
      authQueueServiceID :=
        Function.update x.u.privilegedState.authQueueServiceID core a.toUInt32 } } }

/-- `hostAssign`. -/
def XContext.hostAssign (x : XContext) (c : UInt64) (q : CoreQueue) (a : UInt64) : XContext :=
  if h : c.toNat < totalCores then x.assignCore ⟨c.toNat, h⟩ q a else x

/-- `hostDesignate`. -/
def XContext.hostDesignate (x : XContext) (v : Vector Validator totalValidators) : XContext :=
  if x.ownIndex ≠ some x.u.privilegedState.upcomingValidatorsServiceID then x
  else { x with u := { x.u with upcomingValidators := v.toList, upcomingDirty := true } }

/-- `getXUDS`: an account that is only in the trie enters the partial state. -/
def XContext.getXUDS (x : XContext) (serviceindex : UInt64) : Option ServiceAccount :=
  match x.u.serviceAccounts serviceindex.toUInt32 with
  | some a => some a
  | none =>
    if serviceindex = maxUint64 ∨ serviceindex.toUInt32 = x.serviceIndex then none
    else env.getService serviceindex.toUInt32

/-- `hostProvide`. -/
def XContext.hostProvide (x : XContext) (target : UInt64) (blob : Bytes) : XContext :=
  let target := if target = maxUint64 then x.serviceIndex.toUInt64 else target
  match x.getXUDS env target with
  | none => x
  | some a =>
    let z := UInt32.ofNat blob.length
    let h := blake2 blob
    let x := { x with u := x.u.setAccount target.toUInt32 (a.cacheLookup env h z) }
    if a.lookupTimeslots env h z = some [] ∧ ⟨a.serviceIndex, blob⟩ ∉ x.provided then
      { x with provided := x.provided ++ [⟨a.serviceIndex, blob⟩] }
    else x

/-- One host call. -/
def VM.hostCall (vm : VM) : HostCall → VM
  | .bless m v r a z => { vm with x := vm.x.hostBless m v r a z }
  | .assign c q a => { vm with x := vm.x.hostAssign c q a }
  | .designate v => { vm with x := vm.x.hostDesignate v }
  | .checkpoint => { vm with y := { vm.x with u := vm.x.u.checkpoint } }
  | .provide target blob => { vm with x := vm.x.hostProvide blake2 env target blob }
  | .other accounts transfers yield =>
    { vm with x := { vm.x with
      u := { vm.x.u with serviceAccounts := accounts vm.x.u.serviceAccounts }
      transfers := transfers vm.x.transfers
      yield := yield vm.x.yield } }

/-- The host calls of a run, from a fresh context on. -/
def runHostCalls (x : XContext) (calls : List HostCall) : VM :=
  calls.foldl (VM.hostCall blake2 env) ⟨x, x⟩

end

/-- What the dirty flags of a partial state vouch for, against the state the run
started from: an unset flag means an unchanged component. The assigners are
written under both flags. -/
structure Kept (base u : PartialState) : Prop where
  queue : u.queueDirty = false → u.queueWorkReport = base.queueWorkReport
  manager : u.privilegedDirty = false →
    u.privilegedState.managerServiceID = base.privilegedState.managerServiceID
  upcoming : u.privilegedDirty = false → u.privilegedState.upcomingValidatorsServiceID =
    base.privilegedState.upcomingValidatorsServiceID
  registrar : u.privilegedDirty = false →
    u.privilegedState.registrarServiceID = base.privilegedState.registrarServiceID
  alwaysAcc : u.privilegedDirty = false →
    u.privilegedState.alwaysAccServiceID = base.privilegedState.alwaysAccServiceID
  assigners : u.queueDirty = false → u.privilegedDirty = false →
    u.privilegedState.authQueueServiceID = base.privilegedState.authQueueServiceID

variable {blake2 : Bytes → Hash} {env : HostEnv} {base : PartialState} {x : XContext}

/-- The flags do not concern the accounts. -/
theorem Kept.of_accounts {u : PartialState} (h : Kept base u) (accounts : Accounts) :
    Kept base { u with serviceAccounts := accounts } :=
  ⟨h.queue, h.manager, h.upcoming, h.registrar, h.alwaysAcc, h.assigners⟩

theorem Kept.hostBless (h : Kept base x.u) (m v r : UInt64) (a : Fin totalCores → UInt32)
    (z : List (UInt32 × UInt64)) : Kept base (x.hostBless m v r a z).u := by
  unfold XContext.hostBless
  split_ifs
  · exact h
  · exact ⟨h.queue, nofun, nofun, nofun, nofun, nofun⟩

theorem Kept.hostAssign (h : Kept base x.u) (c : UInt64) (q : CoreQueue) (a : UInt64) :
    Kept base (x.hostAssign c q a).u := by
  unfold XContext.hostAssign XContext.assignCore
  split_ifs
  · exact h
  · exact ⟨nofun, h.manager, h.upcoming, h.registrar, h.alwaysAcc, nofun⟩
  · exact h

theorem Kept.hostDesignate (h : Kept base x.u) (v : Vector Validator totalValidators) :
    Kept base (x.hostDesignate v).u := by
  unfold XContext.hostDesignate
  split_ifs
  · exact h
  · exact ⟨h.queue, h.manager, h.upcoming, h.registrar, h.alwaysAcc, h.assigners⟩

theorem Kept.hostProvide (h : Kept base x.u) (target : UInt64) (blob : Bytes) :
    Kept base (x.hostProvide blake2 env target blob).u := by
  unfold XContext.hostProvide
  dsimp only
  generalize (if target = maxUint64 then x.serviceIndex.toUInt64 else target) = s
  cases x.getXUDS env s with
  | none => exact h
  | some a =>
    dsimp only
    split_ifs
    all_goals exact h.of_accounts _

/-- **A host call keeps what the flags vouch for**, in both contexts. -/
theorem Kept.hostCall {vm : VM} (hx : Kept base vm.x.u) (hy : Kept base vm.y.u) (call : HostCall) :
    Kept base (vm.hostCall blake2 env call).x.u ∧ Kept base (vm.hostCall blake2 env call).y.u := by
  cases call with
  | bless m v r a z => exact ⟨hx.hostBless m v r a z, hy⟩
  | assign c q a => exact ⟨hx.hostAssign c q a, hy⟩
  | designate v => exact ⟨hx.hostDesignate v, hy⟩
  | checkpoint => exact ⟨hx, hx.of_accounts _⟩
  | provide target blob => exact ⟨hx.hostProvide target blob, hy⟩
  | other accounts transfers yield => exact ⟨hx.of_accounts _, hy⟩

/-- **A whole run keeps what the flags vouch for.** -/
theorem kept_runHostCalls (h : Kept base x.u) (calls : List HostCall) :
    Kept base (runHostCalls blake2 env x calls).x.u ∧
      Kept base (runHostCalls blake2 env x calls).y.u := by
  have hrun : ∀ (calls : List HostCall) (vm : VM), Kept base vm.x.u → Kept base vm.y.u →
      Kept base (calls.foldl (VM.hostCall blake2 env) vm).x.u ∧
        Kept base (calls.foldl (VM.hostCall blake2 env) vm).y.u := by
    intro calls
    induction calls with
    | nil => exact fun _ hx hy => ⟨hx, hy⟩
    | cons call calls ih =>
      intro vm hx hy
      have hstep : Kept base (vm.hostCall blake2 env call).x.u ∧
          Kept base (vm.hostCall blake2 env call).y.u := hx.hostCall hy call
      exact ih _ hstep.1 hstep.2
  exact hrun calls ⟨x, x⟩ h h

end JamDuna.Accumulation
