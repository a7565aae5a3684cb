/-
# The host calls of an accumulation

`AccumulateHostFunctionMap` of `statedb/pvm_hostfunctions.go`: the calls that a service can
make while it accumulates, on registers and memory. READ, WRITE and the other calls on
accounts are those of the host machine; here are

| call | 7 | 8 | 9 | 10 | 11 | 12 |
| --- | --- | --- | --- | --- | --- | --- |
| `BLESS` | manager | assigners | designator | registrar | always-accumulate | its length |
| `ASSIGN` | core | queue | assigner | | | |
| `DESIGNATE` | validators | | | | | |
| `NEW` | code hash | its length | gas | gas | gratis offset | index |
| `UPGRADE` | code hash | gas | gas | | | |
| `QUERY` | hash | length | | | | |
| `YIELD` | hash | | | | | |
| `PROVIDE` | service | blob | its length | | | |

together with GAS, CHECKPOINT and LOG. What they do to the context is `XContext` and
`IndexedContext`; what is added is where the arguments come from and what register 7 is in
the end. As in the host machine, `none` is a run-time error of the Go program, and a panic
of the guest is a state with `panicked` set.
-/

import JamDuna.Pvm.Fetch

namespace JamDuna.Pvm

open JamDuna.Types JamDuna.Basis Accumulation

section

variable (vm : HostVM)

/-- `CORE`. -/
abbrev Code.core : UInt64 := 0xfffffffffffffffa

/-- The machine with another context, but for the index of the next new service. -/
def HostVM.setContext (x : XContext) : HostVM := { vm with x := { vm.x with toXContext := x } }

/-- The rounds of a loop up to `int(n)`, which is negative for `2 ^ 63` and above. -/
def loopCount (n : UInt64) : ℕ := if n.toNat < 2 ^ 63 then n.toNat else 0

/-- An entry of the always-accumulate map in memory. -/
def HostVM.blessEntry (o : UInt32) (i : ℕ) : Option (UInt32 × UInt64) :=
  (vm.ram.readRAMBytes (o + UInt32.ofNat i * 12) 12).map fun data =>
    (UInt32.ofNat (ofLE (data.take 4)), UInt64.ofNat (ofLE (data.drop 4)))

/-- The entries from the `i`-th on, up to the first that cannot be read. -/
def HostVM.blessMap (o : UInt32) : ℕ → ℕ → Option (List (UInt32 × UInt64))
  | 0, _ => some []
  | rounds + 1, i =>
    match vm.blessEntry o i with
    | none => none
    | some e => (HostVM.blessMap o rounds (i + 1)).map (e :: ·)

/-- The assigners in memory, one for each core. -/
def HostVM.blessCores (a : UInt32) : Option (Fin totalCores → UInt32) :=
  if ∀ c : Fin totalCores, (vm.ram.readRAMBytes (a + UInt32.ofNat c * 4) 4).isSome then
    some fun c => UInt32.ofNat (ofLE ((vm.ram.readRAMBytes (a + UInt32.ofNat c * 4) 4).getD []))
  else none

/-- `hostBless`. -/
def HostVM.hostBless : HostVM :=
  if vm.mode ≠ .accumulate then vm.writeRegister 7 Code.what
  else match vm.blessMap (vm.reg 11).toUInt32 (loopCount (vm.reg 12)) 0 with
    | none => vm.panic
    | some z =>
      match vm.blessCores (vm.reg 8).toUInt32 with
      | none => vm.panic
      | some a =>
        let m := vm.reg 7
        let v := vm.reg 9
        let r := vm.reg 10
        (vm.setContext (vm.x.toXContext.hostBless m v r a z)).writeRegister 7
          (if maxUint32 < m ∨ maxUint32 < v ∨ maxUint32 < r then Code.who else Code.ok)

/-- The assigner of a core, if there is such a core. -/
def assignerOf (p : PrivilegedServiceState) (c : UInt64) : Option UInt32 :=
  if h : c.toNat < totalCores then some (p.authQueueServiceID ⟨c.toNat, h⟩) else none

/-- The queue of a core in memory. -/
def queueOf (q : Bytes) : CoreQueue := Vector.ofFn fun i => Hash.ofBytes ((q.drop (32 * i)).take 32)

/-- `hostAssign`. -/
def HostVM.hostAssign : Option HostVM :=
  if vm.mode ≠ .accumulate then some (vm.writeRegister 7 Code.what)
  else match vm.ram.readRAMBytes (vm.reg 8).toUInt32 2560 with
    | none => some vm.panic
    | some q =>
      match assignerOf vm.x.u.privilegedState (vm.reg 7) with
      | none => some (vm.writeRegister 7 Code.core)
      | some assigner =>
        match vm.serviceAccount with
        | none => none
        | some xs =>
          if assigner ≠ xs.serviceIndex then some (vm.writeRegister 7 Code.huh)
          else if maxUint32 < vm.reg 9 then some (vm.writeRegister 7 Code.who)
          else
            some ((vm.setContext
              (vm.x.toXContext.hostAssign (vm.reg 7) (queueOf q) (vm.reg 9))).writeRegister 7
                Code.ok)

/-- The validators in memory, 336 bytes each, of which the Ed25519 key is kept. -/
def validatorsOf (v : Bytes) : Vector Validator totalValidators :=
  Vector.ofFn fun i => ⟨Hash.ofBytes ((v.drop (336 * i + 32)).take 32)⟩

/-- `hostDesignate`. -/
def HostVM.hostDesignate : Option HostVM :=
  if vm.mode ≠ .accumulate then some (vm.writeRegister 7 Code.what)
  else match vm.ram.readRAMBytes (vm.reg 7).toUInt32 2016 with
    | none => some vm.panic
    | some v =>
      match vm.serviceAccount with
      | none => none
      | some xs =>
        if vm.x.u.privilegedState.upcomingValidatorsServiceID ≠ xs.serviceIndex then
          some (vm.writeRegister 7 Code.huh)
        else
          some ((vm.setContext (vm.x.toXContext.hostDesignate (validatorsOf v))).writeRegister 7
            Code.ok)

variable (blake2 : Bytes → Hash) (env : StorageEnv)

/-- What NEW reads. -/
def HostVM.newArgs : NewArgs where
  codeHash := (vm.ram.readRAMBytes (vm.reg 7).toUInt32 32).map Hash.ofBytes
  codeLen := vm.reg 8
  minItemGas := vm.reg 9
  minMemoGas := vm.reg 10
  gratisOffset := vm.reg 11
  requestedServiceIndex := vm.reg 12

/-- The register that NEW returns, unless it panics. -/
def newCode : NewResult → Option UInt64
  | .panic => none
  | .huh => some Code.huh
  | .cash => some Code.cash
  | .full => some Code.full
  | .ok newServiceIndex => some newServiceIndex.toUInt64

/-- `hostNew`. -/
def HostVM.hostNew : Option HostVM :=
  if vm.mode ≠ .accumulate then some (vm.writeRegister 7 Code.what)
  else match vm.x.hostNew vm.timeslot vm.newArgs with
    | none => none
    | some (result, x) =>
      match newCode result with
      | none => some vm.panic
      | some code => some ({ vm with x := x }.writeRegister 7 code)

/-- `hostUpgrade`. -/
def HostVM.hostUpgrade : Option HostVM :=
  if vm.mode ≠ .accumulate then some (vm.writeRegister 7 Code.what)
  else match vm.ram.readRAMBytes (vm.reg 7).toUInt32 32 with
    | none => some vm.panic
    | some c =>
      match vm.serviceAccount with
      | none => none
      | some xs =>
        some ((vm.setAccount vm.x.serviceIndex { xs with
            dirty := true
            codeHash := Hash.ofBytes c
            gasLimitG := vm.reg 8
            gasLimitM := vm.reg 9 }).writeRegister 7 Code.ok)

/-- Registers 7 and 8 after QUERY: how many timeslots a request has, and the timeslots. -/
def HostVM.queryResult : Option (List UInt32) → HostVM
  | none => (vm.writeRegister 7 Code.none).writeRegister 8 0
  | some [] => (vm.writeRegister 7 0).writeRegister 8 0
  | some [x] => (vm.writeRegister 7 (1 + 4294967296 * x.toUInt64)).writeRegister 8 0
  | some [x, y] => (vm.writeRegister 7 (2 + 4294967296 * x.toUInt64)).writeRegister 8 y.toUInt64
  | some [x, y, z] =>
    (vm.writeRegister 7 (3 + 4294967296 * x.toUInt64)).writeRegister 8
      (y.toUInt64 + 4294967296 * z.toUInt64)
  | some _ => vm

/-- `hostQuery`. -/
def HostVM.hostQuery : Option HostVM :=
  if vm.mode ≠ .accumulate then some (vm.writeRegister 7 Code.what)
  else match vm.ram.readRAMBytes (vm.reg 7).toUInt32 32 with
    | none => some vm.panic
    | some b =>
      match vm.serviceAccount with
      | none => none
      | some a =>
        let h := Hash.ofBytes b
        let z := (vm.reg 8).toUInt32
        some ((vm.setAccount vm.x.serviceIndex (a.cacheLookup env.toHostEnv h z)).queryResult
          (a.lookupTimeslots env.toHostEnv h z))

/-- `hostYield`. -/
def HostVM.hostYield : HostVM :=
  if vm.mode ≠ .accumulate then vm.writeRegister 7 Code.what
  else match vm.ram.readRAMBytes (vm.reg 7).toUInt32 32 with
    | none => vm.panic
    | some h =>
      (vm.setContext { vm.x.toXContext with yield := Hash.ofBytes h }).writeRegister 7 Code.ok

/-- The register that PROVIDE returns: the request has to be open, and the blob new. -/
def provideCode (provided : List Provided) (request : Option (List UInt32)) (blob : Provided) :
    UInt64 :=
  if request = some [] ∧ blob ∉ provided then Code.ok else Code.huh

/-- `hostProvide`. -/
def HostVM.hostProvide : HostVM :=
  if vm.mode ≠ .accumulate then vm.writeRegister 7 Code.what
  else match vm.ram.readRAMBytes (vm.reg 8).toUInt32 (vm.reg 9).toUInt32 with
    | none => vm.panic
    | some i =>
      let target := if vm.reg 7 = Code.none then vm.x.serviceIndex.toUInt64 else vm.reg 7
      match (vm.getXUDS env target).join with
      | none => vm.writeRegister 7 Code.who
      | some a =>
        (vm.setContext (vm.x.toXContext.hostProvide blake2 env.toHostEnv (vm.reg 7) i)).writeRegister
          7 (provideCode vm.x.provided
            (a.lookupTimeslots env.toHostEnv (blake2 i) (vm.reg 9).toUInt32) ⟨a.serviceIndex, i⟩)

/-- `hostLog`. -/
def HostVM.hostLog : HostVM :=
  match vm.ram.readRAMBytes (vm.reg 10).toUInt32 (vm.reg 11).toUInt32 with
  | none => vm
  | some _ => vm.writeRegister 7 Code.what

end

/-- `VM` in an accumulation: the host machine, the context of the last checkpoint and the gas
that is left. -/
structure AccumulateVM extends HostVM where
  y : IndexedContext
  gas : Int64

variable (vm : AccumulateVM)

/-- The machine after a call that concerns neither the checkpoint nor the gas. -/
def AccumulateVM.after (host : HostVM) : AccumulateVM := { vm with toHostVM := host }

/-- `hostGas`. -/
def AccumulateVM.hostGas : AccumulateVM := vm.after (vm.toHostVM.writeRegister 7 vm.gas.toUInt64)

/-- `hostCheckpoint`. -/
def AccumulateVM.hostCheckpoint : AccumulateVM :=
  { vm with
    toHostVM := vm.toHostVM.writeRegister 7 vm.gas.toUInt64
    y := { vm.x with u := vm.x.u.checkpoint } }

/-- The functions of `AccumulateHostFunctionMap`, and any other. -/
inductive AccumulateFn where
  | gas
  | bless
  | assign
  | designate
  | checkpoint
  | new
  | upgrade
  | query
  | yield
  | provide
  | log
  /-- A call of the host machine. -/
  | host (fn : HostFn)
  | unknown
  deriving DecidableEq, Repr

/-- The numbers of `AccumulateHostFunctionMap`. -/
def accumulateHostFunctions : List (ℕ × AccumulateFn) :=
  [(0, .gas), (1, .host .fetch), (2, .host .lookup), (3, .host .read), (4, .host .write),
    (5, .host .info), (14, .bless), (15, .assign), (16, .designate), (17, .checkpoint),
    (18, .new), (19, .upgrade), (20, .host .transfer), (21, .host .eject), (22, .query),
    (23, .host .solicit), (24, .host .forget), (25, .yield), (26, .provide), (100, .log)]

/-- The function of a number. -/
def AccumulateFn.ofId (id : UInt64) : AccumulateFn :=
  (accumulateHostFunctions.lookup id.toNat).getD .unknown

/-- `hostFunction` in an accumulation. -/
def AccumulateVM.hostFunction (blake2 : Bytes → Hash) (env : StorageEnv) :
    AccumulateFn → Option AccumulateVM
  | .gas => some vm.hostGas
  | .bless => some (vm.after vm.toHostVM.hostBless)
  | .assign => vm.toHostVM.hostAssign.map vm.after
  | .designate => vm.toHostVM.hostDesignate.map vm.after
  | .checkpoint => some vm.hostCheckpoint
  | .new => vm.toHostVM.hostNew.map vm.after
  | .upgrade => vm.toHostVM.hostUpgrade.map vm.after
  | .query => (vm.toHostVM.hostQuery env).map vm.after
  | .yield => some (vm.after vm.toHostVM.hostYield)
  | .provide => some (vm.after (vm.toHostVM.hostProvide blake2 env))
  | .log => some (vm.after vm.toHostVM.hostLog)
  | .host fn => (vm.toHostVM.hostFunction env fn).map vm.after
  | .unknown => some (vm.after (vm.toHostVM.writeRegister 7 Code.what))

end JamDuna.Pvm
