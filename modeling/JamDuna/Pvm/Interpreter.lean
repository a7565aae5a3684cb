/-
# The interpreter

`VMGo` of `pvm/interpreter/vmgo.go`: `step` fetches an instruction, takes a unit of gas and
dispatches on the opcode, and `Execute` repeats it until the machine has terminated, a step
returns an error or the gas is used up. `SingleAccumulate` of `statedb/accumulate.go` runs the
code of a service with it (`singleRun`).

Only `step` and `Execute` touch the gas; the handlers of the instructions other than the first
two opcodes and ECALLI work on registers, memory, heap pointer, program counter and status
(`Guest`), so the interpreter is a function of them (`handle`), and of the host that serves
the calls (`HostCalls`). `none` is a run-time error of the Go program. Traces, labels,
counts of instructions and the taint tracker are left out, and so is `FAULT` where a host call
sets it: only `ExecuteAsChild` asks for it, and children make no host calls.
-/

import JamDuna.Basis.FuelLoops
import JamDuna.Pvm.ServiceRuns

namespace JamDuna.Pvm

open JamDuna.Types JamDuna.Basis Accumulation

/-- `WORKRESULT_OK`, `WORKRESULT_OOG` and `WORKRESULT_PANIC`. -/
inductive ResultCode where
  | ok
  | oog
  | panic
  deriving DecidableEq, Repr

/-- `HALT`, `PANIC`, `FAULT`, `HOST` and `OOG`. -/
inductive MachineState where
  | halt
  | panic
  | fault
  | host
  | oog
  deriving DecidableEq, Repr

/-- The errors that `step` returns. -/
inductive StepError where
  /-- `program counter out of bounds` -/
  | outOfBounds
  /-- `program counter does not point to a valid instruction start` -/
  | notInstruction
  /-- `out of gas` -/
  | outOfGas
  /-- `errChildHostCall` -/
  | childHostCall
  deriving DecidableEq, Repr

/-- The code of a program and the marks of its instructions. -/
structure Program where
  code : Bytes
  bitmask : Bytes

/-- `Instruction`, before its operands are decoded. -/
structure Instruction where
  opcode : UInt8
  args : Bytes

/-- What an instruction works on. -/
structure Guest where
  reg : Fin 13 → UInt64
  ram : Ram
  heapPointer : UInt32
  pc : UInt64
  terminated : Bool
  resultCode : ResultCode
  machineState : MachineState

/-- `VMGo`, with the state of the machine around it and the result code that is set there. -/
structure VMGo (σ : Type) extends Guest where
  gas : Int64
  isChild : Bool
  host : σ
  hostResultCode : ResultCode

/-- What a host call leaves: registers, memory, the state of the host, and whether the host
has set `PANIC`. -/
structure HostReturn (σ : Type) where
  reg : Fin 13 → UInt64
  ram : Ram
  host : σ
  panicked : Bool

/-- `InvokeHostCall`, which gets the number of the function and sees gas, registers and
memory. -/
abbrev HostCalls (σ : Type) : Type :=
  UInt64 → Int64 → (Fin 13 → UInt64) → Ram → σ → Option (HostReturn σ)

section

variable (p : Program)

/-- `skip`: the number of operand bytes of the instruction at `pc`, at most 24. -/
def Program.skip (pc : ℕ) : ℕ :=
  let stop := if p.bitmask.length < pc + 25 then p.bitmask.length else pc + 25
  match (List.range' (pc + 1) (stop - (pc + 1))).find? fun i => p.bitmask.getD i 0 != 0 with
  | some i => i - pc - 1
  | none => if stop < pc + 25 then stop - pc - 1 else 24

/-- The instruction at `pc` as `PreDecodeInstructions` caches it. -/
def Program.instruction (pc : ℕ) : Instruction where
  opcode := p.code.getD pc 0
  args :=
    let len := p.skip pc
    if pc + 1 + len ≤ p.code.length then (p.code.drop (pc + 1)).take len else []

/-- What is at a program counter inside the code: `none` where the bitmask is too short, and
`some none` where no instruction starts. -/
def Program.fetch (pc : ℕ) : Option (Option Instruction) :=
  match p.bitmask[pc]? with
  | none => none
  | some mark => some (if mark = 0 then none else some (p.instruction pc))

/-- The immediate of ECALLI: `decodeE_l`, where bytes from the ninth on are shifted out. -/
def Instruction.imm (inst : Instruction) : UInt64 := UInt64.ofNat (ofLE (inst.args.take 8))

/-- The opcodes whose handler sets the program counter itself. -/
def setsPc (opcode : UInt8) : Bool :=
  opcode == 40 || opcode == 50 || (80 ≤ opcode && opcode ≤ 90) ||
    (170 ≤ opcode && opcode ≤ 175) || opcode == 180

/-- The opcodes after whose handler the program counter is advanced. -/
def advancesPc (opcode : UInt8) : Bool :=
  opcode == 20 || (30 ≤ opcode && opcode ≤ 33) || (51 ≤ opcode && opcode ≤ 62) ||
    (70 ≤ opcode && opcode ≤ 73) || (100 ≤ opcode && opcode ≤ 111) ||
    (120 ≤ opcode && opcode ≤ 161) || (190 ≤ opcode && opcode ≤ 230)

variable {σ : Type} (handle : Instruction → Guest → Option Guest) (calls : HostCalls σ)
  (vm : VMGo σ)

/-- Gas below zero is set to zero. -/
def clampGas (gas : Int64) : Int64 := if gas < 0 then 0 else gas

/-- The program counter behind an instruction. -/
def Guest.advance (g : Guest) (inst : Instruction) : Guest :=
  { g with pc := g.pc + 1 + UInt64.ofNat inst.args.length }

/-- `HandleNoArgs` for TRAP, and for every unknown opcode. -/
def Guest.trap (g : Guest) : Guest :=
  { g with resultCode := .panic, machineState := .panic, terminated := true }

/-- `Gas -= cost`. -/
def VMGo.charge (cost : Int64) : VMGo σ := { vm with gas := vm.gas - cost }

/-- The machine out of gas. -/
def VMGo.outOfGas : VMGo σ :=
  { vm with resultCode := .oog, machineState := .oog, gas := 0, terminated := true }

/-- `Panic`. -/
def VMGo.panic : VMGo σ :=
  { vm with resultCode := .panic, hostResultCode := .panic, terminated := true }

/-- `InvokeHostCall` on the machine. -/
def VMGo.invoke (id : UInt64) : Option (VMGo σ) :=
  (calls id vm.gas vm.reg vm.ram vm.host).map fun r =>
    let vm := { vm with reg := r.reg, ram := r.ram, host := r.host }
    if r.panicked then vm.panic else vm

/-- What a TRANSFER that leaves `OK` in register 7 is charged. -/
def VMGo.chargeTransfer (id : UInt64) : VMGo σ :=
  if id = 20 ∧ vm.reg 7 = Code.ok then
    { vm with gas := clampGas (vm.gas - (vm.reg 9).toInt64) }
  else vm

/-- The host function of an ECALLI, once it is paid for. -/
def VMGo.callHost (id : UInt64) : Option (VMGo σ) :=
  (vm.invoke calls id).map fun vm =>
    let vm := vm.chargeTransfer id
    if vm.machineState = .panic then vm.panic else vm

/-- ECALLI. -/
def VMGo.ecalli (inst : Instruction) : Option (VMGo σ × Option StepError) :=
  let vm := { vm with toGuest := vm.toGuest.advance inst }
  if vm.isChild then
    some ({ vm with machineState := .host, terminated := true }, some .childHostCall)
  else
    if (vm.charge 10).gas < 0 then some ((vm.charge 10).outOfGas, none)
    else ((vm.charge 10).callHost calls inst.imm).map (·, none)

/-- The instructions other than ECALLI. -/
def Guest.execute (inst : Instruction) (g : Guest) : Option Guest :=
  if inst.opcode = 0 then some g.trap
  else if inst.opcode = 1 then some (g.advance inst)
  else if setsPc inst.opcode then handle inst g
  else if advancesPc inst.opcode then
    (handle inst g).map fun g => if g.terminated then g else g.advance inst
  else some g.trap

/-- `step`. -/
def VMGo.step : Option (VMGo σ × Option StepError) :=
  if p.code.length ≤ vm.pc.toNat then
    some ({ vm with toGuest := vm.toGuest.trap, gas := clampGas (vm.gas - 1) }, some .outOfBounds)
  else
    match p.fetch vm.pc.toNat with
    | none => none
    | some none => some ({ vm with toGuest := vm.toGuest.trap }, some .notInstruction)
    | some (some inst) =>
      if (vm.charge 1).gas < 0 then some ((vm.charge 1).outOfGas, some .outOfGas)
      else if inst.opcode = 10 then (vm.charge 1).ecalli calls inst
      else (vm.toGuest.execute handle inst).map fun g =>
        ({ vm.charge 1 with toGuest := g }, none)

/-- The end of `Execute` for a machine that has terminated. -/
def VMGo.finish (vm : VMGo σ) : VMGo σ :=
  if vm.resultCode = .ok then vm else { vm with hostResultCode := vm.resultCode }

/-- A round of the loop of `Execute`. A step that returns an error ends it at once, and a
step that uses the gas up ends it out of gas. -/
def executeRound (vm : VMGo σ) : Round (VMGo σ) (Option (VMGo σ)) :=
  if vm.terminated then .done (some vm.finish)
  else
    match vm.step p handle calls with
    | none => .done none
    | some (vm, some _) => .done (some vm)
    | some (vm, none) =>
      if vm.gas ≤ 0 then .done (some { vm.outOfGas with hostResultCode := .oog }) else .next vm

/-- The machine at the head of the loop of `Execute`. -/
def VMGo.enter (vm : VMGo σ) (entryPoint : UInt32) : VMGo σ :=
  { vm with terminated := false, isChild := false, pc := entryPoint.toUInt64 }

/-- `Execute`, for at most so many steps: the machine it leaves, or `none` for a run-time
error. -/
def VMGo.execute (fuel : ℕ) (vm : VMGo σ) (entryPoint : UInt32) : Option (Option (VMGo σ)) :=
  if p.code.isEmpty || p.bitmask.isEmpty then
    some (some { vm with toGuest := vm.toGuest.trap, isChild := false })
  else loop (executeRound p handle calls) fuel (vm.enter entryPoint)

end

variable (blake2 : Bytes → Hash) (env : StorageEnv)

/-- The host calls of an accumulation. -/
def accumulateCalls : HostCalls AccumulateVM := fun id gas reg ram vm =>
  (vm.call blake2 env ⟨AccumulateFn.ofId id, reg, ram, gas⟩).map fun vm =>
    ⟨vm.reg, vm.ram, vm, vm.panicked⟩

variable (handle : Instruction → Guest → Option Guest)

/-- The gas that `SingleAccumulate` gives a service, a sum of 64-bit words. -/
def accumulationGas (transfersIn : List DeferredTransfer) (workReports : List WorkReport)
    (freeAccumulation : List (UInt32 × UInt64)) (s : UInt32) : UInt64 :=
  let free := (freeAccumulation.lookup s).getD 0
  let digests := (workReports.flatMap (·.results)).filter (·.serviceID == s)
  let selected := transfersIn.filter (·.receiverIndex == s)
  selected.foldl (fun g t => g + t.gasLimit) (digests.foldl (fun g d => g + d.gas) free)

/-- `gas - uint64(max(vm.SafeGetGas(), 0))`. -/
def gasUsed (limit : UInt64) (left : Int64) : UInt64 := limit - (clampGas left).toUInt64

/-- What `SingleAccumulate` returns of a run: the gas used and the context, which is `nil` for a
service without an account. -/
structure SingleResult where
  gasUsed : UInt64
  xy : Option XContext

/-- A loaded code: the program, the machine that initialisation leaves, and the index for the
next new service. -/
structure LoadedCode where
  program : Program
  machine : VMGo AccumulateVM
  newServiceIndex : UInt32

/-- `EntryPointAccumulate`. -/
def entryPointAccumulate : UInt32 := 5

/-- The machine that `ExecuteAccumulate` starts: both contexts are the fresh one. -/
def LoadedCode.start (c : LoadedCode) (x : XContext) (limit : UInt64) : VMGo AccumulateVM :=
  let x : IndexedContext := ⟨x, c.newServiceIndex⟩
  { c.machine with
    gas := limit.toInt64
    hostResultCode := .ok
    host := { c.machine.host with mode := .accumulate, panicked := false, x := x, y := x } }

/-- The context of a machine that `SingleAccumulate` returns: that of the last checkpoint after
a run that ended out of gas or in a panic. -/
def VMGo.context (vm : VMGo AccumulateVM) : XContext :=
  if vm.hostResultCode = .ok then vm.host.x.toXContext else vm.host.y.toXContext

/-- The code of the service and the context it starts with, or what is returned at once. -/
def singleSetup (o : PartialState) (transfersIn : List DeferredTransfer) (s : UInt32) :
    SingleResult ⊕ (Bytes × XContext) :=
  match (o.serviceAccounts s).or (env.getService s) with
  | none => .inl ⟨0, none⟩
  | some account =>
    let account := account.credit (transfersIn.filter (·.receiverIndex == s))
    let x := newXContext o s account
    match account.preimageBlob env.toHostEnv account.codeHash with
    | none => .inl ⟨0, some x⟩
    | some code => .inr (code, x)

/-- `SingleAccumulate` with the interpreter, for at most so many steps; the inner `none` is a
run-time error. -/
def singleRun (load : Bytes → LoadedCode) (o : PartialState) (transfersIn : List DeferredTransfer)
    (s : UInt32) (limit : UInt64) (fuel : ℕ) : Option (Option SingleResult) :=
  match singleSetup env o transfersIn s with
  | .inl r => some (some r)
  | .inr (code, x) =>
    (VMGo.execute (load code).program handle (accumulateCalls blake2 env) fuel
      ((load code).start x limit) entryPointAccumulate).map fun ended =>
        ended.map fun vm => ⟨gasUsed limit vm.gas, some vm.context⟩

end JamDuna.Pvm
