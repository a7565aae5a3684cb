/-
# The handlers of the instructions

`Handle*` of `pvm/interpreter/vmgo.go`, which `step` calls for every opcode but the first two
and ECALLI. Each takes the operand bytes apart with an `Extract*` function, reads registers and
memory, and writes a register, the memory or the program counter. With them the interpreter is
the function `handle` of a program (`VMProgram`).

A store or load outside the memory ends the run with `PANIC` and the state `FAULT`. `branch`
goes to its target only if a basic block starts there, and panics otherwise. `djump` looks the
target up in the jump table, and asks only whether it lies inside the code.

`handle` is `none` in one case: `HandleTwoImms` reads the first operand byte without asking
whether there is one. Everywhere else operands that are missing are zero. The branch of `djump`
for EVM programs is left out: nothing sets `cookie`.
-/

import JamDuna.Pvm.Alu
import JamDuna.Pvm.Interpreter
import JamDuna.Pvm.Predecode

namespace JamDuna.Pvm

open JamDuna.Basis

section

/-- A program with its jump table. -/
structure VMProgram extends Program where
  J : List UInt32

variable (p : VMProgram) (g : Guest)

/-- `WriteRegister`. -/
def Guest.write (d : Fin 13) (value : UInt64) : Guest :=
  { g with reg := Function.update g.reg d value }

/-- A load or store that the memory refuses. -/
def Guest.fault : Guest :=
  { g with resultCode := .panic, machineState := .fault, terminated := true }

/-- `WriteRAMBytes` in a handler. -/
def Guest.store (addr : UInt32) (data : Bytes) : Guest :=
  match g.ram.writeRAMBytes addr data with
  | some ram => { g with ram := ram }
  | none => g.fault

/-- `ReadRAMBytes` in a handler, and the register that gets the value. -/
def Guest.load (addr length : UInt32) (value : Bytes → UInt64) (d : Fin 13) : Guest :=
  match g.ram.readRAMBytes addr length with
  | some data => g.write d (value data)
  | none => g.fault

/-- A basic block starts at the address. -/
def Program.isBlockStart (p : Program) (pc : ℕ) : Bool :=
  pc < p.code.length && pc < p.bitmask.length && (p.bitmask.getD pc 0 &&& 2) != 0

/-- Where the first immediate ends that `Decode` slices out of the operands; the other slices stay
inside the operands. -/
def sliceEnd (opcode : UInt8) (args : Bytes) : ℕ :=
  match Format.ofOpcode opcode with
  | .twoImms => 1 + min 4 (operand args 0 % 8)
  | .oneRegOneImm => 1 + min 4 (operand args 0 / 16 % 8)
  | .oneRegTwoImm => 1 + min 4 (operand args 0 / 16 % 8)
  | .oneRegOneImmOneOffset => 1 + min 4 (operand args 0 / 16 % 8)
  | .twoRegsTwoImms => 2 + min 4 (operand args 1 % 8)
  | _ => 0

/-- `PreDecodeInstructions` can slice the operands of every instruction. A slice may leave the
operands and the code, as long as it stays inside the array of the blob, which has `spare` bytes
behind the code. -/
def Program.predecodes (p : Program) (spare : ℕ) : Bool :=
  (List.range p.code.length).all fun pc =>
    let inst := p.instruction pc
    p.bitmask.getD pc 0 == 0 || (decode inst.opcode inst.args).isSome ||
      decide (pc + 1 + sliceEnd inst.opcode inst.args ≤ p.code.length + spare)

/-- `branch`. -/
def Guest.branch (vx : UInt64) (taken : Bool) (operandLen : ℕ) : Guest :=
  if taken && p.isBlockStart vx.toNat then { g with pc := vx }
  else if taken then g.trap
  else { g with pc := g.pc + UInt64.ofNat (1 + operandLen) }

/-- The address that halts: `2 ^ 32 - 2 ^ 16`. -/
def haltAddress : UInt64 := 0xFFFF0000

/-- `Z_A`. -/
def zA : ℕ := 2

/-- `djump`. -/
def Guest.djump (a : UInt64) : Guest :=
  if a = haltAddress then { g with terminated := true, resultCode := .ok }
  else if a.toNat = 0 ∨ p.J.length * zA < a.toNat ∨ a.toNat % zA ≠ 0 then g.trap
  else
    let target := (p.J.getD (a.toNat / zA - 1) 0).toUInt64
    if p.code.length ≤ target.toNat then g.trap else { g with pc := target }

end

/-- The widths of stores. -/
inductive Width where
  | u8
  | u16
  | u32
  | u64
  deriving DecidableEq, Repr

/-- The width of the store with a number in its family. -/
def Width.ofIndex : ℕ → Width
  | 0 => .u8
  | 1 => .u16
  | 2 => .u32
  | _ => .u64

/-- What is stored of a value: its low bytes. -/
def Width.bytes (v : UInt64) : Width → Bytes
  | .u8 => [v.toUInt8]
  | .u16 => toLE 2 (v &&& 0xFFFF).toNat
  | .u32 => toLE 4 (v &&& 0xFFFFFFFF).toNat
  | .u64 => toLE 8 v.toNat

/-- The kinds of loads. -/
inductive LoadKind where
  | u8
  | i8
  | u16
  | i16
  | u32
  | i32
  | u64
  deriving DecidableEq, Repr

/-- The kind of the load with a number in its family. -/
def LoadKind.ofIndex : ℕ → LoadKind
  | 0 => .u8
  | 1 => .i8
  | 2 => .u16
  | 3 => .i16
  | 4 => .u32
  | 5 => .i32
  | _ => .u64

/-- The number of bytes that are read. -/
def LoadKind.size : LoadKind → UInt32
  | .u8 | .i8 => 1
  | .u16 | .i16 => 2
  | .u32 | .i32 => 4
  | .u64 => 8

/-- The value of the bytes for `LOAD_U8` to `LOAD_U64`. -/
def LoadKind.value (data : Bytes) : LoadKind → UInt64
  | .u8 => (data.getD 0 0).toUInt64
  | .i8 => xEncode (data.getD 0 0).toUInt64 1
  | .u16 | .u32 | .u64 => decodeEL data
  | .i16 => xEncode (decodeEL data) 2
  | .i32 => xEncode (decodeEL data) 4

/-- The value of the bytes for `LOAD_IND_U8` to `LOAD_IND_U64`. -/
def LoadKind.valueInd (data : Bytes) : LoadKind → UInt64
  | .u8 => (data.getD 0 0).toUInt64
  | .i8 => (data.getD 0 0).toInt8.toInt64.toUInt64
  | .u16 | .u32 | .u64 => decodeEL data
  | .i16 => (decodeEL data).toUInt16.toInt16.toInt64.toUInt64
  | .i32 => extend32 (decodeEL data).toUInt32.toInt32

/-- The conditions of branches. -/
inductive Condition where
  | eq
  | ne
  | ltU
  | leU
  | geU
  | gtU
  | ltS
  | leS
  | geS
  | gtS
  deriving DecidableEq, Repr

/-- The branch on two values is taken. -/
def Condition.taken (a b : UInt64) : Condition → Bool
  | .eq => a == b
  | .ne => a != b
  | .ltU => a < b
  | .leU => a ≤ b
  | .geU => a ≥ b
  | .gtU => a > b
  | .ltS => a.toInt64 < b.toInt64
  | .leS => a.toInt64 ≤ b.toInt64
  | .geS => a.toInt64 ≥ b.toInt64
  | .gtS => a.toInt64 > b.toInt64

/-- The conditions of `BRANCH_EQ_IMM` to `BRANCH_GT_S_IMM`. -/
def Condition.ofImmOpcode (opcode : UInt8) : Option Condition :=
  [.eq, .ne, .ltU, .leU, .geU, .gtU, .ltS, .leS, .geS, .gtS][opcode.toNat - 81]?

/-- The conditions of `BRANCH_EQ` to `BRANCH_GE_S`. -/
def Condition.ofOpcode (opcode : UInt8) : Option Condition :=
  [.eq, .ne, .ltU, .ltS, .geU, .geS][opcode.toNat - 170]?

variable (p : VMProgram) (opcode : UInt8) (args : Bytes) (g : Guest)

/-- `HandleOneRegOneEWImm`, with the operands that were decoded before the run. -/
def handleOneRegOneEWImm : Guest :=
  let d := decodeOneRegOneEWImm args
  g.write (d.destRegs.headD 0) d.imm1

/-- `HandleTwoImms`. -/
def handleTwoImms : Option Guest :=
  match args with
  | [] => none
  | _ :: _ =>
    let v := extractTwoImm args
    some (g.store v.1.toUInt32 ((Width.ofIndex (opcode.toNat - 30)).bytes v.2))

/-- `HandleOneOffset`, with the offset that was decoded before the run. -/
def handleOneOffset : Guest :=
  g.branch p (g.pc + (decodeOneOffset args).offset1.toUInt64) true args.length

/-- `HandleOneRegOneImm`. -/
def handleOneRegOneImm : Guest :=
  let v := extractOneRegOneImm args
  let addr := v.2.toUInt32
  if opcode = 50 then g.djump p ((g.reg v.1 + v.2) &&& 0xFFFFFFFF)
  else if opcode = 51 then g.write v.1 v.2
  else if opcode ≤ 58 then
    let kind := LoadKind.ofIndex (opcode.toNat - 52)
    g.load addr kind.size (fun data => kind.value data) v.1
  else g.store addr ((Width.ofIndex (opcode.toNat - 59)).bytes (g.reg v.1))

/-- `HandleOneRegTwoImm`. -/
def handleOneRegTwoImm : Guest :=
  let v := extractOneReg2Imm args
  g.store ((g.reg v.1).toUInt32 + v.2.1.toUInt32) ((Width.ofIndex (opcode.toNat - 70)).bytes v.2.2)

/-- `HandleOneRegOneImmOneOffset`. `LOAD_IMM_JUMP` writes the register first. -/
def handleOneRegOneImmOneOffset : Guest :=
  let v := extractOneRegOneImmOneOffset args
  let target := g.pc + v.2.2.toUInt64
  if opcode = 80 then (g.write v.1 v.2.1).branch p target true args.length
  else match Condition.ofImmOpcode opcode with
    | some c => g.branch p target (c.taken (g.reg v.1) v.2.1) args.length
    | none => g

/-- `PFunc`: the next multiple of the size of a page, as a 32-bit word. -/
def pFunc (x : UInt32) : UInt32 := 4096 * ((x + 4096 - 1) / 4096)

/-- `SetPagesAccessRange` for mutable pages. Pages that are not there are created. -/
def Ram.allocatePages (ram : Ram) (startPage count : ℕ) : Ram :=
  if count = 0 ∨ 2 ^ 20 < startPage + count then ram
  else
    { pages := fun i =>
        if startPage ≤ i ∧ i < startPage + count ∧ (ram.pages i).isNone then some fun _ => 0
        else ram.pages i
      memAccess := fun i =>
        if startPage ≤ i ∧ i < startPage + count then some .mutable else ram.memAccess i }

/-- `SBRK`. The new pointer is a 64-bit sum, cut to 32 bits after the comparison. -/
def Guest.sbrk (d : Fin 13) (valueA : UInt64) : Guest :=
  if valueA = 0 then g.write d g.heapPointer.toUInt64
  else
    let boundary := pFunc g.heapPointer
    let pointer := g.heapPointer.toUInt64 + valueA
    let ram :=
      if boundary.toUInt64 < pointer then
        let idxStart := boundary / 4096
        let idxEnd := pFunc pointer.toUInt32 / 4096
        g.ram.allocatePages idxStart.toNat (idxEnd - idxStart).toNat
      else g.ram
    { g with ram := ram, heapPointer := pointer.toUInt32 }.write d g.heapPointer.toUInt64

/-- `HandleTwoRegs`. -/
def handleTwoRegs : Guest :=
  let v := extractTwoRegisters args
  if opcode = 101 then g.sbrk v.1 (g.reg v.2)
  else match TwoRegs.ofOpcode opcode with
    | some op => g.write v.1 (op.result (g.reg v.2))
    | none => g.trap.write v.1 0

/-- `HandleTwoRegsOneImm`. -/
def handleTwoRegsOneImm : Guest :=
  let v := extractTwoRegsOneImm args
  let addr := ((g.reg v.2.1 + v.2.2) &&& 0xFFFFFFFF).toUInt32
  if opcode ≤ 123 then g.store addr ((Width.ofIndex (opcode.toNat - 120)).bytes (g.reg v.1))
  else if opcode ≤ 130 then
    let kind := LoadKind.ofIndex (opcode.toNat - 124)
    g.load addr kind.size (fun data => kind.valueInd data) v.1
  else match AluImm.ofOpcode opcode with
    | some op => g.write v.1 (op.result (g.reg v.1) (g.reg v.2.1) v.2.2)
    | none => g.write v.1 0

/-- `HandleTwoRegsOneOffset`. -/
def handleTwoRegsOneOffset : Guest :=
  let v := extractTwoRegsOneOffset args
  let target := g.pc + v.2.2.toUInt64
  match Condition.ofOpcode opcode with
  | some c => g.branch p target (c.taken (g.reg v.1) (g.reg v.2.1)) args.length
  | none => g.trap

/-- `HandleTwoRegsTwoImms`. The register of the address is read before the other is written. -/
def handleTwoRegsTwoImms : Guest :=
  let v := extractTwoRegsAndTwoImmediates args
  (g.write v.1 v.2.2.1).djump p ((g.reg v.2.1 + v.2.2.2) &&& 0xFFFFFFFF)

/-- `HandleThreeRegs`. -/
def handleThreeRegs : Guest :=
  let v := extractThreeRegs args
  match ThreeRegs.ofOpcode opcode with
  | some op =>
    match op.result (g.reg v.1) (g.reg v.2.1) with
    | some value => g.write v.2.2 value
    | none => g
  | none => g.write v.2.2 0

/-- The handler that `step` calls. -/
def handle (inst : Instruction) (g : Guest) : Option Guest :=
  match Format.ofOpcode inst.opcode with
  | .noArgs | .oneImm => some g
  | .oneRegOneEWImm => some (handleOneRegOneEWImm inst.args g)
  | .twoImms => handleTwoImms inst.opcode inst.args g
  | .oneOffset => some (handleOneOffset p inst.args g)
  | .oneRegOneImm => some (handleOneRegOneImm p inst.opcode inst.args g)
  | .oneRegTwoImm => some (handleOneRegTwoImm inst.opcode inst.args g)
  | .oneRegOneImmOneOffset => some (handleOneRegOneImmOneOffset p inst.opcode inst.args g)
  | .twoRegs => some (handleTwoRegs inst.opcode inst.args g)
  | .twoRegsOneImm => some (handleTwoRegsOneImm inst.opcode inst.args g)
  | .twoRegsOneOffset => some (handleTwoRegsOneOffset p inst.opcode inst.args g)
  | .twoRegsTwoImms => some (handleTwoRegsTwoImms p inst.args g)
  | .threeRegs => some (handleThreeRegs inst.opcode inst.args g)

end JamDuna.Pvm
