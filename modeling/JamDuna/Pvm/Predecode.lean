/-
# The pre-decoder of the interpreter

`Instruction.Decode` of `pvm/interpreter/instructions.go`. `PreDecodeInstructions` runs it on
every instruction of a program before anything is executed, and records registers, immediates
and offset with the instruction. The opcode decides the format of the operands (`Format`).

Unlike the `Extract*` functions it takes slices of the operand bytes themselves. `none` is a
slice that reaches past the operand bytes (`sliceOf`). In Go such a slice runs on into the bytes
of the program behind the operands, and is a run-time error where there are none.

Only three of the recorded values are used to execute an instruction: the number of a host call,
the operands of `LOAD_IMM_64` and the offset of `JUMP`; the other handlers take the operand bytes
apart again.
-/

import JamDuna.Pvm.Operands

namespace JamDuna.Pvm

/-- The formats of operands. -/
inductive Format where
  | noArgs
  | oneImm
  | oneRegOneEWImm
  | twoImms
  | oneOffset
  | oneRegOneImm
  | oneRegTwoImm
  | oneRegOneImmOneOffset
  | twoRegs
  | twoRegsOneImm
  | twoRegsOneOffset
  | twoRegsTwoImms
  | threeRegs
  deriving DecidableEq, Repr

/-- The format of an opcode; `GetArgs` of the recompiler makes the same distinction. -/
def Format.ofOpcode (opcode : UInt8) : Format :=
  if opcode ≤ 1 then .noArgs
  else if opcode = 10 then .oneImm
  else if opcode = 20 then .oneRegOneEWImm
  else if 30 ≤ opcode ∧ opcode ≤ 33 then .twoImms
  else if opcode = 40 then .oneOffset
  else if 50 ≤ opcode ∧ opcode ≤ 62 then .oneRegOneImm
  else if 70 ≤ opcode ∧ opcode ≤ 73 then .oneRegTwoImm
  else if 80 ≤ opcode ∧ opcode ≤ 90 then .oneRegOneImmOneOffset
  else if 100 ≤ opcode ∧ opcode ≤ 111 then .twoRegs
  else if 120 ≤ opcode ∧ opcode ≤ 161 then .twoRegsOneImm
  else if 170 ≤ opcode ∧ opcode ≤ 175 then .twoRegsOneOffset
  else if opcode = 180 then .twoRegsTwoImms
  else if 190 ≤ opcode ∧ opcode ≤ 230 then .threeRegs
  else .noArgs

/-- What `Decode` records of an instruction. -/
structure Decoded where
  destRegs : List (Fin 13) := []
  sourceRegs : List (Fin 13) := []
  imm1 : UInt64 := 0
  imm2 : UInt64 := 0
  offset1 : Int64 := 0
  deriving DecidableEq

variable (opcode : UInt8) (args : Bytes)

/-- `args[start : start+len]`. -/
def sliceOf (start len : ℕ) : Option Bytes :=
  if start + len ≤ args.length then some ((args.drop start).take len) else none

/-- `decodeE_l(args[start : start+len])` if the length is positive and there are bytes at
all. -/
def sliceImm (start len : ℕ) : Option UInt64 :=
  if 0 < len ∧ start < args.length then (sliceOf args start len).map decodeEL else some 0

/-- `decodeSignedOffsetN(args[start : start+len], len)` under the same conditions; from nine
bytes on the shifts leave nothing. -/
def sliceOffset (start len : ℕ) : Option Int64 :=
  if 0 < len ∧ start < args.length then
    (sliceOf args start len).map fun data => zEncode (decodeEL data) len
  else some 0

/-- `decodeOneImm`. -/
def decodeOneImm : Decoded := { imm1 := decodeEL args }

/-- `decodeOneRegOneEWImm`. -/
def decodeOneRegOneEWImm : Decoded :=
  if args.length = 0 then {}
  else
    { destRegs := [regIndex (operand args 0 % 16)]
      imm1 := decodeEL ((args.drop 1).take (min 8 (args.length - 1))) }

/-- `decodeOneOffset`. -/
def decodeOneOffset : Decoded := { offset1 := zEncode (decodeEL args) args.length }

/-- `decodeTwoImms`. -/
def decodeTwoImms : Option Decoded :=
  if args.length = 0 then some {}
  else do
    let lx := min 4 (operand args 0 % 8)
    let imm1 ← sliceImm args 1 lx
    let imm2 ← sliceImm args (1 + lx) (min 4 (args.length - lx - 1))
    return { imm1 := imm1, imm2 := imm2 }

/-- `decodeOneRegOneImm`. The length of the immediate is read from the first byte. -/
def decodeOneRegOneImm : Option Decoded :=
  if args.length = 0 then some {}
  else do
    let reg := regIndex (operand args 0 % 16)
    let imm1 ← sliceImm args 1 (min 4 (operand args 0 / 16 % 8))
    -- JUMP_IND and the stores read the register, the others write it
    if opcode = 50 ∨ 59 ≤ opcode then return { sourceRegs := [reg], imm1 := imm1 }
    else return { destRegs := [reg], imm1 := imm1 }

/-- `decodeOneRegTwoImm`. -/
def decodeOneRegTwoImm : Option Decoded :=
  if args.length = 0 then some {}
  else do
    let lx := min 4 (operand args 0 / 16 % 8)
    let imm1 ← sliceImm args 1 lx
    let imm2 ← sliceImm args (1 + lx) (min 4 (args.length - lx - 1))
    return { sourceRegs := [regIndex (operand args 0 % 16)], imm1 := imm1, imm2 := imm2 }

/-- `decodeOneRegOneImmOneOffset`. The offset has at most three bytes. -/
def decodeOneRegOneImmOneOffset : Option Decoded :=
  if args.length = 0 then some {}
  else do
    let reg := regIndex (operand args 0 % 16)
    let lx := min 4 (operand args 0 / 16 % 8)
    let imm1 ← sliceImm args 1 lx
    let offset1 ← sliceOffset args (1 + lx) (min 3 (args.length - lx - 1))
    if opcode = 80 then return { destRegs := [reg], imm1 := imm1, offset1 := offset1 }
    else return { sourceRegs := [reg], imm1 := imm1, offset1 := offset1 }

/-- `decodeTwoRegs`. -/
def decodeTwoRegs : Decoded :=
  if args.length = 0 then {}
  else
    { destRegs := [regIndex (operand args 0 % 16)]
      sourceRegs := [regIndex (operand args 0 / 16)] }

/-- `decodeTwoRegsOneImm`. -/
def decodeTwoRegsOneImm : Option Decoded :=
  if args.length = 0 then some {}
  else do
    let reg1 := regIndex (operand args 0 % 16)
    let reg2 := regIndex (operand args 0 / 16)
    let imm1 ← sliceImm args 1 (min 4 (args.length - 1))
    -- the stores read both registers
    if opcode ≤ 123 then return { sourceRegs := [reg1, reg2], imm1 := imm1 }
    else return { destRegs := [reg1], sourceRegs := [reg2], imm1 := imm1 }

/-- `decodeTwoRegsOneOffset`. The offset takes all the bytes. -/
def decodeTwoRegsOneOffset : Option Decoded :=
  if args.length = 0 then some {}
  else do
    let offset1 ← sliceOffset args 1 (args.length - 1)
    return { sourceRegs := [regIndex (operand args 0 % 16), regIndex (operand args 0 / 16)]
             offset1 := offset1 }

/-- `decodeTwoRegsTwoImms`. -/
def decodeTwoRegsTwoImms : Option Decoded :=
  if args.length < 2 then some {}
  else do
    let lx := min 4 (operand args 1 % 8)
    let imm1 ← sliceImm args 2 lx
    let imm2 ← sliceImm args (2 + lx) (min 4 (args.length - lx - 2))
    return { destRegs := [regIndex (operand args 0 % 16)]
             sourceRegs := [regIndex (operand args 0 / 16)]
             imm1 := imm1, imm2 := imm2 }

/-- `decodeThreeRegs`. -/
def decodeThreeRegs : Decoded :=
  if args.length < 2 then {}
  else
    { destRegs := [regIndex (operand args 1 % 16)]
      sourceRegs := [regIndex (operand args 0 % 16), regIndex (operand args 0 / 16)] }

/-- `Decode`. -/
def decode : Option Decoded :=
  match Format.ofOpcode opcode with
  | .noArgs => some {}
  | .oneImm => some (decodeOneImm args)
  | .oneRegOneEWImm => some (decodeOneRegOneEWImm args)
  | .twoImms => decodeTwoImms args
  | .oneOffset => some (decodeOneOffset args)
  | .oneRegOneImm => decodeOneRegOneImm opcode args
  | .oneRegTwoImm => decodeOneRegTwoImm args
  | .oneRegOneImmOneOffset => decodeOneRegOneImmOneOffset opcode args
  | .twoRegs => some (decodeTwoRegs args)
  | .twoRegsOneImm => decodeTwoRegsOneImm opcode args
  | .twoRegsOneOffset => decodeTwoRegsOneOffset args
  | .twoRegsTwoImms => decodeTwoRegsTwoImms args
  | .threeRegs => some (decodeThreeRegs args)

variable {len start : ℕ}

theorem sliceImm_eq_some_of_le (h : start + len ≤ args.length) :
    sliceImm args start len = some (decodeEL ((args.drop start).take len)) := by
  unfold sliceImm sliceOf
  rw [if_pos h]
  split_ifs with hcond
  · rfl
  · have hlen : len = 0 := by omega
    rw [hlen, List.take_zero]
    rfl

theorem sliceImm_of_length_le (len : ℕ) (h : args.length ≤ start) :
    sliceImm args start len = some 0 := by
  unfold sliceImm
  rw [if_neg (by omega)]

theorem sliceImm_eq_none (h : start < args.length)
    (h' : args.length < start + len) : sliceImm args start len = none := by
  unfold sliceImm sliceOf
  rw [if_pos (by omega), if_neg (by omega)]
  rfl

end JamDuna.Pvm
