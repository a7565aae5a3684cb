/-
# Arithmetic of the interpreter

The values that `HandleTwoRegs`, `HandleTwoRegsOneImm` and `HandleThreeRegs` of
`pvm/interpreter/vmgo.go` write, for the instructions that compute on registers alone. The
constructors stand in the order of the opcodes of `program/instructions.go`.

Words of 32 bits are kept in registers extended with their sign: either by `x_encode` of the
low half, or by a conversion from `int32`. A division by zero gives all ones, and its remainder
the dividend. `REM_S_64` alone does not use the division of the language but `smod`, which
works on absolute values.
-/

import JamDuna.Pvm.Operands

namespace JamDuna.Pvm

open JamDuna.Basis

/-- `uint64(x)` of an `int32`. -/
def extend32 (x : Int32) : UInt64 := x.toInt64.toUInt64

/-- `int64(x) >> n`. -/
def shar64 (x n : UInt64) : UInt64 := UInt64.ofBitVec (x.toBitVec.sshiftRight n.toNat)

/-- `int32(x) >> n`. -/
def shar32 (x : UInt64) (n : UInt64) : Int32 :=
  Int32.ofBitVec (x.toUInt32.toBitVec.sshiftRight n.toNat)

/-- `bits.RotateLeft64`. -/
def rotateLeft64 (x : UInt64) (k : ℤ) : UInt64 :=
  UInt64.ofBitVec (x.toBitVec.rotateLeft (k % 64).toNat)

/-- `bits.RotateLeft32` of the low half. -/
def rotateLeft32 (x : UInt64) (k : ℤ) : UInt64 :=
  (UInt32.ofBitVec (x.toUInt32.toBitVec.rotateLeft (k % 32).toNat)).toUInt64

/-- The high word of `bits.Mul64`. -/
def mul64 (a b : UInt64) : UInt64 := UInt64.ofNat (a.toNat * b.toNat / 2 ^ 64)

/-- `boolToUint`. -/
def boolToUint (b : Bool) : UInt64 := if b then 1 else 0

/-- `smod`. -/
def smod (a b : Int64) : Int64 :=
  if b = 0 then a
  else
    let absA := if a < 0 then -a else a
    let absB := if b < 0 then -b else b
    let modVal := absA % absB
    if a < 0 then -modVal else modVal

/-- The opcodes 100 and 102 to 111. -/
inductive TwoRegs where
  | moveReg
  | countSetBits64
  | countSetBits32
  | leadingZeroBits64
  | leadingZeroBits32
  | trailingZeroBits64
  | trailingZeroBits32
  | signExtend8
  | signExtend16
  | zeroExtend16
  | reverseBytes
  deriving DecidableEq, Repr

/-- What is written for the value `a`. -/
def TwoRegs.result (a : UInt64) : TwoRegs → UInt64
  | .moveReg => a
  | .countSetBits64 => UInt64.ofBitVec a.toBitVec.cpop
  | .countSetBits32 => (UInt32.ofBitVec a.toUInt32.toBitVec.cpop).toUInt64
  | .leadingZeroBits64 => UInt64.ofBitVec a.toBitVec.clz
  | .leadingZeroBits32 => (UInt32.ofBitVec a.toUInt32.toBitVec.clz).toUInt64
  | .trailingZeroBits64 => UInt64.ofBitVec a.toBitVec.ctz
  | .trailingZeroBits32 => (UInt32.ofBitVec a.toUInt32.toBitVec.ctz).toUInt64
  | .signExtend8 => (a &&& 0xFF).toUInt8.toInt8.toInt64.toUInt64
  | .signExtend16 => (a &&& 0xFFFF).toUInt16.toInt16.toInt64.toUInt64
  | .zeroExtend16 => a &&& 0xFFFF
  | .reverseBytes => decodeEL (toLE 8 a.toNat).reverse

/-- The operation of an opcode. -/
def TwoRegs.ofOpcode (opcode : UInt8) : Option TwoRegs :=
  if opcode = 100 then some .moveReg
  else if opcode < 102 then none
  else
    [.countSetBits64, .countSetBits32, .leadingZeroBits64, .leadingZeroBits32,
      .trailingZeroBits64, .trailingZeroBits32, .signExtend8, .signExtend16, .zeroExtend16,
      .reverseBytes][opcode.toNat - 102]?

/-- The opcodes 131 to 161. -/
inductive AluImm where
  | addImm32
  | andImm
  | xorImm
  | orImm
  | mulImm32
  | setLtUImm
  | setLtSImm
  | shloLImm32
  | shloRImm32
  | sharRImm32
  | negAddImm32
  | setGtUImm
  | setGtSImm
  | shloLImmAlt32
  | shloRImmAlt32
  | sharRImmAlt32
  | cmovIzImm
  | cmovNzImm
  | addImm64
  | mulImm64
  | shloLImm64
  | shloRImm64
  | sharRImm64
  | negAddImm64
  | shloLImmAlt64
  | shloRImmAlt64
  | sharRImmAlt64
  | rotR64Imm
  | rotR64ImmAlt
  | rotR32Imm
  | rotR32ImmAlt
  deriving DecidableEq, Repr

/-- What is written to the first register for the values `a` and `b` of the registers and the
immediate `vx`. -/
def AluImm.result (a b vx : UInt64) : AluImm → UInt64
  | .addImm32 => xEncode ((b + vx) &&& 0xFFFFFFFF) 4
  | .andImm => b &&& vx
  | .xorImm => b ^^^ vx
  | .orImm => b ||| vx
  | .mulImm32 => xEncode ((b * vx) &&& 0xFFFFFFFF) 4
  | .setLtUImm => boolToUint (b < vx)
  | .setLtSImm => boolToUint (b.toInt64 < vx.toInt64)
  | .shloLImm32 => xEncode ((b <<< (vx &&& 31)) &&& 0xFFFFFFFF) 4
  | .shloRImm32 => xEncode (b.toUInt32 >>> (vx &&& 31).toUInt32).toUInt64 4
  | .sharRImm32 => extend32 (shar32 b (vx &&& 31))
  | .negAddImm32 => xEncode ((vx - b) &&& 0xFFFFFFFF) 4
  | .setGtUImm => boolToUint (b > vx)
  | .setGtSImm => boolToUint (b.toInt64 > vx.toInt64)
  | .shloLImmAlt32 => xEncode ((vx <<< (b &&& 31)) &&& 0xFFFFFFFF) 4
  | .shloRImmAlt32 => xEncode (vx.toUInt32 >>> (b &&& 31).toUInt32).toUInt64 4
  | .sharRImmAlt32 => shar64 (extend32 vx.toUInt32.toInt32) (b &&& 31)
  | .cmovIzImm => if b ≠ 0 then a else vx
  | .cmovNzImm => if b ≠ 0 then vx else a
  | .addImm64 => b + vx
  | .mulImm64 => b * vx
  | .shloLImm64 => b <<< (vx &&& 63)
  | .shloRImm64 => b >>> (vx &&& 63)
  | .sharRImm64 => shar64 b (vx &&& 63)
  | .negAddImm64 => vx - b
  | .shloLImmAlt64 => vx <<< (b &&& 63)
  | .shloRImmAlt64 => vx >>> (b &&& 63)
  | .sharRImmAlt64 => shar64 vx (b &&& 63)
  | .rotR64Imm => rotateLeft64 b (-(vx &&& 63).toNat)
  | .rotR64ImmAlt => rotateLeft64 vx (-(b &&& 63).toNat)
  | .rotR32Imm => xEncode (rotateLeft32 b (-(vx &&& 31).toNat)) 4
  | .rotR32ImmAlt => xEncode (rotateLeft32 vx (-(b &&& 31).toNat)) 4

/-- The operation of an opcode. -/
def AluImm.ofOpcode (opcode : UInt8) : Option AluImm :=
  if opcode < 131 then none
  else
    [.addImm32, .andImm, .xorImm, .orImm, .mulImm32, .setLtUImm, .setLtSImm, .shloLImm32,
      .shloRImm32, .sharRImm32, .negAddImm32, .setGtUImm, .setGtSImm, .shloLImmAlt32,
      .shloRImmAlt32, .sharRImmAlt32, .cmovIzImm, .cmovNzImm, .addImm64, .mulImm64, .shloLImm64,
      .shloRImm64, .sharRImm64, .negAddImm64, .shloLImmAlt64, .shloRImmAlt64, .sharRImmAlt64,
      .rotR64Imm, .rotR64ImmAlt, .rotR32Imm, .rotR32ImmAlt][opcode.toNat - 131]?

/-- The opcodes 190 to 230. -/
inductive ThreeRegs where
  | add32
  | sub32
  | mul32
  | divU32
  | divS32
  | remU32
  | remS32
  | shloL32
  | shloR32
  | sharR32
  | add64
  | sub64
  | mul64
  | divU64
  | divS64
  | remU64
  | remS64
  | shloL64
  | shloR64
  | sharR64
  | and
  | xor
  | or
  | mulUpperSS
  | mulUpperUU
  | mulUpperSU
  | setLtU
  | setLtS
  | cmovIz
  | cmovNz
  | rotL64
  | rotL32
  | rotR64
  | rotR32
  | andInv
  | orInv
  | xnor
  | max
  | maxU
  | min
  | minU
  deriving DecidableEq, Repr

/-- `DIV_S_32`. -/
def divS32 (a b : Int32) : UInt64 :=
  if b = 0 then 0xFFFFFFFFFFFFFFFF
  else if a = Int32.minValue ∧ b = -1 then extend32 a
  else extend32 (a / b)

/-- `REM_S_32`. -/
def remS32 (a b : Int32) : UInt64 :=
  if b = 0 then extend32 a
  else if a = Int32.minValue ∧ b = -1 then 0
  else extend32 (a % b)

/-- What is written for the values `a` and `b`; `none` where the register keeps its value. -/
def ThreeRegs.result (a b : UInt64) : ThreeRegs → Option UInt64
  | .add32 => some (xEncode (a.toUInt32 + b.toUInt32).toUInt64 4)
  | .sub32 => some (xEncode (a.toUInt32 - b.toUInt32).toUInt64 4)
  | .mul32 => some (xEncode (a.toUInt32 * b.toUInt32).toUInt64 4)
  | .divU32 =>
    if b &&& 0xFFFFFFFF = 0 then some 0xFFFFFFFFFFFFFFFF
    else some (xEncode (a.toUInt32 / b.toUInt32).toUInt64 4)
  | .divS32 => some (Pvm.divS32 a.toUInt32.toInt32 b.toUInt32.toInt32)
  | .remU32 =>
    if b &&& 0xFFFFFFFF = 0 then some (xEncode a.toUInt32.toUInt64 4)
    else some (xEncode (a.toUInt32 % b.toUInt32).toUInt64 4)
  | .remS32 => some (Pvm.remS32 a.toUInt32.toInt32 b.toUInt32.toInt32)
  | .shloL32 => some (xEncode (a.toUInt32 <<< (b &&& 31).toUInt32).toUInt64 4)
  | .shloR32 => some (xEncode (a.toUInt32 >>> (b &&& 31).toUInt32).toUInt64 4)
  | .sharR32 => some (extend32 (shar32 a (b &&& 31)))
  | .add64 => some (a + b)
  | .sub64 => some (a - b)
  | .mul64 => some (a * b)
  | .divU64 => if b = 0 then some 0xFFFFFFFFFFFFFFFF else some (a / b)
  | .divS64 =>
    if b = 0 then some 0xFFFFFFFFFFFFFFFF
    else if a.toInt64 = Int64.minValue ∧ b.toInt64 = -1 then some a
    else some (a.toInt64 / b.toInt64).toUInt64
  | .remU64 => if b = 0 then some a else some (a % b)
  | .remS64 =>
    if a.toInt64 = Int64.minValue ∧ b.toInt64 = -1 then some 0
    else some (smod a.toInt64 b.toInt64).toUInt64
  | .shloL64 => some (a <<< (b &&& 63))
  | .shloR64 => some (a >>> (b &&& 63))
  | .sharR64 => some (shar64 a (b &&& 63))
  | .and => some (a &&& b)
  | .xor => some (a ^^^ b)
  | .or => some (a ||| b)
  | .mulUpperSS =>
    let hi := Pvm.mul64 a b
    let hi := if a >>> 63 = 1 then hi - b else hi
    some (if b >>> 63 = 1 then hi - a else hi)
  | .mulUpperUU => some (Pvm.mul64 a b)
  | .mulUpperSU =>
    let hi := Pvm.mul64 a b
    some (if a >>> 63 = 1 then hi - b else hi)
  | .setLtU => some (boolToUint (a < b))
  | .setLtS => some (boolToUint (a.toInt64 < b.toInt64))
  | .cmovIz => if b = 0 then some a else none
  | .cmovNz => if b ≠ 0 then some a else none
  | .rotL64 => some (rotateLeft64 a (b &&& 63).toNat)
  | .rotL32 => some (xEncode (rotateLeft32 a (b &&& 31).toNat) 4)
  | .rotR64 => some (rotateLeft64 a (-(b &&& 63).toNat))
  | .rotR32 => some (xEncode (rotateLeft32 a (-(b &&& 31).toNat)) 4)
  | .andInv => some (a &&& ~~~b)
  | .orInv => some (a ||| ~~~b)
  | .xnor => some (~~~(a ^^^ b))
  | .max => some (if a.toInt64 ≤ b.toInt64 then b else a)
  | .maxU => some (if a ≤ b then b else a)
  | .min => some (if a.toInt64 ≤ b.toInt64 then a else b)
  | .minU => some (if a ≤ b then a else b)

/-- The operation of an opcode. -/
def ThreeRegs.ofOpcode (opcode : UInt8) : Option ThreeRegs :=
  if opcode < 190 then none
  else
    [.add32, .sub32, .mul32, .divU32, .divS32, .remU32, .remS32, .shloL32, .shloR32, .sharR32,
      .add64, .sub64, .mul64, .divU64, .divS64, .remU64, .remS64, .shloL64, .shloR64, .sharR64,
      .and, .xor, .or, .mulUpperSS, .mulUpperUU, .mulUpperSU, .setLtU, .setLtS, .cmovIz, .cmovNz,
      .rotL64, .rotL32, .rotR64, .rotR32, .andInv, .orInv, .xnor, .max, .maxU, .min,
      .minU][opcode.toNat - 190]?

end JamDuna.Pvm
