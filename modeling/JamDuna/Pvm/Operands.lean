/-
# Operands of instructions

`program/operands.go`: the `Extract*` functions take the operand bytes of an instruction apart
into register indices, immediates and offsets. They are what the handlers of the interpreter
use, and the code generator of the recompiler.

They never fail. The bytes are copied first; the copy is zero behind its end, so a window that
reaches past the operand bytes reads zeros there (`operandWindow`). At most four bytes belong
to an immediate or an offset, and its value is extended with its sign: `xEncode` and `zEncode` are
both the number that is congruent to the bytes modulo `2 ^ (8 * n)` and nearest to zero
(`toInt_xEncode`, `toInt_zEncode`).
-/

import JamDuna.Basis.LittleEndian
import JamDuna.Basis.SignedWords
import JamDuna.Types.Basic

namespace JamDuna.Pvm

open JamDuna.Basis Nat

/-- `XEncode`: an unsigned number of `n` bytes extended with its sign. -/
def xEncode (x : UInt64) (n : ℕ) : UInt64 :=
  if n = 0 ∨ 8 < n then 0
  else if n = 8 then x
  else
    let q := x >>> UInt64.ofNat (8 * n - 1)
    let mask : UInt64 := (1 <<< UInt64.ofNat (8 * n)) - 1
    x + q * ~~~mask

/-- `ZEncode`: the low `n` bytes as a signed number. -/
def zEncode (a : UInt64) (n : ℕ) : Int64 :=
  if n = 0 ∨ 8 < n then 0
  else
    let shift := 64 - 8 * n
    Int64.ofBitVec ((a.toBitVec <<< shift).sshiftRight shift)

/-- `DecodeE_l`: bytes from the ninth on do not count. -/
def decodeEL (b : Bytes) : UInt64 := UInt64.ofNat (ofLE (b.take 8))

section

variable (args : Bytes)

instance neZero_registers : NeZero 13 := ⟨by decide⟩

/-- A register index: from 12 on they all mean the last register. -/
def regIndex (n : ℕ) : Fin 13 := Fin.ofNat 13 (min 12 n)

/-- `int(args[i])`. -/
def operand (i : ℕ) : ℕ := (args.getD i 0).toNat

/-- `len` bytes of the copy of the operands. -/
def operandWindow (start len : ℕ) : Bytes := List.takeD len (args.drop start) 0

/-- The immediate in a window. -/
def immediate (start len : ℕ) : UInt64 := xEncode (decodeEL (operandWindow args start len)) len

/-- The offset in a window. -/
def offset (start len : ℕ) : Int64 := zEncode (decodeEL (operandWindow args start len)) len

/-- The length of what is left from `start` on, at most 4; a zero byte stands for nothing. -/
def restLength (start : ℕ) : ℕ :=
  let l := min 4 (args.length - start)
  if l = 0 then 1 else l

/-- `ExtractTwoImm`. -/
def extractTwoImm : UInt64 × UInt64 :=
  if args.length < 1 then (0, 0)
  else
    let lx := min 4 (operand args 0 % 8)
    (immediate args 1 lx, immediate args (1 + lx) (restLength args (1 + lx)))

/-- `ExtractOneOffset`. -/
def extractOneOffset : Int64 := offset args 0 (restLength args 0)

/-- `ExtractOneRegOneImm`. -/
def extractOneRegOneImm : Fin 13 × UInt64 :=
  if args.length < 1 then (0, 0)
  else (regIndex (operand args 0 % 16), immediate args 1 (restLength args 1))

/-- `ExtractOneReg2Imm`. -/
def extractOneReg2Imm : Fin 13 × UInt64 × UInt64 :=
  if args.length < 1 then (0, 0, 0)
  else
    let lx := min 4 (operand args 0 / 16 % 8)
    (regIndex (operand args 0 % 16), immediate args 1 lx,
      immediate args (1 + lx) (restLength args (1 + lx)))

/-- `ExtractOneRegOneImmOneOffset`. -/
def extractOneRegOneImmOneOffset : Fin 13 × UInt64 × Int64 :=
  if args.length < 1 then (0, 0, 0)
  else
    let lx := min 4 (operand args 0 / 16 % 8)
    (regIndex (operand args 0 % 16), immediate args 1 lx,
      offset args (1 + lx) (restLength args (1 + lx)))

/-- `ExtractTwoRegisters`. -/
def extractTwoRegisters : Fin 13 × Fin 13 :=
  if args.length < 1 then (0, 0)
  else (regIndex (operand args 0 % 16), regIndex (operand args 0 / 16))

/-- `ExtractTwoRegsOneImm`. Here nothing stands for an immediate that is not there. -/
def extractTwoRegsOneImm : Fin 13 × Fin 13 × UInt64 :=
  if args.length < 1 then (0, 0, 0)
  else (regIndex (operand args 0 % 16), regIndex (operand args 0 / 16),
    immediate args 1 (min 4 (args.length - 1)))

/-- `ExtractTwoRegsOneOffset`. -/
def extractTwoRegsOneOffset : Fin 13 × Fin 13 × Int64 :=
  if args.length < 1 then (0, 0, 0)
  else (regIndex (operand args 0 % 16), regIndex (operand args 0 / 16),
    offset args 1 (restLength args 1))

/-- `ExtractTwoRegsAndTwoImmediates`, where bytes that are missing are zero. -/
def extractTwoRegsAndTwoImmediates : Fin 13 × Fin 13 × UInt64 × UInt64 :=
  let lx := min 4 (operand args 1 % 8)
  (regIndex (operand args 0 % 16), regIndex (operand args 0 / 16), immediate args 2 lx,
    immediate args (2 + lx) (restLength args (2 + lx)))

/-- `ExtractThreeRegs`, where bytes that are missing are zero. The third register is a byte of
its own, taken as a whole. -/
def extractThreeRegs : Fin 13 × Fin 13 × Fin 13 :=
  (regIndex (operand args 0 % 16), regIndex (operand args 0 / 16), regIndex (operand args 1))

end

theorem toNat_decodeEL (b : Bytes) : (decodeEL b).toNat = ofLE (b.take 8) := by
  have hlt := ofLE_lt (b.take 8)
  have hle : 256 ^ (b.take 8).length ≤ 256 ^ 8 :=
    Nat.pow_le_pow_right (by norm_num) (List.length_take_le 8 b)
  exact UInt64.toNat_ofNat_of_lt' (lt_of_lt_of_le hlt hle)

variable {len n : ℕ}

/-- The mask above `n` bytes. -/
theorem toNat_signMask (hn : 0 < n) (hn' : n < 8) :
    (~~~((1 <<< UInt64.ofNat (8 * n)) - 1) : UInt64).toNat = 2 ^ 64 - 2 ^ (8 * n) := by
  interval_cases n <;> decide

theorem toNat_xEncode {x : UInt64} (hn : 0 < n) (hn' : n < 8) : (xEncode x n).toNat =
      (x.toNat + x.toNat / 2 ^ (8 * n - 1) * (2 ^ 64 - 2 ^ (8 * n))) % 2 ^ 64 := by
  have hshift : (x >>> UInt64.ofNat (8 * n - 1)).toNat = x.toNat / 2 ^ (8 * n - 1) := by
    have hsize : UInt64.size = 2 ^ 64 := rfl
    rw [UInt64.toNat_shiftRight, UInt64.toNat_ofNat_of_lt' (by omega),
      mod_eq_of_lt (by omega), shiftRight_eq_div_pow]
  unfold xEncode
  rw [if_neg (by omega), if_neg (by omega)]
  rw [UInt64.toNat_add, UInt64.toNat_mul, hshift, toNat_signMask hn hn', add_mod_mod]

/-- **Sign extension of a number of `n` bytes.** -/
theorem toInt_xEncode {x : UInt64} (hn : 0 < n) (hn' : n ≤ 8) (h : x.toNat < 2 ^ (8 * n)) :
    (xEncode x n).toInt64.toInt = Int.bmod x.toNat (2 ^ (8 * n)) := by
  rcases lt_or_eq_of_le hn' with hlt | rfl
  · rw [toInt_toInt64, toNat_xEncode hn hlt, Int.bmod_def]
    interval_cases n <;> norm_num at h ⊢ <;> split_ifs <;> omega
  · rw [xEncode, if_neg (by omega), if_pos rfl, toInt_toInt64, Int.bmod_def]
    split_ifs <;> omega

/-- **The low `n` bytes as a signed number.** -/
theorem toInt_zEncode {a : UInt64} (hn : 0 < n) (hn' : n ≤ 8) :
    (zEncode a n).toInt = Int.bmod a.toNat (2 ^ (8 * n)) := by
  have hval : (zEncode a n).toInt =
      ((a.toNat * 2 ^ (64 - 8 * n) : ℕ) : ℤ).bmod (2 ^ 64) / (2 ^ (64 - 8 * n) : ℕ) := by
    unfold zEncode
    rw [if_neg (by omega)]
    rw [Int64.toInt_ofBitVec, BitVec.toInt_sshiftRight, BitVec.toInt_shiftLeft,
      Int.shiftRight_eq_div_pow, shiftLeft_eq]
    rfl
  rw [hval, Int.bmod_def, Int.bmod_def]
  interval_cases n <;> norm_num <;> split_ifs <;> omega

variable (args : Bytes)

/-- The number in a window of the operands. -/
theorem toNat_operandWindow (start : ℕ) (hlen : len ≤ 8) :
    (decodeEL (operandWindow args start len)).toNat = ofLE ((args.drop start).take len) := by
  have hlength : (operandWindow args start len).length ≤ 8 := by
    rw [operandWindow, List.takeD_length]
    exact hlen
  rw [toNat_decodeEL, List.take_of_length_le hlength, operandWindow, ofLE_takeD]

theorem ofLE_window_lt (start len : ℕ) : ofLE ((args.drop start).take len) < 2 ^ (8 * len) := by
  have hlt := ofLE_lt ((args.drop start).take len)
  have hle : 256 ^ ((args.drop start).take len).length ≤ 256 ^ len :=
    Nat.pow_le_pow_right (by norm_num) (List.length_take_le len _)
  rw [pow_mul]
  exact lt_of_lt_of_le hlt hle

/-- An immediate is the signed number of its bytes. -/
theorem toInt_immediate (start : ℕ) (hlen : len ≤ 8) :
    (immediate args start len).toInt64.toInt =
      Int.bmod (ofLE ((args.drop start).take len)) (2 ^ (8 * len)) := by
  rcases Nat.eq_zero_or_pos len with rfl | hpos
  · rfl
  · have hlt := ofLE_window_lt args start len
    rw [← toNat_operandWindow args start hlen] at hlt ⊢
    exact toInt_xEncode hpos hlen hlt

/-- An offset is the signed number of its bytes. -/
theorem toInt_offset (start : ℕ) (hlen : len ≤ 8) :
    (offset args start len).toInt =
      Int.bmod (ofLE ((args.drop start).take len)) (2 ^ (8 * len)) := by
  rcases Nat.eq_zero_or_pos len with rfl | hpos
  · rfl
  · rw [← toNat_operandWindow args start hlen]
    exact toInt_zEncode hpos hlen

end JamDuna.Pvm
