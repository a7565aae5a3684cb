/-
# Two readings of the operands

The interpreter records the operands of every instruction before a run (`decode`); the
recompiler takes them apart with the `Extract*` functions (`GetArgs` of
`recompiler/basic_block.go`, `setJumpMetadata` of `recompiler/vm_execute.go` and the generators
of machine code). `LOAD_IMM_64` is the exception: `generateLoadImm64` of
`recompiler/recompiler_memory.go` reads the bytes itself.

The two agree on an instruction (`OperandsAgree`) exactly where `OperandsPlain` says so. The
pre-decoder does not extend immediates with their sign; it reads the length of the immediate of
one register and one immediate from the first byte, where the other takes what is there; its
offsets have all the bytes, or at most three of them, instead of at most four; and the register
that stands alone in a byte is taken modulo 16. A register that is not recorded counts as
register 0.
-/

import JamDuna.Pvm.PlainOperands

namespace JamDuna.Pvm

open JamDuna.Basis List Option Nat

/-- The operands of an instruction, the register that is written first. -/
structure Operands where
  registers : List (Fin 13) := []
  imm1 : UInt64 := 0
  imm2 : UInt64 := 0
  offset1 : Int64 := 0
  deriving DecidableEq

/-- What the recompiler reads from the operand bytes. -/
def recompiledOperands (args : Bytes) : Format → Operands
  | .noArgs => {}
  | .oneImm => { imm1 := decodeEL args }
  | .oneRegOneEWImm =>
    { registers := [regIndex (operand args 0)], imm1 := decodeEL (operandWindow args 1 8) }
  | .twoImms => { imm1 := (extractTwoImm args).1, imm2 := (extractTwoImm args).2 }
  | .oneOffset => { offset1 := extractOneOffset args }
  | .oneRegOneImm =>
    { registers := [(extractOneRegOneImm args).1], imm1 := (extractOneRegOneImm args).2 }
  | .oneRegTwoImm =>
    { registers := [(extractOneReg2Imm args).1]
      imm1 := (extractOneReg2Imm args).2.1
      imm2 := (extractOneReg2Imm args).2.2 }
  | .oneRegOneImmOneOffset =>
    { registers := [(extractOneRegOneImmOneOffset args).1]
      imm1 := (extractOneRegOneImmOneOffset args).2.1
      offset1 := (extractOneRegOneImmOneOffset args).2.2 }
  | .twoRegs => { registers := [(extractTwoRegisters args).1, (extractTwoRegisters args).2] }
  | .twoRegsOneImm =>
    { registers := [(extractTwoRegsOneImm args).1, (extractTwoRegsOneImm args).2.1]
      imm1 := (extractTwoRegsOneImm args).2.2 }
  | .twoRegsOneOffset =>
    { registers := [(extractTwoRegsOneOffset args).1, (extractTwoRegsOneOffset args).2.1]
      offset1 := (extractTwoRegsOneOffset args).2.2 }
  | .twoRegsTwoImms =>
    { registers := [(extractTwoRegsAndTwoImmediates args).1,
        (extractTwoRegsAndTwoImmediates args).2.1]
      imm1 := (extractTwoRegsAndTwoImmediates args).2.2.1
      imm2 := (extractTwoRegsAndTwoImmediates args).2.2.2 }
  | .threeRegs =>
    { registers := [(extractThreeRegs args).2.2, (extractThreeRegs args).1,
        (extractThreeRegs args).2.1] }

/-- The recorded operands are the same; what is not recorded is register 0. -/
def Decoded.Matches (d : Decoded) (o : Operands) : Prop :=
  takeD 3 (d.destRegs ++ d.sourceRegs) 0 = takeD 3 o.registers 0 ∧
    d.imm1 = o.imm1 ∧ d.imm2 = o.imm2 ∧ d.offset1 = o.offset1

/-- A decoder records what the recompiler reads. -/
def Records (r : Option Decoded) (args : Bytes) (f : Format) : Prop :=
  ∃ d, r = some d ∧ d.Matches (recompiledOperands args f)

/-- Interpreter and recompiler read the same operands. -/
def OperandsAgree (opcode : UInt8) (args : Bytes) : Prop :=
  ∃ d, decode opcode args = some d ∧ d.Matches (recompiledOperands args (Format.ofOpcode opcode))

section

variable (args : Bytes)

/-- Where the two readings agree. -/
def OperandsPlain : Format → Prop
  | .noArgs | .oneImm | .twoRegs => True
  | .oneRegOneEWImm => PlainRegister (operand args 0)
  | .twoImms => PlainImms args 1 (min 4 (operand args 0 % 8))
  | .oneOffset => ShortOffset args
  | .oneRegOneImm =>
    args.length ≤ 1 ∨ (1 + min 4 (operand args 0 / 16 % 8) ≤ args.length ∧
        PlainAt args 1 (min 4 (args.length - 1)) ∧
        ofLE ((args.drop 1).take 4) < 2 ^ (8 * min 4 (operand args 0 / 16 % 8)))
  | .oneRegTwoImm => PlainImms args 1 (min 4 (operand args 0 / 16 % 8))
  | .oneRegOneImmOneOffset =>
    PlainImm args 1 (min 4 (operand args 0 / 16 % 8)) ∧
      signedLE ((args.drop (1 + min 4 (operand args 0 / 16 % 8))).take 4) =
        signedLE ((args.drop (1 + min 4 (operand args 0 / 16 % 8))).take 3)
  | .twoRegsOneImm => PlainAt args 1 (min 4 (args.length - 1))
  | .twoRegsOneOffset => ShortOffset (args.drop 1)
  | .twoRegsTwoImms =>
    if args.length < 2 then operand args 0 = 0
    else PlainImms args 2 (min 4 (operand args 1 % 8))
  | .threeRegs =>
    if args.length < 2 then operand args 0 = 0 else PlainRegister (operand args 1)

end

section

variable {α β : Type} {o : Operands}

variable {r : Option α} {a : α}

/-- Decoders that read one value. -/
theorem exists_matches_bind {f : α → Decoded} (hf : ∀ x, (f x).Matches o ↔ x = a) :
    (∃ d, (r.bind fun x => some (f x)) = some d ∧ d.Matches o) ↔ r = some a := by
  constructor
  · rintro ⟨d, hd, hmatch⟩
    obtain ⟨x, hx, hfx⟩ := bind_eq_some_iff.mp hd
    cases hfx
    rw [hx, (hf x).mp hmatch]
  · rintro rfl
    exact ⟨f a, rfl, (hf a).mpr rfl⟩

/-- Decoders that read two values. -/
theorem exists_matches_bind₂ {t : Option β} {f : α → β → Decoded} {b : β}
    (hf : ∀ x y, (f x y).Matches o ↔ x = a ∧ y = b) :
    (∃ d, (r.bind fun x => t.bind fun y => some (f x y)) = some d ∧ d.Matches o) ↔
      r = some a ∧ t = some b := by
  constructor
  · rintro ⟨d, hd, hmatch⟩
    obtain ⟨x, hx, hd⟩ := bind_eq_some_iff.mp hd
    obtain ⟨y, hy, hfxy⟩ := bind_eq_some_iff.mp hd
    cases hfxy
    obtain ⟨rfl, rfl⟩ := (hf x y).mp hmatch
    exact ⟨hx, hy⟩
  · rintro ⟨rfl, rfl⟩
    exact ⟨f a b, rfl, (hf a b).mpr ⟨rfl, rfl⟩⟩

variable (args : Bytes)

/-- The formats with two immediates. -/
theorem agree_imms {start lx : ℕ} (hlx : lx ≤ 4) {f : UInt64 → UInt64 → Decoded}
    (hf : ∀ x y, (f x y).Matches o ↔ x = immediate args start lx ∧
      y = immediate args (start + lx) (restLength args (start + lx))) :
    (∃ d, ((sliceImm args start lx).bind fun x =>
        (sliceImm args (start + lx) (min 4 (args.length - lx - start))).bind fun y =>
          some (f x y)) = some d ∧ d.Matches o) ↔
      PlainImms args start lx := by
  have hrest : args.length - lx - start = args.length - (start + lx) := by omega
  rw [hrest, exists_matches_bind₂ hf]
  exact and_congr (sliceImm_eq_immediate_iff args start hlx) (sliceImm_rest_iff args _)

theorem regIndex_eq_iff (m n : ℕ) : regIndex m = regIndex n ↔ min 12 m = min 12 n := by
  have hval (k : ℕ) : (regIndex k).val = min 12 k := mod_eq_of_lt (by omega)
  rw [← Fin.val_inj, hval, hval]

/-- Two nibbles that both give register 0. -/
theorem nibbles_eq_zero_iff (n : ℕ) : regIndex (n % 16) = 0 ∧ regIndex (n / 16) = 0 ↔ n = 0 := by
  have hzero : (0 : Fin 13) = regIndex 0 := rfl
  rw [hzero, regIndex_eq_iff, regIndex_eq_iff]
  omega

theorem plainRegister_iff (n : ℕ) : regIndex (n % 16) = regIndex n ↔ PlainRegister n := by
  rw [regIndex_eq_iff, PlainRegister]
  omega

theorem restLength_le (start : ℕ) : restLength args start ≤ 4 := by
  unfold restLength
  dsimp only
  split_ifs <;> omega

theorem agree_twoRegsTwoImms : Records (decodeTwoRegsTwoImms args) args .twoRegsTwoImms ↔
      OperandsPlain args .twoRegsTwoImms := by
  unfold decodeTwoRegsTwoImms OperandsPlain
  split_ifs with hshort
  · -- nothing is recorded, and both immediates are zero
    have himm1 : immediate args 2 (min 4 (operand args 1 % 8)) = 0 :=
      immediate_of_length_le args (by omega) (by omega)
    have himm2 : immediate args (2 + min 4 (operand args 1 % 8))
        (restLength args (2 + min 4 (operand args 1 % 8))) = 0 :=
      immediate_of_length_le args (restLength_le args _) (by omega)
    rw [← nibbles_eq_zero_iff]
    simp [Records, Decoded.Matches, recompiledOperands, extractTwoRegsAndTwoImmediates, himm1,
      himm2, eq_comm]
  · refine agree_imms args (by omega) fun x y => ?_
    simp [Decoded.Matches, recompiledOperands, extractTwoRegsAndTwoImmediates]

theorem agree_oneOffset : (decodeOneOffset args).Matches (recompiledOperands args .oneOffset) ↔
      OperandsPlain args .oneOffset := by
  have hoffset := signedOffset_eq_iff args 0 args.length
  rw [drop_zero, take_length] at hoffset
  unfold OperandsPlain ShortOffset
  rw [← hoffset]
  simp [Decoded.Matches, recompiledOperands, decodeOneOffset, extractOneOffset, signedOffset]

theorem agree_oneRegOneEWImm :
    (decodeOneRegOneEWImm args).Matches (recompiledOperands args .oneRegOneEWImm) ↔
      OperandsPlain args .oneRegOneEWImm := by
  have himm : decodeEL ((args.drop 1).take (min 8 (args.length - 1))) =
      decodeEL (operandWindow args 1 8) := by
    have hlen : ((args.drop 1).take 8).length ≤ 8 := length_take_le 8 _
    apply UInt64.toNat_inj.mp
    rw [toNat_operandWindow args 1 le_rfl, ← length_drop, ← take_eq_take_min,
      toNat_decodeEL, take_of_length_le hlen]
  unfold decodeOneRegOneEWImm OperandsPlain
  dsimp only
  split_ifs with hzero
  · rw [length_eq_zero_iff.mp hzero]
    exact ⟨fun _ => .inl (by decide), fun _ => ⟨rfl, rfl, rfl, rfl⟩⟩
  · rw [← plainRegister_iff, himm]
    simp [Decoded.Matches, recompiledOperands]

theorem agree_twoRegs : (decodeTwoRegs args).Matches (recompiledOperands args .twoRegs) := by
  unfold decodeTwoRegs
  split_ifs with hzero
  · rw [length_eq_zero_iff.mp hzero]
    exact ⟨rfl, rfl, rfl, rfl⟩
  · have hne : args ≠ [] := fun h => hzero (by rw [h]; rfl)
    simp [Decoded.Matches, recompiledOperands, extractTwoRegisters, hne]

theorem agree_threeRegs :
    (decodeThreeRegs args).Matches (recompiledOperands args .threeRegs) ↔
      OperandsPlain args .threeRegs := by
  unfold decodeThreeRegs OperandsPlain
  dsimp only
  split_ifs with hshort
  · have hone : regIndex (operand args 1) = 0 := by
      have hnone : args[1]? = none := getElem?_eq_none (by omega)
      unfold operand
      rw [getD_eq_getElem?_getD, hnone]
      rfl
    rw [← nibbles_eq_zero_iff]
    simp [Decoded.Matches, recompiledOperands, extractThreeRegs, hone, eq_comm]
  · rw [← plainRegister_iff]
    simp [Decoded.Matches, recompiledOperands, extractThreeRegs]

section

variable {args} (hne : args ≠ [])
include hne

theorem agree_twoImms :
    Records (decodeTwoImms args) args .twoImms ↔ OperandsPlain args .twoImms := by
  unfold decodeTwoImms
  rw [if_neg (by simpa using hne)]
  refine agree_imms args (by omega) fun x y => ?_
  simp [Decoded.Matches, recompiledOperands, extractTwoImm, hne]

theorem agree_oneRegTwoImm :
    Records (decodeOneRegTwoImm args) args .oneRegTwoImm ↔ OperandsPlain args .oneRegTwoImm := by
  unfold decodeOneRegTwoImm
  rw [if_neg (by simpa using hne)]
  refine agree_imms args (by omega) fun x y => ?_
  simp [Decoded.Matches, recompiledOperands, extractOneReg2Imm, hne]

theorem agree_oneRegOneImm (opcode : UInt8) :
    Records (decodeOneRegOneImm opcode args) args .oneRegOneImm ↔
      OperandsPlain args .oneRegOneImm := by
  unfold decodeOneRegOneImm OperandsPlain
  rw [if_neg (by simpa using hne), ← sliceImm_declared_iff args (by omega) 1]
  -- the register is recorded as read or as written
  by_cases hreads : opcode = 50 ∨ 59 ≤ opcode
  all_goals
    simp only [hreads, if_true, if_false]
    refine exists_matches_bind fun x => ?_
    simp [Decoded.Matches, recompiledOperands, extractOneRegOneImm, hne]

theorem agree_oneRegOneImmOneOffset (opcode : UInt8) :
    Records (decodeOneRegOneImmOneOffset opcode args) args .oneRegOneImmOneOffset ↔
      OperandsPlain args .oneRegOneImmOneOffset := by
  unfold decodeOneRegOneImmOneOffset OperandsPlain
  dsimp only
  generalize hlx : min 4 (operand args 0 / 16 % 8) = lx
  have hrest : args.length - lx - 1 = args.length - (1 + lx) := by omega
  have hthree : ((args.drop (1 + lx)).take 3).length ≤ 8 :=
    le_trans (length_take_le 3 _) (by norm_num)
  have hoffset := some_inj.trans (signedOffset_eq_iff args (1 + lx) 3)
  rw [if_pos hthree] at hoffset
  rw [if_neg (by simpa using hne), hrest, sliceOffset_rest,
    ← sliceImm_eq_immediate_iff args 1 (by omega), ← hoffset]
  by_cases hwrites : opcode = 80
  all_goals
    simp only [hwrites, if_true, if_false]
    refine exists_matches_bind₂ fun x y => ?_
    simp [Decoded.Matches, recompiledOperands, extractOneRegOneImmOneOffset, hne, hlx]

theorem agree_twoRegsOneImm (opcode : UInt8) :
    Records (decodeTwoRegsOneImm opcode args) args .twoRegsOneImm ↔
      OperandsPlain args .twoRegsOneImm := by
  unfold decodeTwoRegsOneImm OperandsPlain
  rw [if_neg (by simpa using hne), ← sliceImm_rest_iff args 1, immediate_restLength]
  by_cases hstore : opcode ≤ 123
  all_goals
    simp only [hstore, if_true, if_false]
    refine exists_matches_bind fun x => ?_
    simp [Decoded.Matches, recompiledOperands, extractTwoRegsOneImm, hne]

theorem agree_twoRegsOneOffset : Records (decodeTwoRegsOneOffset args) args .twoRegsOneOffset ↔
      OperandsPlain args .twoRegsOneOffset := by
  have hall : (args.drop 1).take (args.length - 1) = args.drop 1 := by
    rw [← length_drop, take_length]
  have hslice := sliceOffset_rest args 1 (args.length - 1)
  have hoffset := signedOffset_eq_iff args 1 (args.length - 1)
  rw [hall] at hslice hoffset
  rw [min_self] at hslice
  unfold decodeTwoRegsOneOffset OperandsPlain ShortOffset
  rw [if_neg (by simpa using hne), hslice, ← hoffset]
  refine Iff.trans (exists_matches_bind (a := (extractTwoRegsOneOffset args).2.2) fun x => ?_) ?_
  · simp [Decoded.Matches, recompiledOperands, extractTwoRegsOneOffset, hne]
  · simp [extractTwoRegsOneOffset, hne]

end

/-- Without operands everything is zero. -/
theorem operandsPlain_nil (f : Format) : OperandsPlain [] f := by
  have himms : PlainImms [] 1 0 := by
    refine ⟨.inl (zero_le _), ?_⟩
    rw [PlainAt, drop_nil, take_nil]
    positivity
  cases f with
  | noArgs | oneImm | twoRegs => trivial
  | oneRegOneEWImm => exact .inl (by decide)
  | twoImms | oneRegTwoImm => exact himms
  | oneRegOneImm => exact .inl (zero_le _)
  | oneRegOneImmOneOffset => exact ⟨.inl (zero_le _), rfl⟩
  | twoRegsOneImm => exact himms.2
  | oneOffset | twoRegsOneOffset | twoRegsTwoImms | threeRegs => rfl

end

/-- **Interpreter and recompiler read the same operands** exactly where the operands are
plain. -/
theorem operandsAgree_iff (opcode : UInt8) (args : Bytes) :
    OperandsAgree opcode args ↔ OperandsPlain args (Format.ofOpcode opcode) := by
  have hsome {d : Decoded} {o : Operands} :
      (∃ d', some d = some d' ∧ d'.Matches o) ↔ d.Matches o := by simp
  unfold OperandsAgree decode
  rcases eq_or_ne args [] with rfl | hne
  · refine iff_of_true ?_ (operandsPlain_nil _)
    cases Format.ofOpcode opcode <;> exact ⟨_, rfl, rfl, rfl, rfl, rfl⟩
  cases Format.ofOpcode opcode with
  | noArgs => exact ⟨fun _ => trivial, fun _ => ⟨{}, rfl, rfl, rfl, rfl, rfl⟩⟩
  | oneImm => exact ⟨fun _ => trivial, fun _ => ⟨decodeOneImm args, rfl, rfl, rfl, rfl, rfl⟩⟩
  | oneRegOneEWImm => exact hsome.trans (agree_oneRegOneEWImm args)
  | twoImms => exact agree_twoImms hne
  | oneOffset => exact hsome.trans (agree_oneOffset args)
  | oneRegOneImm => exact agree_oneRegOneImm hne opcode
  | oneRegTwoImm => exact agree_oneRegTwoImm hne
  | oneRegOneImmOneOffset => exact agree_oneRegOneImmOneOffset hne opcode
  | twoRegs => exact ⟨fun _ => trivial, fun _ => ⟨_, rfl, agree_twoRegs args⟩⟩
  | twoRegsOneImm => exact agree_twoRegsOneImm hne opcode
  | twoRegsOneOffset => exact agree_twoRegsOneOffset hne
  | twoRegsTwoImms => exact agree_twoRegsTwoImms args
  | threeRegs => exact hsome.trans (agree_threeRegs args)

/-- `JUMP` with five operand bytes: the interpreter jumps by `2 ^ 32`, and the recompiler, which
reads four of them, not at all. -/
theorem jump_disagrees : (decode 40 [0, 0, 0, 0, 1]).map (·.offset1) = some 4294967296 ∧
      (recompiledOperands [0, 0, 0, 0, 1] (Format.ofOpcode 40)).offset1 = 0 ∧
      ¬OperandsAgree 40 [0, 0, 0, 0, 1] := by
  have hrecorded : (decode 40 [0, 0, 0, 0, 1]).map (·.offset1) = some 4294967296 := by decide
  have hread : (recompiledOperands [0, 0, 0, 0, 1] (Format.ofOpcode 40)).offset1 = 0 := by decide
  refine ⟨hrecorded, hread, ?_⟩
  rintro ⟨d, hd, -, -, -, hoffset⟩
  rw [hd, map_some, some_inj, hoffset, hread] at hrecorded
  exact absurd hrecorded (by decide)

end JamDuna.Pvm
