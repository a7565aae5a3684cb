/-
# Division in the interpreter

Quotient and remainder that DIV and REM of `HandleThreeRegs` write, for divisors that are not
zero, against the law of `Basis/WordDivision`: on the 64-bit values, and for the 32-bit forms on
the low halves, with results extended by their sign (`DivisionLaws`).

All eight instructions satisfy it but `REM_S_64`. `smod` takes absolute values first, and the
most negative number is its own negation: the remainder is taken with the sign of that dividend
and then negated (`toInt_smod`). So the law holds exactly where the dividend is not `-2 ^ 63`
or the divisor divides it (`divisionLaws_iff`).
-/

import JamDuna.Basis.WordDivision
import JamDuna.Pvm.Handlers

namespace JamDuna.Pvm

open JamDuna.Basis ThreeRegs
open Int64 (minValue toInt_inj toInt_zero toInt_mod)

/-- What the instruction leaves in its destination register. -/
def Guest.written (g : Guest) (args : Bytes) (opcode : UInt8) : UInt64 :=
  (handleThreeRegs opcode args g).reg (extractThreeRegs args).2.2

/-- A word that is its own low half, extended with its sign. -/
def Extended (v : UInt64) : Prop := v = extend32 v.toUInt32.toInt32

/-- The law for the eight instructions on register values `a` and `b`. -/
structure DivisionLaws (g : Guest) (args : Bytes) (a b : UInt64) : Prop where
  unsigned64 : b ≠ 0 → UnsignedDivision a.toBitVec b.toBitVec
    (g.written args 203).toBitVec (g.written args 205).toBitVec
  signed64 : b ≠ 0 → SignedDivision a.toBitVec b.toBitVec
    (g.written args 204).toBitVec (g.written args 206).toBitVec
  unsigned32 : b.toUInt32 ≠ 0 → Extended (g.written args 193) ∧ Extended (g.written args 195) ∧
    UnsignedDivision a.toUInt32.toBitVec b.toUInt32.toBitVec
      (g.written args 193).toUInt32.toBitVec (g.written args 195).toUInt32.toBitVec
  signed32 : b.toUInt32 ≠ 0 → Extended (g.written args 194) ∧ Extended (g.written args 196) ∧
    SignedDivision a.toUInt32.toBitVec b.toUInt32.toBitVec
      (g.written args 194).toUInt32.toBitVec (g.written args 196).toUInt32.toBitVec

section

variable {g : Guest} {args : Bytes} {opcode : UInt8} {op : ThreeRegs} {v : UInt64}

theorem written_of_result (hop : ofOpcode opcode = some op)
    (h : op.result (g.reg (extractThreeRegs args).1) (g.reg (extractThreeRegs args).2.1) = some v) :
    g.written args opcode = v := by
  unfold Guest.written handleThreeRegs
  rw [hop]
  dsimp only
  rw [h]
  exact Function.update_self ..

theorem toInt_extend32 (x : Int32) : (extend32 x).toInt64.toInt = x.toInt := by
  rw [extend32, Int64.toInt64_toUInt64, Int32.toInt_toInt64]

theorem extend32_toUInt32 (x : Int32) : (extend32 x).toUInt32.toInt32 = x := by
  have hval := toInt_extend32 x
  have hx := x.toInt_lt
  have hx' := x.le_toInt
  rw [toInt_toInt64] at hval
  apply Int32.toInt_inj.mp
  rw [toInt_toInt32, UInt64.toNat_toUInt32]
  split_ifs at hval ⊢ <;> omega

theorem extended_extend32 (x : Int32) : Extended (extend32 x) := by
  rw [Extended, extend32_toUInt32]

/-- `x_encode` of a low half extends it with its sign. -/
theorem xEncode_four (x : UInt32) : xEncode x.toUInt64 4 = extend32 x.toInt32 := by
  have hlt : x.toUInt64.toNat < 2 ^ (8 * 4) := by
    rw [UInt32.toNat_toUInt64]
    exact x.toNat_lt
  apply eq_of_toInt_toInt64
  rw [toInt_xEncode (by norm_num) (by norm_num) hlt, toInt_extend32, UInt32.toNat_toUInt64,
    toInt_toInt32, bmod_of_lt x.toNat_lt]
  split_ifs <;> omega

/-- The low half of an extended word. -/
theorem toBitVec_extend32 (x : Int32) : (extend32 x).toUInt32.toBitVec = x.toBitVec :=
  congrArg Int32.toBitVec (extend32_toUInt32 x)

/-- The low half of a word is zero. -/
theorem and_low_eq_zero_iff (b : UInt64) : b &&& 0xFFFFFFFF = 0 ↔ b.toUInt32 = 0 := by
  have hand : (b &&& 0xFFFFFFFF).toNat = b.toNat % 2 ^ 32 := by
    rw [UInt64.toNat_and]
    exact Nat.and_two_pow_sub_one_eq_mod b.toNat 32
  rw [← UInt64.toNat_inj, ← UInt32.toNat_inj, hand, UInt64.toNat_toUInt32]
  rfl

end

/-- Negation of a signed word: the most negative one is its own negation. -/
theorem toInt_neg_cases (n : Int64) :
    (-n).toInt = -n.toInt ∨ (n = minValue ∧ (-n).toInt = n.toInt) := by
  have hlt := n.toInt_lt
  have hle := n.le_toInt
  have hneg := Int64.toInt_neg n
  rw [Int.bmod_def] at hneg
  by_cases hmin : n.toInt = -2 ^ 63
  · refine .inr ⟨toInt_inj.mp hmin, ?_⟩
    split_ifs at hneg <;> omega
  · left
    split_ifs at hneg <;> omega

/-- The remainder by an absolute value. -/
theorem tmod_toInt_neg (x : ℤ) (b : Int64) : x.tmod (-b).toInt = x.tmod b.toInt := by
  rcases toInt_neg_cases b with h | ⟨-, h⟩
  · rw [h, Int.tmod_neg]
  · rw [h]

theorem toInt_ne_minValue {n : Int64} (h : 0 ≤ n.toInt) : n ≠ minValue := by
  rintro rfl
  exact absurd h (by decide)

/-- **What `smod` computes**: the truncating remainder, but its negation for the most negative
dividend. -/
theorem toInt_smod (a : Int64) {b : Int64} (hb : b ≠ 0) :
    (smod a b).toInt =
      if a = minValue then -a.toInt.tmod b.toInt else a.toInt.tmod b.toInt := by
  have hb' : b.toInt ≠ 0 := fun h => hb (toInt_inj.mp (h.trans toInt_zero.symm))
  have habs (x : Int64) : (x % if b < 0 then -b else b).toInt = x.toInt.tmod b.toInt := by
    split_ifs
    · rw [toInt_mod, tmod_toInt_neg]
    · rw [toInt_mod]
  unfold smod
  rw [if_neg hb]
  by_cases ha : a < 0
  · have ha' : a.toInt < 0 := by rwa [Int64.lt_iff_toInt_lt, toInt_zero] at ha
    rw [if_pos ha, if_pos ha]
    have hmod := habs (-a)
    rcases toInt_neg_cases a with hneg | ⟨rfl, hneg⟩
    · -- the absolute value is there, and the remainder is not negative
      have hne : a ≠ minValue := by
        rintro rfl
        exact absurd hneg (by decide)
      have hnonneg : 0 ≤ (-a).toInt.tmod b.toInt := Int.tmod_nonneg _ (by omega)
      rw [if_neg hne]
      rcases toInt_neg_cases (-a % if b < 0 then -b else b) with h | ⟨h, -⟩
      · rw [h, hmod, hneg, Int.neg_tmod, neg_neg]
      · exact absurd h (toInt_ne_minValue (by rw [hmod]; exact hnonneg))
    · rw [if_pos rfl]
      rcases toInt_neg_cases (-minValue % if b < 0 then -b else b) with h | ⟨h, -⟩
      · rw [h, hmod, hneg]
      · -- the remainder would be as large as the dividend, and so larger than any divisor
        have hsmall : ((-minValue).toInt.tmod b.toInt).natAbs < b.toInt.natAbs := by
          rw [Int.natAbs_tmod]
          exact Nat.mod_lt _ (Int.natAbs_pos.mpr hb')
        have hlt := b.toInt_lt
        have hle := b.le_toInt
        rw [← hmod, h] at hsmall
        have hmin : minValue.toInt = -2 ^ 63 := rfl
        rw [hmin] at hsmall
        omega
  · rw [if_neg ha, if_neg ha, habs]
    have ha' : 0 ≤ a.toInt := by
      rw [Int64.lt_iff_toInt_lt, toInt_zero] at ha
      omega
    rw [if_neg (toInt_ne_minValue ha')]

section

variable {a b : UInt64}

theorem result_divS64 (hb : b ≠ 0) : divS64.result a b = some (a.toInt64 / b.toInt64).toUInt64 := by
  dsimp only [result]
  rw [if_neg hb]
  split_ifs with h
  · have ha : a = minValue.toUInt64 := by rw [← h.1, UInt64.toUInt64_toInt64]
    rw [h.1, h.2, ha]
    rfl
  · rfl

theorem result_remS64 (h : a.toInt64 ≠ minValue ∨ b.toInt64 ≠ -1) :
    remS64.result a b = some (smod a.toInt64 b.toInt64).toUInt64 := by
  dsimp only [result]
  rw [if_neg (by tauto)]

theorem divS32_eq {a b : Int32} (hb : b ≠ 0) : divS32 a b = extend32 (a / b) := by
  unfold divS32
  rw [if_neg hb]
  split_ifs with h
  · rw [h.1, h.2]
    rfl
  · rfl

theorem remS32_eq {a b : Int32} (hb : b ≠ 0) : remS32 a b = extend32 (a % b) := by
  unfold remS32
  rw [if_neg hb]
  split_ifs with h
  · rw [h.1, h.2]
    rfl
  · rfl

theorem result_divU32 (hb : b.toUInt32 ≠ 0) :
    divU32.result a b = some (extend32 (a.toUInt32 / b.toUInt32).toInt32) := by
  dsimp only [result]
  rw [if_neg (mt (and_low_eq_zero_iff b).mp hb), xEncode_four]

theorem result_remU32 (hb : b.toUInt32 ≠ 0) :
    remU32.result a b = some (extend32 (a.toUInt32 % b.toUInt32).toInt32) := by
  dsimp only [result]
  rw [if_neg (mt (and_low_eq_zero_iff b).mp hb), xEncode_four]

theorem result_divU64 (hb : b ≠ 0) : divU64.result a b = some (a / b) := by
  dsimp only [result]
  rw [if_neg hb]

theorem result_remU64 (hb : b ≠ 0) : remU64.result a b = some (a % b) := by
  dsimp only [result]
  rw [if_neg hb]

theorem toInt64_ne_zero (hb : b ≠ 0) : b.toInt64 ≠ 0 := by
  intro h
  exact hb (UInt64.toNat_inj.mp ((toInt64_eq_zero_iff b).mp h))

/-- `REM_S_64` gives the truncating remainder unless the dividend is the most negative number
and not a multiple of the divisor. -/
theorem result_remS64_of_dvd (hb : b ≠ 0)
    (h : a.toInt64 = minValue → b.toInt64.toInt ∣ 2 ^ 63) :
    remS64.result a b = some (a.toInt64 % b.toInt64).toUInt64 := by
  by_cases hpair : a.toInt64 = minValue ∧ b.toInt64 = -1
  · dsimp only [result]
    rw [if_pos hpair, hpair.1, hpair.2]
    rfl
  · rw [result_remS64 (by tauto)]
    congr 2
    apply toInt_inj.mp
    rw [toInt_smod _ (toInt64_ne_zero hb), toInt_mod]
    split_ifs with hmin
    · have hzero : a.toInt64.toInt.tmod b.toInt64.toInt = 0 := by
        rw [hmin]
        exact Int.tmod_eq_zero_of_dvd ((dvd_neg).mpr (h hmin))
      rw [hzero, neg_zero]
    · rfl

/-- Otherwise it has the wrong sign. -/
theorem result_remS64_of_not_dvd (hb : b ≠ 0) (ha : a.toInt64 = minValue)
    (h : ¬b.toInt64.toInt ∣ 2 ^ 63) :
    ∃ v, remS64.result a b = some v ∧ 0 < v.toInt64.toInt := by
  have hne : b.toInt64 ≠ -1 := by
    intro h1
    rw [h1] at h
    exact h (by decide)
  refine ⟨_, result_remS64 (.inr hne), ?_⟩
  rw [Int64.toInt64_toUInt64, toInt_smod _ (toInt64_ne_zero hb), if_pos ha, ha]
  rcases tmod_sign minValue.toInt b.toInt64.toInt with hmod | hmod
  · exact absurd (dvd_neg.mp (Int.dvd_of_tmod_eq_zero hmod)) h
  · have := hmod.mpr (by decide)
    omega

theorem toInt64_eq_minValue_iff (a : UInt64) :
    a.toInt64 = minValue ↔ a = 0x8000000000000000 := by
  refine ⟨fun h => ?_, fun h => by rw [h]; rfl⟩
  have hself := congrArg Int64.toUInt64 h
  rw [UInt64.toUInt64_toInt64] at hself
  exact hself

variable {g : Guest} {args : Bytes}

section Laws64

variable (ha : g.reg (extractThreeRegs args).1 = a) (hb : g.reg (extractThreeRegs args).2.1 = b)
include ha hb

theorem unsigned64_law (hne : b ≠ 0) :
    UnsignedDivision a.toBitVec b.toBitVec (g.written args 203).toBitVec
      (g.written args 205).toBitVec := by
  have hq : g.written args 203 = a / b :=
    written_of_result rfl (by rw [ha, hb]; exact result_divU64 hne)
  have hr : g.written args 205 = a % b :=
    written_of_result rfl (by rw [ha, hb]; exact result_remU64 hne)
  rw [hq, hr, UInt64.toBitVec_div, UInt64.toBitVec_mod]
  exact unsignedDivision fun h => hne (UInt64.toBitVec_inj.mp h)

theorem unsigned32_law (hne : b.toUInt32 ≠ 0) :
    Extended (g.written args 193) ∧ Extended (g.written args 195) ∧
      UnsignedDivision a.toUInt32.toBitVec b.toUInt32.toBitVec
        (g.written args 193).toUInt32.toBitVec (g.written args 195).toUInt32.toBitVec := by
  have hq : g.written args 193 = extend32 (a.toUInt32 / b.toUInt32).toInt32 :=
    written_of_result rfl (by rw [ha, hb]; exact result_divU32 hne)
  have hr : g.written args 195 = extend32 (a.toUInt32 % b.toUInt32).toInt32 :=
    written_of_result rfl (by rw [ha, hb]; exact result_remU32 hne)
  rw [hq, hr, toBitVec_extend32, toBitVec_extend32]
  refine ⟨extended_extend32 _, extended_extend32 _, ?_⟩
  exact unsignedDivision fun h => hne (UInt32.toBitVec_inj.mp h)

theorem signed32_law (hne : b.toUInt32 ≠ 0) :
    Extended (g.written args 194) ∧ Extended (g.written args 196) ∧
      SignedDivision a.toUInt32.toBitVec b.toUInt32.toBitVec
        (g.written args 194).toUInt32.toBitVec (g.written args 196).toUInt32.toBitVec := by
  have hne' : b.toUInt32.toInt32 ≠ 0 := fun h => hne (congrArg Int32.toUInt32 h)
  have hq : g.written args 194 = extend32 (a.toUInt32.toInt32 / b.toUInt32.toInt32) := by
    have hop : ofOpcode 194 = some .divS32 := rfl
    refine written_of_result hop ?_
    rw [ha, hb, ← divS32_eq hne']
    rfl
  have hr : g.written args 196 = extend32 (a.toUInt32.toInt32 % b.toUInt32.toInt32) := by
    have hop : ofOpcode 196 = some .remS32 := rfl
    refine written_of_result hop ?_
    rw [ha, hb, ← remS32_eq hne']
    rfl
  rw [hq, hr, toBitVec_extend32, toBitVec_extend32]
  refine ⟨extended_extend32 _, extended_extend32 _, ?_⟩
  exact signedDivision fun h => hne (UInt32.toBitVec_inj.mp h)

theorem signed64_law (hne : b ≠ 0) (h : a.toInt64 = minValue → b.toInt64.toInt ∣ 2 ^ 63) :
    SignedDivision a.toBitVec b.toBitVec (g.written args 204).toBitVec
      (g.written args 206).toBitVec := by
  have hq : g.written args 204 = (a.toInt64 / b.toInt64).toUInt64 :=
    written_of_result rfl (by rw [ha, hb]; exact result_divS64 hne)
  have hr : g.written args 206 = (a.toInt64 % b.toInt64).toUInt64 :=
    written_of_result rfl (by rw [ha, hb]; exact result_remS64_of_dvd hne h)
  rw [hq, hr]
  exact signedDivision fun h => hne (UInt64.toBitVec_inj.mp h)

end Laws64

/-- **The division law.** It holds on register values `a` and `b` exactly where `a` is not the
most negative number or `b` divides it. -/
theorem divisionLaws_iff (g : Guest) (args : Bytes) :
    DivisionLaws g args (g.reg (extractThreeRegs args).1) (g.reg (extractThreeRegs args).2.1) ↔
      (g.reg (extractThreeRegs args).1 = 0x8000000000000000 →
        g.reg (extractThreeRegs args).2.1 ≠ 0 →
        (g.reg (extractThreeRegs args).2.1).toInt64.toInt ∣ 2 ^ 63) := by
  generalize ha : g.reg (extractThreeRegs args).1 = a
  generalize hb : g.reg (extractThreeRegs args).2.1 = b
  constructor
  · intro laws hmin hne
    by_contra hdvd
    have hmin' := (toInt64_eq_minValue_iff a).mpr hmin
    obtain ⟨v, hv, hpos⟩ := result_remS64_of_not_dvd hne hmin' hdvd
    have hr : g.written args 206 = v := written_of_result rfl (by rw [ha, hb]; exact hv)
    have hsign := (laws.signed64 hne).sign
    rw [hr] at hsign
    -- the remainder is positive, the dividend is not
    rcases hsign with hzero | hsign
    · rw [UInt64.toBitVec_inj.mp (hzero : v.toBitVec = UInt64.toBitVec 0)] at hpos
      exact absurd hpos (by decide)
    · have hneg : v.toInt64.toInt < 0 := hsign.mpr (by rw [hmin]; decide)
      omega
  · intro h
    exact
      { unsigned64 := unsigned64_law ha hb
        signed64 := fun hne =>
          signed64_law ha hb hne fun hmin => h ((toInt64_eq_minValue_iff a).mp hmin) hne
        unsigned32 := unsigned32_law ha hb
        signed32 := signed32_law ha hb }

/-- A machine whose registers 0 and 1 hold a dividend and a divisor. -/
def dividing (a b : UInt64) : Guest where
  reg i := if i = 0 then a else if i = 1 then b else 0
  ram := ⟨fun _ => none, fun _ => none⟩
  heapPointer := 0
  pc := 0
  terminated := false
  resultCode := .ok
  machineState := .halt

/-- `-2 ^ 63` modulo 3 comes out as 2: dividend and divisor are in registers 0 and 1, the result
goes to register 2. -/
theorem remS64_wrongSign : (dividing 0x8000000000000000 3).written [16, 2] 206 = 2 ∧
      ¬DivisionLaws (dividing 0x8000000000000000 3) [16, 2] 0x8000000000000000 3 := by
  have hval : (dividing 0x8000000000000000 3).written [16, 2] 206 = 2 := by decide
  refine ⟨hval, fun laws => ?_⟩
  have hsign := (laws.signed64 (by decide)).sign
  rw [hval] at hsign
  exact absurd hsign (by decide)

end

end JamDuna.Pvm
