/-
# Signed readings of machine words

An unsigned word read as a signed one of the same width: the same bits, with the upper
half of the range below zero. Sums and differences are the same in both readings, so
what is left to say is the sign.
-/

import Mathlib.Tactic

namespace JamDuna.Basis

open Int64

theorem toInt_toInt64 (u : UInt64) :
    u.toInt64.toInt = if u.toNat < 2 ^ 63 then (u.toNat : ℤ) else u.toNat - 2 ^ 64 := by
  have h : u.toInt64.toInt = if 2 * u.toNat < 2 ^ 64 then (u.toNat : ℤ) else u.toNat - (2 ^ 64 : ℕ) :=
    BitVec.toInt_eq_toNat_cond u.toBitVec
  rw [h]
  split_ifs <;> omega

theorem toInt64_lt_zero_iff (u : UInt64) : u.toInt64 < 0 ↔ 2 ^ 63 ≤ u.toNat := by
  have := u.toNat_lt
  rw [lt_iff_toInt_lt, toInt_toInt64, toInt_zero]
  split_ifs <;> omega

theorem zero_lt_toInt64_iff (u : UInt64) : 0 < u.toInt64 ↔ 0 < u.toNat ∧ u.toNat < 2 ^ 63 := by
  have := u.toNat_lt
  rw [lt_iff_toInt_lt, toInt_toInt64, toInt_zero]
  split_ifs <;> omega

theorem toInt64_eq_zero_iff (u : UInt64) : u.toInt64 = 0 ↔ u.toNat = 0 := by
  have := u.toNat_lt
  rw [← toInt_inj, toInt_toInt64, toInt_zero]
  split_ifs <;> omega

variable {a : Int64} {u : UInt32}

/-- A signed word that is not negative, read as an unsigned one. -/
theorem toNat_toUInt64_of_nonneg (h : 0 ≤ a.toInt) : (a.toUInt64.toNat : ℤ) = a.toInt := by
  have hself : a.toUInt64.toInt64 = a := toInt64_toUInt64 a
  have hcond := toInt_toInt64 a.toUInt64
  have := a.toUInt64.toNat_lt
  rw [hself] at hcond
  split_ifs at hcond <;> omega

/-- A difference from a number that is not negative can only be too large. -/
theorem toInt_sub_of_nonneg (h : 0 ≤ a.toInt) (b : Int64) : (a - b).toInt =
      if a.toInt - b.toInt < 2 ^ 63 then a.toInt - b.toInt else a.toInt - b.toInt - 2 ^ 64 := by
  have ha := a.toInt_lt
  have hb := b.toInt_lt
  have hb' := b.le_toInt
  rw [toInt_sub, Int.bmod_def]
  split_ifs <;> omega

theorem toInt_toInt32 (u : UInt32) :
    u.toInt32.toInt = if u.toNat < 2 ^ 31 then (u.toNat : ℤ) else u.toNat - 2 ^ 32 := by
  have h : u.toInt32.toInt = if 2 * u.toNat < 2 ^ 32 then (u.toNat : ℤ) else u.toNat - (2 ^ 32 : ℕ) :=
    BitVec.toInt_eq_toNat_cond u.toBitVec
  rw [h]
  split_ifs <;> omega

theorem toInt32_lt_zero_iff (u : UInt32) : u.toInt32 < 0 ↔ 2 ^ 31 ≤ u.toNat := by
  have := u.toNat_lt
  rw [Int32.lt_iff_toInt_lt, toInt_toInt32, Int32.toInt_zero]
  split_ifs <;> omega

theorem toNat_neg_of_pos {u : UInt64} (h : 0 < u.toNat) : (-u).toNat = 2 ^ 64 - u.toNat := by
  have hsize : UInt64.size = 2 ^ 64 := rfl
  rw [UInt64.toNat_neg, hsize]
  omega

theorem toNat_neg32_of_pos (h : 0 < u.toNat) : (-u).toNat = 2 ^ 32 - u.toNat := by
  have hsize : UInt32.size = 2 ^ 32 := rfl
  rw [UInt32.toNat_neg, hsize]
  omega

/-- Sign extension of a word below `2 ^ 31` changes nothing. -/
theorem toNat_signExtend_of_lt (h : u.toNat < 2 ^ 31) :
    u.toInt32.toInt64.toUInt64.toNat = u.toNat := by
  have hval : u.toInt32.toInt64.toInt = u.toNat := by
    rw [Int32.toInt_toInt64, toInt_toInt32, if_pos h]
  have hself : u.toInt32.toInt64.toUInt64.toInt64 = u.toInt32.toInt64 := toInt64_toUInt64 _
  have hcond := toInt_toInt64 u.toInt32.toInt64.toUInt64
  have := u.toInt32.toInt64.toUInt64.toNat_lt
  rw [hself, hval] at hcond
  split_ifs at hcond <;> omega

theorem eq_of_toInt_toInt64 {a b : UInt64} (h : a.toInt64.toInt = b.toInt64.toInt) : a = b := by
  have hab := congrArg toUInt64 (toInt_inj.mp h)
  rwa [UInt64.toUInt64_toInt64, UInt64.toUInt64_toInt64] at hab

/-- The signed reading of a number below `m`. -/
theorem bmod_of_lt {x m : ℕ} (h : x < m) : Int.bmod x m = if 2 * x < m then (x : ℤ) else x - m := by
  have hmod : (x : ℤ) % m = x := Int.emod_eq_of_lt (by omega) (by omega)
  rw [Int.bmod_def, hmod]
  split_ifs <;> omega

end JamDuna.Basis
