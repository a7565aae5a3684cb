/-
# Division of machine words

What quotient and remainder of two words have to satisfy, in the unsigned and in the signed
reading: the dividend is got back modulo `2 ^ w`, the remainder is smaller than the divisor, and
a signed remainder is zero or has the sign of the dividend. `udiv` with `umod`, and the
truncating `sdiv` with `srem`, satisfy it for every divisor that is not zero; the most negative
dividend over `-1` is no exception, since the quotient wraps to the dividend.
-/

import Mathlib.Tactic

namespace JamDuna.Basis

open BitVec

variable {w : ℕ}

/-- Quotient and remainder of unsigned words. -/
structure UnsignedDivision (a b q r : BitVec w) : Prop where
  eq : q * b + r = a
  lt : r.toNat < b.toNat

/-- Quotient and remainder of signed words. -/
structure SignedDivision (a b q r : BitVec w) : Prop where
  eq : q * b + r = a
  lt : r.toInt.natAbs < b.toInt.natAbs
  sign : r = 0 ∨ (r.toInt < 0 ↔ a.toInt < 0)

variable {a b : BitVec w}

theorem unsignedDivision (hb : b ≠ 0) : UnsignedDivision a b (a / b) (a % b) := by
  have hpos : 0 < b.toNat := Nat.pos_of_ne_zero fun h => hb (eq_of_toNat_eq h)
  refine ⟨?_, ?_⟩
  · apply eq_of_toNat_eq
    rw [toNat_add, toNat_mul, toNat_udiv, toNat_umod,
      Nat.mod_add_mod, Nat.div_add_mod', Nat.mod_eq_of_lt a.isLt]
  · rw [toNat_umod]
    exact Nat.mod_lt _ hpos

theorem toInt_ne_zero (hb : b ≠ 0) : b.toInt ≠ 0 := by
  intro h
  exact hb (eq_of_toInt_eq (by rw [h, ofNat_eq_ofNat, toInt_zero]))

/-- The truncating remainder of an integer is zero or has its sign. -/
theorem tmod_sign (a b : ℤ) : a.tmod b = 0 ∨ (a.tmod b < 0 ↔ a < 0) := by
  rcases lt_or_ge a 0 with ha | ha
  · have hneg := Int.tmod_nonneg b (show 0 ≤ -a by omega)
    rw [Int.neg_tmod] at hneg
    rcases eq_or_ne (a.tmod b) 0 with h | h
    · exact .inl h
    · exact .inr ⟨fun _ => ha, fun _ => by omega⟩
  · have hnonneg := Int.tmod_nonneg b ha
    exact .inr ⟨fun h => by omega, fun h => by omega⟩

theorem signedDivision (hb : b ≠ 0) : SignedDivision a b (a.sdiv b) (a.srem b) := by
  have hb' := toInt_ne_zero hb
  refine ⟨?_, ?_, ?_⟩
  · apply eq_of_toInt_eq
    rw [toInt_add, toInt_mul, toInt_sdiv, toInt_srem,
      Int.bmod_mul_bmod, Int.bmod_add_bmod, Int.tdiv_mul_add_tmod, toInt_bmod_cancel]
  · rw [toInt_srem, Int.natAbs_tmod]
    exact Nat.mod_lt _ (Int.natAbs_pos.mpr hb')
  · rw [toInt_srem]
    rcases tmod_sign a.toInt b.toInt with h | h
    · refine .inl (eq_of_toInt_eq ?_)
      rw [toInt_srem, h, ofNat_eq_ofNat, toInt_zero]
    · exact .inr h

end JamDuna.Basis
