/-
# Little-endian numbers

`toLE n x` are the `n` low bytes of `x`, least significant first, and `ofLE` is the
number that bytes spell. Written and read again, a number is itself modulo `256 ^ n`.
-/

import Mathlib.Tactic

namespace JamDuna.Basis

open List Nat

/-- The `n` low bytes of a number, least significant first. -/
def toLE : ℕ → ℕ → List UInt8
  | 0, _ => []
  | n + 1, x => UInt8.ofNat x :: toLE n (x / 256)

/-- The number that bytes spell, least significant first. -/
def ofLE : List UInt8 → ℕ
  | [] => 0
  | b :: l => b.toNat + 256 * ofLE l

@[simp] theorem length_toLE (n x : ℕ) : (toLE n x).length = n := by
  induction n generalizing x with
  | zero => rfl
  | succ n ih => simp [toLE, ih]

theorem ofLE_toLE (n x : ℕ) : ofLE (toLE n x) = x % 256 ^ n := by
  induction n generalizing x with
  | zero => simp [toLE, ofLE, mod_one]
  | succ n ih =>
    rw [toLE, ofLE, ih, pow_succ', mod_mul]
    rfl

theorem ofLE_toLE_of_lt {n x : ℕ} (h : x < 256 ^ n) : ofLE (toLE n x) = x := by
  rw [ofLE_toLE, mod_eq_of_lt h]

theorem ofLE_lt (l : List UInt8) : ofLE l < 256 ^ l.length := by
  induction l with
  | nil => exact one_pos
  | cons b l ih =>
    have hb : b.toNat < 256 := b.toNat_lt
    rw [ofLE, length_cons, pow_succ]
    omega

/-- Byte strings of one length spell different numbers. -/
theorem ofLE_inj {a b : List UInt8} (hlen : a.length = b.length) (h : ofLE a = ofLE b) : a = b := by
  induction a generalizing b with
  | nil => exact (length_eq_zero_iff.mp hlen.symm).symm
  | cons x a ih =>
    cases b with
    | nil => cases hlen
    | cons y b =>
      rw [ofLE, ofLE] at h
      have hx : x.toNat < 256 := x.toNat_lt
      have hy : y.toNat < 256 := y.toNat_lt
      have hxy : x = y := UInt8.toNat_inj.mp (by omega)
      rw [hxy, ih (succ.inj hlen) (by omega)]

/-- The low bytes of a number. -/
theorem ofLE_take (n : ℕ) (l : List UInt8) : ofLE (l.take n) = ofLE l % 256 ^ n := by
  induction l generalizing n with
  | nil => simp [ofLE]
  | cons b l ih =>
    cases n with
    | zero => simp [ofLE, mod_one]
    | succ n =>
      have hb : b.toNat < 256 := b.toNat_lt
      rw [take_succ_cons, ofLE, ih, ofLE, pow_succ', mod_mul, add_mul_mod_self_left,
        mod_eq_of_lt hb, add_mul_div_left _ _ (by norm_num), div_eq_of_lt hb,
        zero_add]

/-- Zeros behind a number do not change it. -/
theorem ofLE_takeD (n : ℕ) (l : List UInt8) : ofLE (takeD n l 0) = ofLE (l.take n) := by
  induction n generalizing l with
  | zero => simp [ofLE]
  | succ n ih =>
    cases l with
    | nil =>
      have htail := ih []
      rw [take_nil] at htail
      rw [takeD_succ, ofLE, tail_nil, htail]
      rfl
    | cons b l => rw [takeD_succ, take_succ_cons, ofLE, ofLE, tail_cons, ih]; rfl

end JamDuna.Basis
