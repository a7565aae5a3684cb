/-
# Big-endian numbers

`ofBE` is the number that bytes spell, most significant byte first. Byte strings of
one length compare like their numbers (`compareBytes_eq`), and the bits of the number
are the bits of the bytes. `succBE` is the next string of the same length, and there is
none after the last one.
-/

import Mathlib.Tactic

namespace JamDuna.Basis

open List Nat

/-- The number that bytes spell, most significant byte first. -/
def ofBE : List UInt8 → ℕ
  | [] => 0
  | b :: l => 2 ^ (8 * l.length) * b.toNat + ofBE l

theorem ofBE_lt (l : List UInt8) : ofBE l < 2 ^ (8 * l.length) := by
  induction l with
  | nil => simp [ofBE]
  | cons b l ih =>
    have hb : b.toNat < 2 ^ 8 := b.toNat_lt
    calc ofBE (b :: l) < 2 ^ (8 * l.length) * b.toNat + 2 ^ (8 * l.length) :=
          Nat.add_lt_add_left ih _
      _ = 2 ^ (8 * l.length) * (b.toNat + 1) := (mul_succ _ _).symm
      _ ≤ 2 ^ (8 * l.length) * 2 ^ 8 := mul_le_mul_left _ hb
      _ = 2 ^ (8 * (b :: l).length) := by rw [← pow_add, length_cons]; ring_nf

variable {l l' : List UInt8}

/-- A larger first byte outweighs the rest. -/
theorem ofBE_cons_lt {a b : UInt8} (hlen : l.length = l'.length)
    (h : a < b) : ofBE (a :: l) < ofBE (b :: l') := by
  have hab : a.toNat + 1 ≤ b.toNat := UInt8.lt_iff_toNat_lt.mp h
  calc ofBE (a :: l) < 2 ^ (8 * l.length) * a.toNat + 2 ^ (8 * l.length) :=
        Nat.add_lt_add_left (ofBE_lt l) _
    _ = 2 ^ (8 * l'.length) * (a.toNat + 1) := by rw [hlen, mul_succ]
    _ ≤ 2 ^ (8 * l'.length) * b.toNat := mul_le_mul_left _ hab
    _ ≤ ofBE (b :: l') := le_add_right _ _

theorem ofBE_replicate_zero (n : ℕ) : ofBE (replicate n 0) = 0 := by
  induction n with
  | zero => rfl
  | succ n ih => simp [replicate_succ, ofBE, ih]

/-- A byte at the end is the least significant one. -/
theorem ofBE_concat (l : List UInt8) (b : UInt8) : ofBE (l ++ [b]) = 256 * ofBE l + b.toNat := by
  induction l with
  | nil => simp [ofBE]
  | cons a l ih =>
    rw [cons_append, ofBE, ofBE, ih, length_append, length_singleton, mul_succ, pow_add]
    ring

/-- The order of byte strings: by the first byte that differs, then by the length. -/
def compareBytes : List UInt8 → List UInt8 → Ordering
  | [], [] => .eq
  | [], _ :: _ => .lt
  | _ :: _, [] => .gt
  | a :: l, b :: l' => if a < b then .lt else if b < a then .gt else compareBytes l l'

/-- **Byte strings of one length compare like their numbers.** -/
theorem compareBytes_eq (hlen : l.length = l'.length) :
    compareBytes l l' = compare (ofBE l) (ofBE l') := by
  induction l generalizing l' with
  | nil =>
    obtain rfl : l' = [] := length_eq_zero_iff.mp hlen.symm
    rfl
  | cons a l ih =>
    obtain ⟨b, l', rfl⟩ := exists_cons_of_length_eq_add_one hlen.symm
    have htail : l.length = l'.length := succ.inj hlen
    rw [compareBytes]
    split_ifs with hlt hgt
    · exact (compare_lt_iff_lt.mpr (ofBE_cons_lt htail hlt)).symm
    · exact (compare_gt_iff_gt.mpr (ofBE_cons_lt htail.symm hgt)).symm
    · obtain rfl : a = b := UInt8.le_antisymm (UInt8.not_lt.mp hgt) (UInt8.not_lt.mp hlt)
      rw [ih htail, ofBE, ofBE, htail]
      simp only [compare, compareOfLessAndEq, add_lt_add_iff_left, add_left_cancel_iff]

/-- Byte strings of one length are determined by their numbers. -/
theorem ofBE_inj (hlen : l.length = l'.length) (h : ofBE l = ofBE l') : l = l' := by
  induction l generalizing l' with
  | nil => exact (length_eq_zero_iff.mp hlen.symm).symm
  | cons a l ih =>
    obtain ⟨b, l', rfl⟩ := exists_cons_of_length_eq_add_one hlen.symm
    have htail : l.length = l'.length := succ.inj hlen
    rcases lt_trichotomy a.toNat b.toNat with hlt | heq | hgt
    · exact absurd h (ofBE_cons_lt htail (UInt8.lt_iff_toNat_lt.mpr hlt)).ne
    · obtain rfl := UInt8.toNat_inj.mp heq
      rw [ofBE, ofBE, htail] at h
      rw [ih htail (add_left_cancel h)]
    · exact absurd h (ofBE_cons_lt htail.symm (UInt8.lt_iff_toNat_lt.mpr hgt)).ne'

/-- The bits of the number are the bits of the bytes. -/
theorem testBit_ofBE {j i : ℕ} (hj : j < l.length) (hi : i < 8) :
    (ofBE l).testBit (8 * (l.length - 1 - j) + i) = (l.getD j 0).toNat.testBit i := by
  induction l generalizing j with
  | nil => exact absurd hj (not_lt_zero _)
  | cons b l ih =>
    rw [ofBE, testBit_two_pow_mul_add _ (ofBE_lt l)]
    cases j with
    | zero =>
      rw [if_neg (by simp)]
      simp
    | succ j =>
      have hj' : j < l.length := lt_of_succ_lt_succ hj
      have hpos : 8 * ((b :: l).length - 1 - (j + 1)) + i = 8 * (l.length - 1 - j) + i := by
        rw [length_cons]
        omega
      rw [hpos, if_pos (by omega), ih hj', getD_cons_succ]

/-- The next byte string of the same length: the last byte that is not 255 is
incremented, and the bytes after it become 0. -/
def succBE : List UInt8 → Option (List UInt8)
  | [] => none
  | b :: l =>
    match succBE l with
    | some l' => some (b :: l')
    | none => if b ≠ 0xff then some ((b + 1) :: replicate l.length 0) else none

/-- **The next byte string has the next number**, and only the last one has none. -/
theorem succBE_spec (l : List UInt8) :
    (∃ l', succBE l = some l' ∧ l'.length = l.length ∧ ofBE l' = ofBE l + 1) ∨
      (succBE l = none ∧ ofBE l + 1 = 2 ^ (8 * l.length)) := by
  induction l with
  | nil => exact .inr ⟨rfl, by simp [ofBE]⟩
  | cons b l ih =>
    rcases ih with ⟨l', hl', hlen, hval⟩ | ⟨hl, hval⟩
    · refine .inl ⟨b :: l', by rw [succBE, hl'], by simp [hlen], ?_⟩
      rw [ofBE, ofBE, hlen, hval, add_assoc]
    · by_cases hb : b = 0xff
      · refine .inr ⟨by rw [succBE, hl]; simp [hb], ?_⟩
        rw [ofBE, add_assoc, hval, hb, length_cons, mul_succ, pow_add]
        show _ * 255 + _ = _ * 256
        omega
      · refine .inl ⟨(b + 1) :: replicate l.length 0, by rw [succBE, hl]; simp [hb], by simp, ?_⟩
        have hlt : b.toNat + 1 < 2 ^ 8 := by
          have hne : b.toNat ≠ 255 := fun h => hb (UInt8.toNat_inj.mp h)
          have := b.toNat_lt
          omega
        have hinc : (b + 1).toNat = b.toNat + 1 := by
          rw [UInt8.toNat_add]
          exact mod_eq_of_lt hlt
        rw [ofBE, ofBE, length_replicate, ofBE_replicate_zero, hinc, add_assoc, hval,
          mul_succ, add_zero]

end JamDuna.Basis
