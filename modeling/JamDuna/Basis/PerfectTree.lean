/-
# Perfect hash trees

In a tree whose leaves are all at depth `d` the directions to a leaf are the `d` lowest
bits of its index (`bits`). Two such trees with the same leaf hashes have the same root
and the same copaths, wherever their nodes are in memory (`copath_congr`).
-/

import JamDuna.Basis.HashTree

namespace JamDuna.Basis

open Nat
namespace HashTree

variable {α : Type}

/-- The directions to a leaf of a perfect tree: the lowest `d` bits of its index, the
highest one first. -/
def bits : ℕ → ℕ → List Bool
  | 0, _ => []
  | d + 1, i => bits d (i / 2) ++ [decide (i % 2 = 1)]

@[simp] theorem length_bits (d i : ℕ) : (bits d i).length = d := by
  induction d generalizing i with
  | zero => rfl
  | succ d ih => rw [bits, List.length_append, ih, List.length_singleton]

/-- Directions first to a part of the tree and then inside it. -/
theorem bits_add (e d i : ℕ) : bits (e + d) i = bits e (i / 2 ^ d) ++ bits d i := by
  induction d generalizing i with
  | zero => simp [bits]
  | succ d ih =>
    rw [← Nat.add_assoc, bits, bits, ih, Nat.div_div_eq_div_mul, ← pow_succ', List.append_assoc]

/-- Only the lowest bits count. -/
theorem bits_mod (d i : ℕ) : bits d (i % 2 ^ d) = bits d i := by
  induction d generalizing i with
  | zero => rfl
  | succ d ih =>
    have hdiv : i % 2 ^ (d + 1) / 2 = i / 2 % 2 ^ d := by
      rw [pow_succ', mod_mul_right_div_self]
    have hmod : i % 2 ^ (d + 1) % 2 = i % 2 := by
      rw [pow_succ', mod_mul_right_mod]
    rw [bits, bits, hdiv, hmod, ih]

/-- The first direction is the highest bit. -/
theorem bits_cons (b : Bool) {d j : ℕ} (hj : j < 2 ^ d) :
    bits (d + 1) (b.toNat * 2 ^ d + j) = b :: bits d j := by
  have hdiv : (b.toNat * 2 ^ d + j) / 2 ^ d = b.toNat := by
    rw [Nat.mul_comm, Nat.mul_add_div (Nat.two_pow_pos d), Nat.div_eq_of_lt hj, Nat.add_zero]
  have hmod : (b.toNat * 2 ^ d + j) % 2 ^ d = j := by
    rw [mul_comm, mul_add_mod, mod_eq_of_lt hj]
  rw [add_comm d 1, bits_add, hdiv, ← bits_mod d, hmod]
  cases b <;> rfl

theorem cons_lt (b : Bool) {d j : ℕ} (hj : j < 2 ^ d) : b.toNat * 2 ^ d + j < 2 ^ (d + 1) := by
  rw [pow_succ]
  cases b <;> simp <;> omega

theorem exists_bits_cons {d i : ℕ} (hi : i < 2 ^ (d + 1)) :
    ∃ (b : Bool) (j : ℕ), j < 2 ^ d ∧ i = b.toNat * 2 ^ d + j := by
  rw [pow_succ] at hi
  by_cases h : i < 2 ^ d
  · exact ⟨false, i, h, by simp⟩
  · exact ⟨true, i - 2 ^ d, by omega, by simp; omega⟩

section

variable {combine : α → α → α}

/-- **Perfect trees with the same leaf hashes** have the same root and the same copaths. -/
theorem copath_congr {d : ℕ} {t t' : HashTree α} (ht : t.Hashed combine)
    (ht' : t'.Hashed combine) (h : ∀ i < 2 ^ d, ∃ s s', t.sub (bits d i) = some s ∧
      t'.sub (bits d i) = some s' ∧ s.hash = s'.hash) :
    t.hash = t'.hash ∧ ∀ i < 2 ^ d, t.copath (bits d i) = t'.copath (bits d i) := by
  induction d generalizing t t' with
  | zero =>
    obtain ⟨s, s', hs, hs', hhash⟩ := h 0 one_pos
    cases hs
    cases hs'
    exact ⟨hhash, fun _ _ => rfl⟩
  | succ d ih =>
    have hcons : ∀ (b : Bool) (j : ℕ), j < 2 ^ d → ∃ s s', t.sub (b :: bits d j) = some s ∧
        t'.sub (b :: bits d j) = some s' ∧ s.hash = s'.hash := by
      intro b j hj
      rw [← bits_cons b hj]
      exact h _ (cons_lt b hj)
    cases t with
    | leaf =>
      obtain ⟨s, s', hs, -⟩ := hcons false 0 (Nat.two_pow_pos d)
      cases hs
    | node id hash l r =>
      cases t' with
      | leaf =>
        obtain ⟨s, s', -, hs', -⟩ := hcons false 0 (Nat.two_pow_pos d)
        cases hs'
      | node id' hash' l' r' =>
        have hside : ∀ b, (side b l r).hash = (side b l' r').hash ∧ ∀ j < 2 ^ d,
            (side b l r).copath (bits d j) = (side b l' r').copath (bits d j) := by
          intro b
          refine ih (hashed_side ht b) (hashed_side ht' b) fun j hj => ?_
          obtain ⟨s, s', hs, hs', hhash⟩ := hcons b j hj
          exact ⟨s, s', by rwa [sub_cons_node] at hs, by rwa [sub_cons_node] at hs', hhash⟩
        have hl : l.hash = l'.hash := (hside false).1
        have hr : r.hash = r'.hash := (hside true).1
        have hroot : hash = hash' := by rw [ht.1, ht'.1, hl, hr]
        refine ⟨hroot, fun i hi => ?_⟩
        obtain ⟨b, j, hj, rfl⟩ := exists_bits_cons hi
        rw [bits_cons b hj, copath_cons_node, copath_cons_node, (hside (!b)).1, (hside b).2 j hj]

/-- What holds of all leaf hashes and of all combined ones holds of the hashes of a copath. -/
theorem forall_mem_copath {d : ℕ} {t : HashTree α} (ht : t.Hashed combine) {P : α → Prop}
    (hcombine : ∀ x y, P (combine x y))
    (hleaf : ∀ i < 2 ^ d, ∃ s, t.sub (bits d i) = some s ∧ P s.hash) :
    P t.hash ∧ ∀ i < 2 ^ d, ∀ x ∈ t.copath (bits d i), P x := by
  induction d generalizing t with
  | zero =>
    obtain ⟨s, hs, hP⟩ := hleaf 0 one_pos
    cases hs
    exact ⟨hP, by simp [bits, copath]⟩
  | succ d ih =>
    cases t with
    | leaf =>
      obtain ⟨s, hs, -⟩ := hleaf (false.toNat * 2 ^ d + 0) (by simp)
      rw [bits_cons false (Nat.two_pow_pos d)] at hs
      cases hs
    | node id hash l r =>
      have hside : ∀ b, P (side b l r).hash ∧ ∀ j < 2 ^ d,
          ∀ x ∈ (side b l r).copath (bits d j), P x := by
        intro b
        refine ih (hashed_side ht b) fun j hj => ?_
        obtain ⟨s, hs, hP⟩ := hleaf (b.toNat * 2 ^ d + j) (cons_lt b hj)
        rw [bits_cons b hj, sub_cons_node] at hs
        exact ⟨s, hs, hP⟩
      have hroot : P hash := by
        rw [ht.1]
        exact hcombine _ _
      refine ⟨hroot, fun i hi x hx => ?_⟩
      obtain ⟨b, j, hj, rfl⟩ := exists_bits_cons hi
      rw [bits_cons b hj, copath_cons_node] at hx
      rcases List.mem_cons.mp hx with rfl | hx
      · exact (hside (!b)).1
      · exact (hside b).2 j hj x hx

end

end HashTree
end JamDuna.Basis
