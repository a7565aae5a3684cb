/-
# Positions in data

A decoder goes through its data with a 32-bit position, which wraps where the source does
not check it. Here are the sums of positions that do not wrap, the computations that return
an error (`Rejected`), and the strict prefixes of data that is put together from two parts.
-/

import JamDuna.Basis.EarlyExit

namespace JamDuna.Basis

open List UInt32 Nat

theorem ofNat_zero : ofNat 0 = 0 := rfl

theorem toNat_ofNat_of_lt {n : ℕ} (h : n < 2 ^ 32) : (ofNat n).toNat = n :=
  toNat_ofNat_of_lt' h

theorem ofNat_add_toNat (n m : ℕ) (h : n + m < 2 ^ 32) : (ofNat n + ofNat m).toNat = n + m := by
  rw [← ofNat_add, toNat_ofNat_of_lt h]

theorem toNat_add_one_le (n : UInt32) : (n + 1).toNat ≤ n.toNat + 1 := by
  rw [UInt32.toNat_add]
  exact mod_le _ _

variable {ε α β : Type}

/-- The computation returns an error. -/
def Rejected (r : Except (Stop ε) α) : Prop := ∃ e, r = .error (.err e)

theorem rejected_err (e : ε) : Rejected (.error (.err e) : Except (Stop ε) α) := ⟨e, rfl⟩

theorem Rejected.bind {x : Except (Stop ε) α} (h : Rejected x) (f : α → Except (Stop ε) β) :
    Rejected (x >>= f) := by
  obtain ⟨e, rfl⟩ := h
  exact ⟨e, rfl⟩

theorem Rejected.mapError {ε' : Type} {x : Except (Stop ε) α} (h : Rejected x) (f : ε → ε') :
    Rejected (mapError f x) := by
  obtain ⟨e, rfl⟩ := h
  exact ⟨f e, rfl⟩

theorem not_rejected_ok {a : α} : ¬ Rejected (.ok a : Except (Stop ε) α) := by
  rintro ⟨e, he⟩
  cases he

/-- The first list is a part of the second that is cut off. -/
def StrictPrefix (p a : List UInt8) : Prop := p <+: a ∧ p ≠ a

variable {a b p : List UInt8}

theorem StrictPrefix.length_lt (h : StrictPrefix p a) : p.length < a.length :=
  lt_of_le_of_ne h.1.length_le fun heq => h.2 (IsPrefix.eq_of_length h.1 heq)

/-- A strict prefix of two lists is one of the first, or ends in one of the second. -/
theorem StrictPrefix.append_cases (h : StrictPrefix p (a ++ b)) :
    StrictPrefix p a ∨ ∃ p', p = a ++ p' ∧ StrictPrefix p' b := by
  obtain ⟨hp, hne⟩ := h
  rcases prefix_or_prefix_of_prefix hp (prefix_append a b) with h | ⟨p', rfl⟩
  · by_cases heq : p = a
    · subst heq
      exact .inr ⟨[], by simp, nil_prefix, fun h => hne (by rw [← h, append_nil])⟩
    · exact .inl ⟨h, heq⟩
  · exact .inr ⟨p', rfl, (prefix_append_right_inj a).mp hp, fun h => hne (by rw [h])⟩

end JamDuna.Basis
