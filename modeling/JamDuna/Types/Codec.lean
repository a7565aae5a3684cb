/-
# The code of a natural number

`E` and `DecodeE` of `types/codec.go`: the variable-length code for natural numbers below
`2 ^ 64`, which `Encode` and `Decode` use for numbers and for the lengths of slices. What
`E` writes `DecodeE` reads in front of any further bytes (`decodeE_E`).

A slice is copied into an array by `copyToArray`, and 32 bytes are read as a hash by
`Hash.ofBytes`.
-/

import JamDuna.Basis.LittleEndian
import JamDuna.Types.Basic

namespace JamDuna.Types

open JamDuna.Basis UInt8

/-- `E`: the code of a natural number below `2 ^ 64`. -/
def E (x : ℕ) : Bytes :=
  if x = 0 then [0]
  else match (List.range 8).find? fun l => decide (2 ^ (7 * l) ≤ x ∧ x < 2 ^ (7 * (l + 1))) with
    | some l => ofNat (256 - 2 ^ (8 - l) + x / 2 ^ (8 * l)) :: toLE l (x % 2 ^ (8 * l))
    | none => 255 :: toLE 8 x

/-- The first bytes of the codes with `l` more bytes. -/
def headerClass (l h : ℕ) : Prop := 256 - 2 ^ (8 - l) ≤ h ∧ h < 256 - 2 ^ (8 - (l + 1))

instance decidableHeaderClass (l h : ℕ) : Decidable (headerClass l h) :=
  inferInstanceAs (Decidable (_ ∧ _))

/-- `DecodeE`: the number and the bytes used. When bytes are missing both are 0. -/
def decodeE : Bytes → ℕ × ℕ
  | [] => (0, 0)
  | first :: rest =>
    if first = 0 then (0, 1)
    else if first = 255 then if rest.length < 8 then (0, 0) else (ofLE (rest.take 8), 9)
    else match (List.range 8).find? fun l => decide (headerClass l first.toNat) with
      | some l =>
        if rest.length < l then (0, 0)
        else ((first.toNat - (256 - 2 ^ (8 - l))) * 2 ^ (8 * l) + ofLE (rest.take l), l + 1)
      | none => (0, 0)

theorem find?_eq_some_of_unique {α : Type} {l : List α} {p : α → Bool} {a : α} (ha : a ∈ l)
    (hp : p a = true) (huniq : ∀ b ∈ l, p b = true → b = a) : l.find? p = some a := by
  cases h : l.find? p with
  | none => exact absurd hp (by simpa using List.find?_eq_none.mp h a ha)
  | some b => rw [huniq b (List.mem_of_find?_eq_some h) (List.find?_some h)]

theorem headerClass_unique {l l' h : ℕ} (hl : l < 8) (hl' : l' < 8) (h₁ : headerClass l h)
    (h₂ : headerClass l' h) : l' = l := by
  unfold headerClass at h₁ h₂
  interval_cases l <;> interval_cases l' <;> omega

/-- The header of a code is in its class, and is neither 0 nor 255. -/
theorem header_spec {l x : ℕ} (hl : l < 8) (hx : 0 < x) (hlow : 2 ^ (7 * l) ≤ x)
    (hhigh : x < 2 ^ (7 * (l + 1))) :
    headerClass l (256 - 2 ^ (8 - l) + x / 2 ^ (8 * l)) ∧
      0 < 256 - 2 ^ (8 - l) + x / 2 ^ (8 * l) ∧ 256 - 2 ^ (8 - l) + x / 2 ^ (8 * l) < 255 := by
  unfold headerClass
  interval_cases l <;> omega

/-- A code with header `h` and `l` more bytes for `r` is decoded. -/
theorem decodeE_header {l h r : ℕ} (hl : l < 8) (hclass : headerClass l h) (hpos : 0 < h)
    (hlt : h < 255) (hr : r < 2 ^ (8 * l)) (rest : Bytes) :
    decodeE (UInt8.ofNat h :: toLE l r ++ rest) =
      ((h - (256 - 2 ^ (8 - l))) * 2 ^ (8 * l) + r, l + 1) := by
  have hval : (ofNat h).toNat = h := by
    rw [toNat_ofNat']
    omega
  have hne : ∀ n < 256, h ≠ n → ofNat h ≠ ofNat n := by
    intro n hn hh heq
    rw [← UInt8.toNat_inj, hval, UInt8.toNat_ofNat'] at heq
    omega
  have hfind : (List.range 8).find? (fun l => decide (headerClass l (ofNat h).toNat)) = some l := by
    rw [hval]
    refine find?_eq_some_of_unique (List.mem_range.mpr hl) (decide_eq_true hclass) ?_
    intro l' hl' hclass'
    exact headerClass_unique hl (List.mem_range.mp hl') hclass (of_decide_eq_true hclass')
  have htake : (toLE l r ++ rest).take l = toLE l r := List.take_left' (length_toLE _ _)
  have hr' : r < 256 ^ l := by
    rw [pow_mul] at hr
    exact hr
  have h0 : ofNat h ≠ 0 := hne 0 (by omega) (by omega)
  have h255 : ofNat h ≠ 255 := hne 255 (by omega) (by omega)
  rw [List.cons_append, decodeE, if_neg h0, if_neg h255, hfind]
  dsimp only
  rw [if_neg (by simp), hval, htake, ofLE_toLE_of_lt hr']

/-- **The code of a number is decoded in front of any bytes.** -/
theorem decodeE_E {x : ℕ} (hx : x < 2 ^ 64) (rest : Bytes) :
    decodeE (E x ++ rest) = (x, (E x).length) := by
  unfold E
  split_ifs with h0
  · subst h0
    rfl
  · cases hfind : (List.range 8).find? fun l =>
        decide (2 ^ (7 * l) ≤ x ∧ x < 2 ^ (7 * (l + 1))) with
    | none =>
      have htake : (toLE 8 x ++ rest).take 8 = toLE 8 x := List.take_left' (length_toLE 8 x)
      rw [List.cons_append, decodeE, if_neg (by decide), if_pos rfl, if_neg (by simp), htake,
        ofLE_toLE_of_lt (lt_of_lt_of_eq hx (by norm_num)), List.length_cons, length_toLE]
    | some l =>
      have hl : l < 8 := List.mem_range.mp (List.mem_of_find?_eq_some hfind)
      have hfound := List.find?_some hfind
      obtain ⟨hlow, hhigh⟩ := of_decide_eq_true hfound
      obtain ⟨hclass, hpos, hlt⟩ := header_spec hl (Nat.pos_of_ne_zero h0) hlow hhigh
      rw [decodeE_header hl hclass hpos hlt (Nat.mod_lt _ (Nat.two_pow_pos _)),
        Nat.add_sub_cancel_left, Nat.div_add_mod', List.length_cons, length_toLE]

theorem E_ne_nil (x : ℕ) : E x ≠ [] := by
  unfold E
  split_ifs
  · simp
  · split <;> simp

section

variable {α : Type} {n : ℕ}

/-- A slice copied into an array of length `n`: cut, or filled up with the zero
value. -/
@[irreducible] def copyToArray (n : ℕ) (zero : α) (l : List α) : Vector α n :=
  Vector.ofFn fun i => l.getD i zero

theorem toList_copyToArray {zero : α} {l : List α} (h : l.length = n) :
    (copyToArray n zero l).toList = l := by
  subst h
  refine List.ext_getElem (by simp) fun i _ _ => ?_
  simp [copyToArray]

end

/-- The hash that 32 bytes spell, most significant first. -/
def Hash.ofBytes (b : Bytes) : Hash := Fin.ofNat _ (ofLE b.reverse)

theorem Hash.bytes_eq_reverse (h : Hash) : h.bytes = (toLE 32 h.val).reverse := by
  have htoLE : ∀ n x, toLE n x = (List.range n).map fun i => ofNat (x / 256 ^ i) := by
    intro n
    induction n with
    | zero => intro x; rfl
    | succ n ih =>
      intro x
      rw [toLE, ih, List.range_succ_eq_map, List.map_cons, List.map_map]
      simp [Function.comp_def, Nat.div_div_eq_div_mul, pow_succ']
  rw [htoLE, ← List.map_reverse]
  have hrange : (List.range 32).reverse = (List.range 32).map fun i => 31 - i := by decide
  rfl

@[simp] theorem Hash.length_bytes (h : Hash) : h.bytes.length = 32 := by
  simp [Hash.bytes]

theorem Hash.ofBytes_bytes (h : Hash) : Hash.ofBytes h.bytes = h := by
  have hval : ofLE (toLE 32 h.val) = h.val := ofLE_toLE_of_lt (lt_of_lt_of_eq h.isLt (by norm_num))
  apply Fin.ext
  rw [Hash.ofBytes, Hash.bytes_eq_reverse, List.reverse_reverse, hval, Fin.val_ofNat]
  exact Nat.mod_eq_of_lt h.isLt

end JamDuna.Types
