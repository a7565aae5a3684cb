/-
# Plain immediates and offsets

Where the values that the pre-decoder takes from slices of the operand bytes are those of the
`Extract*` functions. An immediate is the same exactly if its bytes are there and its top bit is
clear (`sliceImm_eq_immediate_iff`, `sliceImm_rest_iff`); where its length is read from the first
byte instead of counted, no byte may be lost either (`sliceImm_declared_iff`). An offset of `k`
bytes is the same exactly if the signed numbers of the first `k` and the first four bytes are
(`signedOffset_eq_iff`).
-/

import JamDuna.Pvm.Predecode

namespace JamDuna.Pvm

open JamDuna.Basis List Nat

variable (args : Bytes)

/-- The number in a window has its top bit clear. -/
def PlainAt (start len : ℕ) : Prop := 2 * ofLE ((args.drop start).take len) < 2 ^ (8 * len)

/-- An immediate of a declared length: there is nothing behind the header, or all its bytes are
there and the top bit is clear. -/
def PlainImm (start len : ℕ) : Prop :=
  args.length ≤ start ∨ (start + len ≤ args.length ∧ PlainAt args start len)

/-- Two immediates, the first of a declared length and the second of what is left. -/
def PlainImms (start lx : ℕ) : Prop :=
  PlainImm args start lx ∧ PlainAt args (start + lx) (min 4 (args.length - (start + lx)))

/-- The signed number that bytes spell. -/
def signedLE (b : Bytes) : ℤ := Int.bmod (ofLE b) (2 ^ (8 * b.length))

/-- An offset is given by its first four bytes: the others only repeat the sign, or there are
more than eight and the first four are zero. -/
def ShortOffset (b : Bytes) : Prop := signedLE (b.take 4) = if b.length ≤ 8 then signedLE b else 0

/-- The register index is the same modulo 16. -/
def PlainRegister (n : ℕ) : Prop := n < 16 ∨ 12 ≤ n % 16

variable {len : ℕ}

/-- **Without its sign an immediate of at most four bytes is the same exactly if its top bit is
clear.** -/
theorem eq_immediate_iff (start : ℕ) (hlen : len ≤ 4) {v : UInt64} (hv : v.toNat < 2 ^ 32) :
    v = immediate args start len ↔
      v.toNat = ofLE ((args.drop start).take len) ∧ PlainAt args start len := by
  have hval := toInt_immediate args start (show len ≤ 8 by omega)
  have hlt := ofLE_window_lt args start len
  have hvint : v.toInt64.toInt = v.toNat := by
    rw [toInt_toInt64, if_pos (by omega)]
  rw [bmod_of_lt hlt] at hval
  unfold PlainAt
  constructor
  · intro h
    rw [← h, hvint] at hval
    split_ifs at hval with hplain
    · exact ⟨by omega, hplain⟩
    · omega
  · rintro ⟨hnat, hplain⟩
    rw [if_pos hplain] at hval
    exact eq_of_toInt_toInt64 (by rw [hval, hvint, hnat])

theorem immediate_of_length_le {start : ℕ} (hlen : len ≤ 4) (h : args.length ≤ start) :
    immediate args start len = 0 := by
  have hdrop : args.drop start = [] := drop_eq_nil_iff.mpr h
  refine ((eq_immediate_iff args start hlen (by decide)).mpr ?_).symm
  rw [PlainAt, hdrop, take_nil]
  exact ⟨rfl, by positivity⟩

theorem toNat_decodeEL_window (start : ℕ) (hlen : len ≤ 4) :
    (decodeEL ((args.drop start).take len)).toNat = ofLE ((args.drop start).take len) := by
  rw [toNat_decodeEL, take_of_length_le]
  exact le_trans (length_take_le len _) (by omega)

theorem toNat_decodeEL_window_lt (start : ℕ) (hlen : len ≤ 4) :
    (decodeEL ((args.drop start).take len)).toNat < 2 ^ 32 := by
  have hlt := ofLE_window_lt args start len
  have hle : 2 ^ (8 * len) ≤ 2 ^ 32 := Nat.pow_le_pow_right (by norm_num) (by omega)
  rw [toNat_decodeEL_window args start hlen]
  omega

/-- An immediate of a declared length. -/
theorem sliceImm_eq_immediate_iff (start : ℕ) (hlen : len ≤ 4) :
    sliceImm args start len = some (immediate args start len) ↔ PlainImm args start len := by
  unfold PlainImm
  rcases lt_or_ge start args.length with hin | hout
  · rcases lt_or_ge args.length (start + len) with hshort | hfull
    · rw [sliceImm_eq_none args hin hshort]
      constructor
      · exact fun h => nomatch h
      · omega
    · rw [sliceImm_eq_some_of_le args hfull, Option.some_inj,
        eq_immediate_iff args start hlen (toNat_decodeEL_window_lt args start hlen)]
      constructor
      · exact fun h => .inr ⟨hfull, h.2⟩
      · rintro (h | h)
        · omega
        · exact ⟨toNat_decodeEL_window args start hlen, h.2⟩
  · rw [sliceImm_of_length_le args len hout, immediate_of_length_le args hlen hout]
    exact ⟨fun _ => .inl hout, fun _ => rfl⟩

/-- The zero byte that stands for nothing does not change the immediate. -/
theorem immediate_restLength (start : ℕ) :
    immediate args start (restLength args start) =
      immediate args start (min 4 (args.length - start)) := by
  unfold restLength
  dsimp only
  split_ifs with h
  · have hle : args.length ≤ start := by omega
    rw [h, immediate_of_length_le args (by norm_num) hle,
      immediate_of_length_le args (by norm_num) hle]
  · rfl

/-- The immediate of what is left. -/
theorem sliceImm_rest_iff (start : ℕ) :
    sliceImm args start (min 4 (args.length - start)) =
        some (immediate args start (restLength args start)) ↔
      PlainAt args start (min 4 (args.length - start)) := by
  rw [immediate_restLength, sliceImm_eq_immediate_iff args start (by omega), PlainImm]
  constructor
  · rintro (hout | h)
    · have hzero : min 4 (args.length - start) = 0 := by omega
      rw [hzero, PlainAt, take_zero]
      decide
    · exact h.2
  · intro h
    rcases lt_or_ge start args.length with hin | hout
    · exact .inr ⟨by omega, h⟩
    · exact .inl hout

/-- The length read from the first byte against what is there. -/
theorem sliceImm_declared_iff {lx : ℕ} (hlx : lx ≤ 4) (start : ℕ) :
    sliceImm args start lx = some (immediate args start (restLength args start)) ↔
      args.length ≤ start ∨ (start + lx ≤ args.length ∧
        PlainAt args start (min 4 (args.length - start)) ∧
        ofLE ((args.drop start).take 4) < 2 ^ (8 * lx)) := by
  rw [immediate_restLength]
  rcases lt_or_ge start args.length with hin | hout
  · rcases lt_or_ge args.length (start + lx) with hshort | hfull
    · rw [sliceImm_eq_none args hin hshort]
      constructor
      · exact fun h => nomatch h
      · omega
    · have htake : (args.drop start).take (min 4 (args.length - start)) =
          (args.drop start).take 4 := by
        rw [← length_drop, ← take_eq_take_min]
      -- the low bytes are the whole number exactly if the number is small
      have hlow : ofLE ((args.drop start).take lx) =
          ofLE ((args.drop start).take 4) % 2 ^ (8 * lx) := by
        have hmin : (args.drop start).take lx = ((args.drop start).take 4).take lx := by
          rw [take_take, min_eq_left hlx]
        rw [hmin, ofLE_take, pow_mul]
        norm_num
      rw [sliceImm_eq_some_of_le args hfull, Option.some_inj,
        eq_immediate_iff args start (by omega) (toNat_decodeEL_window_lt args start hlx),
        toNat_decodeEL_window args start hlx, hlow, htake, mod_eq_iff_lt (by positivity)]
      constructor
      · exact fun h => .inr ⟨hfull, h.2, h.1⟩
      · rintro (h | h)
        · omega
        · exact ⟨h.2.2, h.2.1⟩
  · rw [sliceImm_of_length_le args lx hout, immediate_of_length_le args (by omega) hout]
    exact ⟨fun _ => .inl hout, fun _ => rfl⟩

/-- `decodeSignedOffset`. -/
def signedOffset (data : Bytes) : Int64 := zEncode (decodeEL data) data.length

theorem toInt_signedOffset (data : Bytes) :
    (signedOffset data).toInt = if data.length ≤ 8 then signedLE data else 0 := by
  unfold signedOffset
  split_ifs with h
  · rcases Nat.eq_zero_or_pos data.length with hzero | hpos
    · rw [length_eq_zero_iff.mp hzero]
      rfl
    · rw [toInt_zEncode hpos h, toNat_decodeEL, take_of_length_le h, signedLE]
  · unfold zEncode
    rw [if_pos (by omega)]
    rfl

/-- The offset of what is left, at most `k` bytes of it. -/
theorem sliceOffset_rest (start k : ℕ) :
    sliceOffset args start (min k (args.length - start)) =
      some (signedOffset ((args.drop start).take k)) := by
  have hlen : ((args.drop start).take k).length = min k (args.length - start) := by
    rw [length_take, length_drop]
  have htake : (args.drop start).take (min k (args.length - start)) = (args.drop start).take k := by
    rw [← length_drop, ← take_eq_take_min]
  unfold sliceOffset sliceOf signedOffset
  rw [hlen, htake]
  split_ifs with hcond hin
  · rfl
  · omega
  · have hzero : min k (args.length - start) = 0 := by omega
    rw [hzero]
    rfl

/-- The offset that the recompiler reads. -/
theorem offset_restLength (start : ℕ) :
    (offset args start (restLength args start)).toInt = signedLE ((args.drop start).take 4) := by
  unfold restLength
  dsimp only
  split_ifs with h
  · have hdrop : args.drop start = [] := drop_eq_nil_iff.mpr (by omega)
    rw [toInt_offset args start (by norm_num), hdrop, take_nil, take_nil]
    rfl
  · rw [toInt_offset args start (by omega), signedLE, length_take, length_drop,
      ← length_drop, ← take_eq_take_min]

/-- At most `k` bytes of what is left against at most four. -/
theorem signedOffset_eq_iff (start k : ℕ) :
    signedOffset ((args.drop start).take k) = offset args start (restLength args start) ↔
      signedLE ((args.drop start).take 4) =
        if ((args.drop start).take k).length ≤ 8 then signedLE ((args.drop start).take k)
        else 0 := by
  rw [← Int64.toInt_inj, toInt_signedOffset, offset_restLength]
  exact eq_comm

end JamDuna.Pvm
