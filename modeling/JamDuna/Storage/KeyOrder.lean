/-
# The order of state keys

State keys are ordered as byte strings, that is like the big-endian numbers they spell
(`Key.num`). The trie branches on the bits of a key from the first on, so its leaves
stand in this order (`entries_ascending`). `CompareKeys` of `common/tool.go` decides the
order, and `incrementKey` of `storage/bmt_storage.go` goes to the next key.
-/

import Mathlib.Data.Nat.Bitwise
import Mathlib.Data.List.Sort
import JamDuna.Basis.BigEndian
import JamDuna.Storage.Represent

namespace JamDuna.Storage

open JamDuna.Basis List

/-- A state key as a number. -/
def Key.num (k : Key) : ℕ := ofBE k.bytes

theorem Key.num_lt (k : Key) : k.num < 2 ^ 248 := by
  have h := ofBE_lt k.bytes
  rwa [k.length_eq] at h

theorem Key.num_inj {k k' : Key} (h : k.num = k'.num) : k = k' := by
  have hbytes := ofBE_inj (k.length_eq.trans k'.length_eq.symm) h
  cases k
  cases k'
  simpa using hbytes

/-- The bits of a key from the first on are those of its number from the highest on. -/
theorem Key.testBit_num (k : Key) {i : ℕ} (hi : i < 248) : k.num.testBit (247 - i) = k.bit i := by
  have hj : i / 8 < k.bytes.length := by rw [k.length_eq]; omega
  have hnum := testBit_ofBE hj (show 7 - i % 8 < 8 by omega)
  have hbit := k.bit_eq_testBit (show i / 8 < 31 by omega) (show 7 - i % 8 < 8 by omega)
  have hpos : 8 * (k.bytes.length - 1 - i / 8) + (7 - i % 8) = 247 - i := by
    rw [k.length_eq]
    omega
  have hidx : 8 * (i / 8) + (7 - (7 - i % 8)) = i := by omega
  rw [hpos] at hnum
  rw [hidx] at hbit
  exact hnum.trans hbit.symm

/-- The last eight bits of a padded key are not set. -/
theorem Key.bit_of_ge (k : Key) {i : ℕ} (hi : 248 ≤ i) : k.bit i = false := by
  have hlen := k.length_eq
  rw [Key.bit, trieBit, Key.norm_eq]
  rcases Nat.lt_or_ge (i / 8) 32 with h | h
  · have hdiv : i / 8 = k.bytes.length := by omega
    rw [hdiv, getElem?_concat_length]
    exact Nat.zero_testBit _
  · rw [getElem?_eq_none (by rw [length_append, hlen]; exact h)]

/-- The key with the first differing bit set is the larger one. -/
theorem Key.num_lt_of_bits (d : ℕ) (k k' : Key) (hsame : ∀ i < d, k.bit i = k'.bit i)
    (hk : k.bit d = false) (hk' : k'.bit d = true) : k.num < k'.num := by
  have hd : d < 248 := by
    by_contra hge
    rw [k'.bit_of_ge (not_lt.mp hge)] at hk'
    cases hk'
  refine Nat.lt_of_testBit (247 - d) ?_ ?_ fun j hj => ?_
  · rw [k.testBit_num hd, hk]
  · rw [k'.testBit_num hd, hk']
  · rcases Nat.lt_or_ge j 248 with hj' | hj'
    · have hidx : 247 - (247 - j) = j := by omega
      rw [← hidx, k.testBit_num (by omega), k'.testBit_num (by omega), hsame _ (by omega)]
    · have hzero : ∀ k : Key, k.num.testBit j = false := fun k =>
        Nat.testBit_lt_two_pow (k.num_lt.trans_le (Nat.pow_le_pow_right (by decide) hj'))
      rw [hzero, hzero]

/-- Pairs in ascending order of their keys. -/
def Ascending (L : List (Key × Bytes)) : Prop := L.Pairwise fun e e' => e.1.num < e'.1.num

/-- **The leaves of a canonical trie stand in ascending order.** -/
theorem entries_ascending {t : StateTrie} (h : t.Canon Key.bit 0) : Ascending t.entries :=
  h.pairwise_entries (k := ⟨replicate 31 0, by simp⟩) Key.num_lt_of_bits BitTrie.agrees_zero

section

variable {L L' : List (Key × Bytes)} {e e' : Key × Bytes}

/-- A key stands once in an ascending list. -/
theorem Ascending.nodup_keys (h : Ascending L) : (L.map Prod.fst).Nodup := by
  refine pairwise_map.mpr (h.imp fun {a b} hlt heq => ?_)
  rw [heq] at hlt
  exact lt_irrefl _ hlt

theorem Ascending.eq_of_key (h : Ascending L) (he : e ∈ L) (he' : e' ∈ L)
    (hkey : e.1 = e'.1) : e = e' :=
  inj_on_of_nodup_map h.nodup_keys he he' hkey

/-- Ascending lists with the same pairs are equal. -/
theorem Ascending.ext (h : Ascending L) (h' : Ascending L') (hmem : ∀ e, e ∈ L ↔ e ∈ L') :
    L = L' := by
  exact Pairwise.eq_of_mem_iff h h' (fun {e} => hmem e)

end

/-- `CompareKeys`. -/
def compareKeys (b1 b2 : Bytes) : Ordering := compareBytes b1 b2

theorem compareKeys_norm (k k' : Key) : compareKeys k.norm k'.norm = compare k.num k'.num := by
  have hlen : k.norm.length = k'.norm.length := by simp [Key.norm_eq, k.length_eq, k'.length_eq]
  rw [compareKeys, compareBytes_eq hlen, Key.norm_eq, Key.norm_eq, ofBE_concat, ofBE_concat]
  rcases lt_trichotomy k.num k'.num with h | h | h
  · rw [compare_lt_iff_lt.mpr h]
    exact compare_lt_iff_lt.mpr (Nat.add_lt_add_right (Nat.mul_lt_mul_of_pos_left h (by decide)) _)
  · rw [Key.num_inj h, compare_eq_iff_eq.mpr rfl, compare_eq_iff_eq.mpr rfl]
  · rw [compare_gt_iff_gt.mpr h]
    exact compare_gt_iff_gt.mpr (Nat.add_lt_add_right (Nat.mul_lt_mul_of_pos_left h (by decide)) _)

/-- `incrementKey`. -/
def incrementKey (key : Bytes) : Option Bytes := if key.length ≠ 31 then none else succBE key

/-- The next key has the next number, and only the last key has none. -/
theorem Key.increment (k : Key) :
    (∃ k' : Key, incrementKey k.bytes = some k'.bytes ∧ k'.num = k.num + 1) ∨
      (incrementKey k.bytes = none ∧ k.num + 1 = 2 ^ 248) := by
  have hlen := k.length_eq
  rw [incrementKey, if_neg (not_not.mpr hlen)]
  rcases succBE_spec k.bytes with ⟨l, hl, hlen', hval⟩ | ⟨hl, hval⟩
  · exact .inl ⟨⟨l, hlen'.trans hlen⟩, hl, hval⟩
  · rw [hlen] at hval
    exact .inr ⟨hl, hval⟩

end JamDuna.Storage
