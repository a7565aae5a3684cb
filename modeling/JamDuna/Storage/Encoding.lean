/-
# The node encodings of the state trie

`storage/trie.go`: a leaf and a branch are 64 bytes, told apart by the first bit. A
leaf holds 31 bytes of its key and its value, or the hash of a value of more than
32 bytes; a branch holds the hashes of its children, the left one without its first
bit. `trieComputeHash` of `storage/hash.go` (Blake2b-256) is a parameter: any
function with results of 32 bytes.

State keys have 31 bytes and are padded to the 32 bytes of a `common.Hash`.
-/

import JamDuna.Basis.BitTrie
import JamDuna.Types.Basic

namespace JamDuna.Storage

open JamDuna.Basis List

/-- `trieComputeHash`. -/
structure HashFn where
  run : Bytes → Bytes
  length_run : ∀ x, (run x).length = 32

instance HashFn.coeFun : CoeFun HashFn fun _ => Bytes → Bytes := ⟨HashFn.run⟩

/-- `copy` into a zeroed array of `n` bytes. -/
def fixed (n : ℕ) (src : Bytes) : Bytes := (src ++ replicate n 0).take n

@[simp] theorem length_fixed (n : ℕ) (src : Bytes) : (fixed n src).length = n := by
  simp [fixed]

variable {n : ℕ} {l r src : Bytes}

theorem fixed_of_length (h : src.length = n) : fixed n src = src := by
  rw [fixed, take_append_of_le_length h.ge, take_of_length_le h.le]

theorem fixed_eq_append (h : src.length ≤ n) :
    fixed n src = src ++ replicate (n - src.length) 0 := by
  rw [fixed, take_append, take_of_length_le h, take_replicate, min_eq_left]
  exact Nat.sub_le _ _

/-- The hash of the empty trie. -/
def zeroHash : Bytes := replicate 32 0

/-- A state key. -/
structure Key where
  bytes : Bytes
  length_eq : bytes.length = 31
  deriving DecidableEq, Repr

/-- `trieNormalizeKey32`. -/
def trieNormalizeKey32 (src : Bytes) : Bytes := fixed 32 src

/-- The key as the trie holds it. -/
def Key.norm (k : Key) : Bytes := trieNormalizeKey32 k.bytes

theorem Key.norm_eq (k : Key) : k.norm = k.bytes ++ [0] := by
  rw [Key.norm, trieNormalizeKey32, fixed_eq_append (by rw [k.length_eq]; decide), k.length_eq]
  rfl

theorem Key.norm_inj {k k' : Key} : k.norm = k'.norm ↔ k = k' := by
  constructor
  · intro h
    rw [Key.norm_eq, Key.norm_eq, append_left_inj] at h
    cases k
    cases k'
    simpa using h
  · rintro rfl
    rfl

/-- `trieBit`: the bits of a byte from the first on, and 0 after the end. -/
def trieBit (k : Bytes) (i : ℕ) : Bool :=
  match k[i / 8]? with
  | none => false
  | some b => b.toNat.testBit (7 - i % 8)

/-- `trieComputeKeyLengthAsBit` of a padded key. -/
abbrev keyBits : ℕ := 32 * 8

/-- The bits of a state key. -/
def Key.bit (k : Key) (i : ℕ) : Bool := trieBit k.norm i

theorem Key.bit_eq_testBit (k : Key) {j i : ℕ} (hj : j < 31) (hi : i < 8) :
    k.bit (8 * j + (7 - i)) = (k.bytes.getD j 0).toNat.testBit i := by
  have hdiv : (8 * j + (7 - i)) / 8 = j := by omega
  have hmod : 7 - (8 * j + (7 - i)) % 8 = i := by omega
  have hlen := k.length_eq
  rw [Key.bit, trieBit, hdiv, hmod, Key.norm_eq, getElem?_append_left (by omega),
    getD_eq_getElem?_getD, getElem?_eq_getElem (by omega)]
  rfl

/-- State keys that agree on all bits are equal. -/
theorem Key.separates : BitTrie.Separates Key.bit keyBits := by
  intro k k' h
  have hbytes : k.bytes = k'.bytes := by
    refine ext_getElem (by rw [k.length_eq, k'.length_eq]) fun j hj hj' => ?_
    have hj31 : j < 31 := k.length_eq ▸ hj
    have hbyte : (k.bytes.getD j 0).toNat = (k'.bytes.getD j 0).toNat := by
      refine Nat.eq_of_testBit_eq fun i => ?_
      by_cases hi : i < 8
      · rw [← k.bit_eq_testBit hj31 hi, ← k'.bit_eq_testBit hj31 hi]
        have hlt : 8 * j + (7 - i) < 256 := by omega
        exact h _ hlt
      · have hbig : ∀ b : UInt8, b.toNat.testBit i = false := fun b =>
          Nat.testBit_lt_two_pow (lt_of_lt_of_le b.toNat_lt
            (Nat.pow_le_pow_right (by decide) (not_lt.mp hi)))
        rw [hbig, hbig]
    have := UInt8.toNat_inj.mp hbyte
    simpa [getD_eq_getElem?_getD, hj, hj'] using this
  cases k
  cases k'
  simpa using hbytes

/-- The errors of the trie. -/
inductive TrieError where
  /-- `invalid leaf length %v`. -/
  | invalidLeafLength (length : ℕ)
  /-- `invalid leaf node header`. -/
  | invalidLeafHeader
  /-- A slice expression past the end of a leaf. -/
  | sliceBounds
  /-- `decodeLeaf leaf Err: %s`. -/
  | decodeLeaf (e : TrieError)
  /-- `GetValue: Error %v`. -/
  | getValue (e : TrieError)
  /-- `key not found`. -/
  | keyNotFound
  /-- `empty tree`. -/
  | emptyTree
  /-- `key not found: cannot delete non-existent key %x`. -/
  | cannotDelete (key : Bytes)
  /-- `branch value too short, expected 70 bytes but got %d bytes`. -/
  | branchTooShort (length : ℕ)
  /-- `failed to load root node for hash %s: %w`. -/
  | failedToLoad (root : Bytes) (e : TrieError)
  /-- `root %s not found in storage (returned zero-hash node)`. -/
  | rootNotFound (root : Bytes)
  /-- A stored trie deeper than the recursion that loads it. -/
  | tooDeep
  deriving DecidableEq, Repr

section

variable (H : HashFn)

/-- `trieLeaf`. -/
def trieLeaf (k v : Bytes) : Bytes :=
  if v.length ≤ 32 then UInt8.ofNat (0x80 ||| v.length) :: fixed 31 k ++ fixed 32 v
  else 0xc0 :: fixed 31 k ++ fixed 32 (H v)

/-- `trieDecodeLeaf`: the key, the value or its hash, and whether it is the value. -/
def trieDecodeLeaf (leaf : Bytes) : Except TrieError (Bytes × Bytes × Bool) :=
  let head := leaf.headD 0
  let key := (leaf.drop 1).take 31
  if leaf.length ≠ 64 then .error (.invalidLeafLength leaf.length)
  else if head &&& 0xc0 = 0x80 then
    let valueSize := (head &&& 0x3f).toNat
    if 32 < valueSize then .error .sliceBounds
    else .ok (key, (leaf.drop 32).take valueSize, true)
  else if head &&& 0xc0 = 0xc0 then .ok (key, (leaf.drop 32).take 32, false)
  else .error .invalidLeafHeader

variable {H}

theorem embedded_head {n : ℕ} (h : n ≤ 32) :
    UInt8.ofNat (0x80 ||| n) &&& 0xc0 = 0x80 ∧ (UInt8.ofNat (0x80 ||| n) &&& 0x3f).toNat = n := by
  have hall : ∀ n < 33, UInt8.ofNat (0x80 ||| n) &&& 0xc0 = 0x80 ∧
      (UInt8.ofNat (0x80 ||| n) &&& 0x3f).toNat = n := by decide
  exact hall n (by omega)

theorem take_fixed {n : ℕ} {v : Bytes} (h : v.length ≤ n) : (fixed n v).take v.length = v := by
  rw [fixed_eq_append h, take_left']
  rfl

theorem drop_leaf (b : UInt8) (k x : Bytes) : (b :: fixed 31 k ++ x).drop 32 = x := by
  rw [cons_append, drop_succ_cons, drop_left']
  exact length_fixed 31 k

theorem key_leaf (b : UInt8) (k x : Bytes) :
    ((b :: fixed 31 k ++ x).drop 1).take 31 = fixed 31 k := by
  rw [cons_append, drop_succ_cons, drop_zero, take_left']
  exact length_fixed 31 k

theorem trieDecodeLeaf_append (b : UInt8) (k : Bytes) {x : Bytes} (hx : x.length = 32) :
    trieDecodeLeaf (b :: fixed 31 k ++ x) = if b &&& 0xc0 = 0x80 then
        if 32 < (b &&& 0x3f).toNat then .error .sliceBounds
        else .ok (fixed 31 k, x.take (b &&& 0x3f).toNat, true)
      else if b &&& 0xc0 = 0xc0 then .ok (fixed 31 k, x, false)
      else .error .invalidLeafHeader := by
  have hlen : (b :: fixed 31 k ++ x).length = 64 := by simp [hx]
  unfold trieDecodeLeaf
  simp only [hlen, ne_eq, not_true_eq_false, if_false, key_leaf, drop_leaf, take_of_length_le hx.le]
  rfl

/-- **A leaf decodes to its key and value**, or to the hash of a long value. -/
theorem trieDecodeLeaf_trieLeaf (k v : Bytes) : trieDecodeLeaf (trieLeaf H k v) =
      .ok (fixed 31 k, if v.length ≤ 32 then (v, true) else (H v, false)) := by
  by_cases hv : v.length ≤ 32
  · obtain ⟨hhead, hsize⟩ := embedded_head hv
    rw [trieLeaf, if_pos hv, if_pos hv, trieDecodeLeaf_append _ _ (length_fixed 32 v), if_pos hhead,
      hsize, if_neg hv.not_gt, take_fixed hv]
  · have hlen := H.length_run v
    rw [trieLeaf, if_neg hv, if_neg hv, fixed_of_length hlen, trieDecodeLeaf_append _ _ hlen,
      if_neg (by decide), if_pos (by decide)]

theorem fixed_key (k : Key) : fixed 31 k.norm = k.bytes := by
  rw [Key.norm_eq, fixed, append_assoc, take_left' k.length_eq]

/-- Leaves with the same encoding have the same key, and the same value or two
values of the same hash. -/
theorem trieLeaf_inj {k k' : Key} {v v' : Bytes} (h : trieLeaf H k.norm v = trieLeaf H k'.norm v') :
    k = k' ∧ (v = v' ∨ (32 < v.length ∧ 32 < v'.length ∧ H v = H v')) := by
  have hdec := congrArg trieDecodeLeaf h
  rw [trieDecodeLeaf_trieLeaf, trieDecodeLeaf_trieLeaf, fixed_key, fixed_key] at hdec
  obtain ⟨hk, hv⟩ := Prod.mk.inj (Except.ok.inj hdec)
  refine ⟨?_, ?_⟩
  · cases k
    cases k'
    simpa using hk
  · split_ifs at hv with h1 h2 h2
    · exact .inl (Prod.mk.inj hv).1
    · simp at hv
    · simp at hv
    · exact .inr ⟨not_le.mp h1, not_le.mp h2, (Prod.mk.inj hv).1⟩

end

/-- A hash without its first bit. -/
def maskTop : Bytes → Bytes
  | [] => []
  | b :: bs => (b &&& 0x7f) :: bs

/-- `trieBranch`. -/
def trieBranch (left right : Bytes) : Bytes := maskTop left ++ right

@[simp] theorem length_maskTop (x : Bytes) : (maskTop x).length = x.length := by
  cases x <;> rfl

theorem trieBranch_inj {l' r' : Bytes} (hl : l.length = 32) (hl' : l'.length = 32)
    (h : trieBranch l r = trieBranch l' r') : maskTop l = maskTop l' ∧ r = r' :=
  append_inj h (by simp [hl, hl'])

theorem maskTop_zeroHash : maskTop zeroHash = zeroHash := by decide

/-- The first bit tells a leaf from a branch. -/
theorem trieLeaf_ne_trieBranch {H : HashFn} {k v : Bytes} (hl : l.length = 32) :
    trieLeaf H k v ≠ trieBranch l r := by
  intro h
  obtain ⟨b, bs, rfl⟩ := exists_cons_of_length_pos (by omega : 0 < l.length)
  have hbranch : ∀ b : UInt8, (b &&& 0x7f) &&& 0x80 = 0 := by
    intro b
    rw [UInt8.and_assoc]
    exact UInt8.and_zero
  have hleaf : (trieLeaf H k v).headD 0 &&& 0x80 = 0x80 := by
    have hall : ∀ n < 33, UInt8.ofNat (0x80 ||| n) &&& 0x80 = 0x80 := by decide
    unfold trieLeaf
    split_ifs with hv
    · exact hall _ (by omega)
    · exact (by decide : (0xc0 : UInt8) &&& 0x80 = 0x80)
  rw [h] at hleaf
  have hhead : (trieBranch (b :: bs) r).headD 0 = b &&& 0x7f := rfl
  rw [hhead, hbranch] at hleaf
  cases hleaf

variable (H : HashFn)

/-- The root of a trie: the hash that its nodes carry. -/
def rootHash : BitTrie Key Bytes → Bytes
  | .empty => zeroHash
  | .leaf k v => H (trieLeaf H k.norm v)
  | .node l r => H (trieBranch (rootHash l) (rootHash r))

@[simp] theorem length_rootHash (t : BitTrie Key Bytes) : (rootHash H t).length = 32 := by
  cases t with
  | empty => rfl
  | leaf k v | node l r => exact H.length_run _

end JamDuna.Storage
