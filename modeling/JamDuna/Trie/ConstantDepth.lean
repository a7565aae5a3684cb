/-
# Constant-depth trees

`trie/cdt.go`: a tree over segments whose leaves are filled up to a power of two with the
zero hash, built level by level. A justification is the list of hashes beside the path
of a leaf, from the root down, without the lowest `xDepth` levels; `VerifyCDTJustificationX`
computes the root from it, along the bits of the index.

`buildTree` of `2 ^ d` nodes gives a perfect tree (`Perfect`): the bits of an index lead to
the node of that index.
-/

import JamDuna.Basis.PerfectTree
import JamDuna.Trie.WellBalanced
import JamDuna.Types.Header

namespace JamDuna.Trie

open JamDuna.Types JamDuna.Basis Storage List Option Nat
open HashTree (addresses bits length_bits sub_append)

section

/-- `CDTNode`. -/
abbrev CDTNode := HashTree Bytes

/-- `CDMerkleTree`. -/
structure CDMerkleTree where
  root : CDTNode
  leaves : List CDTNode

/-- The loop that doubles until it reaches `n`, for at most so many steps. -/
def doubleUntil (n : ℕ) : ℕ → ℕ → ℕ
  | 0, p => p
  | steps + 1, p => if p < n then doubleUntil n steps (2 * p) else p

/-- The next power of two. -/
def nextPowerOfTwo (n : ℕ) : ℕ := doubleUntil n n 1

variable (H : HashType → HashFn)

/-- One level of `buildTree`: the nodes in pairs, with the address of the next node. Without
a partner for the last node the source panics. -/
def pairUp : List CDTNode → ℕ → Option (List CDTNode × ℕ)
  | [], next => some ([], next)
  | [_], _ => none
  | left :: right :: nodes, next =>
    match pairUp nodes (next + 1) with
    | none => none
    | some (parents, next') =>
      some (.node next (computeNode H (left.hash ++ right.hash) .blake2b) left right :: parents,
        next')

/-- `buildTree`, for at most so many levels. -/
def buildTree : ℕ → List CDTNode → ℕ → Option (CDTNode × ℕ)
  | 0, _, _ => none
  | _ + 1, [node], next => some (node, next)
  | levels + 1, nodes, next =>
    match pairUp H nodes next with
    | none => none
    | some (parents, next) => buildTree levels parents next

/-- The tree over the leaves with the given hashes. -/
def treeOf (hashes : List Bytes) : Option CDMerkleTree :=
  let leaves := HashTree.leavesOf hashes
  (buildTree H leaves.length leaves leaves.length).map fun r => ⟨r.1, leaves⟩

/-- `padLeaves`. -/
def padLeaves (values : List Bytes) : List Bytes :=
  values ++ replicate (nextPowerOfTwo values.length - values.length) zeroHash

/-- The hash of a leaf: the zero hash for itself. -/
def leafHash (value : Bytes) : Bytes :=
  if value ≠ zeroHash then computeLeaf H value .blake2b else zeroHash

/-- `NewCDMerkleTree`. -/
def newCDMerkleTree (values : List Bytes) : Option CDMerkleTree :=
  if values.length = 0 then some ⟨.leaf 0 zeroHash, []⟩
  else
    let paddedLeaves := if values.length ≠ 1 then padLeaves values else values
    treeOf H (paddedLeaves.map (leafHash H))

end

section

/-- `common.BytesToHash`. -/
def hash32 (b : Bytes) : Hash32 := copyToArray 32 0 (bytesToHash b)

theorem toList_hash32 {b : Bytes} (h : b.length = 32) : (hash32 b).toList = b := by
  rw [hash32, bytesToHash_of_length h, toList_copyToArray h]

/-- The errors of the functions on trees. -/
inductive CDTError where
  /-- `index %v out of range`. -/
  | indexOutOfRange (index : ℤ)
  /-- `empty tree`. -/
  | emptyTree
  /-- `leafIndex out of range`. -/
  | leafIndexOutOfRange
  deriving DecidableEq, Repr

/-- `GenerateCDTJustificationX`. -/
def CDMerkleTree.generateCDTJustificationX (mt : CDMerkleTree) (index : ℤ) (xDepth : ℕ) :
    Except CDTError (List Hash32) :=
  if index < 0 ∨ (mt.leaves.length : ℤ) ≤ index then .error (.indexOutOfRange index)
  else if mt.leaves.length = 1 then .ok []
  else
    let justification := (HashTree.climb mt.root zeroHash false mt.leaves.length
      mt.leaves[index.toNat]? []).map hash32
    if xDepth = 0 then .ok justification.reverse
    else if justification.length ≤ xDepth then .ok []
    else .ok (justification.drop xDepth).reverse

variable (H : HashType → HashFn)

/-- The loop of `VerifyCDTJustificationX`. -/
def verifyLoop : ℕ → Bytes → List Hash32 → Bytes
  | _, currentHash, [] => currentHash
  | index, currentHash, sibling :: justification =>
    let updatedHash :=
      if index % 2 = 0 then computeNode H (currentHash ++ sibling.toList) .blake2b
      else computeNode H (sibling.toList ++ currentHash) .blake2b
    verifyLoop (index / 2) updatedHash justification

/-- `VerifyCDTJustificationX`. -/
def verifyCDTJustificationX (leafHash : Bytes) (index : ℕ) (reversedJustification : List Hash32)
    (xDepth : ℕ) : Bytes :=
  let justification := reversedJustification.reverse
  let maxSteps := if xDepth = 0 then justification.length else xDepth
  verifyLoop H index leafHash (justification.take maxSteps)

variable {H}

/-- The tree over `2 ^ d` nodes, with the new nodes at addresses from `next` on. -/
structure Perfect (H : HashType → HashFn) (d : ℕ) (nodes : List CDTNode) (next next' : ℕ)
    (t : CDTNode) : Prop where
  next_le : next ≤ next'
  nodup : t.addresses.Nodup
  addresses : ∀ p ∈ t.addresses, p ∈ nodes.flatMap addresses ∨ (next ≤ p ∧ p < next')
  hashed : t.Hashed (combineNodes H .blake2b)
  sub : ∀ i < 2 ^ d, t.sub (bits d i) = nodes[i]?

/-- What a level of `buildTree` makes of some nodes. -/
structure Paired (H : HashType → HashFn) (nodes : List CDTNode) (next next' : ℕ)
    (parents : List CDTNode) : Prop where
  next_le : next ≤ next'
  length : 2 * parents.length = nodes.length
  nodup : (parents.flatMap addresses).Nodup
  addresses : ∀ p ∈ parents.flatMap addresses, p ∈ nodes.flatMap addresses ∨ (next ≤ p ∧ p < next')
  hashed : ∀ x ∈ parents, x.Hashed (combineNodes H .blake2b)
  child : ∀ i (b : Bool), (parents[i]?).bind (HashTree.sub [b]) = nodes[2 * i + b.toNat]?

variable {nodes : List CDTNode} {next : ℕ}

variable {parents : List CDTNode} {levels next' : ℕ}

/-- A pair is put in front of a level. -/
theorem Paired.cons {left right : CDTNode}
    (hnodup : ((left :: right :: nodes).flatMap HashTree.addresses).Nodup)
    (hlt : ∀ p ∈ (left :: right :: nodes).flatMap HashTree.addresses, p < next)
    (hhash : ∀ x ∈ left :: right :: nodes, x.Hashed (combineNodes H .blake2b))
    (h : Paired H nodes (next + 1) next' parents) :
    Paired H (left :: right :: nodes) next next'
      (.node next (computeNode H (left.hash ++ right.hash) .blake2b) left right :: parents) := by
  have hnext := h.next_le
  simp only [flatMap_cons] at hnodup hlt
  rw [← append_assoc] at hnodup hlt
  obtain ⟨hpair, -, hdisj⟩ := nodup_append'.mp hnodup
  have hnew : next ∉ left.addresses ++ right.addresses := fun hp =>
    lt_irrefl next (hlt next (mem_append_left _ hp))
  -- An address above the pairs that follow is an old one of these nodes, or after `next`.
  have hlater : ∀ p ∈ parents.flatMap HashTree.addresses,
      p ∈ nodes.flatMap HashTree.addresses ∨ next < p := by
    intro p hp
    rcases h.addresses p hp with hold | hp
    · exact .inl hold
    · exact .inr (by omega)
  refine ⟨by omega, by simp [mul_succ, h.length], ?_, fun p hp => ?_, fun x hx => ?_, fun i b => ?_⟩
  · rw [flatMap_cons, nodup_append']
    refine ⟨nodup_cons.mpr ⟨hnew, hpair⟩, h.nodup, fun p hp hp' => ?_⟩
    rcases mem_cons.mp hp with rfl | hp
    · rcases hlater p hp' with hold | hgt
      · exact lt_irrefl p (hlt p (mem_append_right _ hold))
      · exact lt_irrefl p hgt
    · rcases hlater p hp' with hold | hgt
      · exact hdisj hp hold
      · have := hlt p (mem_append_left _ hp)
        omega
  · simp only [flatMap_cons]
    rw [← append_assoc]
    rcases mem_append.mp (flatMap_cons ▸ hp) with hp | hp
    · rcases mem_cons.mp hp with rfl | hp
      · exact .inr ⟨le_refl _, by omega⟩
      · exact .inl (mem_append_left _ hp)
    · rcases h.addresses p hp with hold | hp
      · exact .inl (mem_append_right _ hold)
      · exact .inr ⟨by omega, hp.2⟩
  · rcases mem_cons.mp hx with rfl | hx
    · exact ⟨rfl, hhash left (by simp), hhash right (by simp)⟩
    · exact h.hashed x hx
  · cases i with
    | zero => cases b <;> rfl
    | succ i =>
      have hidx : 2 * (i + 1) + b.toNat = (2 * i + b.toNat) + 2 := by omega
      rw [getElem?_cons_succ, h.child i b, hidx, getElem?_cons_succ, getElem?_cons_succ]

/-- **A level of `buildTree`.** -/
theorem pairUp_spec {k : ℕ} (hlen : nodes.length = 2 * k)
    (hnodup : (nodes.flatMap addresses).Nodup)
    (hlt : ∀ p ∈ nodes.flatMap addresses, p < next)
    (hhash : ∀ x ∈ nodes, x.Hashed (combineNodes H .blake2b)) :
    ∃ parents next', pairUp H nodes next = some (parents, next') ∧
      Paired H nodes next next' parents := by
  induction k generalizing nodes next with
  | zero =>
    obtain rfl := length_eq_zero_iff.mp hlen
    exact ⟨[], next, rfl, le_refl _, rfl, nodup_nil, by simp, by simp, by simp⟩
  | succ k ih =>
    match nodes, hlen with
    | left :: right :: nodes, hlen =>
      have hlen' : nodes.length = 2 * k := by
        simp only [length_cons] at hlen
        omega
      have hmem : ∀ p ∈ nodes.flatMap addresses,
          p ∈ (left :: right :: nodes).flatMap addresses := by
        intro p hp
        exact mem_append_right _ (mem_append_right _ hp)
      have hnodup' : (nodes.flatMap addresses).Nodup := by
        exact (nodup_append'.mp (nodup_append'.mp hnodup).2.1).2.1
      obtain ⟨parents, next', hpair, h⟩ := ih hlen' hnodup'
        (fun p hp => (hlt p (hmem p hp)).trans (lt_succ_self next))
        (fun x hx => hhash x (by simp [hx]))
      exact ⟨_, next', by rw [pairUp, hpair], h.cons hnodup hlt hhash⟩

theorem buildTree_succ (hlen : nodes.length ≠ 1) (h : pairUp H nodes next = some (parents, next')) :
    buildTree H (levels + 1) nodes next = buildTree H levels parents next' := by
  match nodes, hlen with
  | [], _ =>
    cases h
    rfl
  | left :: right :: nodes, _ => rw [buildTree, h]; simp

/-- **`buildTree` of `2 ^ d` nodes** is the perfect tree over them. -/
theorem buildTree_spec {d : ℕ} (hlevels : d < levels)
    (hlen : nodes.length = 2 ^ d) (hnodup : (nodes.flatMap addresses).Nodup)
    (hlt : ∀ p ∈ nodes.flatMap addresses, p < next)
    (hhash : ∀ x ∈ nodes, x.Hashed (combineNodes H .blake2b)) :
    ∃ t next', buildTree H levels nodes next = some (t, next') ∧
      Perfect H d nodes next next' t := by
  induction d generalizing levels nodes next with
  | zero =>
    obtain ⟨levels, rfl⟩ := exists_eq_add_one_of_ne_zero (ne_zero_of_lt hlevels)
    obtain ⟨x, rfl⟩ := length_eq_one_iff.mp hlen
    have hflat : [x].flatMap addresses = x.addresses := by simp
    rw [hflat] at hnodup
    refine ⟨x, next, rfl, le_refl _, hnodup, fun p hp => ?_, hhash x (by simp), fun i hi => ?_⟩
    · rw [hflat]
      exact .inl hp
    · obtain rfl : i = 0 := by simpa using hi
      rfl
  | succ d ih =>
    obtain ⟨levels, rfl⟩ := exists_eq_add_one_of_ne_zero (ne_zero_of_lt hlevels)
    have hdouble : nodes.length = 2 * 2 ^ d := by rw [hlen, pow_succ']
    obtain ⟨parents, n₁, hpair, h⟩ := pairUp_spec hdouble hnodup hlt hhash
    have hnext := h.next_le
    have hcount : parents.length = 2 ^ d := by
      have := h.length
      omega
    obtain ⟨t, n₂, hbuild, ht⟩ := ih (show d < levels by omega) hcount h.nodup (fun p hp => by
      rcases h.addresses p hp with hold | hnew
      · exact (hlt p hold).trans_le hnext
      · exact hnew.2) h.hashed
    refine ⟨t, n₂, ?_, hnext.trans ht.next_le, ht.nodup, fun p hp => ?_, ht.hashed, fun i hi => ?_⟩
    · rw [buildTree_succ (by omega) hpair, hbuild]
    · have := ht.next_le
      rcases ht.addresses p hp with hold | hnew
      · rcases h.addresses p hold with hold | hnew
        · exact .inl hold
        · exact .inr ⟨hnew.1, by omega⟩
      · exact .inr ⟨by omega, hnew.2⟩
    · have hhalf : i / 2 < 2 ^ d := by
        rw [pow_succ] at hi
        omega
      have hsub := ht.sub (i / 2) hhalf
      have hbit : 2 * (i / 2) + (decide (i % 2 = 1)).toNat = i := by
        rcases mod_two_eq_zero_or_one i with hmod | hmod
        · simp [hmod]; omega
        · simp [hmod]; omega
      rw [HashTree.bits, sub_append, hsub, h.child, hbit]

variable {d : ℕ} {hashes : List Bytes}

/-- A tree over leaves with the given hashes, `2 ^ d` of them. -/
structure CDMerkleTree.Over (H : HashType → HashFn) (mt : CDMerkleTree) (d : ℕ)
    (hashes : List Bytes) : Prop where
  length : hashes.length = 2 ^ d
  leaves : mt.leaves.length = 2 ^ d
  nodup : mt.root.addresses.Nodup
  hashed : mt.root.Hashed (combineNodes H .blake2b)
  sub : ∀ i < 2 ^ d, ∃ leaf, mt.leaves[i]? = some leaf ∧
    mt.root.sub (bits d i) = some leaf ∧ hashes[i]? = some leaf.hash

/-- **The tree over `2 ^ d` hashes.** -/
theorem treeOf_spec (H : HashType → HashFn) (hlen : hashes.length = 2 ^ d) :
    ∃ mt, treeOf H hashes = some mt ∧ mt.Over H d hashes := by
  set leaves := HashTree.leavesOf hashes
  have hcount : leaves.length = 2 ^ d := by simp [leaves, hlen]
  have haddr := HashTree.addresses_leavesOf hashes
  have hbuilt : ∃ t next', buildTree H leaves.length leaves leaves.length = some (t, next') ∧
      Perfect H d leaves leaves.length next' t := by
    refine buildTree_spec (by rw [hcount]; exact Nat.lt_two_pow_self) hcount ?_ ?_ ?_
    · rw [haddr]
      exact nodup_range
    · intro p hp
      rw [haddr] at hp
      simpa [leaves] using hp
    · intro x hx
      obtain ⟨i, a, -, rfl⟩ := HashTree.exists_of_mem_leavesOf hx
      trivial
  obtain ⟨t, next', hbuild, ht⟩ := hbuilt
  refine ⟨⟨t, leaves⟩, by rw [treeOf, hbuild]; rfl, hlen, hcount, ht.nodup,
    ht.hashed, fun i hi => ?_⟩
  have hleaf := HashTree.getElem?_leavesOf hashes i
  rw [getElem?_eq_getElem (show i < hashes.length by omega)] at hleaf
  exact ⟨_, hleaf, (ht.sub i hi).trans hleaf, getElem?_eq_getElem _⟩

namespace CDMerkleTree.Over

variable {mt : CDMerkleTree} (h : mt.Over H d hashes)

include h

variable {i : ℕ}

/-- The leaf of an index. -/
theorem exists_leaf (hi : i < 2 ^ d) :
    ∃ leaf, mt.root.sub (bits d i) = some leaf ∧ hashes[i]? = some leaf.hash := by
  obtain ⟨leaf, -, hsub, hhash⟩ := h.sub i hi
  exact ⟨leaf, hsub, hhash⟩

theorem length_mem_copath (h32 : ∀ x ∈ hashes, x.length = 32) (hi : i < 2 ^ d) :
    ∀ x ∈ mt.root.copath (bits d i), x.length = 32 := by
  refine (HashTree.forall_mem_copath h.hashed (P := fun x => x.length = 32)
    (fun x y => (H .blake2b).length_run _) fun i hi => ?_).2 i hi
  obtain ⟨leaf, hsub, hhash⟩ := h.exists_leaf hi
  exact ⟨leaf, hsub, h32 _ (mem_of_getElem? hhash)⟩

theorem length_copath (hi : i < 2 ^ d) : (mt.root.copath (bits d i)).length = d := by
  obtain ⟨leaf, hsub, -⟩ := h.exists_leaf hi
  rw [HashTree.length_copath hsub, length_bits]

/-- The loop of `GenerateCDTJustificationX`. -/
theorem climb_eq (hi : i < 2 ^ d) :
    HashTree.climb mt.root zeroHash false mt.leaves.length mt.leaves[i]? [] =
      (mt.root.copath (bits d i)).reverse := by
  obtain ⟨leaf, hleaf, hsub, -⟩ := h.sub i hi
  rw [hleaf, HashTree.climb_eq h.nodup zeroHash false hsub, nil_append]
  rw [h.leaves, length_bits]
  exact Nat.lt_two_pow_self

/-- **A justification** is the copath without its lowest hashes. -/
theorem generateCDTJustificationX_eq (hi : i < 2 ^ d) (xDepth : ℕ) :
    mt.generateCDTJustificationX i xDepth =
      .ok (((mt.root.copath (bits d i)).take (d - xDepth)).map hash32) := by
  have hlen := h.length_copath hi
  have hrange : ¬ ((i : ℤ) < 0 ∨ (mt.leaves.length : ℤ) ≤ i) := by
    rw [h.leaves]
    omega
  rw [generateCDTJustificationX, if_neg hrange, Int.toNat_natCast, h.climb_eq hi, h.leaves]
  dsimp only
  split_ifs with hone hx hshort
  · -- a single leaf: its copath is empty
    obtain rfl : d = 0 := by
      by_contra hd
      exact absurd hone (Nat.one_lt_two_pow hd).ne'
    simp
  · subst hx
    rw [← map_reverse, reverse_reverse, Nat.sub_zero, take_of_length_le hlen.le]
  · have hzero : d - xDepth = 0 := by
      simp only [length_map, length_reverse, hlen] at hshort
      omega
    rw [hzero, take_zero, map_nil]
  · rw [← map_drop, ← map_reverse, reverse_drop, reverse_reverse, length_reverse, hlen]

/-- The hashes of the leaves. -/
theorem map_hash : mt.leaves.map HashTree.hash = hashes := by
  refine ext_getElem? fun i => ?_
  rw [getElem?_map]
  by_cases hi : i < 2 ^ d
  · obtain ⟨leaf, hleaf, -, hhash⟩ := h.sub i hi
    rw [hleaf, hhash]
    rfl
  · rw [getElem?_eq_none (by rw [h.leaves]; omega), getElem?_eq_none (by rw [h.length]; omega)]
    rfl

/-- **A copath is that of a page followed by that inside the page**, for any tree over the
leaf hashes of the page. -/
theorem copath_eq_append {e k p j : ℕ} (hd : d = e + k) {sub : CDMerkleTree}
    {hashes' : List Bytes} (hsub : sub.Over H k hashes') (hp : p < 2 ^ e)
    (hsame : ∀ j < 2 ^ k, hashes'[j]? = hashes[2 ^ k * p + j]?) (hj : j < 2 ^ k) :
    mt.root.copath (bits d (2 ^ k * p + j)) =
      mt.root.copath (bits e p) ++ sub.root.copath (bits k j) := by
  have hbits : ∀ j < 2 ^ k, bits d (2 ^ k * p + j) = bits e p ++ bits k j := by
    intro j hj
    rw [hd, HashTree.bits_add, Nat.mul_add_div (Nat.two_pow_pos k), Nat.div_eq_of_lt hj,
      ← HashTree.bits_mod k, mul_add_mod, HashTree.bits_mod, add_zero]
  have hlt : ∀ j < 2 ^ k, 2 ^ k * p + j < 2 ^ d := by
    intro j hj
    have hmul : 2 ^ k * (p + 1) ≤ 2 ^ k * 2 ^ e := mul_le_mul_left _ hp
    rw [← pow_add, add_comm k, ← hd, mul_succ] at hmul
    omega
  -- The page is a subtree of the whole tree.
  obtain ⟨leaf, hleaf, -⟩ := h.exists_leaf (hlt j hj)
  rw [hbits j hj, sub_append] at hleaf
  obtain ⟨page, hpage, -⟩ := bind_eq_some_iff.mp hleaf
  have hcongr := HashTree.copath_congr (h.hashed.of_sub hpage) hsub.hashed fun j hj => by
    obtain ⟨x, hx, hxhash⟩ := h.exists_leaf (hlt j hj)
    obtain ⟨y, hy, hyhash⟩ := hsub.exists_leaf hj
    rw [hbits j hj, sub_append, hpage, bind_some] at hx
    rw [hsame j hj, hxhash] at hyhash
    exact ⟨x, y, hx, hy, some.inj hyhash⟩
  rw [hbits j hj, HashTree.copath_append hpage, hcongr.2 j hj]

end CDMerkleTree.Over

/-- `VerifyCDTJustificationX` goes up along the bits of the index. -/
theorem verifyLoop_reverse (H : HashType → HashFn) {d i : ℕ} {path : List Bytes}
    (hlen : path.length = d) (h32 : ∀ x ∈ path, x.length = 32) (x : Bytes) :
    verifyLoop H i x (path.map hash32).reverse =
      HashTree.foldPath (combineNodes H .blake2b) x (bits d i) path := by
  induction d generalizing i x path with
  | zero =>
    obtain rfl := length_eq_zero_iff.mp hlen
    rfl
  | succ d ih =>
    have hne : path ≠ [] := ne_nil_of_length_eq_add_one hlen
    obtain ⟨above, y, rfl⟩ := (eq_nil_or_concat' path).resolve_left hne
    rw [forall_mem_append] at h32
    have habove : above.length = d := by simpa using hlen
    have hy : (hash32 y).toList = y := toList_hash32 (h32.2 y (by simp))
    rw [map_append, reverse_append, HashTree.bits,
      HashTree.foldPath_concat x y _ (by rw [length_bits, habove]), ← ih habove h32.1]
    show verifyLoop H (i / 2) (if i % 2 = 0 then computeNode H (x ++ (hash32 y).toList) .blake2b
      else computeNode H ((hash32 y).toList ++ x) .blake2b) _ = _
    rw [hy]
    rcases mod_two_eq_zero_or_one i with hmod | hmod
    · rw [if_pos hmod, hmod]
      rfl
    · rw [hmod]
      rfl

/-- **The whole justification of a leaf verifies to the root.** -/
theorem CDMerkleTree.Over.verifyCDTJustificationX_eq {mt : CDMerkleTree} (h : mt.Over H d hashes)
    (h32 : ∀ x ∈ hashes, x.length = 32) {i : ℕ} {x : Bytes} (hx : hashes[i]? = some x) :
    verifyCDTJustificationX H x i ((mt.root.copath (bits d i)).map hash32) 0 = mt.root.hash := by
  have hi : i < 2 ^ d := h.length ▸ (List.getElem?_eq_some_iff.mp hx).1
  obtain ⟨leaf, hsub, hhash⟩ := h.exists_leaf hi
  obtain rfl : x = leaf.hash := some.inj (hx.symm.trans hhash)
  rw [verifyCDTJustificationX, if_pos rfl, take_length,
    verifyLoop_reverse H (h.length_copath hi) (h.length_mem_copath h32 hi),
    HashTree.foldPath_copath h.hashed hsub]

end

/-- Enough doublings lead to a power of two that is not below `n`, and its half is. -/
theorem doubleUntil_spec {n steps e : ℕ} (h : n ≤ 2 ^ (steps + e)) (hpos : e = 0 ∨ 2 ^ e < 2 * n) :
    ∃ d, doubleUntil n steps (2 ^ e) = 2 ^ d ∧ n ≤ 2 ^ d ∧ (d = 0 ∨ 2 ^ d < 2 * n) := by
  induction steps generalizing e with
  | zero => exact ⟨e, rfl, by simpa using h, hpos⟩
  | succ steps ih =>
    rw [doubleUntil]
    split_ifs with hlt
    · rw [← pow_succ']
      refine ih (by rwa [show steps + (e + 1) = steps + 1 + e by omega]) (.inr ?_)
      rw [pow_succ']
      omega
    · exact ⟨e, rfl, by omega, hpos⟩

theorem nextPowerOfTwo_spec (n : ℕ) :
    ∃ d, nextPowerOfTwo n = 2 ^ d ∧ n ≤ 2 ^ d ∧ (d = 0 ∨ 2 ^ d < 2 * n) :=
  doubleUntil_spec (by simpa using Nat.lt_two_pow_self.le) (.inl rfl)

variable (H : HashType → HashFn)

theorem length_leafHash (value : Bytes) : (leafHash H value).length = 32 := by
  unfold leafHash
  split_ifs
  · exact (H .blake2b).length_run _
  · rfl

/-- The hashes of the leaves of `NewCDMerkleTree`. -/
def paddedHashes (values : List Bytes) : List Bytes :=
  values.map (leafHash H) ++ replicate (nextPowerOfTwo values.length - values.length) zeroHash

theorem length_paddedHashes (values : List Bytes) :
    (paddedHashes H values).length = nextPowerOfTwo values.length := by
  obtain ⟨d, hd, hle, -⟩ := nextPowerOfTwo_spec values.length
  simp only [paddedHashes, length_append, length_map, length_replicate]
  omega

theorem length_mem_paddedHashes {values : List Bytes} : ∀ x ∈ paddedHashes H values,
    x.length = 32 := by
  intro x hx
  rcases mem_append.mp hx with hx | hx
  · obtain ⟨v, -, rfl⟩ := mem_map.mp hx
    exact length_leafHash H v
  · rw [eq_of_mem_replicate hx]
    rfl

/-- **`NewCDMerkleTree`.** -/
theorem newCDMerkleTree_spec {values : List Bytes} (hne : values ≠ []) :
    ∃ mt d, newCDMerkleTree H values = some mt ∧ nextPowerOfTwo values.length = 2 ^ d ∧
      values.length ≤ 2 ^ d ∧ (d = 0 ∨ 2 ^ d < 2 * values.length) ∧
      mt.Over H d (paddedHashes H values) := by
  obtain ⟨d, hd, hle, hlt⟩ := nextPowerOfTwo_spec values.length
  obtain ⟨mt, hmt, hover⟩ := treeOf_spec H ((length_paddedHashes H values).trans hd)
  refine ⟨mt, d, ?_, hd, hle, hlt, hover⟩
  have hzero : leafHash H zeroHash = zeroHash := by simp [leafHash]
  rw [newCDMerkleTree, if_neg (by simpa using hne), ← hmt]
  dsimp only
  split_ifs with hone
  · rw [padLeaves, map_append, map_replicate, hzero, paddedHashes]
  · rw [not_not] at hone
    rw [paddedHashes, hone]
    simp [nextPowerOfTwo, doubleUntil]

end JamDuna.Trie
