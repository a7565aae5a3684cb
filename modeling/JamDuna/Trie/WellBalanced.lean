/-
# Well-balanced trees

`trie/wbt.go` and `trie/hash.go`: a tree over blobs that splits at half the number of
leaves, rounded up. With two blobs or more the leaves are the blobs themselves, of any
length, and only a single blob is hashed. `Trace` returns the hashes beside the path of a
leaf, from the root down, and `VerifyWBT` computes a root from a leaf and such hashes,
along directions that it derives from the index and the number of leaves.

The two hash functions, Blake2b-256 and Keccak-256, are parameters. `VerifyWBT` always
takes Blake2b. Byte slices are values here: that `append` may write behind a slice is
left out. `math.Ceil(float64(n) / 2)` is exact for every length that fits into memory.
-/

import JamDuna.Basis.HashTree
import JamDuna.Storage.Encoding

namespace JamDuna.Trie

open JamDuna.Basis Storage List
open HashTree (addresses)

section

/-- `types.Blake2b` and `types.Keccak`. -/
inductive HashType where
  | blake2b
  | keccak
  deriving DecidableEq, Repr

variable (H : HashType → HashFn)

/-- `[]byte("node")`. -/
def nodeTag : Bytes := [0x6e, 0x6f, 0x64, 0x65]

/-- `[]byte("leaf")`. -/
def leafTag : Bytes := [0x6c, 0x65, 0x61, 0x66]

/-- `computeNode`. -/
def computeNode (data : Bytes) (hashType : HashType) : Bytes := H hashType (nodeTag ++ data)

/-- `computeLeaf`. -/
def computeLeaf (data : Bytes) (hashType : HashType) : Bytes :=
  match hashType with
  | .keccak => H .keccak data
  | .blake2b => H .blake2b (leafTag ++ data)

/-- `common.BytesToHash`: the last 32 bytes, filled up with zeros in front. -/
def bytesToHash (b : Bytes) : Bytes := replicate (32 - b.length) 0 ++ b.drop (b.length - 32)

theorem bytesToHash_of_length {b : Bytes} (h : b.length = 32) : bytesToHash b = b := by
  simp [bytesToHash, h]

end

section

/-- `WBTNode`. -/
abbrev WBTNode := HashTree Bytes

variable (H : HashType → HashFn)

/-- `buildTreeRecursive`, with the address of the next node. Without nodes the source does
not return. -/
def buildTreeRecursive (nodes : List WBTNode) (hashType : HashType) (next : ℕ) :
    Option (WBTNode × ℕ) :=
  match nodes with
  | [] => none
  | [node] => some (node, next)
  | node :: node' :: nodes =>
    let mid := (nodes.length + 3) / 2
    match buildTreeRecursive ((node :: node' :: nodes).take mid) hashType next with
    | none => none
    | some (left, next) =>
      match buildTreeRecursive ((node :: node' :: nodes).drop mid) hashType next with
      | none => none
      | some (right, next) =>
        some (.node next (computeNode H (left.hash ++ right.hash) hashType) left right, next + 1)
termination_by nodes.length
decreasing_by
  all_goals simp; omega

/-- `WellBalancedTree`. -/
structure WellBalancedTree where
  root : WBTNode
  leaves : List WBTNode
  hashType : HashType

/-- The leaves of `NewWellBalancedTree`: the hash of a single blob, or the blobs. -/
def leafNodes (values : List Bytes) (hashType : HashType) : List WBTNode :=
  match values with
  | [v] => [.leaf 0 (computeLeaf H v hashType)]
  | _ => HashTree.leavesOf values

/-- `NewWellBalancedTree`. -/
def newWellBalancedTree (values : List Bytes) (hashType : HashType) : Option WellBalancedTree :=
  match leafNodes H values hashType with
  | [] => some ⟨.leaf 0 zeroHash, [], hashType⟩
  | leaves =>
    (buildTreeRecursive H leaves hashType leaves.length).map fun r => ⟨r.1, leaves, hashType⟩

/-- `RootHash`. -/
def WellBalancedTree.rootHash (tree : WellBalancedTree) : Bytes := bytesToHash tree.root.hash

/-- `index out of range`. -/
inductive TraceError where
  | indexOutOfRange
  deriving DecidableEq, Repr

/-- `Trace`: the number of leaves, the hash of the leaf, and the hashes beside its path. -/
def WellBalancedTree.trace (tree : WellBalancedTree) (index : ℤ) :
    Except TraceError (ℕ × Bytes × List Bytes) :=
  let treeLen := tree.leaves.length
  if index < 0 ∨ (treeLen : ℤ) ≤ index then .error .indexOutOfRange
  else
    match tree.leaves[index.toNat]? with
    | none => .error .indexOutOfRange
    | some current =>
      let path := HashTree.climb tree.root zeroHash true treeLen (some current) []
      .ok (treeLen, current.hash, path.reverse)

end

section

/-- `computeDirectionsForIndex`, `true` for a 1. -/
def computeDirectionsForIndex (index n : ℕ) : ℕ → List Bool
  | 0 => []
  | levels + 1 =>
    if n ≤ 1 then []
    else
      let leftCount := (n + 1) / 2
      if index < leftCount then false :: computeDirectionsForIndex index leftCount levels
      else true :: computeDirectionsForIndex (index - leftCount) (n - leftCount) levels

variable (H : HashType → HashFn)

/-- One step of the loop of `VerifyWBT`. -/
def mergeStep (current : Bytes) (step : Bool × Bytes) : Bytes :=
  if step.1 then computeNode H (step.2 ++ current) .blake2b
  else computeNode H (current ++ step.2) .blake2b

/-- `VerifyWBT`: the computed root, and whether it is the given one. -/
def verifyWBT (treeLen : ℕ) (index : ℤ) (root leafHash : Bytes) (reversedPath : List Bytes) :
    Except TraceError (Bytes × Bool) :=
  if index < 0 ∨ (treeLen : ℤ) ≤ index then .error .indexOutOfRange
  else
    let path := reversedPath.reverse
    let dirs := (computeDirectionsForIndex index.toNat treeLen path.length).reverse
    let current := (dirs.zip path).foldl (mergeStep H) leafHash
    .ok (bytesToHash current, root == current)

end

section

/-- The directions from the root to a leaf. -/
def directions (index n : ℕ) : List Bool :=
  if n ≤ 1 then []
  else if index < (n + 1) / 2 then false :: directions index ((n + 1) / 2)
  else true :: directions (index - (n + 1) / 2) (n - (n + 1) / 2)
termination_by n

variable {index n : ℕ}

/-- `computeDirectionsForIndex` stops after the given number of levels. -/
theorem computeDirectionsForIndex_eq (levels : ℕ) :
    computeDirectionsForIndex index n levels = (directions index n).take levels := by
  induction levels generalizing index n with
  | zero => simp [computeDirectionsForIndex]
  | succ levels ih =>
    rw [computeDirectionsForIndex, directions]
    split_ifs with h1 h2
    · rfl
    · simp [ih, h2]
    · simp [ih, not_lt.mp h2]

/-- A leaf is less than the number of leaves below the root. -/
theorem length_directions_lt (hn : 0 < n) : (directions index n).length < n := by
  induction n using Nat.strong_induction_on generalizing index with
  | _ n ih =>
    rw [directions]
    split_ifs with h1 h2
    · exact hn
    · have hleft := @ih ((n + 1) / 2) (by omega) index (by omega)
      rw [length_cons]
      omega
    · have hright := @ih (n - (n + 1) / 2) (by omega) (index - (n + 1) / 2) (by omega)
      rw [length_cons]
      omega

end

variable {H : HashType → HashFn} {hashType : HashType}

/-- How `buildTreeRecursive` combines the hashes of two children. -/
def combineNodes (H : HashType → HashFn) (hashType : HashType) (a b : Bytes) : Bytes :=
  computeNode H (a ++ b) hashType

/-- A tree over some nodes that splits them at the middle. -/
inductive Split (H : HashType → HashFn) (hashType : HashType) : List WBTNode → WBTNode → Prop
  | single (x : WBTNode) : Split H hashType [x] x
  | node {nodes : List WBTNode} {id : ℕ} {l r : WBTNode} (htwo : 2 ≤ nodes.length)
      (hl : Split H hashType (nodes.take ((nodes.length + 1) / 2)) l)
      (hr : Split H hashType (nodes.drop ((nodes.length + 1) / 2)) r) :
      Split H hashType nodes (.node id (computeNode H (l.hash ++ r.hash) hashType) l r)

variable {nodes : List WBTNode}

theorem Split.hashed {t : WBTNode} (h : Split H hashType nodes t)
    (hnodes : ∀ x ∈ nodes, x.Hashed (combineNodes H hashType)) :
    t.Hashed (combineNodes H hashType) := by
  induction h with
  | single x => exact hnodes x (.head _)
  | node _ _ _ ihl ihr =>
    exact ⟨rfl, ihl fun x hx => hnodes x (mem_of_mem_take hx),
      ihr fun x hx => hnodes x (mem_of_mem_drop hx)⟩

/-- **The directions of an index lead to the node of that index.** -/
theorem Split.sub {t : WBTNode} (h : Split H hashType nodes t) {i : ℕ}
    (hi : i < nodes.length) : t.sub (directions i nodes.length) = nodes[i]? := by
  induction h generalizing i with
  | single x =>
    obtain rfl : i = 0 := by simpa using hi
    rw [directions]
    rfl
  | @node nodes id l r htwo hl hr ihl ihr =>
    have hlenl : (nodes.take ((nodes.length + 1) / 2)).length = (nodes.length + 1) / 2 := by
      rw [length_take]
      omega
    rw [directions, if_neg (by omega)]
    split_ifs with hside
    · have hsub := ihl (i := i) (by omega)
      rw [hlenl] at hsub
      rw [HashTree.sub_cons_node, HashTree.side, if_neg (by simp), hsub, getElem?_take_of_lt hside]
    · have hsub := ihr (i := i - (nodes.length + 1) / 2) (by rw [length_drop]; omega)
      rw [length_drop, getElem?_drop, Nat.add_sub_cancel' (not_lt.mp hside)] at hsub
      rw [HashTree.sub_cons_node, HashTree.side, if_pos rfl, hsub]

/-- What `buildTreeRecursive` makes of some nodes: such a tree, with the new nodes at
addresses from `next` on. -/
structure Balanced (H : HashType → HashFn) (hashType : HashType) (nodes : List WBTNode)
    (next next' : ℕ) (t : WBTNode) : Prop where
  split : Split H hashType nodes t
  next_le : next ≤ next'
  nodup : t.addresses.Nodup
  addresses : ∀ p ∈ t.addresses, p ∈ nodes.flatMap addresses ∨ (next ≤ p ∧ p < next')

theorem addresses_split (nodes : List WBTNode) (mid : ℕ) :
    nodes.flatMap addresses = (nodes.take mid).flatMap addresses ++
      (nodes.drop mid).flatMap addresses := by
  rw [← flatMap_append, take_append_drop]

/-- Two halves of the nodes are put together under a new node. -/
theorem Balanced.node {next n₁ n₂ : ℕ} {l r : WBTNode}
    (htwo : 2 ≤ nodes.length) (hnodup : (nodes.flatMap HashTree.addresses).Nodup)
    (hlt : ∀ p ∈ nodes.flatMap HashTree.addresses, p < next)
    (hl : Balanced H hashType (nodes.take ((nodes.length + 1) / 2)) next n₁ l)
    (hr : Balanced H hashType (nodes.drop ((nodes.length + 1) / 2)) n₁ n₂ r) :
    Balanced H hashType nodes next (n₂ + 1)
      (.node n₂ (computeNode H (l.hash ++ r.hash) hashType) l r) := by
  set mid := (nodes.length + 1) / 2 with hmid
  rw [addresses_split nodes mid] at hnodup hlt
  obtain ⟨-, -, hdisj⟩ := nodup_append'.mp hnodup
  have hnext := hl.next_le
  have hnext' := hr.next_le
  -- An address of the left half is old and in its first part, or new and below `n₁`.
  have hleft : ∀ p ∈ l.addresses, p < n₁ ∧
      (p < next → p ∈ (nodes.take mid).flatMap HashTree.addresses) := by
    intro p hp
    rcases hl.addresses p hp with hold | hnew
    · have := hlt p (mem_append_left _ hold)
      exact ⟨by omega, fun _ => hold⟩
    · exact ⟨hnew.2, fun h => absurd h hnew.1.not_gt⟩
  have hright : ∀ p ∈ r.addresses, p < n₂ ∧
      (p < n₁ → p < next ∧ p ∈ (nodes.drop mid).flatMap HashTree.addresses) := by
    intro p hp
    rcases hr.addresses p hp with hold | hnew
    · have := hlt p (mem_append_right _ hold)
      exact ⟨by omega, fun _ => ⟨this, hold⟩⟩
    · exact ⟨hnew.2, fun h => absurd h hnew.1.not_gt⟩
  refine ⟨.node htwo hl.split hr.split, by omega, HashTree.nodup_node.mpr ⟨fun hp => ?_,
    fun hp => ?_, hl.nodup, hr.nodup, fun p hpl hpr => ?_⟩, fun p hp => ?_⟩
  · have := (hleft _ hp).1
    omega
  · have := (hright _ hp).1
    omega
  · obtain ⟨hlow, hpl⟩ := hleft p hpl
    obtain ⟨hpnext, hpr⟩ := (hright p hpr).2 hlow
    exact hdisj (hpl hpnext) hpr
  · rw [addresses_split nodes mid]
    rcases mem_cons.mp hp with rfl | hp
    · exact .inr ⟨by omega, by omega⟩
    · rcases mem_append.mp hp with hp | hp
      · rcases hl.addresses p hp with hold | hnew
        · exact .inl (mem_append_left _ hold)
        · exact .inr ⟨hnew.1, by omega⟩
      · rcases hr.addresses p hp with hold | hnew
        · exact .inl (mem_append_right _ hold)
        · exact .inr ⟨by omega, by omega⟩

/-- **`buildTreeRecursive` of nodes at different addresses.** -/
theorem buildTreeRecursive_spec {next : ℕ} (hne : nodes ≠ [])
    (hnodup : (nodes.flatMap addresses).Nodup)
    (hlt : ∀ p ∈ nodes.flatMap addresses, p < next) :
    ∃ t next', buildTreeRecursive H nodes hashType next = some (t, next') ∧
      Balanced H hashType nodes next next' t := by
  induction hn : nodes.length using Nat.strong_induction_on generalizing nodes next with
  | _ n ih =>
    match nodes, hne with
    | [x], _ =>
      have hflat : [x].flatMap addresses = x.addresses := by simp
      rw [hflat] at hnodup
      refine ⟨x, next, by rw [buildTreeRecursive], .single x, le_refl _, hnodup, fun p hp => ?_⟩
      rw [hflat]
      exact .inl hp
    | x :: y :: rest, _ =>
      set nodes := x :: y :: rest with hnodes
      have hlen : nodes.length = rest.length + 2 := rfl
      have hsplit := addresses_split nodes ((nodes.length + 1) / 2)
      obtain ⟨hnl, hnr, -⟩ := nodup_append'.mp (hsplit ▸ hnodup)
      have hltl := fun p hp => hlt p (hsplit ▸ mem_append_left _ hp)
      have hltr := fun p hp => hlt p (hsplit ▸ mem_append_right _ hp)
      obtain ⟨l, n₁, hbl, hl⟩ := ih (nodes.take ((nodes.length + 1) / 2)).length
        (by rw [length_take]; omega)
        (by rw [← length_pos_iff, length_take]; omega) hnl hltl rfl
      have hnext := hl.next_le
      obtain ⟨r, n₂, hbr, hr⟩ := ih (nodes.drop ((nodes.length + 1) / 2)).length
        (by rw [length_drop]; omega)
        (by rw [← length_pos_iff, length_drop]; omega) hnr
        (fun p hp => (hltr p hp).trans_le hnext) rfl
      refine ⟨_, n₂ + 1, ?_, Balanced.node (by omega) hnodup hlt hl hr⟩
      rw [hlen] at hbl hbr
      rw [hnodes, buildTreeRecursive, hbl]
      simp only
      rw [hbr]

variable {values : List Bytes}

theorem length_leafNodes : (leafNodes H values hashType).length = values.length := by
  unfold leafNodes
  split
  · rfl
  · simp

/-- The leaves are at different addresses, below their number. -/
theorem addresses_leafNodes :
    (leafNodes H values hashType).flatMap addresses = range values.length := by
  unfold leafNodes
  split
  · rfl
  · exact HashTree.addresses_leavesOf values

theorem hashed_leafNodes : ∀ x ∈ leafNodes H values hashType,
    x.Hashed (combineNodes H hashType) := by
  intro x hx
  unfold leafNodes at hx
  split at hx
  · rw [mem_singleton.mp hx]
    trivial
  · obtain ⟨i, a, -, rfl⟩ := HashTree.exists_of_mem_leavesOf hx
    trivial

/-- **The tree of a list of blobs.** -/
theorem newWellBalancedTree_spec (H : HashType → HashFn) (hashType : HashType) (hne : values ≠ []) :
    ∃ tree, newWellBalancedTree H values hashType = some tree ∧
      tree.leaves = leafNodes H values hashType ∧
      ∃ next', Balanced H hashType (leafNodes H values hashType) values.length next' tree.root := by
  have hlen : (leafNodes H values hashType).length = values.length := length_leafNodes
  have haddr : (leafNodes H values hashType).flatMap addresses =
      range values.length := addresses_leafNodes
  have hleaves : leafNodes H values hashType ≠ [] := by
    rw [← length_pos_iff, hlen]
    exact length_pos_iff.mpr hne
  obtain ⟨t, next', hbuild, hbalanced⟩ := buildTreeRecursive_spec hleaves
    (by rw [haddr]; exact nodup_range)
    (fun p hp => by rw [haddr] at hp; exact mem_range.mp hp)
  refine ⟨⟨t, leafNodes H values hashType, hashType⟩, ?_, rfl, next', hbalanced⟩
  unfold newWellBalancedTree
  split
  · exact absurd ‹_› hleaves
  · rw [hlen, hbuild]
    rfl

/-- `Trace` of a tree whose leaf `i` is at the end of the directions of `i`. -/
theorem trace_eq {tree : WellBalancedTree} {next next' i : ℕ} {leaf : WBTNode}
    (h : Balanced H hashType tree.leaves next next' tree.root)
    (hleaf : tree.leaves[i]? = some leaf) :
    tree.trace i = .ok (tree.leaves.length, leaf.hash,
      tree.root.copath (directions i tree.leaves.length)) := by
  have hi : i < tree.leaves.length := (List.getElem?_eq_some_iff.mp hleaf).1
  have hsub := (h.split.sub hi).trans hleaf
  have hclimb := HashTree.climb_eq h.nodup zeroHash true hsub
    (length_directions_lt (Nat.zero_lt_of_lt hi)) []
  rw [WellBalancedTree.trace, if_neg (by omega), Int.toNat_natCast, hleaf]
  simp only [hclimb, nil_append, reverse_reverse]

/-- `VerifyWBT` takes as many hashes from the end of the path as the leaf has levels. -/
theorem verifyWBT_eq {n i : ℕ} (hi : i < n) (root leafHash : Bytes) (path : List Bytes) :
    verifyWBT H n i root leafHash path =
      let current := HashTree.foldPath (combineNodes H .blake2b) leafHash (directions i n)
        (path.drop (path.length - (directions i n).length))
      .ok (bytesToHash current, root == current) := by
  set ds := directions i n with hds
  set used := path.drop (path.length - ds.length) with hused
  set taken := ds.take path.length with htaken
  have hlen : taken.length = used.length := by
    rw [htaken, length_take, hused, length_drop]
    omega
  have hzip : taken.reverse.zip path.reverse = taken.reverse.zip used.reverse := by
    have hpath : path.reverse = used.reverse ++ (path.take (path.length - ds.length)).reverse := by
      rw [hused, ← reverse_append, take_append_drop]
    rw [hpath]
    nth_rewrite 1 [← append_nil taken.reverse]
    rw [zip_append (by simp [hlen]), zip_nil_left, append_nil]
  have hfold : (taken.reverse.zip used.reverse).foldl (mergeStep H) leafHash =
      HashTree.foldPath (combineNodes H .blake2b) leafHash taken used :=
    HashTree.foldl_zip_reverse (fun _ _ _ => rfl) leafHash hlen
  have htake : taken = ds.take used.length := by
    rw [← hlen, htaken, length_take, take_eq_take_iff]
    omega
  rw [verifyWBT, if_neg (by omega), Int.toNat_natCast]
  simp only [length_reverse, computeDirectionsForIndex_eq]
  rw [← hds, hzip, hfold, htake, HashTree.foldPath_take]

end JamDuna.Trie
