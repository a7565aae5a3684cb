/-
# Proofs of well-balanced trees

`VerifyWBT` of `trie/wbt.go` against the tree that `NewWellBalancedTree` builds. What
`Trace` returns is accepted (`verifyWBT_trace`).

The converse is limited by what `VerifyWBT` does not check. It walks along the directions
of the index for as many levels as the path has entries: a path that is too short ends at
an inner node, whose hash is then accepted for a leaf, and of a path that is too long the
first entries are not looked at. And it hashes the concatenation of two neighbours, so
that bytes can be moved from one to the other. An accepted proof is the one that `Trace`
returns exactly when its path has the same number of entries of the same lengths
(`verifyWBT_sound_iff`).
-/

import JamDuna.Basis.EarlyExit
import JamDuna.Trie.WellBalanced
import JamDuna.Storage.SmallHash

namespace JamDuna.Trie

open JamDuna.Basis Storage List

variable (H : HashType → HashFn)

/-- What is hashed for the nodes of a tree. -/
def nodeInputs : WBTNode → List Bytes
  | .leaf _ _ => []
  | .node _ _ l r => (nodeTag ++ (l.hash ++ r.hash)) :: (nodeInputs l ++ nodeInputs r)

/-- What is hashed to compute a root along directions. -/
def foldInputs (x : Bytes) : List Bool → List Bytes → List Bytes
  | b :: ds, y :: path =>
    let z := HashTree.foldPath (combineNodes H .blake2b) x ds path
    (nodeTag ++ if b then y ++ z else z ++ y) :: foldInputs x ds path
  | _, _ => []

/-- What `VerifyWBT` hashes. -/
def verifyInputs (n index : ℕ) (leafHash : Bytes) (path : List Bytes) : List Bytes :=
  foldInputs H leafHash (directions index n) (path.drop (path.length - (directions index n).length))

/-- The hash has no collisions on the inputs. -/
def NoCollision (h : HashFn) (S : List Bytes) : Prop := ∀ x ∈ S, ∀ y ∈ S, h x = h y → x = y

instance decidableNoCollision (h : HashFn) (S : List Bytes) : Decidable (NoCollision h S) :=
  inferInstanceAs (Decidable (∀ x ∈ S, ∀ y ∈ S, _ → _))

variable {H} {t s : WBTNode} {ds : List Bool} {S : List Bytes} {x : Bytes} {path : List Bytes}

/-- **A path with entries of the right lengths** that leads to the root of a tree is the
copath, and it starts at the node that the directions lead to. -/
theorem eq_copath_of_foldPath (nc : NoCollision (H .blake2b) S)
    (ht : t.Hashed (combineNodes H .blake2b)) (hsub : t.sub ds = some s)
    (hlen : path.map length = (t.copath ds).map length)
    (hnode : ∀ y ∈ nodeInputs t, y ∈ S) (hfold : ∀ y ∈ foldInputs H x ds path, y ∈ S)
    (h : HashTree.foldPath (combineNodes H .blake2b) x ds path = t.hash) :
    x = s.hash ∧ path = t.copath ds := by
  induction hsub using HashTree.sub_induction generalizing path with
  | nil =>
    obtain rfl : path = [] := by simpa [HashTree.copath] using hlen
    exact ⟨h, rfl⟩
  | cons id hash l r b ds hsub ih =>
    rw [HashTree.copath_cons_node] at hlen ⊢
    cases path with
    | nil => cases hlen
    | cons y path =>
      obtain ⟨hy, hpath⟩ := cons.inj hlen
      set z := HashTree.foldPath (combineNodes H .blake2b) x ds path with hz
      -- The two inputs are equal, and the length of `y` says where they are cut.
      have hinput : nodeTag ++ (if b then y ++ z else z ++ y) = nodeTag ++ (l.hash ++ r.hash) := by
        refine nc _ (hfold _ (mem_cons_self ..)) _ (hnode _ (mem_cons_self ..)) ?_
        have hroot : hash = computeNode H (l.hash ++ r.hash) .blake2b := ht.1
        have hcomputed : HashTree.foldPath (combineNodes H .blake2b) x (b :: ds) (y :: path) =
            H .blake2b (nodeTag ++ if b then y ++ z else z ++ y) := by
          cases b <;> rfl
        exact hcomputed.symm.trans (h.trans hroot)
      have hpair := append_cancel_left hinput
      have hside : y = (HashTree.side (!b) l r).hash ∧ z = (HashTree.side b l r).hash := by
        cases b with
        | false =>
          obtain ⟨hzl, hyr⟩ := append_inj' hpair hy
          exact ⟨hyr, hzl⟩
        | true =>
          obtain ⟨hyl, hzr⟩ := append_inj hpair hy
          exact ⟨hyl, hzr⟩
      have hsub' : ∀ y ∈ nodeInputs (HashTree.side b l r), y ∈ S := by
        intro y hy
        refine hnode y (.tail _ ?_)
        cases b
        · exact mem_append_left _ hy
        · exact mem_append_right _ hy
      obtain ⟨hx, hrest⟩ := ih (HashTree.hashed_side ht b) hpath hsub'
        (fun y hy => hfold y (.tail _ hy)) hside.2
      exact ⟨hx, by rw [hside.1, hrest]⟩

variable {values : List Bytes}

/-- The hash of a leaf: the hash of a single blob, or the blob. -/
def leafOf (H : HashType → HashFn) (values : List Bytes) (hashType : HashType) (i : ℕ) :
    Option Bytes :=
  (leafNodes H values hashType)[i]?.map HashTree.hash

/-- The root has 32 bytes: it is a leaf only when there is one blob, and then a hash. -/
theorem Split.length_root {t : WBTNode} (h : Split H .blake2b (leafNodes H values .blake2b) t) :
    t.hash.length = 32 := by
  generalize hnodes : leafNodes H values .blake2b = nodes at h
  cases h with
  | single x =>
    have hlen : (leafNodes H values .blake2b).length = values.length := length_leafNodes
    rw [hnodes] at hlen
    obtain ⟨v, rfl⟩ := length_eq_one_iff.mp hlen.symm
    obtain rfl := singleton_inj.mp hnodes
    exact (H .blake2b).length_run _
  | node => exact (H .blake2b).length_run _

/-- What the tree of some blobs and a leaf of it look like. -/
structure LeafAt (H : HashType → HashFn) (values : List Bytes) (tree : WellBalancedTree) (i : ℕ)
    (leaf : WBTNode) : Prop where
  split : Split H .blake2b (leafNodes H values .blake2b) tree.root
  leafOf_eq : leafOf H values .blake2b i = some leaf.hash
  sub : tree.root.sub (directions i values.length) = some leaf
  trace_eq : tree.trace i = .ok (values.length, leaf.hash,
    tree.root.copath (directions i values.length))

variable {tree : WellBalancedTree}

theorem LeafAt.hashed {i : ℕ} {leaf : WBTNode}
    (h : LeafAt H values tree i leaf) : tree.root.Hashed (combineNodes H .blake2b) :=
  h.split.hashed hashed_leafNodes

theorem LeafAt.rootHash_eq (h : LeafAt H values tree i leaf) : tree.rootHash = tree.root.hash :=
  bytesToHash_of_length h.split.length_root

/-- The tree of some blobs has the leaf of every index. -/
theorem exists_leafAt (H : HashType → HashFn) (hne : values ≠ []) :
    ∃ tree, newWellBalancedTree H values .blake2b = some tree ∧
      ∀ i < values.length, ∃ leaf, LeafAt H values tree i leaf := by
  obtain ⟨tree, hnew, hleaves, next', hbal⟩ := newWellBalancedTree_spec H .blake2b hne
  have hlen : (leafNodes H values .blake2b).length = values.length := length_leafNodes
  have hsplit := hbal.split
  refine ⟨tree, hnew, fun i hi => ?_⟩
  obtain ⟨leaf, hleaf⟩ : ∃ leaf, (leafNodes H values .blake2b)[i]? = some leaf :=
    ⟨_, getElem?_eq_getElem (by omega)⟩
  have hof : leafOf H values .blake2b i = some leaf.hash := by rw [leafOf, hleaf]; rfl
  rw [← hleaves] at hlen hbal hleaf
  have hsub := (hbal.split.sub (by omega)).trans hleaf
  have htrace := trace_eq hbal hleaf
  rw [hlen] at hsub htrace
  exact ⟨leaf, hsplit, hof, hsub, htrace⟩

/-- An accepted proof computes the root along the directions of its index. -/
theorem LeafAt.accepts_iff (h : LeafAt H values tree i leaf) (hi : i < values.length)
    {leafHash : Bytes} {path : List Bytes} :
    (∃ c, verifyWBT H values.length i tree.rootHash leafHash path = .ok (c, true)) ↔
      HashTree.foldPath (combineNodes H .blake2b) leafHash (directions i values.length)
        (path.drop (path.length - (directions i values.length).length)) = tree.root.hash := by
  rw [verifyWBT_eq hi, h.rootHash_eq]
  simp only [Except.ok.injEq, Prod.mk.injEq, exists_eq_left', beq_iff_eq]
  exact eq_comm

/-- **What `Trace` returns is accepted.** -/
theorem LeafAt.accepts (h : LeafAt H values tree i leaf) (hi : i < values.length) :
    verifyWBT H values.length i tree.rootHash leaf.hash
      (tree.root.copath (directions i values.length)) = .ok (tree.rootHash, true) := by
  have hlen := HashTree.length_copath h.sub
  have hfold := HashTree.foldPath_copath h.hashed h.sub
  rw [verifyWBT_eq hi, hlen, Nat.sub_self, drop_zero, hfold, h.rootHash_eq]
  simp only [bytesToHash_of_length h.split.length_root, beq_self_eq_true]

/-- **Which accepted proofs are the one of `Trace`.** For any index, leaf and path that are
accepted for the tree of some blobs: the leaf is that of the index and the path is the one
that `Trace` returns, exactly when the path has the same number of entries, of the same
lengths. -/
theorem verifyWBT_sound_iff (H : HashType → HashFn) {values : List Bytes} (hne : values ≠ []) :
    ∃ tree, newWellBalancedTree H values .blake2b = some tree ∧
      ∀ (index : ℤ) (leafHash : Bytes) (path : List Bytes),
        NoCollision (H .blake2b) (nodeInputs tree.root ++
          verifyInputs H values.length index.toNat leafHash path) →
        (∃ c, verifyWBT H values.length index tree.rootHash leafHash path = .ok (c, true)) →
        ∃ leaf copath, tree.trace index = .ok (values.length, leaf, copath) ∧
          leafOf H values .blake2b index.toNat = some leaf ∧
          ((leafHash = leaf ∧ path = copath) ↔ path.map length = copath.map length) := by
  obtain ⟨tree, hnew, hleaves⟩ := exists_leafAt H hne
  refine ⟨tree, hnew, fun index leafHash path nc haccept => ?_⟩
  by_cases hrange : index < 0 ∨ (values.length : ℤ) ≤ index
  · obtain ⟨c, hc⟩ := haccept
    rw [verifyWBT, if_pos hrange] at hc
    cases hc
  · obtain ⟨i, rfl⟩ : ∃ i : ℕ, index = i := ⟨index.toNat, by omega⟩
    rw [Int.toNat_natCast] at nc ⊢
    obtain ⟨leaf, h⟩ := hleaves i (by omega)
    have hfold := (h.accepts_iff (by omega)).mp haccept
    refine ⟨leaf.hash, _, h.trace_eq, h.leafOf_eq, ?_⟩
    constructor
    · rintro ⟨-, rfl⟩
      rfl
    · intro hlen
      have hcount : path.length = (directions i values.length).length := by
        have := congrArg length hlen
        rwa [length_map, length_map, HashTree.length_copath h.sub] at this
      rw [verifyInputs] at nc
      rw [hcount, Nat.sub_self, drop_zero] at nc hfold
      exact eq_copath_of_foldPath nc h.hashed h.sub hlen
        (fun y hy => mem_append_left _ hy) (fun y hy => mem_append_right _ hy) hfold

/-- The tree of two blobs of one byte. -/
def oneAndTwo : List Bytes := [[1], [2]]

theorem verifyWBT_sound_oneAndTwo :
    ∃ tree, newWellBalancedTree (fun _ => polyHash) oneAndTwo .blake2b = some tree ∧
      NoCollision polyHash (nodeInputs tree.root ++
        verifyInputs (fun _ => polyHash) 2 0 [1] [[2]]) ∧
      (∃ c, verifyWBT (fun _ => polyHash) 2 0 tree.rootHash [1] [[2]] = .ok (c, true)) ∧
      ∃ leaf copath, tree.trace 0 = .ok (2, leaf, copath) ∧
        leafOf (fun _ => polyHash) oneAndTwo .blake2b 0 = some leaf ∧
        (([1] = leaf ∧ [[2]] = copath) ↔ [[2]].map length = copath.map length) := by
  obtain ⟨tree, hnew, hsound⟩ :=
    verifyWBT_sound_iff (fun _ => polyHash) (show oneAndTwo ≠ [] by decide)
  have hrun : ∀ t ∈ newWellBalancedTree (fun _ => polyHash) oneAndTwo .blake2b,
      NoCollision polyHash (nodeInputs t.root ++ verifyInputs (fun _ => polyHash) 2 0 [1] [[2]]) ∧
        verifyWBT (fun _ => polyHash) 2 0 t.rootHash [1] [[2]] = .ok (t.rootHash, true) := by
    decide +kernel
  obtain ⟨nc, haccept⟩ := hrun tree hnew
  exact ⟨tree, hnew, nc, ⟨_, haccept⟩, hsound 0 [1] [[2]] nc ⟨_, haccept⟩⟩

/-- **Proofs that `Trace` does not return are accepted**: one with an entry too many, the
root itself with no entry, and one in which a byte has moved from the path to the leaf. -/
theorem forged_proofs_accepted :
    ∃ tree, newWellBalancedTree (fun _ => polyHash) oneAndTwo .blake2b = some tree ∧
      tree.trace 0 = .ok (2, [1], [[2]]) ∧
      (NoCollision polyHash (nodeInputs tree.root ++
          verifyInputs (fun _ => polyHash) 2 0 [1] [[9], [2]]) ∧
        verifyWBT (fun _ => polyHash) 2 0 tree.rootHash [1] [[9], [2]] =
          .ok (tree.rootHash, true)) ∧
      (NoCollision polyHash (nodeInputs tree.root ++
          verifyInputs (fun _ => polyHash) 2 0 tree.rootHash []) ∧
        verifyWBT (fun _ => polyHash) 2 0 tree.rootHash tree.rootHash [] =
          .ok (tree.rootHash, true)) ∧
      NoCollision polyHash (nodeInputs tree.root ++
          verifyInputs (fun _ => polyHash) 2 0 [1, 2] [[]]) ∧
        verifyWBT (fun _ => polyHash) 2 0 tree.rootHash [1, 2] [[]] =
          .ok (tree.rootHash, true) := by
  decide +kernel

end JamDuna.Trie
