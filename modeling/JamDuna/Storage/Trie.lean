/-
# The trie operations

`storage/trie.go`: insertion, update and deletion on the nodes, and `Flush`, which
applies the staged operations, deletes first. Go iterates over its maps in any
order, so `flush` takes the orders as arguments.

`insertNode`, `createBranchNode` and `updateTree` end with the same statements,
`rehash` here: a missing child becomes an empty node, and the hash of the node is
computed and stored. `createBranchNode` reads the value of the leaf that it moves
from the trie, starting at the root.
-/

import JamDuna.Storage.Nodes

namespace JamDuna.Storage

variable (H : HashFn)

/-- A new leaf of a key. -/
def leafNode (key value : Bytes) : Node := ⟨H (trieLeaf H key value), some key, none, none⟩

/-- The common end of `insertNode`, `createBranchNode` and `updateTree`. -/
def rehash (m : Mem) (p : ℕ) : Mem :=
  let leftHash := m.hashOf (m.node p).left
  let rightHash := m.hashOf (m.node p).right
  let l := m.orEmpty (m.node p).left
  let r := l.2.orEmpty (m.node p).right
  let hash := H (trieBranch leftHash rightHash)
  levelDBSetBranch (r.2.set p { m.node p with hash := hash, left := l.1, right := r.1 }) hash
    (fixed 32 leftHash ++ fixed 32 rightHash)

/-- The recursive call on the side of the key, and the assignment of its result. -/
def descendInto (f : Option ℕ → ℕ → Mem → Option ℕ × Mem) (key : Bytes) (depth p : ℕ) (m : Mem) :
    Mem :=
  let r := f ((m.node p).child (trieBit key depth)) (depth + 1) m
  r.2.set p ((r.2.node p).setChild (trieBit key depth) r.1)

/-- `createBranchNode`, given `insertNode` for the next depth: the leaf moves below
itself, and the insertion goes on below the new branch. -/
def createBranchNode (insert : Option ℕ → ℕ → Mem → Option ℕ × Mem) (root : Option ℕ)
    (key : Bytes) (depth p : ℕ) (m : Mem) : Mem :=
  let existingKey := (m.node p).key
  let existing := existingKey.getD []
  let existingValue := match getFromStorageLocked m existing root with
    | .ok (some v) => v
    | _ => []
  let c := m.new ⟨H (trieLeaf H existing existingValue), existingKey, none, none⟩
  let m := c.2.set p ({ m.node p with key := none }.setChild (trieBit existing depth) c.1)
  rehash H (descendInto insert key depth p m) p

/-- `insertNode`, with the levels that are left before the key has no more bits. -/
def insertNode (root : Option ℕ) (key value : Bytes) : ℕ → Option ℕ → ℕ → Mem → Option ℕ × Mem
  | 0, _, _, m => m.new (leafNode H key value)
  | _ + 1, none, _, m => m.new (leafNode H key value)
  | n + 1, some p, depth, m =>
    if (m.node p).hash = zeroHash then m.new (leafNode H key value)
    else if (m.node p).left = none ∧ (m.node p).right = none then
      if (m.node p).key = some key then
        (some p, m.set p { m.node p with hash := H (trieLeaf H key value) })
      else (some p, createBranchNode H (insertNode root key value n) root key depth p m)
    else (some p, rehash H (descendInto (insertNode root key value n) key depth p m) p)

/-- `updateTree`. -/
def updateTree (key value : Bytes) : ℕ → Option ℕ → ℕ → Mem → Mem
  | 0, _, _, m => m
  | _ + 1, none, _, m => m
  | n + 1, some p, depth, m =>
    if (m.node p).key = some key then
      m.set p { m.node p with hash := H (trieLeaf H key value) }
    else
      rehash H (updateTree key value n ((m.node p).child (trieBit key depth)) (depth + 1) m) p

/-- The end of `deleteNode`: a node without children becomes a new empty node, one
that is left with a leaf becomes that leaf, and any other gets its new hash. -/
def collapseNode (m : Mem) (p : ℕ) : Option ℕ × Mem :=
  let left := (m.node p).left
  let right := (m.node p).right
  if m.isEmpty left && m.isEmpty right then m.new Node.zero
  else if m.isEmpty left && m.isLeaf right then (right, m)
  else if m.isEmpty right && m.isLeaf left then (left, m)
  else
    let hash := H (trieBranch (m.hashOf left) (m.hashOf right))
    (some p, levelDBSetBranch (m.set p { m.node p with hash := hash }) hash
      (fixed 32 (m.hashOf left) ++ fixed 32 (m.hashOf right)))

/-- `deleteNode`. A leaf with another key is treated as a branch without children. -/
def deleteNode (key : Bytes) : ℕ → Option ℕ → ℕ → Mem → Option ℕ × Mem
  | 0, node, _, m => (node, m)
  | _ + 1, none, _, m => (none, m)
  | n + 1, some p, depth, m =>
    if (m.node p).hash = zeroHash then (some p, m)
    else if (m.node p).key = some key then m.new Node.zero
    else collapseNode H (descendInto (deleteNode key n) key depth p m) p

/-- `MerkleTree`, without the locks and the page-based storage. -/
structure MerkleTree where
  root : Option ℕ
  stagedInserts : List (Bytes × Bytes)
  stagedDeletes : List Bytes
  deriving DecidableEq, Repr

/-- The delete part of `Flush`, for one key. -/
def flushDelete (r : Option ℕ × Mem) (key : Bytes) : Option ℕ × Mem :=
  deleteNode H key (trieComputeKeyLengthAsBit key + 1) r.1 0 r.2

/-- The insert part of `Flush`, for one key. -/
def flushInsert (r : Option ℕ × Mem) (kv : Bytes × Bytes) : Option ℕ × Mem :=
  let (key, value) := kv
  let levels := trieComputeKeyLengthAsBit key + 1
  let encodedLeaf := trieLeaf H key value
  let m := levelDBSetLeaf H r.2 encodedLeaf value key
  match findNode r.2 key (r.2.heap.length + 1) r.1 0, r.1 with
  | none, none => m.new ⟨H encodedLeaf, some key, none, none⟩
  | none, some p => insertNode H (some p) key value levels (some p) 0 m
  | some q, root =>
    (root, updateTree H key value levels root 0
      (m.set q { m.node q with hash := H (trieLeaf H key value) }))

/-- `Flush`: the staged deletes in the order `deletes`, then the staged inserts in
the order `inserts`. -/
def flush (m : Mem) (t : MerkleTree) (deletes : List Bytes) (inserts : List (Bytes × Bytes)) :
    MerkleTree × Mem :=
  let r := inserts.foldl (flushInsert H) (deletes.foldl (flushDelete H) (t.root, m))
  (⟨r.1, [], []⟩, r.2)

/-- `Insert`. -/
def MerkleTree.insert (t : MerkleTree) (keyBytes value : Bytes) : MerkleTree :=
  let key := trieNormalizeKey32 keyBytes
  { t with
    stagedInserts := (key, value) :: t.stagedInserts.filter fun kv => kv.1 ≠ key
    stagedDeletes := t.stagedDeletes.filter (· ≠ key) }

/-- `Get`. -/
def MerkleTree.get (m : Mem) (t : MerkleTree) (keyBytes : Bytes) :
    Except TrieError (Option Bytes) :=
  let key := trieNormalizeKey32 keyBytes
  if key ∈ t.stagedDeletes then .ok none
  else match t.stagedInserts.find? fun kv => kv.1 = key with
    | some kv => .ok (some kv.2)
    | none => getFromStorageLocked m key t.root

/-- `Delete`. -/
def MerkleTree.delete (m : Mem) (t : MerkleTree) (keyBytes : Bytes) :
    Except TrieError MerkleTree := do
  let key := trieNormalizeKey32 keyBytes
  match ← t.get m key with
  | none => .error (.cannotDelete key)
  | some _ => return { t with
      stagedInserts := t.stagedInserts.filter fun kv => kv.1 ≠ key
      stagedDeletes := key :: t.stagedDeletes.filter (· ≠ key) }

/-- `buildMerkleTree`. The levels run out when two pairs have the same key, where
the source does not return. -/
def buildMerkleTree : ℕ → ℕ → List (Bytes × Bytes) → Mem → Option (ℕ × Mem)
  | _, _, [], m => some (m.heap.length, { m with heap := m.heap ++ [Node.zero] })
  | _, _, [(k, v)], m =>
    let m := levelDBSetLeaf H m (trieLeaf H k v) v k
    some (m.heap.length, { m with heap := m.heap ++ [leafNode H k v] })
  | 0, _, _ :: _ :: _, _ => none
  | n + 1, i, kv :: kv' :: kvs, m => do
    let (left, m) ← buildMerkleTree n (i + 1) ((kv :: kv' :: kvs).filter fun e => !trieBit e.1 i) m
    let (right, m) ← buildMerkleTree n (i + 1) ((kv :: kv' :: kvs).filter fun e => trieBit e.1 i) m
    let encoded := trieBranch (m.node left).hash (m.node right).hash
    let branchHash := H encoded
    let m := levelDBSetBranch m branchHash encoded
    return (m.heap.length, { m with heap := m.heap ++ [⟨branchHash, none, some left, some right⟩] })

/-- `NewMerkleTree`: a trie of its own, on an empty store. -/
def newMerkleTree (data : List (Bytes × Bytes)) : Option (MerkleTree × Mem) :=
  if data.length = 0 then some (⟨none, [], []⟩, ⟨[], fun _ => none⟩)
  else do
    let (root, m) ← buildMerkleTree H keyBits 0 data ⟨[], fun _ => none⟩
    return (⟨some root, [], []⟩, m)

end JamDuna.Storage
