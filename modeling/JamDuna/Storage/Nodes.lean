/-
# Nodes, the heap and the node store

`storage/trie.go`: a trie is a graph of `Node`s behind pointers, and two tries can
share nodes. So the nodes are cells of an explicit heap, a pointer is a position
in it and `nil` is `none`; a new cell goes to the end. Beside the heap stands the
write batch of `storage/jam_backend.go`, one map from hashes to bytes for leaves,
branches and values, shared by all sessions of a backend.

The functions here read a trie or write single entries of the store. A recursion
that the source bounds by the bits of the key takes the number of levels that are
left, and a recursion without a bound the size of the heap, which is longer than
any path without a cycle.
-/

import JamDuna.Storage.Encoding

namespace JamDuna.Storage

/-- `Node`. -/
structure Node where
  hash : Bytes
  key : Option Bytes
  left : Option ℕ
  right : Option ℕ
  deriving DecidableEq, Repr

/-- An empty node: 32 zero bytes for its hash. -/
def Node.zero : Node := ⟨zeroHash, none, none, none⟩

/-- The child on the side of a bit. -/
def Node.child (n : Node) (right : Bool) : Option ℕ := if right then n.right else n.left

/-- Assigning to the child on the side of a bit. -/
def Node.setChild (n : Node) (right : Bool) (c : Option ℕ) : Node :=
  if right then { n with right := c } else { n with left := c }

/-- The write batch of the backend. -/
abbrev Store := Bytes → Option Bytes

/-- The cells of all tries, and the store they share. -/
structure Mem where
  heap : List Node
  store : Store

namespace Mem

/-- The cell behind a pointer. -/
def node (m : Mem) (p : ℕ) : Node := m.heap.getD p Node.zero

/-- A new cell. -/
def new (m : Mem) (n : Node) : Option ℕ × Mem :=
  (some m.heap.length, { m with heap := m.heap ++ [n] })

/-- Assigning to a cell. -/
def set (m : Mem) (p : ℕ) (n : Node) : Mem := { m with heap := m.heap.set p n }

/-- The hash of a child, 32 zero bytes for `nil`. -/
def hashOf (m : Mem) : Option ℕ → Bytes
  | none => zeroHash
  | some p => (m.node p).hash

/-- A child that is `nil` or has the zero hash. -/
def isEmpty (m : Mem) (c : Option ℕ) : Bool := m.hashOf c == zeroHash

/-- A child without children that has a key. -/
def isLeaf (m : Mem) : Option ℕ → Bool
  | none => false
  | some p => (m.node p).left.isNone && (m.node p).right.isNone && (m.node p).key.isSome

/-- A child, or a new empty node in the place of `nil`. -/
def orEmpty (m : Mem) : Option ℕ → Option ℕ × Mem
  | none => m.new Node.zero
  | some p => (some p, m)

/-- `levelDBSet`. -/
def levelDBSet (m : Mem) (k v : Bytes) : Mem :=
  { m with store := Function.update m.store k (some v) }

end Mem

section

variable (H : HashFn)

/-- `[]byte("branch")`. -/
def branchTag : Bytes := [0x62, 0x72, 0x61, 0x6e, 0x63, 0x68]

/-- `levelDBSetBranch`. -/
def levelDBSetBranch (m : Mem) (branchHash value : Bytes) : Mem :=
  m.levelDBSet branchHash (branchTag ++ value)

/-- `levelDBSetLeaf`: the key under the hash of leaf hash and value, the leaf under
its hash, and a long value under its own. -/
def levelDBSetLeaf (m : Mem) (encodedLeaf value key : Bytes) : Mem :=
  let encodedLeafHash := H encodedLeaf
  let m := m.levelDBSet (H (encodedLeafHash ++ value)) key
  let m := m.levelDBSet encodedLeafHash encodedLeaf
  match trieDecodeLeaf encodedLeaf with
  | .ok (_, _, true) => m
  | .ok (_, v, false) => m.levelDBSet v value
  | .error _ => m.levelDBSet zeroHash value

/-- `getDBLeafValue`. -/
def getDBLeafValue (store : Store) (nodeHash : Bytes) : Except TrieError (Option Bytes) :=
  match store nodeHash with
  | none => .ok none
  | some encodedLeaf =>
    match trieDecodeLeaf encodedLeaf with
    | .error e => .error (.decodeLeaf e)
    | .ok (_, v, true) => .ok (some v)
    | .ok (_, v, false) => .ok (store v)

end

/-- `trieComputeKeyLengthAsBit`. -/
def trieComputeKeyLengthAsBit (key : Bytes) : ℕ := key.length * 8

variable (m : Mem) (key : Bytes)

/-- `getValue`, with the levels that are left before the key has no more bits. -/
def getValue : ℕ → Option ℕ → ℕ → Except TrieError (Option Bytes)
  | 0, _, _ => .ok none
  | _ + 1, none, _ => .ok none
  | n + 1, some p, depth =>
    if (m.node p).key = some key then
      match getDBLeafValue m.store (m.node p).hash with
      | .error e => .error (.getValue e)
      | .ok v => .ok v
    else getValue n ((m.node p).child (trieBit key depth)) (depth + 1)

/-- `getFromStorageLocked`. -/
def getFromStorageLocked (root : Option ℕ) : Except TrieError (Option Bytes) :=
  getValue m key (trieComputeKeyLengthAsBit key + 1) root 0

/-- `findNode`. -/
def findNode : ℕ → Option ℕ → ℕ → Option ℕ
  | 0, _, _ => none
  | _ + 1, none, _ => none
  | n + 1, some p, depth =>
    if (m.node p).key = some key then some p
    else findNode n ((m.node p).child (trieBit key depth)) (depth + 1)

/-- `tracePath`: the hashes beside the path. -/
def tracePath : ℕ → Option ℕ → ℕ → Except TrieError (List Bytes)
  | 0, _, _ => .error .keyNotFound
  | _ + 1, none, _ => .error .keyNotFound
  | n + 1, some p, depth =>
    if (m.node p).key = some key then .ok []
    else do
      let path ← tracePath n ((m.node p).child (trieBit key depth)) (depth + 1)
      return m.hashOf ((m.node p).child (!trieBit key depth)) :: path

/-- `Trace`, for a padded key. -/
def trace (root : Option ℕ) : Except TrieError (List Bytes) :=
  match root with
  | none => .error .emptyTree
  | some p => tracePath m key (trieComputeKeyLengthAsBit key + 1) (some p) 0

/-- `GetRoot`. -/
def getRoot (root : Option ℕ) : Bytes := trieNormalizeKey32 (m.hashOf root)

end JamDuna.Storage
