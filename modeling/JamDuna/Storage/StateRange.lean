/-
# Ranges of the state

`storage/trie.go`, `GetStateByRange` and the two walks over the nodes it chooses from,
`getTreeContentIncludeKey` when the start key is in the trie and `getTreeContent`
otherwise. They are the same walk (`walkNodes`) with two visits. A walk stops when the
bytes of the collected pairs reach the limit, which it compares before each node; the
bytes are counted in 32 bits. The hashes of the visited nodes, which the callers here
drop, are left out.

On a trie laid out in the heap a walk goes over the entries (`Rep.walkNodes_eq`). Neither
visit takes the pairs from the start key on: `getTreeContent` never looks at the start key
and collects from the first leaf of the trie (`collect`), and `getTreeContentIncludeKey`
takes a pair only when the start key is not below it, which leaves the start key itself.
-/

import JamDuna.Storage.KeyOrder
import JamDuna.Storage.Session

namespace JamDuna.Storage

open JamDuna.Basis List Option BitTrie Nat

section

/-- What a walk has collected: `currenSize`, `foundkv`, `findKey` and `end`. -/
structure RangeState where
  currenSize : UInt32
  foundkv : List (Bytes × Bytes)
  findKey : Bool
  ended : Bool
  deriving DecidableEq

/-- A walk over the nodes from the left. It stops where `stop` holds, and does not go
below a node from which the visit returns. -/
def walkNodes {σ : Type} (m : Mem) (stop : σ → Bool) (visit : Node → σ → σ × Bool) :
    ℕ → Option ℕ → σ → σ
  | 0, _, s => s
  | _ + 1, none, s => s
  | n + 1, some p, s =>
    if stop s then s
    else
      let r := visit (m.node p) s
      if r.2 then r.1
      else walkNodes m stop visit n (m.node p).right (walkNodes m stop visit n (m.node p).left r.1)

variable (m : Mem) (root : Option ℕ)

/-- The value that `getFromStorageLocked` reads for the key of a node, `nil` after an
error. The key of a branch is `nil`, and so is the key of a branch at the root. -/
def nodeValue (n : Node) : Option Bytes :=
  match n.key, root with
  | some key, _ => (getFromStorageLocked m key root).toOption.join
  | none, none => none
  | none, some p =>
    if (m.node p).key = none then (getDBLeafValue m.store (m.node p).hash).toOption.join else none

/-- Appending the pair of a leaf. -/
def addPair (n : Node) (value : Bytes) (s : RangeState) : RangeState :=
  if n.left = none ∧ n.right = none then
    { s with
      foundkv := s.foundkv ++ [(fixed 31 (n.key.getD []), value)]
      currenSize := s.currenSize + UInt32.ofNat (31 + value.length) }
  else s

/-- What `getTreeContent` does at a node. -/
def visitContent (endKey : Bytes) (n : Node) (s : RangeState) : RangeState × Bool :=
  match nodeValue m root n with
  | none => (s, false)
  | some value =>
    let key := n.key.getD []
    (addPair n value s, decide (fixed key.length endKey = key))

/-- `getTreeContent`. -/
def getTreeContent (endKey : Bytes) (maxSize : UInt32) (s : RangeState) : RangeState :=
  walkNodes m (fun s => decide (maxSize ≤ s.currenSize)) (visitContent m root endKey)
    m.heap.length root s

/-- What `getTreeContentIncludeKey` does at a node. -/
def visitIncludeKey (startKey endKey : Bytes) (n : Node) (s : RangeState) : RangeState × Bool :=
  match nodeValue m root n with
  | none => (s, false)
  | some value =>
    let key := n.key.getD []
    let paddedStart := fixed key.length startKey
    let paddedEnd := fixed key.length endKey
    let s := if key = paddedStart then { s with findKey := true } else s
    if s.findKey then
      let s :=
        if compareKeys paddedStart key ≠ .lt ∧ compareKeys paddedEnd key ≠ .lt then
          addPair n value s
        else s
      if paddedEnd = key then ({ s with ended := true }, true) else (s, false)
    else (s, false)

/-- `getTreeContentIncludeKey`. -/
def getTreeContentIncludeKey (startKey endKey : Bytes) (maxSize : UInt32) (s : RangeState) :
    RangeState :=
  walkNodes m (fun s => decide (maxSize ≤ s.currenSize) || s.ended)
    (visitIncludeKey m root startKey endKey) m.heap.length root s

/-- `GetStateByRange`. -/
def getStateByRange (startKey endKey : Bytes) (maxSize : UInt32) : List (Bytes × Bytes) :=
  if root = none then []
  else
    match (getFromStorageLocked m (fixed 32 startKey) root).toOption.join with
    | some _ =>
      (getTreeContentIncludeKey m root startKey endKey maxSize ⟨0, [], false, false⟩).foundkv
    | none => (getTreeContent m root endKey maxSize ⟨0, [], false, false⟩).foundkv

end

section

variable {H : HashFn} {σ : Type} {m : Mem} {stop : σ → Bool} {visit : Node → σ → σ × Bool}
  {t : StateTrie} {p : Option ℕ} {cells : List ℕ}

/-- One pair of a walk. -/
def stepUnless (stop : σ → Bool) (f : Key × Bytes → σ → σ) (s : σ) (e : Key × Bytes) : σ :=
  if stop s then s else f e s

variable {f : Key × Bytes → σ → σ}

theorem foldl_stepUnless_of_stop {s : σ} (h : stop s = true)
    (L : List (Key × Bytes)) : L.foldl (stepUnless stop f) s = s := by
  induction L with
  | nil => rfl
  | cons e L ih => rw [foldl_cons, stepUnless, if_pos h, ih]

/-- The cells of a trie are more than its height. -/
theorem Rep.height_lt (hr : Rep H m.heap t p cells) (hp : p ≠ none) : t.height < cells.length := by
  induction hr with
  | nil => exact absurd rfl hp
  | zero | single => simp [height]
  | branch _ _ _ _ ihl ihr =>
    have hl := ihl (some_ne_none _)
    have hr := ihr (some_ne_none _)
    rw [height, length_cons, length_append]
    omega

/-- **A walk goes over the entries**, when the visit takes the pair of a leaf and does
nothing at a node without a key. -/
theorem Rep.walkNodes_eq (hr : Rep H m.heap t p cells)
    (hleaf : ∀ e ∈ t.entries, ∀ s, (visit (leafNode H e.1.norm e.2) s).1 = f e s)
    (hother : ∀ n : Node, n.key = none → ∀ s, visit n s = (s, false)) {n : ℕ}
    (hn : t.height < n) (s : σ) :
    walkNodes m stop visit n p s = t.entries.foldl (stepUnless stop f) s := by
  have hnil : ∀ n s, walkNodes m stop visit n none s = s := fun n s => by cases n <;> rfl
  induction hr generalizing n s with
  | nil => exact hnil n s
  | zero hp =>
    obtain ⟨n, rfl⟩ := exists_eq_add_one_of_ne_zero (ne_zero_of_lt hn)
    simp only [walkNodes, Mem.node_eq hp, hother Node.zero rfl]
    simp only [Node.zero, hnil, entries, foldl_nil, ite_self, Bool.false_eq_true]
  | @single p k v hp =>
    obtain ⟨n, rfl⟩ := exists_eq_add_one_of_ne_zero (ne_zero_of_lt hn)
    have htake := hleaf (k, v) (.head _) s
    simp only [walkNodes, Mem.node_eq hp]
    simp only [leafNode, hnil, entries, foldl_cons, foldl_nil, ite_self, stepUnless] at htake ⊢
    rw [htake]
  | @branch p pl pr l r cl cr hp hl hr hnodup ihl ihr =>
    obtain ⟨n, rfl⟩ := exists_eq_add_one_of_ne_zero (ne_zero_of_lt hn)
    rw [height] at hn
    simp only [walkNodes, Mem.node_eq hp]
    rw [entries, foldl_append]
    by_cases hs : stop s = true
    · rw [if_pos hs, foldl_stepUnless_of_stop hs, foldl_stepUnless_of_stop hs]
    · rw [if_neg hs, hother _ rfl]
      simp only [Bool.false_eq_true, if_false]
      rw [ihl (fun e he => hleaf e (mem_append_left _ he)) (by omega),
        ihr (fun e he => hleaf e (mem_append_right _ he)) (by omega)]

variable {P : List (Key × Bytes)} {root : Option ℕ}

/-- Every entry of the store is a record. -/
def Recorded (H : HashFn) (P : List (Key × Bytes)) (st : Store) : Prop :=
  ∀ q a, st q = some a → ∃ x, Record H P x a ∧ q = H x

variable {st : Store}

theorem Puts.recorded (h : Puts H P (fun _ => none) st) : Recorded H P st := by
  intro q a hq
  rcases h q with hnone | ⟨x, b, hrec, hx, hb⟩
  · rw [hnone] at hq
    cases hq
  · obtain rfl : b = a := some.inj (hb.symm.trans hq)
    exact ⟨x, hrec, hx⟩

/-- Nothing is stored under the zero hash. -/
theorem zero_holds_no_leaf (cf : CollisionFree H P) (hst : Recorded H P st) :
    (getDBLeafValue st zeroHash).toOption.join = none := by
  rw [getDBLeafValue]
  cases hq : st zeroHash with
  | none => rfl
  | some a =>
    obtain ⟨x, hrec, hx⟩ := hst _ _ hq
    refine absurd ?_ (cf.ne_zero x hrec.input)
    rw [← hx, maskTop_zeroHash]

/-- What is stored under the hash of a branch is not a leaf. -/
theorem branch_holds_no_leaf (cf : CollisionFree H P) (va : ValuesApart H P)
    (hst : Recorded H P st) {l r : StateTrie} (hpart : Part P (.node l r)) :
    (getDBLeafValue st (rootHash H (.node l r))).toOption.join = none := by
  rw [getDBLeafValue]
  cases hq : st (rootHash H (.node l r)) with
  | none => rfl
  | some a =>
    obtain ⟨x, hrec, hx⟩ := hst _ _ hq
    have hinput : trieBranch (rootHash H l) (rootHash H r) = x :=
      cf.hash_inj (.branch hpart) hrec.input hx
    have hlen : a.length ≠ 64 := by
      cases hrec with
      | leaf h => exact absurd hinput.symm (trieLeaf_ne_trieBranch (length_rootHash H l))
      | value h hv => exact absurd hinput.symm (va.value_ne_branch _ h hv _ _ hpart)
      | key h => simp [length_norm]
      | branch h => simp [branchRecord, branchTag]
    simp only [trieDecodeLeaf, if_pos hlen]
    rfl

/-- The walks read no value at a node without a key. -/
theorem Laid.nodeValue_none (cf : CollisionFree H P) (va : ValuesApart H P)
    (h : Laid H P m root t cells) (hst : Recorded H P m.store) {n : Node} (hn : n.key = none) :
    nodeValue m root n = none := by
  obtain ⟨hash, key, left, right⟩ := n
  obtain rfl : key = none := hn
  have hrep := h.rep
  have hpart := h.part
  cases hrep with
  | nil => rfl
  | zero hp =>
    simp only [nodeValue, Mem.node_eq hp]
    exact zero_holds_no_leaf cf hst
  | single hp => simp [nodeValue, Mem.node_eq hp]
  | branch hp =>
    simp only [nodeValue, Mem.node_eq hp]
    exact branch_holds_no_leaf cf va hst hpart

/-- The walks read the value of a leaf. -/
theorem Laid.nodeValue_leaf (h : Laid H P m root t cells) {e : Key × Bytes} (he : e ∈ t.entries) :
    nodeValue m root (leafNode H e.1.norm e.2) = some e.2 := by
  show (getFromStorageLocked m e.1.norm root).toOption.join = some e.2
  rw [h.get_eq, h.canon.lookup_eq_some.mpr he]
  rfl

end

section

/-- A pair as the walks return it. -/
def plain (e : Key × Bytes) : Bytes × Bytes := (e.1.bytes, e.2)

/-- The pairs from the first on, until their bytes reach the limit. -/
def collect (maxSize : UInt32) : UInt32 → List (Key × Bytes) → List (Key × Bytes)
  | _, [] => []
  | size, e :: L =>
    if maxSize ≤ size then []
    else e :: collect maxSize (size + UInt32.ofNat (31 + e.2.length)) L

variable {maxSize : UInt32} {L : List (Key × Bytes)}

theorem collect_isPrefix (size : UInt32) : collect maxSize size L <+: L := by
  induction L generalizing size with
  | nil => exact prefix_rfl
  | cons e L ih =>
    rw [collect]
    split_ifs
    · exact nil_prefix
    · exact cons_prefix_cons.mpr ⟨rfl, ih _⟩

/-- With room for a byte the first pair is collected. -/
theorem collect_zero_cons (hmax : maxSize ≠ 0) (e : Key × Bytes) :
    ∃ L', collect maxSize 0 (e :: L) = e :: L' := by
  have hpos : ¬ maxSize ≤ 0 := fun h => hmax (UInt32.le_zero_iff.mp h)
  exact ⟨_, by rw [collect, if_neg hpos]⟩

/-- Taking a pair. -/
def takePair (e : Key × Bytes) (s : RangeState) : RangeState :=
  { s with
    foundkv := s.foundkv ++ [plain e]
    currenSize := s.currenSize + UInt32.ofNat (31 + e.2.length) }

theorem addPair_leafNode {H : HashFn} (e : Key × Bytes) (s : RangeState) :
    addPair (leafNode H e.1.norm e.2) e.2 s = takePair e s := by
  simp [addPair, takePair, plain, leafNode, fixed_key]

theorem foldl_takePair (s : RangeState) :
    (L.foldl (stepUnless (fun s => decide (maxSize ≤ s.currenSize)) takePair) s).foundkv =
      s.foundkv ++ (collect maxSize s.currenSize L).map plain := by
  induction L generalizing s with
  | nil => simp [collect]
  | cons e L ih =>
    rw [foldl_cons, ih, stepUnless, collect]
    by_cases hs : maxSize ≤ s.currenSize
    · cases L <;> simp [hs, collect]
    · simp [hs, takePair]

end

/-- What `getTreeContentIncludeKey` does at a leaf. -/
def takeFrom (start last : Key) (e : Key × Bytes) (s : RangeState) : RangeState :=
  let s := if e.1 = start then { s with findKey := true } else s
  if s.findKey then
    let s := if e.1.num ≤ start.num ∧ e.1.num ≤ last.num then takePair e s else s
    if last = e.1 then { s with ended := true } else s
  else s

variable {start last : Key} {maxSize : UInt32} {L : List (Key × Bytes)} {s : RangeState}

/-- Before the start key nothing happens. -/
theorem foldl_takeFrom_before {stop : RangeState → Bool} (hfind : s.findKey = false)
    (hL : ∀ e ∈ L, e.1 ≠ start) : L.foldl (stepUnless stop (takeFrom start last)) s = s := by
  induction L with
  | nil => rfl
  | cons e L ih =>
    have hstep : stepUnless stop (takeFrom start last) s e = s := by
      simp [stepUnless, takeFrom, hL e (mem_cons_self ..), hfind]
    rw [foldl_cons, hstep, ih fun e he => hL e (.tail _ he)]

/-- After the start key no pair is taken. -/
theorem foldl_takeFrom_after {stop : RangeState → Bool} (hL : ∀ e ∈ L, start.num < e.1.num) :
    (L.foldl (stepUnless stop (takeFrom start last)) s).foundkv = s.foundkv := by
  induction L generalizing s with
  | nil => rfl
  | cons e L ih =>
    have hlt := hL e (mem_cons_self ..)
    have hne : e.1 ≠ start := fun heq => lt_irrefl _ (heq ▸ hlt)
    rw [foldl_cons, ih fun e he => hL e (.tail _ he), stepUnless, takeFrom]
    simp only [if_neg hne, not_le.mpr hlt, false_and, if_false]
    split_ifs <;> rfl

/-- **The walk from a stored key takes that key only.** -/
theorem foldl_takeFrom (hmax : maxSize ≠ 0) (hL : Ascending L) {v : Bytes}
    (hmem : (start, v) ∈ L) (hlast : start.num ≤ last.num) :
    (L.foldl (stepUnless (fun s => decide (maxSize ≤ s.currenSize) || s.ended)
      (takeFrom start last)) ⟨0, [], false, false⟩).foundkv = [plain (start, v)] := by
  obtain ⟨A, B, rfl⟩ := append_of_mem hmem
  obtain ⟨-, hB, hAB⟩ := pairwise_append.mp hL
  have hbefore : ∀ e ∈ A, e.1 ≠ start := fun e he heq =>
    absurd (hAB e he _ (mem_cons_self ..)) (by rw [heq]; exact lt_irrefl _)
  have hafter : ∀ e ∈ B, start.num < e.1.num := (pairwise_cons.mp hB).1
  have hpos : ¬ maxSize ≤ 0 := fun h => hmax (UInt32.le_zero_iff.mp h)
  rw [foldl_append, foldl_takeFrom_before rfl hbefore, foldl_cons, foldl_takeFrom_after hafter]
  simp only [stepUnless, takeFrom, hpos, decide_false, Bool.or_self, Bool.false_eq_true, if_false,
    if_true, le_refl, hlast, and_self]
  split_ifs <;> rfl

variable {H : HashFn} {P : List (Key × Bytes)} {m : Mem} {root : Option ℕ} {t : StateTrie}
  {cells : List ℕ}

/-- The pairs that `GetStateByRange` finds in a trie with the entries `L`. -/
def rangeOf (L : List (Key × Bytes)) (start : Key) (maxSize : UInt32) : List (Key × Bytes) :=
  match L.find? fun e => e.1 = start with
  | some e => [e]
  | none => collect maxSize 0 L

variable {e : Key × Bytes}

/-- From a stored key the range is that pair. -/
theorem rangeOf_of_mem {L : List (Key × Bytes)} (hL : Ascending L)
    (he : e ∈ L) : rangeOf L e.1 maxSize = [e] := by
  cases hfind : L.find? fun e' => e'.1 = e.1 with
  | none => exact absurd (find?_eq_none.mp hfind e he) (by simp)
  | some e' =>
    have hkey : e'.1 = e.1 := by simpa using find?_some hfind
    rw [rangeOf, hfind, hL.eq_of_key (mem_of_find?_eq_some hfind) he hkey]

/-- From any other key it starts at the first pair of the trie. -/
theorem rangeOf_of_not_mem {L : List (Key × Bytes)} (h : ∀ e ∈ L, e.1 ≠ start) :
    rangeOf L start maxSize = collect maxSize 0 L := by
  rw [rangeOf, find?_eq_none.mpr fun e he => by simpa using h e he]

theorem fixed_norm (k k' : Key) : fixed k'.norm.length k.bytes = k.norm := by
  rw [length_norm]
  rfl

theorem visitContent_leafNode (h : Laid H P m root t cells)
    (he : e ∈ t.entries) (endKey : Bytes) (s : RangeState) :
    (visitContent m root endKey (leafNode H e.1.norm e.2) s).1 = takePair e s := by
  simp only [visitContent, h.nodeValue_leaf he, addPair_leafNode]

theorem visitIncludeKey_leafNode (h : Laid H P m root t cells)
    (he : e ∈ t.entries) (s : RangeState) :
    (visitIncludeKey m root start.bytes last.bytes (leafNode H e.1.norm e.2) s).1 =
      takeFrom start last e s := by
  simp only [visitIncludeKey, h.nodeValue_leaf he, leafNode_key, getD_some, fixed_norm,
    addPair_leafNode, Key.norm_inj, compareKeys_norm, ne_eq, compare_lt_iff_lt, not_lt, takeFrom]
  split_ifs <;> rfl

/-- **`GetStateByRange` on a flushed trie.** -/
theorem Laid.getStateByRange_eq (cf : CollisionFree H P) (va : ValuesApart H P)
    (h : Laid H P m root t cells) (hst : Recorded H P m.store) (hmax : maxSize ≠ 0)
    (hlast : start.num ≤ last.num) :
    getStateByRange m root start.bytes last.bytes maxSize =
      (rangeOf t.entries start maxSize).map plain := by
  by_cases hroot : root = none
  · have hrep := h.rep
    subst hroot
    cases hrep with
    | nil => rfl
  · have hn : t.height < m.heap.length := (h.rep.height_lt hroot).trans_le h.rep.length_cells_le
    have hvalue : getFromStorageLocked m (fixed 32 start.bytes) root =
        .ok (t.lookup Key.bit start 0) := h.get_eq start
    rw [getStateByRange, if_neg hroot, hvalue]
    cases hlook : t.lookup Key.bit start 0 with
    | none =>
      have hnot : ∀ e ∈ t.entries, e.1 ≠ start := by
        rintro ⟨k, v⟩ he rfl
        rw [h.canon.lookup_eq_some.mpr he] at hlook
        cases hlook
      show (getTreeContent m root last.bytes maxSize ⟨0, [], false, false⟩).foundkv = _
      rw [getTreeContent, h.rep.walkNodes_eq (f := takePair)
        (fun e he s => visitContent_leafNode h he _ s)
        (fun n hkey s => by rw [visitContent, h.nodeValue_none cf va hst hkey]) hn,
        foldl_takePair, rangeOf_of_not_mem hnot, nil_append]
    | some v =>
      have hmem : (start, v) ∈ t.entries := h.canon.lookup_eq_some.mp hlook
      have hasc := entries_ascending h.canon
      show (getTreeContentIncludeKey m root start.bytes last.bytes maxSize
        ⟨0, [], false, false⟩).foundkv = _
      rw [getTreeContentIncludeKey, h.rep.walkNodes_eq (f := takeFrom start last)
        (fun e he s => visitIncludeKey_leafNode h he s)
        (fun n hkey s => by rw [visitIncludeKey, h.nodeValue_none cf va hst hkey]) hn,
        foldl_takeFrom hmax hasc hmem hlast, rangeOf_of_mem hasc hmem]
      rfl

end JamDuna.Storage
