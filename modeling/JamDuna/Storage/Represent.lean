/-
# Tries laid out in the heap

`Rep H h t p cells` says that the pointer `p` leads to the abstract trie `t`, in the
cells `cells` of the heap `h`: no cell is used twice, every node carries the hash of
its trie, a branch has two children and no key. What an operation leaves alone is a
`Frame`.

The second half is about reading: with the leaves of the trie in the store,
`getValue`, `findNode` and `tracePath` read the trie. `Fits` is what holds along
the descent of a key: the subtrie is canonical, its keys start like the key, and
there is a level left for every bit.
-/

import JamDuna.Basis.BitTrieUpdate
import JamDuna.Storage.Trie

namespace JamDuna.Storage

open JamDuna.Basis List BitTrie Mem

/-- The trie of a state: state keys and values. -/
abbrev StateTrie := BitTrie Key Bytes

/-- The canonical trie of pairs with distinct keys. -/
theorem exists_build {kvs : List (Key × Bytes)} (hnodup : (kvs.map Prod.fst).Nodup) :
    ∃ t, build Key.bit keyBits 0 kvs = some t ∧ t.Canon Key.bit 0 ∧ ∀ e, e ∈ t.entries ↔ e ∈ kvs :=
  build_spec Key.separates (by omega) hnodup fun _ _ _ _ _ hi => absurd hi (Nat.not_lt_zero _)

section

/-- Outside the cells `W` the heap `h'` extends `h`. -/
structure Frame (h h' : List Node) (W : List ℕ) : Prop where
  length_le : h.length ≤ h'.length
  same : ∀ q < h.length, q ∉ W → h'[q]? = h[q]?

variable {h h' h'' : List Node} {W W' : List ℕ}

theorem Frame.refl (h : List Node) (W : List ℕ) : Frame h h W := ⟨le_rfl, fun _ _ _ => rfl⟩

theorem Frame.mono (hf : Frame h h' W) (hsub : ∀ q ∈ W, q ∈ W' ∨ h.length ≤ q) : Frame h h' W' :=
  ⟨hf.length_le, fun q hq hW => hf.same q hq fun hmem =>
    (hsub q hmem).elim hW fun hle => absurd hq hle.not_gt⟩

theorem Frame.trans (h₁ : Frame h h' W) (h₂ : Frame h' h'' W')
    (hsub : ∀ q ∈ W', q ∈ W ∨ h.length ≤ q) : Frame h h'' W := by
  refine ⟨h₁.length_le.trans h₂.length_le, fun q hq hW => ?_⟩
  rw [h₂.same q (hq.trans_le h₁.length_le) fun hmem =>
    (hsub q hmem).elim hW fun hle => absurd hq hle.not_gt, h₁.same q hq hW]

theorem Frame.append (h : List Node) (n : Node) (W : List ℕ) : Frame h (h ++ [n]) W :=
  ⟨by simp, fun q hq _ => getElem?_append_left hq⟩

theorem Frame.set (h : List Node) {p : ℕ} (n : Node) (hp : p ∈ W) : Frame h (h.set p n) W :=
  ⟨by simp, fun q _ hW => getElem?_set_ne fun heq : p = q => hW (heq ▸ hp)⟩

theorem Frame.node (hf : Frame h h' W) {st st' : Store} {q : ℕ} (hq : q < h.length)
    (hW : q ∉ W) : Mem.node ⟨h', st'⟩ q = Mem.node ⟨h, st⟩ q := by
  simp only [Mem.node, getD_eq_getElem?_getD, hf.same q hq hW]

end

/-- A pointer to a node is within the heap. -/
theorem lt_of_cell {h : List Node} {p : ℕ} {n : Node} (hp : h[p]? = some n) : p < h.length :=
  (List.getElem?_eq_some_iff.mp hp).1

@[simp] theorem Mem.node_eq {m : Mem} {p : ℕ} {n : Node} (h : m.heap[p]? = some n) :
    m.node p = n := by
  simp [node, getD_eq_getElem?_getD, h]

theorem Mem.getElem?_heap {m : Mem} {p : ℕ} (h : p < m.heap.length) :
    m.heap[p]? = some (m.node p) := by
  simp [node, getD_eq_getElem?_getD, h]

theorem Mem.getElem?_set_self {m : Mem} {p : ℕ} (h : p < m.heap.length) (n : Node) :
    (m.set p n).heap[p]? = some n := by
  simp [set, h]

theorem Mem.node_set_self {m : Mem} {p : ℕ} (h : p < m.heap.length) (n : Node) :
    (m.set p n).node p = n :=
  node_eq (getElem?_set_self h n)

theorem Mem.node_set_ne {m : Mem} {p q : ℕ} (h : p ≠ q) (n : Node) :
    (m.set p n).node q = m.node q := by
  simp only [node, set, getD_eq_getElem?_getD, getElem?_set_ne h]

theorem Mem.set_set (m : Mem) (p : ℕ) (a b : Node) : (m.set p a).set p b = m.set p b := by
  simp only [set, List.set_set]

theorem Mem.set_node_self (m : Mem) (p : ℕ) : m.set p (m.node p) = m := by
  have hheap : m.heap.set p (m.node p) = m.heap := by
    refine ext_getElem? fun q => ?_
    by_cases hp : p < m.heap.length
    · by_cases hq : p = q
      · subst hq
        rw [List.getElem?_set_self hp, getElem?_heap hp]
      · rw [getElem?_set_ne hq]
    · rw [set_eq_of_length_le (not_lt.mp hp)]
  rw [set, hheap]

@[simp] theorem Node.zero_child (b : Bool) : Node.zero.child b = none := by cases b <;> rfl

@[simp] theorem leafNode_child (H : HashFn) (k v : Bytes) (b : Bool) :
    (leafNode H k v).child b = none := by cases b <;> rfl

@[simp] theorem leafNode_key (H : HashFn) (k v : Bytes) : (leafNode H k v).key = some k := rfl

theorem Node.setChild_child (n : Node) (b : Bool) : n.setChild b (n.child b) = n := by
  cases b <;> rfl

theorem child_branch (hash : Bytes) (key : Option Bytes) (pl pr : ℕ) (b : Bool) :
    (Node.mk hash key (some pl) (some pr)).child b = some (if b then pr else pl) := by
  cases b <;> rfl

/-- The trie `t` at the pointer `p`, in the cells `cells` of the heap. -/
inductive Rep (H : HashFn) (h : List Node) : StateTrie → Option ℕ → List ℕ → Prop
  | nil : Rep H h .empty none []
  | zero {p : ℕ} (hp : h[p]? = some Node.zero) : Rep H h .empty (some p) [p]
  | single {p : ℕ} {k : Key} {v : Bytes} (hp : h[p]? = some (leafNode H k.norm v)) :
      Rep H h (.leaf k v) (some p) [p]
  | branch {p pl pr : ℕ} {l r : StateTrie} {cl cr : List ℕ}
      (hp : h[p]? = some ⟨rootHash H (.node l r), none, some pl, some pr⟩)
      (hl : Rep H h l (some pl) cl) (hr : Rep H h r (some pr) cr)
      (hnodup : (p :: (cl ++ cr)).Nodup) : Rep H h (.node l r) (some p) (p :: (cl ++ cr))

/-- No nonempty part of the trie has the zero hash. -/
def Solid (H : HashFn) (t : StateTrie) : Prop :=
  ∀ s ∈ t.subtries, s ≠ .empty → rootHash H s ≠ zeroHash

variable {H : HashFn} {h h' : List Node} {t l r : StateTrie} {p : Option ℕ} {cells : List ℕ}

theorem Solid.side (hs : Solid H (.node l r)) (b : Bool) : Solid H (side b l r) :=
  fun s hmem => hs s (mem_subtries_side hmem)

theorem Solid.hash_ne (hs : Solid H t) (hne : t ≠ .empty) : rootHash H t ≠ zeroHash :=
  hs t (mem_subtries_self t) hne

theorem Solid.hash_eq_iff (hs : Solid H t) : rootHash H t = zeroHash ↔ t = .empty := by
  constructor
  · exact fun hz => by_contra fun hne => hs.hash_ne hne hz
  · rintro rfl
    rfl

namespace Rep

section

variable (hr : Rep H h t p cells)
include hr

theorem lt_length : ∀ q ∈ cells, q < h.length := by
  induction hr with
  | nil => simp
  | zero hp | single hp => simpa using lt_of_cell hp
  | branch hp _ _ _ ihl ihr =>
    intro q hq
    rcases mem_cons.mp hq with rfl | hq
    · exact lt_of_cell hp
    · exact (mem_append.mp hq).elim (ihl q) (ihr q)

theorem cells_nodup : cells.Nodup := by
  cases hr with
  | nil => exact nodup_nil
  | zero | single => exact nodup_singleton _
  | branch _ _ _ hnodup => exact hnodup

theorem length_cells_le : cells.length ≤ h.length := by
  have hsub : cells ⊆ range h.length := fun q hq => mem_range.mpr (hr.lt_length q hq)
  simpa using (hr.cells_nodup.subperm hsub).length_le

/-- **The frame rule**: a trie whose cells are left alone stays where it is. -/
theorem frame {W : List ℕ} (hf : Frame h h' W)
    (hdisj : ∀ q ∈ cells, q ∉ W) : Rep H h' t p cells := by
  induction hr with
  | nil => exact .nil
  | zero hp =>
    refine .zero ?_
    rw [hf.same _ (lt_of_cell hp) (hdisj _ (.head _)), hp]
  | single hp =>
    refine .single ?_
    rw [hf.same _ (lt_of_cell hp) (hdisj _ (.head _)), hp]
  | branch hp _ _ hnodup ihl ihr =>
    refine .branch ?_ (ihl fun q hq => hdisj q ?_) (ihr fun q hq => hdisj q ?_) hnodup
    · rw [hf.same _ (lt_of_cell hp) (hdisj _ mem_cons_self), hp]
    · exact .tail _ (mem_append_left _ hq)
    · exact .tail _ (mem_append_right _ hq)

end

theorem side {pl pr : Option ℕ} {cl cr : List ℕ} (hl : Rep H h l pl cl) (hr : Rep H h r pr cr)
    (b : Bool) : Rep H h (side b l r) (if b then pr else pl) (if b then cr else cl) := by
  cases b
  · exact hl
  · exact hr

section

variable {m : Mem} (hr : Rep H m.heap t p cells)
include hr

theorem hashOf : m.hashOf p = rootHash H t := by
  cases hr with
  | nil => rfl
  | zero hp | single hp => rw [hashOf, node_eq hp]; rfl
  | branch hp => rw [hashOf, node_eq hp]

theorem getRoot_eq : getRoot m p = rootHash H t := by
  rw [getRoot, hr.hashOf, trieNormalizeKey32, fixed_of_length (length_rootHash H t)]

theorem isEmpty_iff (hs : Solid H t) : m.isEmpty p = true ↔ t = .empty := by
  rw [Mem.isEmpty, hr.hashOf, beq_iff_eq, hs.hash_eq_iff]

theorem isLeaf_iff : m.isLeaf p = true ↔ ∃ k v, t = .leaf k v := by
  cases hr with
  | nil => simp [isLeaf]
  | zero hp => simp [isLeaf, node_eq hp, Node.zero]
  | single hp => simp [isLeaf, node_eq hp, leafNode]
  | branch hp => simp [isLeaf, node_eq hp]

end

end Rep

/-- What holds of the subtrie at depth `d` on the way of the key `k`, with `n`
levels left. -/
structure Fits (k : Key) (n d : ℕ) (t : StateTrie) : Prop where
  canon : t.Canon Key.bit d
  agrees : t.Agrees Key.bit d k
  levels : n + d = keyBits + 1
  depth_le : d ≤ keyBits

variable {k : Key} {n d : ℕ}

theorem Fits.root (ht : t.Canon Key.bit 0) (k : Key) : Fits k (keyBits + 1) 0 t :=
  ⟨ht, agrees_zero, rfl, Nat.zero_le _⟩

theorem Fits.exists_succ (hf : Fits k n d t) : ∃ n', n = n' + 1 := by
  have h₁ := hf.levels
  have h₂ := hf.depth_le
  exact ⟨n - 1, by omega⟩

theorem Fits.side (hf : Fits k (n + 1) d (.node l r)) : Fits k n (d + 1) (side (k.bit d) l r) := by
  have hlevels := hf.levels
  refine ⟨hf.canon.child _, ?_, by omega, hf.canon.depth_lt Key.separates hf.agrees⟩
  refine Agrees.succ (fun e he => hf.agrees e (mem_entries_side he)) fun e he => ?_
  exact (hf.canon.mem_side_iff.mp he).2

/-- The leaf of another key that the descent of `k` has reached is above the last
bit. -/
theorem Fits.depth_lt {k' : Key} {v' : Bytes} (hf : Fits k n d (.leaf k' v')) (hne : k' ≠ k) :
    d < keyBits := by
  by_contra hd
  refine hne (Key.separates _ _ fun i hi => hf.agrees (k', v') (.head _) i ?_)
  exact lt_of_lt_of_le hi (not_lt.mp hd)

variable {m : Mem}

/-- The entries of the store that a leaf needs. -/
def LeafStored (H : HashFn) (st : Store) (k : Key) (v : Bytes) : Prop :=
  st (H (trieLeaf H k.norm v)) = some (trieLeaf H k.norm v) ∧ (32 < v.length → st (H v) = some v)

/-- The leaves of the trie are in the store. -/
def Saved (H : HashFn) (st : Store) (t : StateTrie) : Prop :=
  ∀ e ∈ t.entries, LeafStored H st e.1 e.2

variable {st : Store} {key : Bytes} {q : ℕ}

theorem Saved.side (hs : Saved H st (.node l r)) (b : Bool) : Saved H st (side b l r) :=
  fun e he => hs e (mem_entries_side he)

theorem getDBLeafValue_leaf {v : Bytes} (hs : LeafStored H st k v) :
    getDBLeafValue st (H (trieLeaf H k.norm v)) = .ok (some v) := by
  rw [getDBLeafValue, hs.1]
  simp only [trieDecodeLeaf_trieLeaf]
  by_cases hv : v.length ≤ 32
  · simp [hv]
  · simp [hv, hs.2 (not_le.mp hv)]

theorem key_ne_of_none {n : Node} (h : n.key = none) (k : Bytes) : n.key ≠ some k := by
  simp [h]

theorem getValue_none (key : Bytes) (n d : ℕ) : getValue m key n none d = .ok none := by
  cases n <;> rfl

theorem findNode_none (key : Bytes) (n d : ℕ) : findNode m key n none d = none := by
  cases n <;> rfl

theorem findNode_zero {p : ℕ} (hp : m.heap[p]? = some Node.zero) (key : Bytes) (n d : ℕ) :
    findNode m key (n + 1) (some p) d = none := by
  rw [findNode, node_eq hp, if_neg (key_ne_of_none rfl _), Node.zero_child, findNode_none]

/-- **Reading a value** is looking the key up in the trie. -/
theorem Rep.getValue_eq (hr : Rep H m.heap t p cells) (hs : Saved H m.store t)
    (hf : Fits k n d t) : getValue m k.norm n p d = .ok (t.lookup Key.bit k d) := by
  induction hr generalizing n d with
  | nil =>
    obtain ⟨n, rfl⟩ := hf.exists_succ
    rfl
  | zero hp =>
    obtain ⟨n, rfl⟩ := hf.exists_succ
    rw [getValue, node_eq hp, if_neg (key_ne_of_none rfl _), Node.zero_child, getValue_none]
    rfl
  | @single p k' v' hp =>
    obtain ⟨n, rfl⟩ := hf.exists_succ
    rw [getValue, node_eq hp, leafNode_key]
    by_cases hk : k' = k
    · subst hk
      have hstored : LeafStored H m.store k' v' := hs (k', v') (.head _)
      simp [leafNode, getDBLeafValue_leaf hstored, BitTrie.lookup]
    · rw [if_neg (by simpa [Key.norm_inj] using hk), leafNode_child, getValue_none,
        BitTrie.lookup, if_neg hk]
  | @branch p pl pr l r cl cr hp hl hr hnodup ihl ihr =>
    obtain ⟨n, rfl⟩ := hf.exists_succ
    have ih : ∀ b, Saved H m.store (BitTrie.side b l r) → Fits k n (d + 1) (BitTrie.side b l r) →
        getValue m k.norm n (some (if b then pr else pl)) (d + 1) =
          .ok ((BitTrie.side b l r).lookup Key.bit k (d + 1)) := by
      intro b
      cases b
      · exact ihl
      · exact ihr
    rw [getValue, node_eq hp, if_neg (key_ne_of_none rfl _), child_branch, lookup_node]
    exact ih (k.bit d) (hs.side _) hf.side

theorem exists_succ_of_findNode (h : findNode m key n p d = some q) : ∃ n', n = n' + 1 := by
  cases n with
  | zero => cases h
  | succ n => exact ⟨n, rfl⟩

theorem Rep.findNode_mem (hrep : Rep H m.heap t p cells)
    (h : findNode m key n p d = some q) : q ∈ cells := by
  induction hrep generalizing n d with
  | nil => simp [findNode_none] at h
  | zero hp =>
    obtain ⟨n, rfl⟩ := exists_succ_of_findNode h
    rw [findNode_zero hp] at h
    cases h
  | single hp =>
    obtain ⟨n, rfl⟩ := exists_succ_of_findNode h
    rw [findNode, node_eq hp, leafNode_child, findNode_none] at h
    split_ifs at h
    exact mem_singleton.mpr (Option.some.inj h).symm
  | @branch p pl pr l r cl cr hp hl hr hnodup ihl ihr =>
    obtain ⟨n, rfl⟩ := exists_succ_of_findNode h
    rw [findNode, node_eq hp, if_neg (key_ne_of_none rfl _), child_branch] at h
    cases hb : trieBit key d <;> rw [hb] at h
    · exact .tail _ (mem_append_left _ (ihl h))
    · exact .tail _ (mem_append_right _ (ihr h))

/-- **Finding a node**: the leaf of the key, when the trie has the key. -/
theorem Rep.findNode_eq_none_iff (hr : Rep H m.heap t p cells) (hc : t.Canon Key.bit d)
    (hn : cells.length < n) : findNode m k.norm n p d = none ↔ ∀ v, (k, v) ∉ t.entries := by
  obtain ⟨n, rfl⟩ : ∃ n', n = n' + 1 := ⟨n - 1, by omega⟩
  induction hr generalizing n d with
  | nil => simp [findNode, entries]
  | zero hp =>
    rw [findNode_zero hp]
    simp [entries]
  | @single p k' v' hp =>
    rw [findNode, node_eq hp, leafNode_child, findNode_none, leafNode_key]
    simp [entries, Key.norm_inj, eq_comm]
  | @branch p pl pr l r cl cr hp hl hr hnodup ihl ihr =>
    simp only [length_cons, length_append] at hn
    obtain ⟨n, rfl⟩ : ∃ n', n = n' + 1 := ⟨n - 1, by omega⟩
    have ih : ∀ b, findNode m k.norm (n + 1) (some (if b then pr else pl)) (d + 1) = none ↔
        ∀ v, (k, v) ∉ (BitTrie.side b l r).entries := by
      intro b
      cases b
      · exact ihl hc.child_left n (by omega)
      · exact ihr hc.child_right n (by omega)
    rw [findNode, node_eq hp, if_neg (key_ne_of_none rfl _), child_branch, ih]
    refine forall_congr' fun v => not_congr ?_
    rw [hc.mem_side_iff]
    exact and_iff_left rfl

end JamDuna.Storage
