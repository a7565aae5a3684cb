/-
# Insertion in the heap

`insertNode` of `storage/trie.go` on a trie laid out in the heap gives the abstract
insertion; of the old cells only those on the way of the key are written
(`insertCells`).

`createBranchNode` reads the value of the leaf it moves from the root of the trie,
while the insertion is under way. The cells above have not been written yet, so the
way of the key from the root still leads to the leaf (`Leads`).

`updateTree`, which `Flush` uses for a key of the trie, does what `insertNode` does
(`updateTree_eq_insertNode`).
-/

import JamDuna.Storage.Descend

namespace JamDuna.Storage

open JamDuna.Basis List BitTrie Mem

variable {H : HashFn}

/-- The cells that `insertNode` and `updateTree` write: the branches on the way of
the key and the leaf at its end. -/
def insertCells (m : Mem) (key : Bytes) : ℕ → Option ℕ → ℕ → List ℕ
  | 0, _, _ => []
  | _ + 1, none, _ => []
  | n + 1, some p, depth =>
    if (m.node p).hash = zeroHash then []
    else if (m.node p).left = none ∧ (m.node p).right = none then [p]
    else p :: insertCells m key n ((m.node p).child (trieBit key depth)) (depth + 1)

/-- The way of the key from the root leads to `p` at depth `d`, through the branches
in `path`. -/
inductive Leads (h : List Node) (k : Key) (root : Option ℕ) : ℕ → Option ℕ → List ℕ → Prop
  | start : Leads h k root 0 root []
  | step {d p : ℕ} {path : List ℕ} {n : Node} (hl : Leads h k root d (some p) path)
      (hp : h[p]? = some n) (hkey : n.key = none) :
      Leads h k root (d + 1) (n.child (k.bit d)) (path ++ [p])

variable {h h' : List Node} {k k' : Key} {root p : Option ℕ} {d n : ℕ} {path W : List ℕ}

theorem Leads.lt_length (hl : Leads h k root d p path) : ∀ q ∈ path, q < h.length := by
  induction hl with
  | start => simp
  | step _ hp _ ih =>
    intro q hq
    rcases mem_append.mp hq with hq | hq
    · exact ih q hq
    · obtain rfl := mem_singleton.mp hq
      exact lt_of_cell hp

theorem Leads.frame (hl : Leads h k root d p path) (hf : Frame h h' W)
    (hdisj : ∀ q ∈ path, q ∉ W) : Leads h' k root d p path := by
  induction hl with
  | start => exact .start
  | step _ hp hkey ih =>
    refine .step (ih fun q hq => hdisj q (mem_append_left _ hq)) ?_ hkey
    rw [hf.same _ (lt_of_cell hp) (hdisj _ (by simp)), hp]

/-- Reading a key from the root is reading it where its way has led. -/
theorem Leads.getValue_eq {m : Mem} (hl : Leads m.heap k root d p path)
    (hagree : ∀ i < d, k'.bit i = k.bit i) (n : ℕ) :
    getValue m k'.norm (n + d) root 0 = getValue m k'.norm n p d := by
  induction hl generalizing n with
  | start => rfl
  | @step d p path c _ hp hkey ih =>
    rw [show n + (d + 1) = n + 1 + d by omega, ih (fun i hi => hagree i (by omega)), getValue,
      node_eq hp, if_neg (key_ne_of_none hkey _)]
    have hbit : trieBit k'.norm d = k.bit d := hagree d (by omega)
    rw [hbit]

variable {m : Mem} {t l r : StateTrie} {cells : List ℕ} {v : Bytes}

theorem insertCells_sub (hr : Rep H m.heap t p cells) :
    ∀ q ∈ insertCells m k.norm n p d, q ∈ cells := by
  induction hr generalizing n d with
  | nil => cases n <;> simp [insertCells]
  | zero hp => cases n <;> simp [insertCells, node_eq hp, Node.zero]
  | single hp =>
    cases n with
    | zero => simp [insertCells]
    | succ n =>
      rw [insertCells, node_eq hp]
      split_ifs <;> simp_all [leafNode]
  | @branch p pl pr l r cl cr hp hl hr hnodup ihl ihr =>
    cases n with
    | zero => simp [insertCells]
    | succ n =>
      intro q hq
      rw [insertCells, node_eq hp, child_branch] at hq
      split_ifs at hq with hz hnone hb
      · simp at hq
      · simp at hnone
      · exact cons_subset_cons p (fun q hq => mem_append_right _ (ihr q hq)) hq
      · exact cons_subset_cons p (fun q hq => mem_append_left _ (ihl q hq)) hq

/-- What the insertion of `k` needs of a subtrie at depth `d`. -/
structure Insertable (H : HashFn) (st : Store) (k : Key) (n d : ℕ) (t : StateTrie) : Prop where
  saved : Saved H st t
  solid : Solid H t
  fits : Fits k n d t

variable {st : Store} {cl cr : List ℕ} {hash : Bytes}

theorem Insertable.side (h : Insertable H st k (n + 1) d (.node l r)) :
    Insertable H st k n (d + 1) (side (k.bit d) l r) :=
  ⟨h.saved.side _, h.solid.side _, h.fits.side⟩

theorem Insertable.empty (hn : n + d = keyBits + 1) (hd : d ≤ keyBits) :
    Insertable H st k n d .empty :=
  ⟨by simp [Saved, entries], by simp [Solid, subtries], .nil, by simp [Agrees, entries], hn, hd⟩

/-- `insertNode` with `n` levels left does the abstract insertion. -/
def Inserts (H : HashFn) (root : Option ℕ) (k : Key) (v : Bytes) (n : ℕ) : Prop :=
  ∀ (m : Mem) (t : StateTrie) (p : Option ℕ) (cells path : List ℕ) (d : ℕ),
    Rep H m.heap t p cells → Insertable H m.store k n d t → Leads m.heap k root d p path →
    (∀ q ∈ path, q ∉ cells) →
    ∃ p' cells', Yields H m t.subtries cells (insertCells m k.norm n p d)
      (t.insert Key.bit k v n d) (insertNode H root k.norm v n p d m) p' cells' ∧
      (t ≠ .empty → p = some p')

theorem length_norm (k : Key) : k.norm.length = 32 := length_fixed 32 _

variable {q : ℕ} {v' : Bytes}

/-- The value of the leaf that the way of a key has led to. -/
theorem getFromStorageLocked_leaf {k' : Key} (hcell : m.heap[q]? = some (leafNode H k'.norm v'))
    (hi : Insertable H m.store k n d (.leaf k' v')) (hl : Leads m.heap k root d (some q) path) :
    getFromStorageLocked m k'.norm root = .ok (some v') := by
  have hmem : (k', v') ∈ (leaf k' v').entries := .head _
  obtain ⟨n, rfl⟩ := hi.fits.exists_succ
  have hlevels : trieComputeKeyLengthAsBit k'.norm + 1 = n + 1 + d := by
    rw [trieComputeKeyLengthAsBit, length_norm]
    exact hi.fits.levels.symm
  rw [getFromStorageLocked, hlevels, hl.getValue_eq (fun i hi' => hi.fits.agrees _ hmem i hi'),
    getValue, node_eq hcell]
  simp [leafNode, getDBLeafValue_leaf (hi.saved _ hmem)]

/-- The memory after `createBranchNode` has moved the leaf at `q` below itself. -/
def moveLeaf (m : Mem) (q : ℕ) (right : Bool) (n : Node) : Mem :=
  (m.new n).2.set q ({ m.node q with key := none }.setChild right (m.new n).1)

theorem createBranchNode_eq {f : Option ℕ → ℕ → Mem → Option ℕ × Mem} {k' : Key}
    (hcell : m.heap[q]? = some (leafNode H k'.norm v'))
    (hread : getFromStorageLocked m k'.norm root = .ok (some v')) :
    createBranchNode H f root k.norm d q m =
      rehash H (descendInto f k.norm d q (moveLeaf m q (k'.bit d) (leafNode H k'.norm v'))) q := by
  have hkey : (m.node q).key = some k'.norm := by rw [node_eq hcell]; rfl
  simp only [createBranchNode, hkey, Option.getD_some, hread]
  rfl

/-- Moving the leaf leaves the two sides of the new branch: the leaf and nothing. -/
theorem moveLeaf_spec {k' : Key} (hcell : m.heap[q]? = some (leafNode H k'.norm v'))
    (hi : Insertable H m.store k (n + 1) d (.leaf k' v')) (hne : k' ≠ k) :
    ∃ m₁ L R pl pr cl cr, moveLeaf m q (k'.bit d) (leafNode H k'.norm v') = m₁ ∧
      m₁.heap[q]? = some ⟨(m.node q).hash, none, pl, pr⟩ ∧ Frame m.heap m₁.heap [q] ∧
      m₁.store = m.store ∧ Rep H m₁.heap L pl cl ∧ Rep H m₁.heap R pr cr ∧
      (q :: (cl ++ cr)).Nodup ∧ (∀ x ∈ cl ++ cr, m.heap.length ≤ x) ∧
      (BitTrie.leaf k' v').insert Key.bit k v (n + 1) d =
        BitTrie.descend (BitTrie.insert Key.bit k v n (d + 1)) (k.bit d) L R ∧
      (∀ a b, .node a b ∉ L.subtries ++ R.subtries) ∧
      Insertable H m.store k n (d + 1) (BitTrie.side (k.bit d) L R) := by
  have hq : q < m.heap.length := lt_of_cell hcell
  have hnode := node_eq hcell
  have hdepth := hi.fits.depth_lt hne
  have hlevels := hi.fits.levels
  have hempty : Insertable H m.store k n (d + 1) .empty := .empty (by omega) hdepth
  have hleaf : k'.bit d = k.bit d → Insertable H m.store k n (d + 1) (.leaf k' v') := fun hb =>
    ⟨hi.saved, hi.solid, .single, hi.fits.agrees.succ (by simpa [entries] using hb),
      by omega, hdepth⟩
  set n' := leafNode H k'.norm v'
  -- the leaf in its new cell, whatever is assigned to `q`
  have hmoved : ∀ c : Node, Frame m.heap ((m.new n').2.set q c).heap [q] ∧
      ((m.new n').2.set q c).heap[q]? = some c ∧
      Rep H ((m.new n').2.set q c).heap (.leaf k' v') (some m.heap.length) [m.heap.length] := by
    intro c
    refine ⟨(Frame.append _ _ [q]).trans (Frame.set _ _ (mem_singleton.mpr rfl)) (by simp),
      getElem?_set_self (by simp [new]; omega) _, .single ?_⟩
    show ((m.heap ++ [n']).set q c)[m.heap.length]? = some n'
    rw [List.getElem?_set_ne (Nat.ne_of_lt hq), List.getElem?_concat_length]
  have hnodup : (q :: [m.heap.length]).Nodup := by simpa using Nat.ne_of_lt hq
  cases hb : k'.bit d with
  | true =>
    obtain ⟨hframe, hcell₁, hrep⟩ := hmoved ⟨(m.node q).hash, none, none, some m.heap.length⟩
    refine ⟨_, .empty, .leaf k' v', none, some m.heap.length, [], [m.heap.length], ?_, hcell₁,
      hframe, rfl, .nil, hrep, hnodup, by simp, ?_, by simp [subtries], ?_⟩
    · simp [moveLeaf, hnode, n', leafNode, new, Node.setChild]
    · rw [BitTrie.insert, if_neg hne, if_pos hb]
    · cases hk : k.bit d
      · exact hempty
      · exact hleaf (hb.trans hk.symm)
  | false =>
    obtain ⟨hframe, hcell₁, hrep⟩ := hmoved ⟨(m.node q).hash, none, some m.heap.length, none⟩
    refine ⟨_, .leaf k' v', .empty, some m.heap.length, none, [m.heap.length], [], ?_, hcell₁,
      hframe, rfl, hrep, .nil, by simpa using hnodup, by simp, ?_, by simp [subtries], ?_⟩
    · simp [moveLeaf, hnode, n', leafNode, new, Node.setChild]
    · rw [BitTrie.insert, if_neg hne, if_neg (by simp [hb])]
    · cases hk : k.bit d
      · exact hleaf (hb.trans hk.symm)
      · exact hempty

theorem not_mem_of_path (hnodup : (q :: (cl ++ cr)).Nodup)
    (hpath : ∀ x ∈ path, x ∉ q :: (cl ++ cr)) (b : Bool) :
    ∀ x ∈ path ++ [q], x ∉ if b then cr else cl := by
  obtain ⟨hql, hqr, -, -, -⟩ := nodup_cons_append.mp hnodup
  intro x hx
  rcases mem_append.mp hx with hx | hx
  · have hout := hpath x hx
    simp only [mem_cons, mem_append, not_or] at hout
    cases b
    · exact hout.2.1
    · exact hout.2.2
  · obtain rfl := mem_singleton.mp hx
    cases b
    · exact hql
    · exact hqr

/-- The descent into a branch cell and its rehashing, for the insertion. -/
theorem insert_descend (ih : Inserts H root k v n) {pl pr : Option ℕ}
    (hcell : m.heap[q]? = some ⟨hash, none, pl, pr⟩) (hl : Rep H m.heap l pl cl)
    (hr : Rep H m.heap r pr cr) (hnodup : (q :: (cl ++ cr)).Nodup)
    (hi : Insertable H m.store k n (d + 1) (BitTrie.side (k.bit d) l r))
    (hlead : Leads m.heap k root d (some q) path) (hpath : ∀ x ∈ path, x ∉ q :: (cl ++ cr)) :
    ∃ cells', Yields H m (l.subtries ++ r.subtries) (q :: (cl ++ cr))
      (q :: insertCells m k.norm n (if k.bit d then pr else pl) (d + 1))
      (BitTrie.descend (BitTrie.insert Key.bit k v n (d + 1)) (k.bit d) l r)
      (some q, rehash H (descendInto (insertNode H root k.norm v n) k.norm d q m) q) q cells' := by
  have hnode := node_eq hcell
  have hside := Rep.side hl hr (k.bit d)
  obtain ⟨p', c', y, -⟩ := ih m _ _ _ _ _ hside hi (Leads.step hlead hcell rfl)
    (not_mem_of_path hnodup hpath _)
  obtain ⟨pl', pr', cl', cr', hdesc⟩ := descendInto_spec
    (lt_of_cell hcell) (by rw [hnode]) (by rw [hnode]) hl hr hnodup
    (insertCells_sub hside) y
  obtain ⟨cells', y'⟩ := hdesc.rehash (by rw [hnode])
  refine ⟨cells', ?_⟩
  cases hb : k.bit d <;> simpa [descend, hb] using y'

theorem insertNode_branch {pl pr : ℕ} {key : Bytes}
    (hcell : m.heap[q]? = some ⟨hash, none, some pl, some pr⟩) (hnz : hash ≠ zeroHash) :
    insertNode H root key v (n + 1) (some q) d m =
      (some q, rehash H (descendInto (insertNode H root key v n) key d q m) q) := by
  rw [insertNode, node_eq hcell, if_neg hnz, if_neg (by simp)]

/-- **Insertion in the heap** is insertion into the trie. -/
theorem insertNode_spec (root : Option ℕ) (k : Key) (v : Bytes) (n : ℕ) : Inserts H root k v n := by
  induction n with
  | zero =>
    intro m t p cells path d _ hi
    have h₁ := hi.fits.levels
    have h₂ := hi.fits.depth_le
    omega
  | succ n ih =>
    intro m t p cells path d hrep hi hlead hpath
    cases hrep with
    | nil => exact ⟨_, _, yields_new_leaf m _ _ _ k v, fun h => absurd rfl h⟩
    | zero hp =>
      rw [insertNode, node_eq hp, if_pos (show Node.zero.hash = zeroHash from rfl)]
      exact ⟨_, _, yields_new_leaf m _ _ _ k v, fun h => absurd rfl h⟩
    | @single q k' v' hp =>
      have hnz : (leafNode H k'.norm v').hash ≠ zeroHash := hi.solid.hash_ne (by simp)
      have hcells : insertCells m k.norm (n + 1) (some q) d = [q] := by
        rw [insertCells, node_eq hp, if_neg hnz, if_pos ⟨rfl, rfl⟩]
      rw [insertNode, hcells, node_eq hp, if_neg hnz, if_pos ⟨rfl, rfl⟩]
      by_cases hk : k' = k
      · subst hk
        rw [if_pos (show (leafNode H k'.norm v').key = some k'.norm from rfl), BitTrie.insert,
          if_pos rfl]
        refine ⟨q, [q], ⟨rfl, .single ?_, by simp, Frame.set _ _ (by simp),
          .refl _ (by simp [subtries])⟩, fun _ => rfl⟩
        exact getElem?_set_self (lt_of_cell hp) _
      · have hkey : (leafNode H k'.norm v').key ≠ some k.norm := by
          simpa [leafNode, Key.norm_inj] using hk
        rw [if_neg hkey, createBranchNode_eq hp (getFromStorageLocked_leaf hp hi hlead)]
        obtain ⟨m₁, L, R, pl, pr, cl, cr, hm₁, hcell, hframe, hst, hL, hR, hnodup, hfresh, hins,
          hleaves, hi₁⟩ := moveLeaf_spec (v := v) hp hi hk
        have hpath₁ : ∀ x ∈ path, x ∉ q :: (cl ++ cr) := by
          intro x hx hmem
          rcases mem_cons.mp hmem with rfl | hmem
          · exact hpath x hx (.head _)
          · exact absurd (hlead.lt_length x hx) (not_lt.mpr (hfresh x hmem))
        obtain ⟨cells', y⟩ := insert_descend ih hcell hL hR hnodup (hst ▸ hi₁)
          (hlead.frame hframe fun x hx => by simpa using hpath x hx) hpath₁
        have hW : ∀ x ∈ q :: (cl ++ cr), x ∈ [q] ∨ m.heap.length ≤ x := by
          intro x hx
          rcases mem_cons.mp hx with rfl | hx
          · exact .inl (.head _)
          · exact .inr (hfresh x hx)
        rw [hm₁, hins]
        refine ⟨q, cells', ⟨rfl, y.rep, fun x hx => ?_, ?_, ?_⟩, fun _ => rfl⟩
        · exact (y.cells_sub x hx).elim (hW x) fun hle => .inr (hframe.length_le.trans hle)
        · refine hframe.trans y.frame fun x hx => ?_
          rcases mem_cons.mp hx with rfl | hx
          · exact .inl (.head _)
          · refine hW x (.tail _ ?_)
            split_ifs at hx
            · exact mem_append_right _ (insertCells_sub hR x hx)
            · exact mem_append_left _ (insertCells_sub hL x hx)
        · rw [← hst]
          exact y.puts.mono fun a b hab => absurd hab (hleaves a b)
    | @branch q pl pr l r cl cr hp hl hr hnodup =>
      have hnz : rootHash H (.node l r) ≠ zeroHash := hi.solid.hash_ne (by simp)
      have hcells : insertCells m k.norm (n + 1) (some q) d =
          q :: insertCells m k.norm n (if k.bit d then some pr else some pl) (d + 1) := by
        rw [insertCells, node_eq hp, if_neg hnz, if_neg (by simp), child_branch]
        cases hb : k.bit d <;> simp [Key.bit] at hb <;> simp [hb]
      obtain ⟨cells', y⟩ := insert_descend ih hp hl hr hnodup hi.side hlead hpath
      rw [insertNode_branch hp hnz, hcells]
      exact ⟨q, cells', { y with puts := y.puts.mono fun a b hab => .tail _ hab }, fun _ => rfl⟩

theorem updateTree_branch {q pl pr : ℕ} {hash key : Bytes}
    (hcell : m.heap[q]? = some ⟨hash, none, some pl, some pr⟩) :
    updateTree H key v (n + 1) (some q) d m =
      rehash H (updateTree H key v n ((m.node q).child (trieBit key d)) (d + 1) m) q := by
  rw [updateTree, if_neg (key_ne_of_none (by rw [node_eq hcell]) _)]

/-- For a key of the trie, `updateTree` does what `insertNode` does. -/
theorem updateTree_eq_insertNode (hrep : Rep H m.heap t p cells)
    (hi : Insertable H m.store k n d t) (hlead : Leads m.heap k root d p path)
    (hpath : ∀ q ∈ path, q ∉ cells) {v₀ : Bytes} (hmem : (k, v₀) ∈ t.entries) :
    updateTree H k.norm v n p d m = (insertNode H root k.norm v n p d m).2 := by
  induction hrep generalizing n d path with
  | nil | zero => simp [entries] at hmem
  | @single q k' v' hp =>
    obtain ⟨n, rfl⟩ := hi.fits.exists_succ
    obtain ⟨rfl, rfl⟩ := Prod.mk.inj (mem_singleton.mp hmem)
    have hnz : (leafNode H k.norm v₀).hash ≠ zeroHash := hi.solid.hash_ne (by simp)
    have hkey : (leafNode H k.norm v₀).key = some k.norm := rfl
    rw [updateTree, insertNode, node_eq hp, if_pos hkey, if_neg hnz, if_pos ⟨rfl, rfl⟩, if_pos hkey]
  | @branch q pl pr l r cl cr hp hl hr hnodup ihl ihr =>
    obtain ⟨n, rfl⟩ := hi.fits.exists_succ
    have hq : q < m.heap.length := lt_of_cell hp
    have hnode := node_eq hp
    have hnz : rootHash H (.node l r) ≠ zeroHash := hi.solid.hash_ne (by simp)
    obtain ⟨hql, hqr, -, -, -⟩ := nodup_cons_append.mp hnodup
    have hlead' := Leads.step hlead hp rfl
    have hside := Rep.side hl hr (k.bit d)
    have hpath' := not_mem_of_path hnodup hpath (k.bit d)
    have hmem' : (k, v₀) ∈ (side (k.bit d) l r).entries :=
      hi.fits.canon.mem_side_iff.mpr ⟨hmem, rfl⟩
    have hne : side (k.bit d) l r ≠ .empty := by
      intro h
      simp [h, entries] at hmem'
    have hchild : (m.node q).child (trieBit k.norm d) = if k.bit d then some pr else some pl := by
      rw [hnode]
      rfl
    -- the call returns the child it was given, so the assignment changes nothing
    obtain ⟨p', c', y, hp'⟩ := insertNode_spec root k v n m _ _ _ _ _ hside hi.side hlead' hpath'
    have hsame : (insertNode H root k.norm v n (if k.bit d then some pr else some pl) (d + 1)
        m).2.node q = m.node q :=
      y.frame.node hq fun hx => hpath' q (by simp) (insertCells_sub hside q hx)
    have hupdate : updateTree H k.norm v n (if k.bit d then some pr else some pl) (d + 1) m =
        (insertNode H root k.norm v n (if k.bit d then some pr else some pl) (d + 1) m).2 := by
      have hi' := hi.side
      cases hb : k.bit d <;> rw [hb] at hi' hmem' hlead' hpath'
      · exact ihl hi' hlead' hpath' hmem'
      · exact ihr hi' hlead' hpath' hmem'
    rw [updateTree_branch hp, insertNode_branch hp hnz, hchild, hupdate]
    congr 1
    rw [descendInto, hchild]
    rw [y.ptr, ← hp' hne, hsame, ← hchild, Node.setChild_child, hchild]
    conv_lhs => rw [← set_node_self (insertNode H root k.norm v n _ (d + 1) m).2 q, hsame]

/-- `Flush` assigns the hash of the leaf before it calls `updateTree`, which assigns
it again. -/
theorem updateTree_set (hrep : Rep H m.heap t p cells) (hf : Fits k n d t) {q N : ℕ}
    (hq : findNode m k.norm N p d = some q) :
    updateTree H k.norm v n p d (m.set q { m.node q with hash := H (trieLeaf H k.norm v) }) =
      updateTree H k.norm v n p d m := by
  induction hrep generalizing n d N with
  | nil => simp [findNode_none] at hq
  | zero hp =>
    obtain ⟨N, rfl⟩ := exists_succ_of_findNode hq
    rw [findNode_zero hp] at hq
    cases hq
  | @single p k' v' hp =>
    obtain ⟨N, rfl⟩ := exists_succ_of_findNode hq
    obtain ⟨n, rfl⟩ := hf.exists_succ
    have hchild : (m.node p).child (trieBit k.norm d) = none := by
      rw [node_eq hp, leafNode_child]
    rw [findNode, hchild, findNode_none] at hq
    split_ifs at hq with hkey
    cases hq
    rw [updateTree, updateTree, node_set_self (lt_of_cell hp), if_pos hkey,
      if_pos hkey, Mem.set_set]
  | @branch p pl pr l r cl cr hp hl hr hnodup ihl ihr =>
    obtain ⟨N, rfl⟩ := exists_succ_of_findNode hq
    obtain ⟨n, rfl⟩ := hf.exists_succ
    have hkey : (m.node p).key ≠ some k.norm := key_ne_of_none (by rw [node_eq hp]) _
    have hchild : (m.node p).child (trieBit k.norm d) = if k.bit d then some pr else some pl := by
      rw [node_eq hp]
      rfl
    obtain ⟨hpl, hpr, -, -, -⟩ := nodup_cons_append.mp hnodup
    rw [findNode, if_neg hkey, hchild] at hq
    have hside := hf.side
    -- the leaf is below the branch
    have hne : q ≠ p := by
      rintro rfl
      have hmem := (Rep.side hl hr (k.bit d)).findNode_mem hq
      cases hb : k.bit d <;> rw [hb] at hmem
      · exact hpl hmem
      · exact hpr hmem
    rw [updateTree, updateTree, node_set_ne hne, if_neg hkey, if_neg hkey, hchild]
    congr 1
    cases hb : k.bit d <;> rw [hb] at hq hside
    · exact ihl hside hq
    · exact ihr hside hq

end JamDuna.Storage
