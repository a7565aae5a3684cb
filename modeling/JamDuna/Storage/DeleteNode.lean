/-
# Deletion in the heap

`deleteNode` of `storage/trie.go` on a trie laid out in the heap gives the abstract
deletion, which removes the leaf at the end of the descent whatever key it holds.
Of the old cells only the branches on the way are written (`deleteCells`).
-/

import JamDuna.Storage.Descend

namespace JamDuna.Storage

open JamDuna.Basis List BitTrie Mem

variable {H : HashFn}

/-- The cells that `deleteNode` writes: the branches on the way of the key. -/
def deleteCells (m : Mem) (key : Bytes) : ℕ → Option ℕ → ℕ → List ℕ
  | 0, _, _ => []
  | _ + 1, none, _ => []
  | n + 1, some p, depth =>
    if (m.node p).left = none ∧ (m.node p).right = none then []
    else p :: deleteCells m key n ((m.node p).child (trieBit key depth)) (depth + 1)

section

variable {m m' : Mem} {p : ℕ} {l r : StateTrie} {pl pr : Option ℕ} {cl cr cells W : List ℕ}
  {old : List StateTrie}

/-- A new empty node. -/
theorem yields_new_zero (m : Mem) (old : List StateTrie) (cells W : List ℕ) :
    Yields H m old cells W .empty (m.new Node.zero) m.heap.length [m.heap.length] where
  ptr := rfl
  rep := .zero (by simp [new])
  cells_sub := by simp
  frame := Frame.append _ _ _
  puts := .refl _ (by simp [subtries])

variable {hash : Bytes}

section

variable (hcell : m.heap[p]? = some ⟨hash, none, pl, pr⟩) (hl : Rep H m.heap l pl cl)
  (hr : Rep H m.heap r pr cr)
include hcell hl hr

/-- Collapsing a cell with nothing on the side `b` and a leaf on the other gives the
leaf. -/
theorem collapseNode_eq_child (hsl : Solid H l) (hsr : Solid H r) (b : Bool)
    (hempty : side b l r = .empty) (hleaf : ∃ k v, side (!b) l r = .leaf k v) :
    collapseNode H m p = ((m.node p).child (!b), m) := by
  have hnode := node_eq hcell
  have hel := hl.isEmpty_iff hsl
  have her := hr.isEmpty_iff hsr
  obtain ⟨k, v, hleaf⟩ := hleaf
  cases b with
  | false =>
    obtain rfl : l = .empty := hempty
    obtain rfl : r = .leaf k v := hleaf
    simp [collapseNode, hnode, hel, her, hr.isLeaf_iff, Node.child]
  | true =>
    obtain rfl : r = .empty := hempty
    obtain rfl : l = .leaf k v := hleaf
    simp [collapseNode, hnode, hel, her, hl.isLeaf_iff, Node.child]

/-- **Collapsing a cell** whose children are tries gives the collapsed trie. -/
theorem collapseNode_spec (hpl : pl.isSome) (hpr : pr.isSome)
    (hsl : Solid H l) (hsr : Solid H r) (hnodup : (p :: (cl ++ cr)).Nodup) :
    ∃ p' cells', (collapseNode H m p).1 = some p' ∧
      Rep H (collapseNode H m p).2.heap (BitTrie.collapse l r) (some p') cells' ∧
      (∀ q ∈ cells', q ∈ p :: (cl ++ cr) ∨ m.heap.length ≤ q) ∧
      Frame m.heap (collapseNode H m p).2.heap [p] ∧
      ((∀ a b, BitTrie.collapse l r ≠ .node a b) ∧ (collapseNode H m p).2.store = m.store ∨
        BitTrie.collapse l r = .node l r ∧ p' = p ∧ (collapseNode H m p).2.store =
          Function.update m.store (rootHash H (.node l r)) (some (branchRecord H l r))) := by
  have hnode := node_eq hcell
  have hp : p < m.heap.length := lt_of_cell hcell
  have hel := hl.isEmpty_iff hsl
  have her := hr.isEmpty_iff hsr
  obtain ⟨ql, rfl⟩ := Option.isSome_iff_exists.mp hpl
  obtain ⟨qr, rfl⟩ := Option.isSome_iff_exists.mp hpr
  have hboth : (m.isEmpty (m.node p).left && m.isEmpty (m.node p).right) = true ↔
      l = .empty ∧ r = .empty := by
    rw [hnode, Bool.and_eq_true, hel, her]
  have hright : (m.isEmpty (m.node p).left && m.isLeaf (m.node p).right) = true ↔
      l = .empty ∧ ∃ k v, r = .leaf k v := by
    rw [hnode, Bool.and_eq_true, hel, hr.isLeaf_iff]
  have hleft : (m.isEmpty (m.node p).right && m.isLeaf (m.node p).left) = true ↔
      r = .empty ∧ ∃ k v, l = .leaf k v := by
    rw [hnode, Bool.and_eq_true, her, hl.isLeaf_iff]
  rcases collapse_cases l r with ⟨h₁, h₂, hc⟩ | ⟨h₁, h₂, hc⟩ | ⟨h₁, h₂, hc⟩ | ⟨h₁, h₂, h₃, hc⟩
  · rw [collapseNode, if_pos (hboth.mpr ⟨h₁, h₂⟩), hc]
    have y := yields_new_zero (H := H) m [] [] [p]
    exact ⟨_, _, y.ptr, y.rep, fun q hq => .inr (by simpa using y.cells_sub q hq), y.frame,
      .inl ⟨by simp, rfl⟩⟩
  · rw [collapseNode_eq_child hcell hl hr hsl hsr false h₁ h₂, hc, hnode]
    obtain ⟨k, v, h₂⟩ := h₂
    exact ⟨qr, cr, rfl, hr, fun q hq => .inl (.tail _ (mem_append_right _ hq)), Frame.refl _ _,
      .inl ⟨by simp [h₂], rfl⟩⟩
  · rw [collapseNode_eq_child hcell hl hr hsl hsr true h₁ h₂, hc, hnode]
    obtain ⟨k, v, h₂⟩ := h₂
    exact ⟨ql, cl, rfl, hl, fun q hq => .inl (.tail _ (mem_append_left _ hq)), Frame.refl _ _,
      .inl ⟨by simp [h₂], rfl⟩⟩
  · rw [collapseNode, if_neg (mt hboth.mp h₁), if_neg (mt hright.mp h₂),
      if_neg (mt hleft.mp h₃), hc, hnode]
    simp only [hl.hashOf, hr.hashOf, fixed_of_length (length_rootHash H l),
      fixed_of_length (length_rootHash H r)]
    obtain ⟨hpl', hpr', -, -, -⟩ := nodup_cons_append.mp hnodup
    have hframe : Frame m.heap (m.heap.set p ⟨rootHash H (.node l r), none, some ql, some qr⟩)
        [p] := Frame.set _ _ (.head _)
    refine ⟨p, p :: (cl ++ cr), rfl, .branch ?_ (hl.frame hframe ?_) (hr.frame hframe ?_) hnodup,
      fun q hq => .inl hq, hframe, .inr ⟨trivial, rfl, rfl⟩⟩
    · exact getElem?_set_self hp _
    · rintro q hq hmem
      exact hpl' (mem_singleton.mp hmem ▸ hq)
    · rintro q hq hmem
      exact hpr' (mem_singleton.mp hmem ▸ hq)

end

/-- A descent and the collapsing of the cell give the collapsed trie. -/
theorem Descended.collapse (h : Descended H m p old cells W l r m' pl pr cl cr) {ql qr : ℕ}
    (hnode : m.node p = ⟨hash, none, some ql, some qr⟩) (hsl : Solid H l) (hsr : Solid H r) :
    ∃ p' cells', Yields H m old (p :: cells) (p :: W) (BitTrie.collapse l r)
      (collapseNode H m' p) p' cells' ∧ ((∃ a b, BitTrie.collapse l r = .node a b) → p' = p) := by
  have hcell := h.cell
  rw [hnode] at hcell
  obtain ⟨p', cells', hptr, hrep, hsub, hframe, hres⟩ := collapseNode_spec hcell h.left h.right
    (h.left_some (by rw [hnode]; rfl)) (h.right_some (by rw [hnode]; rfl)) hsl hsr h.nodup
  have hholds : ∀ q, Holds H l m'.store q ∨ Holds H r m'.store q →
      Holds H (BitTrie.collapse l r) m'.store q := fun q hq =>
    hq.elim (fun h => h.mono fun _ _ ha => mem_subtries_collapse (.inl ha) (by simp))
      fun h => h.mono fun _ _ ha => mem_subtries_collapse (.inr ha) (by simp)
  refine ⟨p', cells', ⟨hptr, hrep, h.cells_of hsub, h.frame.trans hframe (by simp), ?_⟩, ?_⟩
  · rcases hres with ⟨hnot, hstore⟩ | ⟨hc, -, hstore⟩ <;> rw [hstore]
    · refine ⟨fun q => (h.changed q).imp_right (hholds q), fun a b hab => ?_⟩
      cases hcol : BitTrie.collapse l r with
      | empty | leaf => simp [hcol, subtries] at hab
      | node a' b' => exact absurd hcol (hnot a' b')
    · rw [hc] at hholds ⊢
      exact .branch (fun q => (h.changed q).imp_right (hholds q))
        fun a b hab => (h.fresh a b hab).imp_right (hholds _)
  · rintro ⟨a, b, hab⟩
    rcases hres with ⟨hnot, -⟩ | ⟨-, hp', -⟩
    · exact absurd hab (hnot a b)
    · exact hp'

end

variable {m : Mem} {t l r : StateTrie} {p : Option ℕ} {q : ℕ} {cells : List ℕ} {k : Key} {n d : ℕ}

theorem deleteCells_branch {hash : Bytes} {key : Option Bytes} {pl pr : ℕ}
    (hcell : m.heap[q]? = some ⟨hash, key, some pl, some pr⟩) :
    deleteCells m k.norm (n + 1) (some q) d =
      q :: deleteCells m k.norm n (if k.bit d then some pr else some pl) (d + 1) := by
  rw [deleteCells, node_eq hcell, if_neg (by simp)]
  rfl

theorem deleteCells_sub (hr : Rep H m.heap t p cells) :
    ∀ q ∈ deleteCells m k.norm n p d, q ∈ cells := by
  induction hr generalizing n d with
  | nil => cases n <;> simp [deleteCells]
  | zero hp => cases n <;> simp [deleteCells, node_eq hp, Node.zero]
  | single hp => cases n <;> simp [deleteCells, node_eq hp, leafNode]
  | @branch p pl pr l r cl cr hp hl hr hnodup ihl ihr =>
    cases n with
    | zero => simp [deleteCells]
    | succ n =>
      intro q hq
      rw [deleteCells_branch hp] at hq
      split_ifs at hq with hb
      · exact cons_subset_cons p (fun q hq => mem_append_right _ (ihr q hq)) hq
      · exact cons_subset_cons p (fun q hq => mem_append_left _ (ihl q hq)) hq

theorem Solid.of_collapse (hs : Solid H (collapse l r)) : Solid H l ∧ Solid H r :=
  ⟨fun s hmem hne => hs s (mem_subtries_collapse (.inl hmem) hne) hne,
    fun s hmem hne => hs s (mem_subtries_collapse (.inr hmem) hne) hne⟩

/-- On a leaf with another key the descent does nothing. -/
theorem deleteNode_foreign {k' : Key} {v' : Bytes}
    (hcell : m.heap[q]? = some (leafNode H k'.norm v'))
    (hnz : (leafNode H k'.norm v').hash ≠ zeroHash) (hne : k' ≠ k) :
    deleteNode H k.norm (n + 1) (some q) d m = m.new Node.zero := by
  have hnode := node_eq hcell
  have hkey : (leafNode H k'.norm v').key ≠ some k.norm := by
    simpa [Key.norm_inj] using hne
  have hcall : deleteNode H k.norm n none (d + 1) m = (none, m) := by cases n <;> rfl
  have hdesc : descendInto (deleteNode H k.norm n) k.norm d q m = m := by
    have hchild : (m.node q).child (trieBit k.norm d) = none := by rw [hnode, leafNode_child]
    rw [descendInto, hchild, hcall]
    conv_lhs => rw [← hchild, Node.setChild_child]
    exact set_node_self m q
  rw [deleteNode, hnode, if_neg hnz, if_neg hkey, hdesc, collapseNode, hnode]
  rfl

/-- `deleteNode` at a branch: the side of the key has been deleted from, and the cell
is collapsed. -/
theorem deleteNode_descend {pl pr p' : ℕ} {cl cr c' : List ℕ}
    (hp : m.heap[q]? = some ⟨rootHash H (.node l r), none, some pl, some pr⟩)
    (hl : Rep H m.heap l (some pl) cl) (hr : Rep H m.heap r (some pr) cr)
    (hnodup : (q :: (cl ++ cr)).Nodup) (hnz : rootHash H (.node l r) ≠ zeroHash)
    (y : Yields H m (BitTrie.side (k.bit d) l r).subtries (if k.bit d then cr else cl)
      (deleteCells m k.norm n (if k.bit d then some pr else some pl) (d + 1))
      ((BitTrie.side (k.bit d) l r).delete Key.bit k (d + 1))
      (deleteNode H k.norm n (if k.bit d then some pr else some pl) (d + 1) m) p' c') :
    deleteNode H k.norm (n + 1) (some q) d m =
        collapseNode H (descendInto (deleteNode H k.norm n) k.norm d q m) q ∧
      ∃ pl' pr' cl' cr', Descended H m q (l.subtries ++ r.subtries) (cl ++ cr)
        (deleteCells m k.norm n (if k.bit d then some pr else some pl) (d + 1))
        (if k.bit d then l else l.delete Key.bit k (d + 1))
        (if k.bit d then r.delete Key.bit k (d + 1) else r)
        (descendInto (deleteNode H k.norm n) k.norm d q m) pl' pr' cl' cr' := by
  have hnode := node_eq hp
  refine ⟨?_, descendInto_spec (g := fun s => s.delete Key.bit k (d + 1))
    (lt_of_cell hp) (by rw [hnode]) (by rw [hnode]) hl hr hnodup
    (deleteCells_sub (Rep.side hl hr _)) y⟩
  rw [deleteNode, hnode, if_neg hnz, if_neg (key_ne_of_none rfl _)]

/-- **Deletion in the heap** is deletion in the trie. -/
theorem deleteNode_spec (hrep : Rep H m.heap t (some q) cells) (hs : Solid H t)
    (hs' : Solid H (t.delete Key.bit k d)) (hf : Fits k n d t) :
    ∃ p' cells', Yields H m t.subtries cells (deleteCells m k.norm n (some q) d)
      (t.delete Key.bit k d) (deleteNode H k.norm n (some q) d m) p' cells' ∧
      ((∃ a b, t.delete Key.bit k d = .node a b) → p' = q) := by
  induction t generalizing n d q cells with
  | empty =>
    obtain ⟨n, rfl⟩ := hf.exists_succ
    cases hrep with
    | zero hp =>
      rw [deleteNode, node_eq hp, if_pos (show Node.zero.hash = zeroHash from rfl)]
      exact ⟨q, [q], ⟨rfl, .zero hp, fun x hx => .inl hx, Frame.refl _ _,
        .refl _ (by simp [delete, subtries])⟩, fun _ => rfl⟩
  | leaf k' v' =>
    obtain ⟨n, rfl⟩ := hf.exists_succ
    cases hrep with
    | single hp =>
      have hnz : (leafNode H k'.norm v').hash ≠ zeroHash := hs.hash_ne (by simp)
      have hres : deleteNode H k.norm (n + 1) (some q) d m = m.new Node.zero := by
        by_cases hk : k' = k
        · subst hk
          rw [deleteNode, node_eq hp, if_neg hnz,
            if_pos (show (leafNode H k'.norm v').key = some k'.norm from rfl)]
        · exact deleteNode_foreign hp hnz hk
      rw [hres]
      exact ⟨_, _, yields_new_zero m _ _ _, by simp [delete]⟩
  | node l r ihl ihr =>
    obtain ⟨n, rfl⟩ := hf.exists_succ
    cases hrep with
    | @branch _ pl pr _ _ cl cr hp hl hr hnodup =>
      have hnode := node_eq hp
      have hnz : rootHash H (.node l r) ≠ zeroHash := hs.hash_ne (by simp)
      rw [delete_node] at hs' ⊢
      obtain ⟨hsl, hsr⟩ := hs'.of_collapse
      -- the recursive call, on the side of the key
      obtain ⟨p', c', y⟩ : ∃ p' c', Yields H m (side (k.bit d) l r).subtries
          (if k.bit d then cr else cl)
          (deleteCells m k.norm n (if k.bit d then some pr else some pl) (d + 1))
          ((side (k.bit d) l r).delete Key.bit k (d + 1))
          (deleteNode H k.norm n (if k.bit d then some pr else some pl) (d + 1) m) p' c' := by
        have hf' := hf.side
        cases hb : k.bit d <;> rw [hb] at hf' hsl hsr
        · obtain ⟨p', c', y, -⟩ := ihl hl (hs.side false) hsl hf'
          exact ⟨p', c', y⟩
        · obtain ⟨p', c', y, -⟩ := ihr hr (hs.side true) hsr hf'
          exact ⟨p', c', y⟩
      obtain ⟨heq, pl', pr', cl', cr', hdesc⟩ := deleteNode_descend hp hl hr hnodup hnz y
      obtain ⟨p'', cells', y', hp''⟩ := hdesc.collapse hnode hsl hsr
      rw [heq, deleteCells_branch hp]
      exact ⟨p'', cells', { y' with
        puts := y'.puts.mono fun a b hab => .tail _ hab }, hp''⟩

end JamDuna.Storage
