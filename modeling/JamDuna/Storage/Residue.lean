/-
# The old root after a flush

`insertNode` and `deleteNode` of `storage/trie.go` write the nodes on the way of a key
in place. So a pointer to the root that was kept from before the staged operations
were applied sees them, or a part of them.

A root that is no branch is seen as it was, but for a leaf into which keys are inserted
(`Laid.residue`). A branch that stays a branch is the new root as well
(`flushDeletes_root`). A branch that the deletes turn into a leaf is left with that
leaf below it, one level too low for what is inserted into the leaf afterwards, and a
key is lost (`flush_loses`).
-/

import JamDuna.Storage.Staging

namespace JamDuna.Storage

open JamDuna.Basis List BitTrie Mem Node

variable {H : HashFn} {P : List (Key × Bytes)}

/-- The two loops of `Flush`. -/
def flushLoops (H : HashFn) (r : Option ℕ × Mem) (deletes : List Key)
    (inserts : List (Key × Bytes)) : Option ℕ × Mem :=
  (inserts.map normPair).foldl (flushInsert H) ((deletes.map Key.norm).foldl (flushDelete H) r)

variable {m : Mem} {root : Option ℕ} {t l r : StateTrie} {cells : List ℕ} {deletes : List Key}
  {inserts : List (Key × Bytes)} {p q : ℕ} {k : Key} {n d : ℕ}

/-- **A flush writes only cells of the trie.** -/
theorem flushLoops_frame (cf : CollisionFree H P) (va : ValuesApart H P)
    (hin : ∀ e ∈ inserts, e ∈ P) (h : Laid H P m root t cells) (deletes : List Key) :
    Frame m.heap (flushLoops H (root, m) deletes inserts).2.heap cells := by
  induction deletes generalizing m root t cells with
  | cons k deletes ih =>
    obtain ⟨cells', happ, -⟩ := flushDelete_spec cf va h k
    exact (happ.frame.mono fun q hq => .inl (deleteCells_sub h.rep q hq)).trans (ih happ.laid)
      happ.cells_sub
  | nil =>
    induction inserts generalizing m root t cells with
    | nil => exact Frame.refl _ _
    | cons e inserts ih =>
      obtain ⟨cells', happ, -⟩ := flushInsert_spec cf va h (hin e mem_cons_self)
      exact (happ.frame.mono fun q hq => .inl (insertCells_sub h.rep q hq)).trans
        (ih (fun e' he' => hin e' (.tail _ he')) happ.laid) happ.cells_sub

theorem eraseKeys_ne_node (h : ∀ l r, t ≠ .node l r) (l r : StateTrie) :
    eraseKeys t deletes ≠ .node l r := by
  induction deletes generalizing t with
  | nil => exact h l r
  | cons k deletes ih => exact ih (delete_ne_node h)

section

variable (cf : CollisionFree H P) (va : ValuesApart H P)
include cf va

/-- A root that stays a branch stays where it is. -/
theorem flushDeletes_root (h : Laid H P m root t cells)
    (hnode : ∃ l r, eraseKeys t deletes = .node l r) :
    ((deletes.map Key.norm).foldl (flushDelete H) (root, m)).1 = root := by
  induction deletes generalizing m root t cells with
  | nil => rfl
  | cons k deletes ih =>
    obtain ⟨cells', happ, hroot⟩ := flushDelete_spec cf va h k
    have hnode' : ∃ l r, eraseKey t k = .node l r := by
      by_contra hnot
      obtain ⟨l, r, hlr⟩ := hnode
      exact eraseKeys_ne_node (fun a b hab => hnot ⟨a, b, hab⟩) l r hlr
    exact (ih happ.laid hnode).trans (hroot hnode')

section

variable (hin : ∀ e ∈ inserts, e ∈ P) (h : Laid H P m root t cells)
include hin h

/-- A root that is not empty stays where it is when keys are inserted. -/
theorem flushInserts_root
    (hne : t ≠ .empty) : ((inserts.map normPair).foldl (flushInsert H) (root, m)).1 = root := by
  induction inserts generalizing m root t cells with
  | nil => rfl
  | cons e inserts ih =>
    obtain ⟨cells', happ, hroot⟩ := flushInsert_spec cf va h (hin e mem_cons_self)
    exact (ih (fun e' he' => hin e' (.tail _ he')) happ.laid
      (insert_ne_empty _ _)).trans (hroot hne)

/-- The trie after the two loops. -/
theorem flushLoops_laid (deletes : List Key) :
    ∃ cells', Laid H P (flushLoops H (root, m) deletes inserts).2
      (flushLoops H (root, m) deletes inserts).1 (putKeys (eraseKeys t deletes) inserts)
      cells' := by
  obtain ⟨cells₁, hlaid₁, -, -⟩ := flushDeletes_spec cf va deletes h
  obtain ⟨cells₂, hlaid₂, -, -⟩ := flushInserts_spec cf va hin hlaid₁
  exact ⟨cells₂, hlaid₂⟩

theorem flushLoops_root (hne : t ≠ .empty)
    (hstays : deletes = [] ∨ ∃ l r, eraseKeys t deletes = .node l r) :
    (flushLoops H (root, m) deletes inserts).1 = root := by
  rcases hstays with rfl | hnode
  · exact flushInserts_root cf va hin h hne
  · obtain ⟨cells₁, hlaid₁, -, -⟩ := flushDeletes_spec cf va deletes h
    have hroot := flushDeletes_root cf va h hnode
    obtain ⟨l, r, hlr⟩ := hnode
    rw [flushLoops, flushInserts_root cf va hin hlaid₁ (by simp [hlr]), hroot]

end

end

variable {h : List Node}

theorem Rep.empty_cell (hr : Rep H h .empty root cells) (hq : q ∈ cells) :
    h[q]? = some Node.zero := by
  cases hr with
  | nil => simp at hq
  | zero hp => rwa [mem_singleton.mp hq]

theorem Rep.leaf_cell {v : Bytes} (hr : Rep H h (.leaf k v) root cells)
    (hq : q ∈ cells) : h[q]? = some (leafNode H k.norm v) := by
  cases hr with
  | single hp => rwa [mem_singleton.mp hq]

theorem zero_ne_leafNode (key value : Bytes) : zero ≠ leafNode H key value := by
  simp [zero, leafNode]

theorem flushDeletes_empty (h : Laid H P m root .empty cells) :
    (deletes.map Key.norm).foldl (flushDelete H) (root, m) = (root, m) := by
  have hone : ∀ k : Key, flushDelete H (root, m) k.norm = (root, m) := by
    intro k
    rw [flushDelete, levels_norm]
    cases h.rep with
    | nil => rfl
    | zero hp =>
      rw [deleteNode, node_eq hp, if_pos (show zero.hash = zeroHash from rfl)]
  induction deletes with
  | nil => rfl
  | cons k deletes ih => rw [map_cons, foldl_cons, hone, ih]

section

variable (cf : CollisionFree H P) (va : ValuesApart H P) (hin : ∀ e ∈ inserts, e ∈ P)
include cf va hin

/-- An empty node at the root is not written: the first leaf is a new cell. -/
theorem flushLoops_zero (h : Laid H P m (some p) .empty cells) :
    (flushLoops H (some p, m) deletes inserts).2.heap[p]? = some zero := by
  have hp : m.heap[p]? = some zero := by
    cases h.rep with
    | zero hp => exact hp
  have hlt : p < m.heap.length := lt_of_cell hp
  rw [flushLoops, flushDeletes_empty h]
  cases inserts with
  | nil => exact hp
  | cons e inserts =>
    obtain ⟨cells', happ, -⟩ := flushInsert_spec cf va h (hin e mem_cons_self)
    have hW : insertCells m e.1.norm (keyBits + 1) (some p) 0 = [] := by
      rw [insertCells, node_eq hp, if_pos (show zero.hash = zeroHash from rfl)]
    have hsame : (flushInsert H (some p, m) (normPair e)).2.heap[p]? = some zero :=
      (happ.frame.same p hlt (by rw [hW]; simp)).trans hp
    have hpc : p ∉ cells' := by
      have hrep : Rep H _ (.leaf e.1 e.2) _ cells' := happ.laid.rep
      exact fun hmem => zero_ne_leafNode _ _
        (Option.some.inj (hsame.symm.trans (hrep.leaf_cell hmem)))
    rw [← hsame]
    exact (flushLoops_frame cf va (fun e' he' => hin e' (.tail _ he')) happ.laid []).same p
      (hlt.trans_le happ.frame.length_le) hpc

/-- A leaf at the root is not written by a flush with deletes: the first of them puts
an empty node in its place. -/
theorem flushLoops_leaf {v : Bytes} (h : Laid H P m (some p) (.leaf k v) cells)
    (hne : deletes ≠ []) :
    (flushLoops H (some p, m) deletes inserts).2.heap[p]? = some (leafNode H k.norm v) := by
  obtain ⟨k', deletes, rfl⟩ := exists_cons_of_ne_nil hne
  have hp : m.heap[p]? = some (leafNode H k.norm v) := by
    cases h.rep with
    | single hp => exact hp
  have hlt : p < m.heap.length := lt_of_cell hp
  obtain ⟨cells', happ, -⟩ := flushDelete_spec cf va h k'
  have hW : deleteCells m k'.norm (keyBits + 1) (some p) 0 = [] := by
    rw [deleteCells, node_eq hp, if_pos ⟨rfl, rfl⟩]
  have hsame : (flushDelete H (some p, m) k'.norm).2.heap[p]? = some (leafNode H k.norm v) :=
    (happ.frame.same p hlt (by rw [hW]; simp)).trans hp
  have hpc : p ∉ cells' := by
    have hrep : Rep H _ .empty _ cells' := happ.laid.rep
    exact fun hmem => zero_ne_leafNode _ _
      (Option.some.inj ((hrep.empty_cell hmem).symm.trans hsame))
  rw [← hsame]
  exact (flushLoops_frame cf va hin happ.laid deletes).same p
    (hlt.trans_le happ.frame.length_le) hpc

/-- **A root that is no branch** leads to a trie after a flush: to the old one, or to a
leaf with the staged inserts when there is nothing to delete. -/
theorem Laid.residue (h : Laid H P m root t cells) (ht : ∀ l r, t ≠ .node l r) (deletes : List Key) :
    ∃ t' cells', Rep H (flushLoops H (root, m) deletes inserts).2.heap t' root cells' ∧
      t'.Canon Key.bit 0 ∧ (t = .empty ∨ deletes ≠ [] → t' = t) := by
  cases t with
  | empty =>
    cases root with
    | none => exact ⟨_, _, .nil, .nil, fun _ => rfl⟩
    | some p => exact ⟨_, _, .zero (flushLoops_zero cf va hin h), .nil, fun _ => rfl⟩
  | leaf k v =>
    obtain ⟨p, rfl⟩ : ∃ p, root = some p := by
      cases h.rep with
      | single => exact ⟨_, rfl⟩
    by_cases hd : deletes = []
    · subst hd
      obtain ⟨cells', hlaid⟩ := flushLoops_laid cf va hin h []
      have hroot := flushLoops_root cf va hin h (by simp) (.inl rfl)
      have hrep := hlaid.rep
      rw [hroot] at hrep
      refine ⟨_, cells', hrep, hlaid.canon, ?_⟩
      rintro (hne | hne)
      · cases hne
      · exact absurd rfl hne
    · exact ⟨_, _, .single (flushLoops_leaf cf va hin h hd), .single, fun _ => rfl⟩
  | node l r => exact absurd rfl (ht l r)

end

/-- A deletion leaves a key of a branch. -/
theorem eraseKey_ne_empty (ht : Canon Key.bit 0 (.node l r)) (k : Key) :
    eraseKey (.node l r) k ≠ .empty := by
  intro hempty
  have hgone : ∀ e ∈ (node l r).entries, (node l r).descent Key.bit k 0 = some e.1 := by
    intro e he
    by_contra hne
    have hmem := (mem_eraseKey ht).mpr ⟨he, hne⟩
    simp [hempty, entries] at hmem
  obtain ⟨e, he, e', he', hne⟩ := ht.two_keys
  exact hne (Option.some.inj ((hgone e he).symm.trans (hgone e' he')))

/-- What is left of a branch that a deletion turns into a leaf: the leaf on one side,
and nothing on the other. -/
theorem flushDelete_collapse (cf : CollisionFree H P) (va : ValuesApart H P)
    (h : Laid H P m (some p) (.node l r) cells) (hnot : ∀ a b, eraseKey (.node l r) k ≠ .node a b) :
    ∃ b c cells' empties, (flushDelete H (some p, m) k.norm).2.heap[p]? = some c ∧ c.key = none ∧
      (flushDelete H (some p, m) k.norm).1 = c.child (!b) ∧
      Laid H P (flushDelete H (some p, m) k.norm).2 (flushDelete H (some p, m) k.norm).1
        (eraseKey (.node l r) k) cells' ∧
      Rep H (flushDelete H (some p, m) k.norm).2.heap .empty (c.child b) empties ∧
      p ∉ cells' ∧ ∀ q ∈ empties, q ∉ cells' := by
  obtain ⟨cells₁, happ, -⟩ := flushDelete_spec cf va h k
  have hlaid := happ.laid
  have hs : Solid H (.node l r) := h.part.solid cf
  have hs' : Solid H (eraseKey (.node l r) k) := hlaid.part.solid cf
  have hne := eraseKey_ne_empty h.canon k
  rw [eraseKey, delete_node] at hs' hne hnot hlaid ⊢
  obtain ⟨hsl, hsr⟩ := hs'.of_collapse
  cases h.rep with
  | @branch _ pl pr _ _ cl cr hp hl hr hnodup =>
    -- the deletion on the side of the key
    have hptr : (if k.bit 0 then some pr else some pl) = some (if k.bit 0 then pr else pl) := by
      split_ifs <;> rfl
    have hside := Rep.side hl hr (k.bit 0)
    rw [hptr] at hside
    have hs₁ : Solid H ((side (k.bit 0) l r).delete Key.bit k (0 + 1)) := by
      cases hb : k.bit 0 <;> rw [hb] at hsl hsr
      · exact hsl
      · exact hsr
    obtain ⟨p', c', y, -⟩ := deleteNode_spec hside (hs.side _) hs₁ (Fits.root h.canon k).side
    rw [← hptr] at y
    obtain ⟨heq, pl', pr', cl', cr', hdesc⟩ :=
      deleteNode_descend hp hl hr hnodup (hs.hash_ne (by simp)) y
    set m' := descendInto (deleteNode H k.norm keyBits) k.norm 0 p m
    have hcell : m'.heap[p]? = some ⟨rootHash H (.node l r), none, pl', pr'⟩ := by
      rw [hdesc.cell, node_eq hp]
    set l' := if k.bit 0 then l else l.delete Key.bit k (0 + 1)
    set r' := if k.bit 0 then r.delete Key.bit k (0 + 1) else r
    obtain ⟨b, hempty, hleaf, hcol⟩ : ∃ b, side b l' r' = .empty ∧
        (∃ k v, side (!b) l' r' = .leaf k v) ∧
        collapse l' r' = side (!b) l' r' := by
      rcases collapse_cases l' r' with ⟨-, -, hc⟩ | ⟨h₁, h₂, hc⟩ | ⟨h₁, h₂, hc⟩ | ⟨-, -, -, hc⟩
      · exact absurd hc hne
      · exact ⟨false, h₁, h₂, hc⟩
      · exact ⟨true, h₁, h₂, hc⟩
      · exact absurd hc (hnot _ _)
    have hres : flushDelete H (some p, m) k.norm =
        ((mk (rootHash H (.node l r)) none pl' pr').child (!b), m') := by
      rw [flushDelete, levels_norm, heq,
        collapseNode_eq_child hcell hdesc.left hdesc.right hsl hsr b hempty hleaf,
        node_eq hcell]
    rw [hres] at hlaid ⊢
    rw [hcol] at hlaid ⊢
    have hrep := Rep.side hdesc.left hdesc.right
    obtain ⟨hpl, hpr, -, -, hdisj⟩ := nodup_cons_append.mp hdesc.nodup
    refine ⟨b, _, if !b then cr' else cl', if b then cr' else cl', hcell, rfl, rfl,
      ⟨hrep (!b), hlaid.canon, hlaid.pairs, hlaid.saved⟩, hempty ▸ hrep b, ?_, ?_⟩
    · cases b
      · exact hpr
      · exact hpl
    · cases b
      · exact hdisj
      · exact fun q hq hq' => hdisj q hq' hq

theorem Rep.exists_root (hr : Rep H h (.node l r) root cells) : ∃ p, root = some p := by
  cases hr with
  | branch => exact ⟨_, rfl⟩

section

variable (cf : CollisionFree H P) (va : ValuesApart H P)
include cf va

/-- Among deletes that a branch does not survive there is the one that ends it: up to
there the root stays. -/
theorem exists_collapse (h : Laid H P m (some p) t cells) (ht : ∃ l r, t = .node l r)
    (hnot : ∀ l r, eraseKeys t deletes ≠ .node l r) :
    ∃ before k after m' l r cells', deletes = before ++ k :: after ∧
      (before.map Key.norm).foldl (flushDelete H) (some p, m) = (some p, m') ∧
      Laid H P m' (some p) (.node l r) cells' ∧
      (∀ e ∈ (node l r).entries, e ∈ t.entries) ∧
      ∀ a b, eraseKey (.node l r) k ≠ .node a b := by
  induction deletes generalizing m t cells with
  | nil =>
    obtain ⟨l, r, rfl⟩ := ht
    exact absurd rfl (hnot l r)
  | cons k deletes ih =>
    by_cases hnode : ∃ l r, eraseKey t k = .node l r
    · obtain ⟨cells', happ, hroot⟩ := flushDelete_spec cf va h k
      have hres : flushDelete H (some p, m) k.norm =
          (some p, (flushDelete H (some p, m) k.norm).2) := Prod.ext (hroot hnode) rfl
      have hlaid := happ.laid
      rw [hroot hnode] at hlaid
      obtain ⟨before, k', after, m', l, r, cells'', rfl, hfold, hlaid', hsub, hend⟩ :=
        ih hlaid hnode hnot
      refine ⟨k :: before, k', after, m', l, r, cells'', rfl, ?_, hlaid', fun e he => ?_, hend⟩
      · rw [map_cons, foldl_cons, hres, hfold]
      · exact ((mem_eraseKey h.canon).mp (hsub e he)).1
    · obtain ⟨l, r, rfl⟩ := ht
      exact ⟨[], k, deletes, m, l, r, cells, rfl, rfl, h, fun _ he => he,
        fun a b hab => hnode ⟨a, b, hab⟩⟩

end

/-- A key that the descent does not find is not read. -/
theorem Rep.getValue_eq_none (hr : Rep H m.heap t root cells)
    (hk : t.descent Key.bit k d ≠ some k) : getValue m k.norm n root d = .ok none := by
  induction hr generalizing n d with
  | nil => exact getValue_none _ _ _
  | zero hp =>
    cases n with
    | zero => rfl
    | succ n =>
      rw [getValue, node_eq hp, if_neg (key_ne_of_none rfl _), zero_child, getValue_none]
  | @single p k' v' hp =>
    cases n with
    | zero => rfl
    | succ n =>
      have hne : (leafNode H k'.norm v').key ≠ some k.norm := by
        simpa [Key.norm_inj, descent] using hk
      rw [getValue, node_eq hp, if_neg hne, leafNode_child, getValue_none]
  | @branch p pl pr l r cl cr hp hl hr hnodup ihl ihr =>
    cases n with
    | zero => rfl
    | succ n =>
      rw [getValue, node_eq hp, if_neg (key_ne_of_none rfl _), child_branch]
      show getValue m k.norm n (some (if k.bit d then pr else pl)) (d + 1) = _
      rw [descent] at hk
      cases hb : k.bit d <;> rw [hb] at hk
      · exact ihl hk
      · exact ihr hk

/-- A cell with nothing on the side `b`, and on the other a trie that starts a level
too low, does not lead to all keys of a branch. -/
theorem collapsed_loses {c : Node} {b : Bool} {empties : List ℕ}
    (ht : Canon Key.bit 0 (.node l r)) (hcell : h[p]? = some c) (hkey : c.key = none)
    (hempty : Rep H h .empty (c.child b) empties) (hrep : Rep H h t (c.child (!b)) cells)
    (hcanon : t.Canon Key.bit 0) :
    ∃ e ∈ (node l r).entries, ∀ st n, getValue ⟨h, st⟩ e.1.norm n (some p) 0 = .ok none := by
  have hread : ∀ (k : Key) (s : StateTrie) (cs : List ℕ), Rep H h s (c.child (k.bit 0)) cs →
      s.descent Key.bit k 1 ≠ some k → ∀ st n, getValue ⟨h, st⟩ k.norm n (some p) 0 = .ok none := by
    intro k s cs hs hdesc st n
    have hnode : node ⟨h, st⟩ p = c := node_eq hcell
    cases n with
    | zero => rfl
    | succ n =>
      rw [getValue, hnode, if_neg (key_ne_of_none hkey _)]
      exact Rep.getValue_eq_none (m := ⟨h, st⟩) hs hdesc
  by_cases hb : ∃ e ∈ (node l r).entries, e.1.bit 0 = b
  · obtain ⟨e, he, rfl⟩ := hb
    exact ⟨e, he, hread e.1 _ _ hempty (by simp [descent])⟩
  · -- all keys are looked for on the other side, which leads to one of them at most
    have hbit : ∀ e ∈ (node l r).entries, e.1.bit 0 = !b := fun e he =>
      Bool.eq_not_of_ne fun heq => hb ⟨e, he, heq⟩
    obtain ⟨e, he, e', he', hne⟩ := ht.two_keys
    by_cases hdesc : t.descent Key.bit e.1 1 = some e.1
    · refine ⟨e', he', hread e'.1 t cells (by rwa [hbit e' he']) fun hdesc' => hne ?_⟩
      exact hcanon.descent_succ_unique ((hbit e he).trans (hbit e' he').symm) hdesc hdesc'
    · exact ⟨e, he, hread e.1 t cells (by rwa [hbit e he]) hdesc⟩

/-- **A branch that does not stay one loses a key**: through the old root a key of the
old trie is not found any more, whatever is inserted. -/
theorem flush_loses (cf : CollisionFree H P) (va : ValuesApart H P)
    (hin : ∀ e ∈ inserts, e ∈ P) (h : Laid H P m (some p) t cells) (ht : ∃ l r, t = .node l r)
    (hnot : ∀ l r, eraseKeys t deletes ≠ .node l r) :
    ∃ e ∈ t.entries, ∀ st n, getValue
      ⟨(flushLoops H (some p, m) deletes inserts).2.heap, st⟩ e.1.norm n (some p) 0 = .ok none := by
  obtain ⟨before, k, after, m', l, r, cells', rfl, hfold, hlaid, hsub, hend⟩ :=
    exists_collapse cf va h ht hnot
  obtain ⟨b, c, cells'', empties, hcell, hkey, hroot, hlaid', hempty, hpc, hdisj⟩ :=
    flushDelete_collapse cf va hlaid hend
  -- nothing of the old root is written after that delete, but for the leaf below it
  obtain ⟨t', cells₁, hrep, hcanon, -⟩ := hlaid'.residue cf va hin hend after
  have hframe : Frame (flushDelete H (some p, m') k.norm).2.heap
      (flushLoops H (flushDelete H (some p, m') k.norm) after inserts).2.heap cells'' :=
    flushLoops_frame cf va hin hlaid' after
  have hrep' : Rep H (flushLoops H (flushDelete H (some p, m') k.norm) after inserts).2.heap
      t' (c.child (!b)) cells₁ := by
    rw [← hroot]
    exact hrep
  obtain ⟨e, he, hread⟩ := collapsed_loses hlaid.canon
    ((hframe.same p (lt_of_cell hcell) hpc).trans hcell) hkey
    (hempty.frame hframe hdisj) hrep' hcanon
  refine ⟨e, hsub e he, fun st n => ?_⟩
  rw [flushLoops, map_append, foldl_append, hfold]
  exact hread st n

end JamDuna.Storage
