/-
# The root of the staged operations

`OverlayRoot` of `storage/bmt_storage.go` gives the root that the trie would have with
the staged operations applied. It applies them to a temporary trie, which has its own
copy of the write batch but starts at the root node of the session's trie. The nodes
are shared, and `insertNode` and `deleteNode` write them in place.

So the session is as before only when the temporary trie leaves the root node alone or
ends as the trie that it started from: `Spared` is the exact condition
(`overlayRoot_preview_iff`). An insert into a trie with two keys does not meet it, and
changes the committed root (`overlayRoot_changes_root`).
-/

import JamDuna.Storage.HistoryIndependence
import JamDuna.Storage.Residue

namespace JamDuna.Storage

open JamDuna.Basis List Session

section

variable (H : HashFn)

/-- The insert part of `OverlayRoot`, for one key: that of `Flush` without the
assignment to the leaf that is found. -/
def overlayInsert (r : Option ℕ × Mem) (kv : Bytes × Bytes) : Option ℕ × Mem :=
  let (key, value) := kv
  let levels := trieComputeKeyLengthAsBit key + 1
  let encodedLeaf := trieLeaf H key value
  let m := levelDBSetLeaf H r.2 encodedLeaf value key
  match findNode r.2 key (r.2.heap.length + 1) r.1 0, r.1 with
  | none, none => m.new ⟨H encodedLeaf, some key, none, none⟩
  | none, some p => insertNode H (some p) key value levels (some p) 0 m
  | some _, root => (root, updateTree H key value levels root 0 m)

namespace Session

/-- `OverlayRoot` with the orders of its two loops: the root it returns, and the session
it leaves. What the temporary trie puts into its copy of the store is dropped. -/
def overlayRoot (s : Session) (deletes : List Key) (inserts : List (Key × Bytes)) :
    Bytes × Session :=
  if s.Flushed then (s.root, s)
  else
    let r := (inserts.map normPair).foldl (overlayInsert H)
      ((deletes.map Key.norm).foldl (flushDelete H) (s.tree.root, s.mem))
    (getRoot r.2 r.1, ⟨s.tree, { r.2 with store := s.mem.store }⟩)

/-- The session with its root pointer, over the nodes that a `Flush` leaves. -/
def overlaid (s : Session) (deletes : List Key) (inserts : List (Key × Bytes)) : Session :=
  ⟨s.tree, ⟨(s.flush H deletes inserts).mem.heap, s.mem.store⟩⟩

/-- `Rollback`: nothing is staged any more. -/
def rollback (s : Session) : Session := { s with tree := ⟨s.tree.root, [], []⟩ }

/-- `OverlayRoot` is a preview: it returns the root that a `Flush` gives, in whatever
orders, and leaves the committed root, the committed values and the root after any later
calls, which stage pairs in `P`, as they would be without it. -/
structure Preview (P : List (Key × Bytes)) (s : Session) (deletes : List Key)
    (inserts : List (Key × Bytes)) : Prop where
  flush_root : ∀ deletes' inserts', s.Orders deletes' inserts' →
    (s.overlayRoot H deletes inserts).1 = (s.flush H deletes' inserts').root
  root : (s.overlayRoot H deletes inserts).2.root = s.root
  get : ∀ k, (s.overlayRoot H deletes inserts).2.rollback.get k = s.rollback.get k
  later : ∀ ops, (∀ e ∈ pairs ops, e ∈ P) → ∀ hash,
    (∃ s', (s.overlayRoot H deletes inserts).2.Calls H ops s' ∧ s'.root = hash) ↔
      ∃ s', s.Calls H ops s' ∧ s'.root = hash

/-- The trie of the committed keys and values. -/
structure Committed (s : Session) (t : StateTrie) : Prop where
  canon : t.Canon Key.bit 0
  get : ∀ k, s.rollback.get k = .ok (t.lookup Key.bit k 0)

/-- The staged operations do not show in the committed contents: these are empty, or a
single key and there are deletes, or they are the same with all operations applied and
no delete collapses the root, which is a branch until the inserts. -/
def Spared (s : Session) (deletes : List Key) (inserts : List (Key × Bytes)) : Prop :=
  ∃ t, s.Committed t ∧ (t = .empty ∨ ((∃ k v, t = .leaf k v) ∧ deletes ≠ []) ∨
    ((deletes = [] ∨ ∃ l r, eraseKeys t deletes = .node l r) ∧
      putKeys (eraseKeys t deletes) inserts = t))

end Session

end

variable {H : HashFn} {P : List (Key × Bytes)} {m : Mem} {root : Option ℕ} {t : StateTrie}
  {cells : List ℕ} {s s' s₁ : Session} {a b c : TrieState} {op : Op} {deletes : List Key}
  {inserts : List (Key × Bytes)} {k : Key} {v : Bytes}

theorem Refines.inserts_mem (h : Refines H P s a) (hord : s.Orders deletes inserts) :
    ∀ e ∈ inserts, e ∈ P := fun e he =>
  h.proper.pairs e ((h.orders_iff.mp hord).2.mem_iff.mp he)

section

variable (cf : CollisionFree H P) (va : ValuesApart H P)
include cf va

/-- On a trie the insert parts of `OverlayRoot` and `Flush` are the same: `updateTree`
writes the leaf too. -/
theorem overlayInsert_eq (h : Laid H P m root t cells) (hk : (k, v) ∈ P) :
    overlayInsert H (root, m) (k.norm, v) = flushInsert H (root, m) (k.norm, v) := by
  obtain ⟨hheap, -, -, -⟩ := levelDBSetLeaf_spec cf va hk m
  simp only [overlayInsert, flushInsert, levels_norm]
  cases hq : findNode m k.norm (m.heap.length + 1) root 0 with
  | none =>
    cases root with
    | none | some p => rfl
  | some q =>
    rw [← findNode_heap hheap] at hq
    refine Prod.ext rfl ?_
    exact (updateTree_set (hheap ▸ h.rep) (.root h.canon k) hq).symm

theorem overlayInserts_eq (hin : ∀ e ∈ inserts, e ∈ P) (h : Laid H P m root t cells) :
    (inserts.map normPair).foldl (overlayInsert H) (root, m) =
      (inserts.map normPair).foldl (flushInsert H) (root, m) := by
  induction inserts generalizing m root t cells with
  | nil => rfl
  | cons e inserts ih =>
    have hhead : overlayInsert H (root, m) (normPair e) = flushInsert H (root, m) (normPair e) :=
      overlayInsert_eq cf va h (hin e mem_cons_self)
    obtain ⟨cells', happ, -⟩ := flushInsert_spec cf va h (hin e mem_cons_self)
    rw [map_cons, foldl_cons, foldl_cons, hhead]
    exact ih (fun e' he' => hin e' (.tail _ he')) happ.laid

/-- **`OverlayRoot` is a `Flush` in the same orders** whose store is dropped: it returns
the root, and the session keeps its root pointer over the written nodes. -/
theorem Refines.overlayRoot_eq (h : Refines H P s a) (hord : s.Orders deletes inserts) :
    s.overlayRoot H deletes inserts =
      ((s.flush H deletes inserts).root, s.overlaid H deletes inserts) := by
  obtain ⟨cells, hlaid⟩ := h.laid
  rw [overlayRoot]
  split_ifs with hflushed
  · -- nothing is staged, and nothing is done
    obtain ⟨hd, hi⟩ := h.orders_iff.mp hord
    obtain ⟨hd₀, hi₀⟩ := h.flushed_iff.mp hflushed
    rw [hd₀] at hd
    rw [hi₀] at hi
    rw [hd.eq_nil, hi.eq_nil]
    rfl
  · obtain ⟨cells₁, hlaid₁, -, -⟩ := flushDeletes_spec cf va deletes hlaid
    rw [overlayInserts_eq cf va (h.inserts_mem hord) hlaid₁]
    rfl

end

/-- The label determines the step. -/
theorem TrieState.Step.unique (h : TrieState.Step a op b) (h' : TrieState.Step a op c) : b = c := by
  cases h with
  | insert => cases h'; rfl
  | delete hk =>
    cases h' with
    | delete => rfl
    | reject hk' => exact absurd hk' hk
  | reject hk =>
    cases h' with
    | delete hk' => exact absurd hk hk'
    | reject => rfl
  | flush => cases h'; rfl

section

variable (cf : CollisionFree H P) (va : ValuesApart H P) (h : Refines H P s a)
  (h' : Refines H P s' a)
include cf va h h'

/-- Two sessions of one abstract session go on in the same way. -/
theorem Refines.step_congr (hop : ∀ e ∈ op.pair, e ∈ P) (hstep : s.step H op = some s₁) :
    ∃ s₁' b, s'.step H op = some s₁' ∧ Refines H P s₁ b ∧ Refines H P s₁' b := by
  obtain ⟨s₁', hstep'⟩ : ∃ s₁', s'.step H op = some s₁' := by
    cases op with
    | insert | delete => exact ⟨_, rfl⟩
    | flush deletes inserts =>
      rw [step] at hstep
      split_ifs at hstep with hord
      exact ⟨_, if_pos (h'.orders_iff.mpr (h.orders_iff.mp hord))⟩
  obtain ⟨b, hb, hrefines, -, -⟩ := step_refines cf va h hop hstep
  obtain ⟨b', hb', hrefines', -, -⟩ := step_refines cf va h' hop hstep'
  obtain rfl := hb.unique hb'
  exact ⟨s₁', b, hstep', hrefines, hrefines'⟩

theorem Refines.calls_congr {ops : List Op} (hops : ∀ e ∈ pairs ops, e ∈ P)
    (hrun : s.Calls H ops s₁) :
    ∃ s₁' b, s'.Calls H ops s₁' ∧ Refines H P s₁ b ∧ Refines H P s₁' b := by
  refine Run.invariant (P := fun ops s₁ => (∀ e ∈ pairs ops, e ∈ P) →
    ∃ s₁' b, s'.Calls H ops s₁' ∧ Refines H P s₁ b ∧ Refines H P s₁' b) hrun ?_ ?_ hops
  · exact fun _ => ⟨s', a, .refl, h, h'⟩
  · intro ops s₁ op s₂ ih hstep hops
    rw [pairs_snoc] at hops
    obtain ⟨s₁', b, hrun', hb, hb'⟩ := ih fun e he => hops e (mem_append_left _ he)
    obtain ⟨s₂', c, hstep', hc, hc'⟩ := hb.step_congr cf va hb'
      (fun e he => hops e (mem_append_right _ he)) hstep
    exact ⟨s₂', c, hrun'.snoc hstep', hc, hc'⟩

theorem Refines.later_root {ops : List Op} (hops : ∀ e ∈ pairs ops, e ∈ P) {hash : Bytes}
    (hrun : ∃ s₁, s.Calls H ops s₁ ∧ s₁.root = hash) :
    ∃ s₁, s'.Calls H ops s₁ ∧ s₁.root = hash := by
  obtain ⟨s₁, hcalls, rfl⟩ := hrun
  obtain ⟨s₁', b, hcalls', hb, hb'⟩ := h.calls_congr cf va h' hops hcalls
  exact ⟨s₁', hcalls', hb'.root_eq.trans hb.root_eq.symm⟩

end

theorem Refines.flush_root (cf : CollisionFree H P) (va : ValuesApart H P) (h : Refines H P s a)
    (hord : s.Orders deletes inserts) : (s.flush H deletes inserts).root =
      rootHash H (putKeys (eraseKeys a.trie deletes) inserts) :=
  (h.flush cf va deletes (h.orders_iff.mp hord).2).1.root_eq

theorem Rep.rootKey_iff (hr : Rep H m.heap t root cells) :
    (root.bind fun p => (m.node p).key).isSome ↔ ∃ k v, t = .leaf k v := by
  cases hr with
  | nil => simp
  | zero hp => simp [Mem.node_eq hp, Node.zero]
  | single hp => simp [Mem.node_eq hp, leafNode]
  | branch hp => simp [Mem.node_eq hp]

theorem Session.get_rollback (s : Session) (k : Key) :
    s.rollback.get k = getFromStorageLocked s.mem k.norm s.tree.root := by
  simp [get, rollback, MerkleTree.get, Key.norm]

/-- While the root node stays, the committed root is that of the flush. -/
theorem Session.overlaid_root (hroot : (s.flush H deletes inserts).tree.root = s.tree.root) :
    (s.overlaid H deletes inserts).root = (s.flush H deletes inserts).root := by
  rw [root, root, hroot]
  show getRoot ⟨_, _⟩ s.tree.root = _
  cases s.tree.root <;> rfl

/-- There is one trie of the committed contents. -/
theorem Refines.committed_iff (h : Refines H P s a) : s.Committed t ↔ t = a.trie := by
  obtain ⟨cells, hlaid⟩ := h.laid
  have hget (k : Key) : s.rollback.get k = .ok (a.trie.lookup Key.bit k 0) := by
    rw [get_rollback, hlaid.get_eq]
  constructor
  · rintro ⟨hcanon, hget'⟩
    exact hcanon.ext_lookup hlaid.canon fun k => Except.ok.inj ((hget' k).symm.trans (hget k))
  · rintro rfl
    exact ⟨hlaid.canon, hget⟩

theorem Refines.spared_iff (h : Refines H P s a) : s.Spared deletes inserts ↔
    a.trie = .empty ∨ ((∃ k v, a.trie = .leaf k v) ∧ deletes ≠ []) ∨
      ((deletes = [] ∨ ∃ l r, eraseKeys a.trie deletes = .node l r) ∧
        putKeys (eraseKeys a.trie deletes) inserts = a.trie) := by
  simp only [Spared, h.committed_iff, exists_eq_left]

section

variable (cf : CollisionFree H P) (va : ValuesApart H P) (h : Refines H P s a)
  (hord : s.Orders deletes inserts)
include cf va h hord

/-- **A session that is spared stays the same abstract session.** -/
theorem Refines.overlaid_of_spared (hs : s.Spared deletes inserts) :
    Refines H P (s.overlaid H deletes inserts) a := by
  obtain ⟨cells, hlaid⟩ := h.laid
  have hin := h.inserts_mem hord
  suffices hrep : ∃ cells, Rep H (s.flush H deletes inserts).mem.heap a.trie s.tree.root cells by
    obtain ⟨cells', hrep⟩ := hrep
    exact ⟨⟨cells', hrep, hlaid.canon, hlaid.pairs, hlaid.saved⟩, h.deletes, h.inserts, h.proper⟩
  have hkept (hnot : ∀ l r, a.trie ≠ .node l r) (hold : a.trie = .empty ∨ deletes ≠ []) :
      ∃ cells, Rep H (s.flush H deletes inserts).mem.heap a.trie s.tree.root cells := by
    obtain ⟨t', cells', hrep, -, hsame⟩ := hlaid.residue cf va hin hnot deletes
    rw [hsame hold] at hrep
    exact ⟨cells', hrep⟩
  rcases h.spared_iff.mp hs with hempty | ⟨⟨k, v, hleaf⟩, hd⟩ | ⟨hstays, hsame⟩
  · exact hkept (by simp [hempty]) (.inl hempty)
  · exact hkept (by simp [hleaf]) (.inr hd)
  · by_cases hempty : a.trie = .empty
    · exact hkept (by simp [hempty]) (.inl hempty)
    · obtain ⟨cells', hlaid'⟩ := flushLoops_laid cf va hin hlaid deletes
      have hrep := hlaid'.rep
      rw [flushLoops_root cf va hin hlaid hempty hstays, hsame] at hrep
      exact ⟨cells', hrep⟩

/-- **A session whose committed root and values stay is spared.** -/
theorem Refines.spared_of_overlaid (hroot : (s.overlaid H deletes inserts).root = s.root)
    (hget : ∀ k, (s.overlaid H deletes inserts).rollback.get k = s.rollback.get k) :
    s.Spared deletes inserts := by
  obtain ⟨cells, hlaid⟩ := h.laid
  have hin := h.inserts_mem hord
  rw [h.spared_iff]
  -- the root of the flush is seen when the root node stays
  have hsame (hne : a.trie ≠ .empty)
      (hstays : deletes = [] ∨ ∃ l r, eraseKeys a.trie deletes = .node l r) :
      putKeys (eraseKeys a.trie deletes) inserts = a.trie := by
    rw [overlaid_root (flushLoops_root cf va hin hlaid hne hstays), h.flush_root cf va hord,
      h.root_eq] at hroot
    obtain ⟨cells', hlaid'⟩ := flushLoops_laid cf va hin hlaid deletes
    exact hlaid'.part.rootHash_inj cf hlaid.part (congrArg maskTop hroot)
  cases htrie : a.trie with
  | empty => exact .inl rfl
  | leaf k v =>
    by_cases hd : deletes = []
    · exact .inr (.inr ⟨.inl hd, htrie ▸ hsame (by simp [htrie]) (.inl hd)⟩)
    · exact .inr (.inl ⟨⟨k, v, rfl⟩, hd⟩)
  | node l r =>
    by_cases hnode : ∃ l' r', eraseKeys a.trie deletes = .node l' r'
    · exact .inr (.inr ⟨.inr (htrie ▸ hnode), htrie ▸ hsame (by simp [htrie]) (.inr hnode)⟩)
    · -- a key of the committed trie would be lost
      obtain ⟨p, hp⟩ := (htrie ▸ hlaid.rep).exists_root
      have hlaid' := hlaid
      rw [hp] at hlaid'
      obtain ⟨e, he, hread⟩ := flush_loses cf va hin hlaid' ⟨l, r, htrie⟩
        fun l' r' hlr => hnode ⟨l', r', hlr⟩
      have hlost : (s.overlaid H deletes inserts).rollback.get e.1 = .ok none := by
        rw [get_rollback]
        show getFromStorageLocked ⟨(flushLoops H (s.tree.root, s.mem) deletes inserts).2.heap, _⟩
          e.1.norm s.tree.root = _
        rw [hp]
        exact hread _ _
      have hkept : s.rollback.get e.1 = .ok (some e.2) := by
        rw [get_rollback, hlaid.get_eq, hlaid.canon.lookup_eq_some.mpr he]
      rw [← hget, hlost] at hkept
      cases hkept

end

theorem eraseKeys_empty (deletes : List Key) : eraseKeys .empty deletes = .empty := by
  induction deletes with
  | nil => rfl
  | cons k deletes ih => exact ih

/-- The deletes from a trie that is no branch can be in any order. -/
theorem eraseKeys_perm {deletes' : List Key} (ht : ∀ l r, t ≠ .node l r)
    (hperm : deletes.Perm deletes') : eraseKeys t deletes = eraseKeys t deletes' := by
  cases t with
  | empty => rw [eraseKeys_empty, eraseKeys_empty]
  | leaf k v =>
    have hgone : ∀ k' ks, eraseKeys (.leaf k v) (k' :: ks) = .empty := fun _ ks =>
      eraseKeys_empty ks
    cases deletes with
    | nil => rw [hperm.symm.eq_nil]
    | cons k₁ ks =>
      cases deletes' with
      | nil => exact absurd hperm.eq_nil (by simp)
      | cons k₂ ks' => rw [hgone, hgone]
  | node l r => exact absurd rfl (ht l r)

section

variable (cf : CollisionFree H P) (va : ValuesApart H P) (h : Refines H P s a)
include cf va h

/-- The root of a flush that is spared does not depend on the orders. -/
theorem Refines.flush_root_congr {deletes' : List Key} {inserts' : List (Key × Bytes)}
    (hord : s.Orders deletes inserts) (hord' : s.Orders deletes' inserts')
    (hs : s.Spared deletes inserts) (hs' : s.Spared deletes' inserts') :
    (s.flush H deletes inserts).root = (s.flush H deletes' inserts').root := by
  obtain ⟨cells, hlaid⟩ := h.laid
  rw [h.flush_root cf va hord, h.flush_root cf va hord']
  by_cases hnode : ∃ l r, a.trie = .node l r
  · obtain ⟨l, r, hlr⟩ := hnode
    rw [h.spared_iff, hlr] at hs hs'
    simp only [reduceCtorEq, exists_false, false_and, false_or] at hs hs'
    rw [hlr, hs.2, hs'.2]
  · obtain ⟨hd, hi⟩ := h.orders_iff.mp hord
    obtain ⟨hd', hi'⟩ := h.orders_iff.mp hord'
    have hnodup' : (inserts'.map Prod.fst).Nodup := (hi'.map Prod.fst).nodup_iff.mpr h.proper.nodup
    rw [eraseKeys_perm (fun l r hlr => hnode ⟨l, r, hlr⟩) (hd.trans hd'.symm),
      putKeys_perm (eraseKeys_canon hlaid.canon) (hi.trans hi'.symm) hnodup']

/-- `OverlayRoot` is a preview exactly for the sessions that are spared. -/
theorem Refines.preview_iff :
    (∀ deletes inserts, s.Orders deletes inserts → s.Preview H P deletes inserts) ↔
      ∀ deletes inserts, s.Orders deletes inserts → s.Spared deletes inserts := by
  constructor
  · intro hprev deletes inserts hord
    obtain ⟨-, hroot, hget, -⟩ := hprev deletes inserts hord
    rw [h.overlayRoot_eq cf va hord] at hroot hget
    exact h.spared_of_overlaid cf va hord hroot hget
  · intro hspared deletes inserts hord
    have hs := hspared deletes inserts hord
    have hover := h.overlaid_of_spared cf va hord hs
    refine ⟨?_, ?_, ?_, ?_⟩
    all_goals rw [h.overlayRoot_eq cf va hord]
    · exact fun deletes' inserts' hord' =>
        h.flush_root_congr cf va hord hord' hs (hspared deletes' inserts' hord')
    · exact hover.root_eq.trans h.root_eq.symm
    · intro k
      obtain ⟨cells, hlaid⟩ := h.laid
      obtain ⟨cells', hlaid'⟩ := hover.laid
      rw [get_rollback, get_rollback, hlaid'.get_eq, hlaid.get_eq]
    · exact fun ops hops hash => ⟨hover.later_root cf va h hops, h.later_root cf va hover hops⟩

end

/-- **`OverlayRoot` is a preview exactly when the staged operations do not show**, in
whatever orders they are applied: the committed contents are empty, or a single key and
there are deletes, or the staged operations give them again and no delete collapses the
root. -/
theorem overlayRoot_preview_iff {ops₀ : List Op} (cf : CollisionFree H P) (va : ValuesApart H P)
    (hops₀ : ∀ e ∈ pairs ops₀, e ∈ P) (h₀ : new.Calls H ops₀ s) :
    (∀ deletes inserts, s.Orders deletes inserts → s.Preview H P deletes inserts) ↔
      ∀ deletes inserts, s.Orders deletes inserts → s.Spared deletes inserts := by
  obtain ⟨a, -, ha, -, -⟩ := calls_refine cf va h₀ hops₀ (refines_new H P)
  exact ha.preview_iff cf va

/-- The only key is staged for deletion, and another one for insertion. -/
def replaceLeaf : List Op := oneKey ++ [.delete (keyAt 0x00), .insert (keyAt 0x80) [2]]

theorem overlayRoot_preview_replaceLeaf : ∃ s, new.Calls polyHash replaceLeaf s ∧
      (s.overlayRoot polyHash [keyAt 0x00] [(keyAt 0x80, [2])]).1 ≠ s.root ∧
      ∀ deletes inserts, s.Orders deletes inserts →
        s.Preview polyHash (pairs replaceLeaf) deletes inserts := by
  obtain ⟨s, hs, hne, hkey, hstaged⟩ : ∃ s, replaceLeaf.foldlM (step polyHash) .new = some s ∧
      (s.overlayRoot polyHash [keyAt 0x00] [(keyAt 0x80, [2])]).1 ≠ s.root ∧
      (s.tree.root.bind fun p => (s.mem.node p).key).isSome ∧ s.tree.stagedDeletes ≠ [] := by
    decide +kernel
  have h : new.Calls polyHash replaceLeaf s := run_of_foldlM hs
  have cf : CollisionFree polyHash (pairs replaceLeaf) := collisionFree_of_check (by decide +kernel)
  have na : NoAlias polyHash (pairs replaceLeaf) := noAlias_of_check (by decide +kernel)
  have va := na.toValuesApart
  refine ⟨s, h, hne, (overlayRoot_preview_iff cf va (fun _ he => he) h).mpr ?_⟩
  obtain ⟨a, -, ha, -, -⟩ := calls_refine cf va h (fun _ he => he) (refines_new _ _)
  obtain ⟨cells, hlaid⟩ := ha.laid
  rintro deletes inserts ⟨hd, -⟩
  refine ha.spared_iff.mpr (.inr (.inl ⟨hlaid.rep.rootKey_iff.mp hkey, ?_⟩))
  rintro rfl
  exact hstaged hd.symm.eq_nil

/-- A third key is staged over a trie with two keys. -/
def stageThird : List Op := twoKeys ++ [.insert (keyAt 0x40) [3]]

/-- **`OverlayRoot` changes the committed root**, with one staged insert. -/
theorem overlayRoot_changes_root :
    CollisionFree polyHash (pairs stageThird) ∧ NoAlias polyHash (pairs stageThird) ∧
      ∃ s, new.Calls polyHash stageThird s ∧ s.Orders [] [(keyAt 0x40, [3])] ∧
        (s.overlayRoot polyHash [] [(keyAt 0x40, [3])]).2.root ≠ s.root := by
  refine ⟨collisionFree_of_check (by decide +kernel), noAlias_of_check (by decide +kernel), ?_⟩
  obtain ⟨s, hs, hfacts⟩ : ∃ s, stageThird.foldlM (step polyHash) .new = some s ∧
      s.Orders [] [(keyAt 0x40, [3])] ∧
      (s.overlayRoot polyHash [] [(keyAt 0x40, [3])]).2.root ≠ s.root := by decide +kernel
  exact ⟨s, run_of_foldlM hs, hfacts⟩

end JamDuna.Storage
