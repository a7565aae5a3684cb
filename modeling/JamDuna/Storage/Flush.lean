/-
# Flush on tries laid out in the heap

`Laid` is what holds of a flushed trie: its root leads to a canonical trie of pairs in
play, whose leaves are in the store. The two parts of `Flush` keep it: `flushDelete`
is the abstract deletion and `flushInsert` the abstract insertion, of one key each.
`Applied` is what one of them does besides: which cells are written, that only records
are put into the store, and that a trie that can be loaded stays so.
-/

import JamDuna.Storage.InsertNode
import JamDuna.Storage.DeleteNode
import JamDuna.Storage.Records

namespace JamDuna.Storage

open JamDuna.Basis BitTrie

variable {H : HashFn} {P : List (Key × Bytes)}

/-- A flushed trie of pairs in `P`. -/
structure Laid (H : HashFn) (P : List (Key × Bytes)) (m : Mem) (root : Option ℕ) (t : StateTrie)
    (cells : List ℕ) : Prop where
  rep : Rep H m.heap t root cells
  canon : t.Canon Key.bit 0
  pairs : ∀ e ∈ t.entries, e ∈ P
  saved : Saved H m.store t

variable {m : Mem} {root : Option ℕ} {t : StateTrie} {cells : List ℕ} {k : Key} {v : Bytes}

theorem Laid.part (h : Laid H P m root t cells) : Part P t := .of_canon h.canon h.pairs

/-- The trie before the first insertion. -/
theorem laid_empty (m : Mem) : Laid H P m none .empty [] :=
  ⟨.nil, .nil, by simp [entries], by simp [Saved, entries]⟩

theorem levels_norm (k : Key) : trieComputeKeyLengthAsBit k.norm + 1 = keyBits + 1 := by
  rw [trieComputeKeyLengthAsBit, length_norm]

/-- **Reading the flushed trie.** -/
theorem Laid.get_eq (h : Laid H P m root t cells) (k : Key) :
    getFromStorageLocked m k.norm root = .ok (t.lookup Key.bit k 0) := by
  rw [getFromStorageLocked, levels_norm]
  exact h.rep.getValue_eq h.saved (.root h.canon k)

theorem Laid.getRoot_eq (h : Laid H P m root t cells) : getRoot m root = rootHash H t :=
  h.rep.getRoot_eq

/-- What a part of `Flush` does to a trie `t` in the cells `cells` of `m`. -/
structure Applied (H : HashFn) (P : List (Key × Bytes)) (m : Mem) (t : StateTrie)
    (cells W : List ℕ) (r : Option ℕ × Mem) (t' : StateTrie) (cells' : List ℕ) : Prop where
  laid : Laid H P r.2 r.1 t' cells'
  cells_sub : ∀ q ∈ cells', q ∈ cells ∨ m.heap.length ≤ q
  frame : Frame m.heap r.2.heap W
  puts : Puts H P m.store r.2.store
  loadable : NoAlias H P → Loadable H m.store t → Loadable H r.2.store t'

/-- The abstract deletion at the root. -/
def eraseKey (t : StateTrie) (k : Key) : StateTrie := t.delete Key.bit k 0

theorem eraseKey_canon (ht : t.Canon Key.bit 0) : (eraseKey t k).Canon Key.bit 0 := ht.delete_spec.1

theorem mem_eraseKey (ht : t.Canon Key.bit 0) {e : Key × Bytes} :
    e ∈ (eraseKey t k).entries ↔ e ∈ t.entries ∧ t.descent Key.bit k 0 ≠ some e.1 :=
  ht.delete_spec.2 e

/-- **The delete part of `Flush`**, for one key. The root stays where it is when a
branch is left. -/
theorem flushDelete_spec (cf : CollisionFree H P) (va : ValuesApart H P)
    (h : Laid H P m root t cells) (k : Key) :
    ∃ cells', Applied H P m t cells (deleteCells m k.norm (keyBits + 1) root 0)
      (flushDelete H (root, m) k.norm) (eraseKey t k) cells' ∧
      ((∃ a b, eraseKey t k = .node a b) → (flushDelete H (root, m) k.norm).1 = root) := by
  have hcanon := eraseKey_canon (k := k) h.canon
  have hsub : ∀ e ∈ (eraseKey t k).entries, e ∈ t.entries := fun e he =>
    ((mem_eraseKey h.canon).mp he).1
  have hpart : Part P (eraseKey t k) := .of_canon hcanon fun e he => h.pairs e (hsub e he)
  rw [flushDelete, levels_norm]
  cases root with
  | none =>
    obtain ⟨rfl, rfl⟩ : t = .empty ∧ cells = [] := by cases h.rep; exact ⟨rfl, rfl⟩
    exact ⟨[], ⟨laid_empty m, by simp, Frame.refl _ _, Puts.refl _, fun _ hl => hl⟩, fun _ => rfl⟩
  | some q =>
    obtain ⟨p', cells', y, hp'⟩ := deleteNode_spec h.rep (h.part.solid cf) (hpart.solid cf)
      (.root h.canon k)
    have hputs : Puts H P m.store _ := y.puts.puts hpart
    refine ⟨cells', ⟨⟨y.ptr ▸ y.rep, hcanon, fun e he => h.pairs e (hsub e he), fun e he => ?_⟩,
      y.cells_sub, y.frame, hputs, fun na hl => ?_⟩, fun hnode => by rw [y.ptr, hp' hnode]⟩
    · exact hputs.saved cf va h.pairs h.saved e (hsub e he)
    · exact y.puts.loadable cf na h.part hpart hl fun e he => hl.keys e (hsub e he)

/-- The abstract insertion at the root. -/
def putKey (t : StateTrie) (e : Key × Bytes) : StateTrie := t.insert Key.bit e.1 e.2 (keyBits + 1) 0

theorem putKey_inserted (ht : t.Canon Key.bit 0) (k : Key) (v : Bytes) :
    Inserted Key.bit k v 0 t (putKey t (k, v)) :=
  insert_inserted Key.separates (by omega) ht agrees_zero

theorem node_congr {m' : Mem} (h : m'.heap = m.heap) (p : ℕ) : m'.node p = m.node p := by
  rw [Mem.node, Mem.node, h]

theorem insertCells_heap {m' : Mem} (h : m'.heap = m.heap) (key : Bytes) (n : ℕ) (p : Option ℕ)
    (d : ℕ) : insertCells m' key n p d = insertCells m key n p d := by
  induction n generalizing p d with
  | zero => rfl
  | succ n ih =>
    cases p with
    | none => rfl
    | some p => simp only [insertCells, node_congr h, ih]

theorem findNode_heap {m' : Mem} (h : m'.heap = m.heap) (key : Bytes) (n : ℕ) (p : Option ℕ)
    (d : ℕ) : findNode m' key n p d = findNode m key n p d := by
  induction n generalizing p d with
  | zero => rfl
  | succ n ih =>
    cases p with
    | none => rfl
    | some p => simp only [findNode, node_congr h, ih]

variable (cf : CollisionFree H P) (va : ValuesApart H P) (h : Laid H P m root t cells)
  (hk : (k, v) ∈ P)
include cf va h hk

/-- `Flush` inserts and updates by `insertNode`, once the leaf is in the store. -/
theorem flushInsert_eq :
    flushInsert H (root, m) (k.norm, v) = insertNode H root k.norm v (keyBits + 1) root 0
        (levelDBSetLeaf H m (trieLeaf H k.norm v) v k.norm) := by
  obtain ⟨hheap, hputs, -, -⟩ := levelDBSetLeaf_spec cf va hk m
  set m₁ := levelDBSetLeaf H m (trieLeaf H k.norm v) v k.norm
  have hrep : Rep H m₁.heap t root cells := hheap ▸ h.rep
  have hi : Insertable H m₁.store k (keyBits + 1) 0 t :=
    ⟨hputs.saved cf va h.pairs h.saved, h.part.solid cf, .root h.canon k⟩
  have hn : cells.length < m.heap.length + 1 := Nat.lt_succ_of_le h.rep.length_cells_le
  have hfind := h.rep.findNode_eq_none_iff (k := k) h.canon hn
  simp only [flushInsert, levels_norm]
  cases hq : findNode m k.norm (m.heap.length + 1) root 0 with
  | none =>
    cases root with
    | none | some p => rfl
  | some q =>
    obtain ⟨v₀, hv₀⟩ : ∃ v₀, (k, v₀) ∈ t.entries := by
      by_contra hnone
      rw [hfind.mpr fun v hv => hnone ⟨v, hv⟩] at hq
      cases hq
    rw [← findNode_heap hheap] at hq
    obtain ⟨p', cells', y, hp'⟩ := insertNode_spec root k v (keyBits + 1) m₁ t root cells [] 0 hrep
      hi .start (by simp)
    have hne : t ≠ .empty := by
      rintro rfl
      simp [entries] at hv₀
    refine Prod.ext ?_ ?_
    · rw [y.ptr, hp' hne]
    · show updateTree H k.norm v (keyBits + 1) root 0 _ = _
      rw [updateTree_set hrep hi.fits hq, updateTree_eq_insertNode hrep hi .start (by simp) hv₀]

/-- **The insert part of `Flush`**, for one pair. The root of a nonempty trie stays
where it is. -/
theorem flushInsert_spec :
    ∃ cells', Applied H P m t cells (insertCells m k.norm (keyBits + 1) root 0)
      (flushInsert H (root, m) (k.norm, v)) (putKey t (k, v)) cells' ∧
      (t ≠ .empty → (flushInsert H (root, m) (k.norm, v)).1 = root) := by
  rw [flushInsert_eq cf va h hk]
  obtain ⟨hheap, hputs, hleaf, hkey⟩ := levelDBSetLeaf_spec cf va hk m
  rw [← insertCells_heap hheap]
  set m₁ := levelDBSetLeaf H m (trieLeaf H k.norm v) v k.norm
  have hins := putKey_inserted h.canon k v
  have hpairs : ∀ e ∈ (putKey t (k, v)).entries, e ∈ P := by
    intro e he
    rcases (hins.mem_iff e).mp he with rfl | ⟨he, -⟩
    · exact hk
    · exact h.pairs e he
  have hpart : Part P (putKey t (k, v)) := .of_canon hins.canon hpairs
  have hsaved₁ := hputs.saved cf va h.pairs h.saved
  obtain ⟨p', cells', y, hp'⟩ := insertNode_spec root k v (keyBits + 1) m₁ t root cells [] 0
    (hheap ▸ h.rep) ⟨hsaved₁, h.part.solid cf, .root h.canon k⟩ .start (by simp)
  have hputs' : Puts H P m₁.store _ := y.puts.puts hpart
  refine ⟨cells', ⟨⟨y.ptr ▸ y.rep, hins.canon, hpairs, ?_⟩, ?_, ?_, hputs.trans hputs', ?_⟩, ?_⟩
  · intro e he
    refine hputs'.leafStored cf va (hpairs e he) ?_
    rcases (hins.mem_iff e).mp he with rfl | ⟨he, -⟩
    · exact hleaf
    · exact hsaved₁ e he
  · rw [← hheap]
    exact y.cells_sub
  · rw [← hheap]
    exact y.frame
  · intro na hl
    have hl₁ := hputs.loadable cf na h.part hl
    refine y.puts.loadable cf na h.part hpart hl₁ fun e he => ?_
    rcases (hins.mem_iff e).mp he with rfl | ⟨he, -⟩
    · exact hkey na
    · exact hl₁.keys e he
  · intro hne
    rw [y.ptr, hp' hne]

end JamDuna.Storage
