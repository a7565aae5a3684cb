/-
# A trie built at once

`NewMerkleTree` and `buildMerkleTree` of `storage/trie.go` split the pairs by the bits
of their keys. For distinct keys the build ends, and it lays out the canonical trie of
the pairs; so its root is determined by the pairs.
-/

import JamDuna.Storage.Session

namespace JamDuna.Storage

open JamDuna.Basis List

variable {H : HashFn}

theorem levelDBSetLeaf_heap (m : Mem) (encodedLeaf value key : Bytes) :
    (levelDBSetLeaf H m encodedLeaf value key).heap = m.heap := by
  unfold levelDBSetLeaf
  split <;> rfl

/-- What `buildMerkleTree` returns: the trie in new cells. -/
def Built (H : HashFn) (m : Mem) (t : StateTrie) (res : Option (ℕ × Mem)) : Prop :=
  ∃ p m' cells, res = some (p, m') ∧ Rep H m'.heap t (some p) cells ∧
    (∀ q ∈ cells, m.heap.length ≤ q) ∧ Frame m.heap m'.heap []

variable {kvs : List (Key × Bytes)} {t : StateTrie}

/-- **`buildMerkleTree` lays out the trie of the pairs.** -/
theorem buildMerkleTree_spec {n i : ℕ} (h : BitTrie.build Key.bit n i kvs = some t) (m : Mem) :
    Built H m t (buildMerkleTree H n i (kvs.map normPair) m) := by
  fun_induction BitTrie.build Key.bit n i kvs generalizing t m with
  | case1 n i =>
    cases h
    exact ⟨m.heap.length, _, [m.heap.length], by cases n <;> rfl, .zero (by simp), by simp,
      Frame.append _ _ _⟩
  | case2 n i k v =>
    cases h
    set m₁ := levelDBSetLeaf H m (trieLeaf H k.norm v) v k.norm
    have hheap : m₁.heap = m.heap := levelDBSetLeaf_heap m _ v k.norm
    refine ⟨m₁.heap.length, _, [m₁.heap.length], by cases n <;> rfl,
      .single getElem?_concat_length, by simp [hheap], ?_⟩
    rw [← hheap]
    exact Frame.append _ _ _
  | case3 => cases h
  | case4 n i e e' kvs ihl ihr =>
    obtain ⟨l, hl, h⟩ := Option.bind_eq_some_iff.mp h
    obtain ⟨r, hr, h⟩ := Option.bind_eq_some_iff.mp h
    cases h
    obtain ⟨pl, m₁, cl, hbl, hrl, hcl, hfl⟩ := ihl hl m
    obtain ⟨pr, m₂, cr, hbr, hrr, hcr, hfr⟩ := ihr hr m₁
    have hleft : ((e :: e' :: kvs).map normPair).filter (fun e => !trieBit e.1 i) =
        ((e :: e' :: kvs).filter fun e => !e.1.bit i).map normPair := by
      rw [filter_map]
      rfl
    have hright : ((e :: e' :: kvs).map normPair).filter (fun e => trieBit e.1 i) =
        ((e :: e' :: kvs).filter fun e => e.1.bit i).map normPair := by
      rw [filter_map]
      rfl
    have hhash : H (trieBranch (m₂.node pl).hash (m₂.node pr).hash) = rootHash H (.node l r) := by
      have h₁ : (m₂.node pl).hash = rootHash H l := (hrl.frame hfr (by simp)).hashOf
      have h₂ : (m₂.node pr).hash = rootHash H r := hrr.hashOf
      rw [h₁, h₂]
      rfl
    set c : Node := ⟨rootHash H (.node l r), none, some pl, some pr⟩
    have hc : (m₂.heap ++ [c])[m₂.heap.length]? = some c := getElem?_concat_length
    have hfc : Frame m₂.heap (m₂.heap ++ [c]) [] := Frame.append _ _ _
    let m₃ : Mem := { levelDBSetBranch m₂ (rootHash H (.node l r))
      (trieBranch (m₂.node pl).hash (m₂.node pr).hash) with heap := m₂.heap ++ [c] }
    refine ⟨m₂.heap.length, m₃, m₂.heap.length :: (cl ++ cr), ?_, .branch hc
      ((hrl.frame hfr (by simp)).frame hfc (by simp)) (hrr.frame hfc (by simp)) ?_, ?_,
      (hfl.trans hfr (by simp)).trans hfc (by simp)⟩
    · rw [map_cons, map_cons, buildMerkleTree, ← map_cons, ← map_cons, hleft, hbl]
      simp only [Option.bind_eq_bind, Option.bind_some, hright, hbr, hhash]
      rfl
    · refine nodup_cons_append.mpr ⟨fun hx => ?_, fun hx => ?_, hrl.cells_nodup,
        hrr.cells_nodup, fun x hx hx' => ?_⟩
      · exact absurd ((hrl.lt_length _ hx).trans_le hfr.length_le) (lt_irrefl _)
      · exact absurd (hrr.lt_length _ hx) (lt_irrefl _)
      · exact absurd (hrl.lt_length x hx) (not_lt.mpr (hcr x hx'))
    · intro q hq
      rcases mem_cons.mp hq with rfl | hq
      · exact hfl.length_le.trans hfr.length_le
      · rcases mem_append.mp hq with hq | hq
        · exact hcl q hq
        · exact hfl.length_le.trans (hcr q hq)

variable (hnodup : (kvs.map Prod.fst).Nodup) (ht : t.Canon Key.bit 0)
  (hmem : ∀ e, e ∈ t.entries ↔ e ∈ kvs)
include hnodup ht hmem

/-- **`NewMerkleTree` lays out the canonical trie of its pairs.** -/
theorem newMerkleTree_rep : ∃ tree m cells, newMerkleTree H (kvs.map normPair) = some (tree, m) ∧
      Rep H m.heap t tree.root cells := by
  obtain ⟨t', hbuild, ht', hmem'⟩ := exists_build hnodup
  obtain rfl : t = t' := ht.ext ht' fun e => by rw [hmem, hmem']
  cases kvs with
  | nil =>
    cases hbuild
    exact ⟨_, _, [], rfl, .nil⟩
  | cons e kvs =>
    obtain ⟨p, m', cells, hres, hrep, -, -⟩ := buildMerkleTree_spec hbuild ⟨[], fun _ => none⟩
    refine ⟨⟨some p, [], []⟩, m', cells, ?_, hrep⟩
    rw [newMerkleTree, if_neg (by simp), hres]
    rfl

/-- **The root of a new trie** is the root of the canonical trie of its pairs. -/
theorem newMerkleTree_root : ∃ tree m, newMerkleTree H (kvs.map normPair) = some (tree, m) ∧
      getRoot m tree.root = rootHash H t := by
  obtain ⟨tree, m, cells, hnew, hrep⟩ := newMerkleTree_rep hnodup ht hmem
  exact ⟨tree, m, hnew, hrep.getRoot_eq⟩

end JamDuna.Storage
