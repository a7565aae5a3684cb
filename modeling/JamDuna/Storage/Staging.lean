/-
# What a flush does to the values

The abstract session of `Storage.Session` against a plain map from keys to values.
Staging an insert or a delete changes the view at one key. A flush should change
nothing, and the inserts in any order do not; but a staged delete removes the leaf at
the end of the descent of its key, whatever key the leaf holds. So a flush keeps the
view exactly when every leaf that a delete removes has a staged key
(`TrieState.flush_view_iff`).
-/

import JamDuna.Storage.Session

namespace JamDuna.Storage

open JamDuna.Basis List Function Prod

/-- A call on a map from keys to values. -/
def applyOp (M : Key → Option Bytes) : Op → Key → Option Bytes
  | .insert k v => update M k (some v)
  | .delete k => update M k none
  | .flush _ _ => M

section

variable {es es' : List (Key × Bytes)} {k : Key} {e : Key × Bytes}

theorem find?_key_iff (hnodup : (es.map fst).Nodup) :
    es.find? (fun e => e.1 = k) = some e ↔ e ∈ es ∧ e.1 = k := by
  induction es with
  | nil => simp
  | cons a es ih =>
    obtain ⟨hnot, hnodup⟩ := nodup_cons.mp hnodup
    by_cases ha : a.1 = k
    · -- the first pair is the only one of its key
      rw [find?_cons_of_pos (by simpa using ha), Option.some_inj]
      refine ⟨fun h => h ▸ ⟨.head _, ha⟩, fun ⟨he, hek⟩ => ?_⟩
      refine ((mem_cons.mp he).resolve_right fun he => hnot ?_).symm
      rw [ha, ← hek]
      exact mem_map_of_mem he
    · rw [find?_cons_of_neg (by simpa using ha), ih hnodup, mem_cons]
      refine and_congr_left fun hek => (or_iff_right fun heq => ha ?_).symm
      rw [← heq, hek]

theorem find?_key_none_iff : es.find? (fun e => e.1 = k) = none ↔ k ∉ es.map fst := by
  rw [find?_eq_none]
  constructor
  · intro h hmem
    obtain ⟨e, he, rfl⟩ := mem_map.mp hmem
    simpa using h e he
  · intro h e he
    simpa using fun heq : e.1 = k => h (heq ▸ mem_map_of_mem he)

/-- The order does not matter. -/
theorem find?_key_perm (hperm : es.Perm es') (hnodup : (es'.map fst).Nodup) :
    es.find? (fun e => e.1 = k) = es'.find? fun e => e.1 = k := by
  have hnodup' : (es.map fst).Nodup := (hperm.map fst).nodup_iff.mpr hnodup
  refine Option.ext fun e => ?_
  rw [find?_key_iff hnodup', find?_key_iff hnodup, hperm.mem_iff]

end

section

variable {t : StateTrie} {deletes : List Key} {inserts : List (Key × Bytes)} {k : Key}

section

variable (ht : t.Canon Key.bit 0)
include ht

theorem putKeys_canon : (putKeys t inserts).Canon Key.bit 0 := by
  induction inserts generalizing t with
  | nil => exact ht
  | cons e inserts ih => exact ih (putKey_inserted ht e.1 e.2).canon

/-- The staged inserts override the trie. -/
theorem lookup_putKeys (hnodup : (inserts.map fst).Nodup) (k : Key) :
    (putKeys t inserts).lookup Key.bit k 0 = match inserts.find? fun e => e.1 = k with
      | some e => some e.2
      | none => t.lookup Key.bit k 0 := by
  induction inserts generalizing t with
  | nil => rfl
  | cons e inserts ih =>
    obtain ⟨hnot, hnodup⟩ := nodup_cons.mp hnodup
    have hins := putKey_inserted ht e.1 e.2
    rw [show putKeys t (e :: inserts) = putKeys (putKey t e) inserts from rfl,
      ih hins.canon hnodup, find?_cons]
    by_cases hk : e.1 = k
    · subst hk
      rw [find?_key_none_iff.mpr hnot]
      simp [hins.lookup_eq ht]
    · simp only [hk, decide_false]
      cases inserts.find? fun e => e.1 = k with
      | none => simp [hins.lookup_eq ht, Ne.symm hk]
      | some e' => rfl

/-- The order of the inserts does not matter. -/
theorem putKeys_perm {inserts' : List (Key × Bytes)} (hperm : inserts.Perm inserts')
    (hnodup : (inserts'.map fst).Nodup) : putKeys t inserts = putKeys t inserts' := by
  have hnodup' : (inserts.map fst).Nodup := (hperm.map fst).nodup_iff.mpr hnodup
  refine (putKeys_canon ht).ext_lookup (putKeys_canon ht) fun k => ?_
  rw [lookup_putKeys ht hnodup', lookup_putKeys ht hnodup, find?_key_perm hperm hnodup]

theorem eraseKeys_canon : (eraseKeys t deletes).Canon Key.bit 0 := by
  induction deletes generalizing t with
  | nil => exact ht
  | cons k deletes ih => exact ih (eraseKey_canon ht)

/-- Deletes only remove. -/
theorem mem_of_mem_eraseKeys {e : Key × Bytes} (he : e ∈ (eraseKeys t deletes).entries) :
    e ∈ t.entries := by
  induction deletes generalizing t with
  | nil => exact he
  | cons k deletes ih => exact ((mem_eraseKey ht).mp (ih (eraseKey_canon ht) he)).1

/-- A deleted key is gone. -/
theorem not_mem_eraseKeys (hk : k ∈ deletes) (v : Bytes) :
    (k, v) ∉ (eraseKeys t deletes).entries := by
  induction deletes generalizing t with
  | nil => simp at hk
  | cons k' deletes ih =>
    rcases mem_cons.mp hk with rfl | hk
    · intro he
      obtain ⟨hmem, hdesc⟩ := (mem_eraseKey ht).mp (mem_of_mem_eraseKeys (eraseKey_canon ht) he)
      exact hdesc (ht.descent_eq_self hmem)
    · exact ih (eraseKey_canon ht) hk

end

/-- Every leaf that the deletes remove has a key in `staged`. -/
def CleanErase (staged : List Key) : List Key → StateTrie → Prop
  | [], _ => True
  | k :: deletes, t => (∀ k', t.descent Key.bit k 0 = some k' → k' ∈ staged) ∧
      CleanErase staged deletes (eraseKey t k)

/-- **Exactly the clean deletes keep the keys that are not staged.** -/
theorem cleanErase_iff (ht : t.Canon Key.bit 0) {staged : List Key} : CleanErase staged deletes t ↔
      ∀ e ∈ t.entries, e.1 ∉ staged → e ∈ (eraseKeys t deletes).entries := by
  induction deletes generalizing t with
  | nil => exact ⟨fun _ e he _ => he, fun _ => trivial⟩
  | cons k deletes ih =>
    have ht' := eraseKey_canon (k := k) ht
    rw [CleanErase, ih ht']
    constructor
    · rintro ⟨hhead, htail⟩ e he hnot
      exact htail e ((mem_eraseKey ht).mpr ⟨he, fun hdesc => hnot (hhead e.1 hdesc)⟩) hnot
    · intro hkeep
      refine ⟨fun k' hdesc => ?_, fun e he hnot => hkeep e ((mem_eraseKey ht).mp he).1 hnot⟩
      by_contra hnot
      obtain ⟨v, hv⟩ := BitTrie.exists_mem_of_descent hdesc
      have hleft := mem_of_mem_eraseKeys ht' (hkeep (k', v) hv hnot)
      exact ((mem_eraseKey ht).mp hleft).2 hdesc

end

namespace TrieState

variable {P : List (Key × Bytes)} {a b : TrieState} {op : Op} {k : Key} {v : Bytes}

/-- The keys that are staged. -/
def staged (a : TrieState) : List Key := a.deletes ++ a.inserts.map fst

theorem find?_filter_key (es : List (Key × Bytes)) (k k' : Key) :
    (es.filter fun e => e.1 ≠ k).find? (fun e => e.1 = k') =
      if k' = k then none else es.find? fun e => e.1 = k' := by
  rw [find?_filter]
  by_cases hk : k' = k
  · subst hk
    rw [if_pos rfl]
    simp
  · rw [if_neg hk]
    congr 1
    funext e
    by_cases he : e.1 = k'
    · simp [he, hk]
    · simp [he]

/-- A key at which the staged operations are the same. -/
theorem view_congr {a b : TrieState} {k : Key} (htrie : a.trie = b.trie)
    (hdeletes : k ∈ a.deletes ↔ k ∈ b.deletes)
    (hinserts : a.inserts.find? (fun e => e.1 = k) = b.inserts.find? fun e => e.1 = k) :
    a.view k = b.view k := by
  simp only [view, htrie, hdeletes, hinserts]

/-- An insert is seen at once. -/
theorem view_stageInsert (a : TrieState) (k : Key) (v : Bytes) :
    (a.stageInsert k v).view = update a.view k (some v) := by
  funext k'
  by_cases hk : k' = k
  · subst hk
    simp [view, stageInsert]
  · rw [update_of_ne hk]
    refine view_congr rfl (by simp [stageInsert, hk]) ?_
    rw [stageInsert, find?_cons, decide_eq_false (Ne.symm hk), find?_filter_key, if_neg hk]

/-- So is a delete. -/
theorem view_stageDelete (a : TrieState) (k : Key) :
    (a.stageDelete k).view = update a.view k none := by
  funext k'
  by_cases hk : k' = k
  · subst hk
    simp [view, stageDelete]
  · rw [update_of_ne hk]
    refine view_congr rfl (by simp [stageDelete, hk]) ?_
    rw [stageDelete, find?_filter_key, if_neg hk]

/-- **A flush keeps every value exactly when its deletes are clean.** -/
theorem flush_view_iff (ht : a.trie.Canon Key.bit 0) (ha : a.Proper P) {deletes : List Key}
    {inserts : List (Key × Bytes)} (hd : deletes.Perm a.deletes) (hi : inserts.Perm a.inserts) :
    (∀ k, (a.flush deletes inserts).view k = a.view k) ↔ CleanErase a.staged deletes a.trie := by
  have hnodup : (inserts.map fst).Nodup := (hi.map fst).nodup_iff.mpr ha.nodup
  have hview : ∀ k, (a.flush deletes inserts).view k = match a.inserts.find? fun e => e.1 = k with
      | some e => some e.2
      | none => (eraseKeys a.trie deletes).lookup Key.bit k 0 := by
    intro k
    rw [← find?_key_perm hi ha.nodup, ← lookup_putKeys (eraseKeys_canon ht) hnodup]
    simp [view, flush]
  have hcanon : (eraseKeys a.trie deletes).Canon Key.bit 0 := eraseKeys_canon ht
  rw [cleanErase_iff ht]
  constructor
  · intro hsame e he hnot
    obtain ⟨hnd, hni⟩ := not_or.mp (mt mem_append.mpr hnot)
    have hk := hsame e.1
    rw [hview, find?_key_none_iff.mpr hni, view, if_neg hnd, find?_key_none_iff.mpr hni] at hk
    exact hcanon.lookup_eq_some.mp (hk.trans (ht.lookup_eq_some.mpr he))
  · intro hkeep k
    rw [hview, view]
    by_cases hkd : k ∈ a.deletes
    · have hni : k ∉ a.inserts.map fst := by
        intro hmem
        obtain ⟨e, he, rfl⟩ := mem_map.mp hmem
        exact ha.disjoint e he hkd
      rw [if_pos hkd, find?_key_none_iff.mpr hni]
      exact hcanon.lookup_eq_none.mpr (not_mem_eraseKeys ht (hd.mem_iff.mpr hkd))
    · rw [if_neg hkd]
      cases hfind : a.inserts.find? fun e => e.1 = k with
      | some e => rfl
      | none =>
        have hnot : k ∉ a.staged := by
          rw [staged, mem_append, not_or]
          exact ⟨hkd, find?_key_none_iff.mp hfind⟩
        refine Option.ext fun v => ?_
        show (eraseKeys a.trie deletes).lookup Key.bit k 0 = some v ↔ _
        rw [hcanon.lookup_eq_some, ht.lookup_eq_some]
        exact ⟨mem_of_mem_eraseKeys ht, fun he => hkeep (k, v) he hnot⟩

/-- **A step is the call on the map**, but for a flush that is not clean. -/
theorem Step.view_eq (h : Step a op b) (ht : a.trie.Canon Key.bit 0) (ha : a.Proper P)
    (hclean : ∀ deletes inserts, op = .flush deletes inserts →
      CleanErase a.staged deletes a.trie) : b.view = applyOp a.view op := by
  cases h with
  | insert k v => exact view_stageInsert a k v
  | delete _ => exact view_stageDelete a _
  | reject hk =>
    rw [applyOp, ← hk, update_eq_self]
  | flush hd hi =>
    funext k
    exact (flush_view_iff ht ha hd hi).mpr (hclean _ _ rfl) k

end TrieState

end JamDuna.Storage
