/-
# Checking the assumptions on the hash

The assumptions of `Storage.Records` speak of all canonical tries of the pairs in play.
There are finitely many of them, one for each sublist of the pairs (`Part.mem_tries`),
so for given pairs and a hash that computes the assumptions can be checked.
`polyHash` is such a hash.
-/

import JamDuna.Storage.Records

namespace JamDuna.Storage

open JamDuna.Basis List

section

/-- The canonical tries of pairs in `P`. -/
def tries (P : List (Key × Bytes)) : List StateTrie :=
  P.sublists.filterMap (BitTrie.build Key.bit keyBits 0)

/-- The children of a branch. -/
def branchOf : StateTrie → Option (StateTrie × StateTrie)
  | .node l r => some (l, r)
  | _ => none

/-- The branches of the canonical tries of pairs in `P`. -/
def branches (P : List (Key × Bytes)) : List (StateTrie × StateTrie) :=
  (tries P).flatMap fun t => t.subtries.filterMap branchOf

variable {P : List (Key × Bytes)} {t l r : StateTrie}

/-- A canonical trie is the build of its pairs. -/
theorem mem_tries (ht : t.Canon Key.bit 0) (hP : ∀ e ∈ t.entries, e ∈ P) : t ∈ tries P := by
  set kvs := P.dedup.filter (· ∈ t.entries) with hkvs
  have hsub : kvs.Sublist P := filter_sublist.trans (dedup_sublist P)
  have hmem : ∀ e, e ∈ kvs ↔ e ∈ t.entries := by
    intro e
    simp only [hkvs, mem_filter, mem_dedup, decide_eq_true_eq, and_iff_right_iff_imp]
    exact hP e
  have hnodup : (kvs.map Prod.fst).Nodup := by
    refine (nodup_dedup P).filter _ |>.map_on fun e he e' he' hkey => ?_
    refine Prod.ext hkey (ht.entries_unique (k := e.1) ((hmem e).mp he) ?_)
    rw [hkey]
    exact (hmem e').mp he'
  obtain ⟨t', hbuild, ht', hmem'⟩ := exists_build hnodup
  obtain rfl : t = t' := ht.ext ht' fun e => by rw [hmem', hmem]
  exact mem_filterMap.mpr ⟨kvs, mem_sublists.mpr hsub, hbuild⟩

theorem Part.mem_branches (h : Part P (.node l r)) : (l, r) ∈ branches P := by
  obtain ⟨t, ht, hP, hmem⟩ := h
  exact mem_flatMap.mpr ⟨t, mem_tries ht hP, mem_filterMap.mpr ⟨_, hmem, rfl⟩⟩

end

section

variable (H : HashFn) (P : List (Key × Bytes))

/-- The input of a leaf. -/
def leafInput (e : Key × Bytes) : Bytes := trieLeaf H e.1.norm e.2

/-- The input for the key of a leaf. -/
def keyInput (e : Key × Bytes) : Bytes := H (leafInput H e) ++ e.2

/-- The input of a branch. -/
def branchInput (b : StateTrie × StateTrie) : Bytes := trieBranch (rootHash H b.1) (rootHash H b.2)

/-- The values that are stored under their own hash. -/
def longValues : List Bytes := (P.map Prod.snd).filter fun v => 32 < v.length

/-- All inputs for tries of pairs in `P`. -/
def inputs : List Bytes :=
  P.map (leafInput H) ++ longValues P ++ P.map (keyInput H) ++ (branches P).map (branchInput H)

variable {H P}

theorem mem_longValues {k : Key} {v : Bytes} (h : (k, v) ∈ P) (hv : 32 < v.length) :
    v ∈ longValues P :=
  mem_filter.mpr ⟨mem_map.mpr ⟨(k, v), h, rfl⟩, by simpa using hv⟩

theorem Input.mem_inputs {x : Bytes} (h : Input H P x) : x ∈ inputs H P := by
  simp only [inputs, mem_append]
  cases h with
  | @leaf k v h => exact .inl (.inl (.inl (mem_map.mpr ⟨(k, v), h, rfl⟩)))
  | value h hv => exact .inl (.inl (.inr (mem_longValues h hv)))
  | @key k v h => exact .inl (.inr (mem_map.mpr ⟨(k, v), h, rfl⟩))
  | @branch l r h => exact .inr (mem_map.mpr ⟨(l, r), h.mem_branches, rfl⟩)

/-- **Checking that the hash has no collisions.** -/
theorem collisionFree_of_check (h : ((inputs H P).dedup.map fun x => maskTop (H x)).Nodup ∧
      zeroHash ∉ (inputs H P).map fun x => maskTop (H x)) : CollisionFree H P where
  inj _ _ hx hy heq := inj_on_of_nodup_map h.1 (mem_dedup.mpr hx.mem_inputs)
    (mem_dedup.mpr hy.mem_inputs) heq
  ne_zero x hx heq := h.2 (mem_map.mpr ⟨x, hx.mem_inputs, heq⟩)

/-- **Checking that no two records meet.** -/
theorem noAlias_of_check (h : (∀ x ∈ P.map (keyInput H), x ∉ P.map (leafInput H) ++ longValues P ++
        (branches P).map (branchInput H)) ∧
      ∀ x ∈ longValues P, x ∉ (branches P).map (branchInput H)) : NoAlias H P where
  value_ne_branch e he hv l r hb heq :=
    h.2 e.2 (mem_longValues he hv) (mem_map.mpr ⟨(l, r), hb.mem_branches, heq.symm⟩)
  value_ne_key e he hv e' he' heq := by
    refine h.1 _ (mem_map_of_mem he') ?_
    have hmem := mem_longValues he hv
    rw [heq] at hmem
    exact mem_append_left _ (mem_append_right _ hmem)
  leaf_ne_key e he e' he' heq := by
    refine h.1 _ (mem_map_of_mem he') ?_
    exact mem_append_left _ (mem_append_left _ (mem_map.mpr ⟨e, he, heq⟩))
  branch_ne_key l r hb e he heq := by
    refine h.1 _ (mem_map_of_mem he) ?_
    exact mem_append_right _ (mem_map.mpr ⟨(l, r), hb.mem_branches, heq⟩)

end

/-- The 32 bytes of a number. -/
def bytes32 (n : ℕ) : Bytes := (range 32).map fun i => UInt8.ofNat (n / 256 ^ (31 - i) % 256)

/-- A polynomial in the bytes, modulo a prime. -/
def polyHash : HashFn where
  run x := bytes32 ((x.foldl (fun h b => h * 1000003 + b.toNat + 1) 1) % (2 ^ 255 - 19))
  length_run x := by simp [bytes32]

end JamDuna.Storage
