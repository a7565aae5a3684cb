/-
# The records of the store

Leaves, branches, long values and the keys of leaves share one map from hashes to
bytes (`levelDBSetLeaf` and `levelDBSetBranch` of `storage/trie.go`), so an entry
stays what it was only while no other kind of entry is put under the same hash.

`P` is the list of pairs in play. `Input` is everything that is hashed for tries of
these pairs and `CollisionFree` what is assumed of the hash on it. A branch keeps the
hash of its left child without the first bit, so hashes that differ in the first bit
alone count as a collision.

An input can still be of two kinds at once, since values are arbitrary: a value of 64
bytes can be the encoding of a branch. `ValuesApart` and `NoAlias` exclude it. Then
the store holds one record for every input (`Record.unique`), and what it holds stays
(`Puts.stores`).
-/

import JamDuna.Storage.Descend

namespace JamDuna.Storage

open JamDuna.Basis List Function BitTrie

variable {H : HashFn} {P : List (Key × Bytes)}

section

/-- A part of a canonical trie of pairs in `P`. -/
def Part (P : List (Key × Bytes)) (s : StateTrie) : Prop :=
  ∃ t : StateTrie, t.Canon Key.bit 0 ∧ (∀ e ∈ t.entries, e ∈ P) ∧ s ∈ t.subtries

variable {s t l r : StateTrie}

theorem Part.of_canon (ht : t.Canon Key.bit 0) (hP : ∀ e ∈ t.entries, e ∈ P) : Part P t :=
  ⟨t, ht, hP, mem_subtries_self t⟩

theorem Part.sub (ht : Part P t) (hs : s ∈ t.subtries) : Part P s := by
  obtain ⟨u, hu, hP, htu⟩ := ht
  exact ⟨u, hu, hP, mem_subtries_trans hs htu⟩

theorem Part.left (h : Part P (.node l r)) : Part P l :=
  h.sub (mem_subtries_left (mem_subtries_self l))

theorem Part.right (h : Part P (.node l r)) : Part P r :=
  h.sub (mem_subtries_right (mem_subtries_self r))

theorem Part.mem {e : Key × Bytes} (h : Part P t) (he : e ∈ t.entries) : e ∈ P := by
  obtain ⟨u, -, hP, htu⟩ := h
  exact hP e (mem_entries_of_mem_subtries htu he)

end

section

/-- What is hashed for tries of pairs in `P`. -/
inductive Input (H : HashFn) (P : List (Key × Bytes)) : Bytes → Prop
  | leaf {k : Key} {v : Bytes} (h : (k, v) ∈ P) : Input H P (trieLeaf H k.norm v)
  | value {k : Key} {v : Bytes} (h : (k, v) ∈ P) (hv : 32 < v.length) : Input H P v
  | key {k : Key} {v : Bytes} (h : (k, v) ∈ P) : Input H P (H (trieLeaf H k.norm v) ++ v)
  | branch {l r : StateTrie} (h : Part P (.node l r)) :
      Input H P (trieBranch (rootHash H l) (rootHash H r))

/-- The hash has no collisions on the inputs, also without the first bit, and is not
zero. -/
structure CollisionFree (H : HashFn) (P : List (Key × Bytes)) : Prop where
  inj : ∀ x y, Input H P x → Input H P y → maskTop (H x) = maskTop (H y) → x = y
  ne_zero : ∀ x, Input H P x → maskTop (H x) ≠ zeroHash

/-- No long value is the encoding of a branch or the input for the key of a leaf, and
no leaf is such an input. -/
structure ValuesApart (H : HashFn) (P : List (Key × Bytes)) : Prop where
  value_ne_branch : ∀ e ∈ P, 32 < e.2.length → ∀ l r, Part P (.node l r) →
    e.2 ≠ trieBranch (rootHash H l) (rootHash H r)
  value_ne_key : ∀ e ∈ P, 32 < e.2.length → ∀ e' ∈ P, e.2 ≠ H (trieLeaf H e'.1.norm e'.2) ++ e'.2
  leaf_ne_key : ∀ e ∈ P, ∀ e' ∈ P, trieLeaf H e.1.norm e.2 ≠ H (trieLeaf H e'.1.norm e'.2) ++ e'.2

/-- No input is of two kinds with different records. -/
structure NoAlias (H : HashFn) (P : List (Key × Bytes)) : Prop extends ValuesApart H P where
  branch_ne_key : ∀ l r, Part P (.node l r) → ∀ e ∈ P,
    trieBranch (rootHash H l) (rootHash H r) ≠ H (trieLeaf H e.1.norm e.2) ++ e.2

variable {s t l r : StateTrie}

theorem CollisionFree.hash_inj (cf : CollisionFree H P) {x y : Bytes} (hx : Input H P x)
    (hy : Input H P y) (h : H x = H y) : x = y :=
  cf.inj x y hx hy (congrArg maskTop h)

/-- The hash of a nonempty part is the hash of an input. -/
theorem Part.input (h : Part P s) (hne : s ≠ .empty) : ∃ x, Input H P x ∧ rootHash H s = H x := by
  cases s with
  | empty => exact absurd rfl hne
  | leaf k v => exact ⟨_, .leaf (h.mem (.head _)), rfl⟩
  | node l r => exact ⟨_, .branch h, rfl⟩

section

variable (cf : CollisionFree H P)
include cf

theorem Part.hash_ne_zero (h : Part P s) (hne : s ≠ .empty) :
    maskTop (rootHash H s) ≠ maskTop zeroHash := by
  obtain ⟨x, hx, heq⟩ := h.input (H := H) hne
  rw [heq, maskTop_zeroHash]
  exact cf.ne_zero x hx

theorem Part.solid (h : Part P t) : Solid H t :=
  fun _ hs hne heq => (h.sub hs).hash_ne_zero cf hne (congrArg maskTop heq)

/-- Leaves with the same encoding are the same. -/
theorem CollisionFree.leaf_inj {k k' : Key} {v v' : Bytes}
    (h : (k, v) ∈ P) (h' : (k', v') ∈ P) (heq : trieLeaf H k.norm v = trieLeaf H k'.norm v') :
    k = k' ∧ v = v' := by
  obtain ⟨hk, hv | ⟨hv, hv', hhash⟩⟩ := trieLeaf_inj heq
  · exact ⟨hk, hv⟩
  · exact ⟨hk, cf.hash_inj (.value h hv) (.value h' hv') hhash⟩

/-- **The root determines the trie**, even without its first bit. -/
theorem Part.rootHash_inj (hs : Part P s) (ht : Part P t)
    (h : maskTop (rootHash H s) = maskTop (rootHash H t)) : s = t := by
  induction s generalizing t with
  | empty =>
    by_contra hne
    exact ht.hash_ne_zero cf (Ne.symm hne) h.symm
  | leaf k v =>
    have hmem : (k, v) ∈ P := hs.mem (.head _)
    cases t with
    | empty => exact absurd h (hs.hash_ne_zero cf nofun)
    | leaf k' v' =>
      have hmem' : (k', v') ∈ P := ht.mem (.head _)
      obtain ⟨rfl, rfl⟩ := cf.leaf_inj hmem hmem' (cf.inj _ _ (.leaf hmem) (.leaf hmem') h)
      rfl
    | node l r =>
      exact absurd (cf.inj _ _ (.leaf hmem) (.branch ht) h)
        (trieLeaf_ne_trieBranch (length_rootHash H l))
  | node l r ihl ihr =>
    cases t with
    | empty => exact absurd h (hs.hash_ne_zero cf nofun)
    | leaf k' v' =>
      have hmem' : (k', v') ∈ P := ht.mem (.head _)
      exact absurd (cf.inj _ _ (.branch hs) (.leaf hmem') h).symm
        (trieLeaf_ne_trieBranch (length_rootHash H l))
    | node l' r' =>
      obtain ⟨hl, hr⟩ := trieBranch_inj (length_rootHash H l) (length_rootHash H l')
        (cf.inj _ _ (.branch hs) (.branch ht) h)
      rw [ihl hs.left ht.left hl, ihr hs.right ht.right (congrArg maskTop hr)]

end

end

section

/-- The store holds `a` under the hash of `x`. -/
inductive Record (H : HashFn) (P : List (Key × Bytes)) : Bytes → Bytes → Prop
  | leaf {k : Key} {v : Bytes} (h : (k, v) ∈ P) :
      Record H P (trieLeaf H k.norm v) (trieLeaf H k.norm v)
  | value {k : Key} {v : Bytes} (h : (k, v) ∈ P) (hv : 32 < v.length) : Record H P v v
  | key {k : Key} {v : Bytes} (h : (k, v) ∈ P) : Record H P (H (trieLeaf H k.norm v) ++ v) k.norm
  | branch {l r : StateTrie} (h : Part P (.node l r)) :
      Record H P (trieBranch (rootHash H l) (rootHash H r)) (branchRecord H l r)

variable {x a b : Bytes} {st st' st'' : Store} {t : StateTrie} {k : Key} {v : Bytes}

theorem Record.input (h : Record H P x a) : Input H P x := by
  cases h with
  | leaf h => exact .leaf h
  | value h hv => exact .value h hv
  | key h => exact .key h
  | branch h => exact .branch h

/-- A leaf or a long value is stored as it is. -/
theorem Record.eq_leaf (va : ValuesApart H P) (h : Record H P x a) (hk : (k, v) ∈ P)
    (hx : x = trieLeaf H k.norm v) : a = x := by
  cases h with
  | leaf | value => rfl
  | key h => exact absurd hx.symm (va.leaf_ne_key _ hk _ h)
  | @branch l _ _ => exact absurd hx.symm (trieLeaf_ne_trieBranch (length_rootHash H l))

theorem Record.eq_value (va : ValuesApart H P) (h : Record H P x a) (hk : (k, v) ∈ P)
    (hv : 32 < v.length) (hx : x = v) : a = x := by
  cases h with
  | leaf | value => rfl
  | key h => exact absurd hx.symm (va.value_ne_key _ hk hv _ h)
  | branch h => exact absurd hx.symm (va.value_ne_branch _ hk hv _ _ h)

/-- **Without aliasing an input has one record.** -/
theorem Record.unique (cf : CollisionFree H P) (na : NoAlias H P) (ha : Record H P x a)
    (hb : Record H P x b) : a = b := by
  cases ha with
  | leaf h => exact (hb.eq_leaf na.toValuesApart h rfl).symm
  | value h hv => exact (hb.eq_value na.toValuesApart h hv rfl).symm
  | @key k v h =>
    generalize hx : H (trieLeaf H k.norm v) ++ v = x at hb
    cases hb with
    | leaf h' => exact absurd hx.symm (na.leaf_ne_key _ h' _ h)
    | value h' hv => exact absurd hx.symm (na.value_ne_key _ h' hv _ h)
    | key h' =>
      obtain ⟨hhash, -⟩ := append_inj hx (by rw [H.length_run, H.length_run])
      rw [(cf.leaf_inj h h' (cf.hash_inj (.leaf h) (.leaf h') hhash)).1]
    | branch h' => exact absurd hx.symm (na.branch_ne_key _ _ h' _ h)
  | @branch l r h =>
    generalize hx : trieBranch (rootHash H l) (rootHash H r) = x at hb
    cases hb with
    | leaf h' => exact absurd hx.symm (trieLeaf_ne_trieBranch (length_rootHash H l))
    | value h' hv => exact absurd hx.symm (na.value_ne_branch _ h' hv _ _ h)
    | key h' => exact absurd hx (na.branch_ne_key _ _ h _ h')
    | @branch l' r' h' =>
      obtain ⟨hl, hr⟩ := trieBranch_inj (length_rootHash H l) (length_rootHash H l') hx
      rw [branchRecord, branchRecord, h.left.rootHash_inj cf h'.left hl, hr]

end

/-- From `st` to `st'` only records have been put. -/
def Puts (H : HashFn) (P : List (Key × Bytes)) (st st' : Store) : Prop :=
  ∀ q, st' q = st q ∨ ∃ x a, Record H P x a ∧ q = H x ∧ st' q = some a

variable {x a : Bytes} {st st' st'' : Store} {t : StateTrie} {k : Key} {v : Bytes}

theorem Puts.refl (st : Store) : Puts H P st st := fun _ => .inl rfl

theorem Puts.trans (h : Puts H P st st') (h' : Puts H P st' st'') : Puts H P st st'' := by
  intro q
  rcases h' q with heq | hput
  · rw [heq]
    exact h q
  · exact .inr hput

theorem Puts.update (st : Store) (h : Record H P x a) : Puts H P st (update st (H x) (some a)) := by
  intro q
  by_cases hq : q = H x
  · exact .inr ⟨x, a, h, hq, by rw [hq, update_self]⟩
  · exact .inl (update_of_ne hq _ _)

theorem BranchPuts.puts {old : List StateTrie} (h : BranchPuts H old t st st') (ht : Part P t) :
    Puts H P st st' := by
  intro q
  rcases h.changed q with heq | ⟨l, r, hmem, hq, hst⟩
  · exact .inl heq
  · exact .inr ⟨_, _, .branch (ht.sub hmem), hq, hst⟩

/-- **What the store holds stays**, when the input has one record. -/
theorem Puts.stores (cf : CollisionFree H P) (h : Puts H P st st') (hx : Input H P x)
    (hst : st (H x) = some a) (huniq : ∀ b, Record H P x b → b = a) : st' (H x) = some a := by
  rcases h (H x) with heq | ⟨y, b, hrec, hq, hput⟩
  · rw [heq, hst]
  · obtain rfl := cf.hash_inj hx hrec.input hq
    rw [hput, huniq b hrec]

section

variable (cf : CollisionFree H P) (va : ValuesApart H P) (h : Puts H P st st')
include cf va h

theorem Puts.leafStored (hk : (k, v) ∈ P) (hs : LeafStored H st k v) : LeafStored H st' k v :=
  ⟨h.stores cf (.leaf hk) hs.1 fun _ hrec => hrec.eq_leaf va hk rfl,
    fun hv => h.stores cf (.value hk hv) (hs.2 hv) fun _ hrec => hrec.eq_value va hk hv rfl⟩

theorem Puts.saved (hP : ∀ e ∈ t.entries, e ∈ P) (hs : Saved H st t) : Saved H st' t :=
  fun e he => h.leafStored cf va (hP e he) (hs e he)

end

/-- The key of a leaf is in the store. -/
def KeyStored (H : HashFn) (st : Store) (k : Key) (v : Bytes) : Prop :=
  st (H (H (trieLeaf H k.norm v) ++ v)) = some k.norm

theorem levelDBSetLeaf_eq (m : Mem) (k : Key) (v : Bytes) :
    levelDBSetLeaf H m (trieLeaf H k.norm v) v k.norm =
      let m := m.levelDBSet (H (H (trieLeaf H k.norm v) ++ v)) k.norm
      let m := m.levelDBSet (H (trieLeaf H k.norm v)) (trieLeaf H k.norm v)
      if v.length ≤ 32 then m else m.levelDBSet (H v) v := by
  simp only [levelDBSetLeaf, trieDecodeLeaf_trieLeaf]
  by_cases hv : v.length ≤ 32
  · simp only [if_pos hv]
  · simp only [if_neg hv]

/-- **Storing a leaf** puts its records. -/
theorem levelDBSetLeaf_spec (cf : CollisionFree H P) (va : ValuesApart H P) (hk : (k, v) ∈ P)
    (m : Mem) :
    (levelDBSetLeaf H m (trieLeaf H k.norm v) v k.norm).heap = m.heap ∧
      Puts H P m.store (levelDBSetLeaf H m (trieLeaf H k.norm v) v k.norm).store ∧
      LeafStored H (levelDBSetLeaf H m (trieLeaf H k.norm v) v k.norm).store k v ∧
      (NoAlias H P → KeyStored H (levelDBSetLeaf H m (trieLeaf H k.norm v) v k.norm).store k v) := by
  rw [levelDBSetLeaf_eq]
  set x := trieLeaf H k.norm v with hx
  have hrecLeaf : Record H P x x := .leaf hk
  have hrecKey : Record H P (H x ++ v) k.norm := .key hk
  set st₁ := update m.store (H (H x ++ v)) (some k.norm) with hst₁
  set st₂ := update st₁ (H x) (some x) with hst₂
  have hput₁ : Puts H P m.store st₁ := Puts.update _ hrecKey
  have hput₂ : Puts H P st₁ st₂ := Puts.update _ hrecLeaf
  have hkey : NoAlias H P → st₂ (H (H x ++ v)) = some k.norm := fun na =>
    hput₂.stores cf hrecKey.input (update_self _ _ _) fun b hb => Record.unique cf na hb hrecKey
  by_cases hv : v.length ≤ 32
  · simp only [if_pos hv]
    exact ⟨rfl, hput₁.trans hput₂, ⟨update_self _ _ _, fun h => absurd hv (by omega)⟩, hkey⟩
  · have hlong : 32 < v.length := not_le.mp hv
    have hrecValue : Record H P v v := .value hk hlong
    have hput₃ : Puts H P st₂ (update st₂ (H v) (some v)) := Puts.update _ hrecValue
    simp only [if_neg hv]
    refine ⟨rfl, (hput₁.trans hput₂).trans hput₃, ⟨?_, fun _ => update_self _ _ _⟩, fun na => ?_⟩
    · exact hput₃.stores cf hrecLeaf.input (update_self _ _ _) fun b hb => hb.eq_leaf va hk rfl
    · exact hput₃.stores cf hrecKey.input (hkey na) fun b hb => Record.unique cf na hb hrecKey

variable {t' : StateTrie}

/-- The keys and branches of the trie are in the store. -/
structure Loadable (H : HashFn) (st : Store) (t : StateTrie) : Prop where
  keys : ∀ e ∈ t.entries, KeyStored H st e.1 e.2
  branches : ∀ l r, .node l r ∈ t.subtries → st (rootHash H (.node l r)) = some (branchRecord H l r)

section

variable (cf : CollisionFree H P) (na : NoAlias H P)
include cf na

theorem Puts.keyStored (h : Puts H P st st') {k : Key}
    {v : Bytes} (hk : (k, v) ∈ P) (hs : KeyStored H st k v) : KeyStored H st' k v :=
  h.stores cf (.key hk) hs fun _ hrec => Record.unique cf na hrec (.key hk)

/-- What can be loaded stays so. -/
theorem Puts.loadable (h : Puts H P st st')
    (ht : Part P t) (hl : Loadable H st t) : Loadable H st' t :=
  ⟨fun e he => h.keyStored cf na (ht.mem he) (hl.keys e he),
    fun l r hmem => h.stores cf (.branch (ht.sub hmem)) (hl.branches l r hmem)
      fun _ hrec => Record.unique cf na hrec (.branch (ht.sub hmem))⟩

/-- An operation that puts the new branches leaves a trie that can be loaded. -/
theorem BranchPuts.loadable (h : BranchPuts H t.subtries t' st st') (ht : Part P t)
    (ht' : Part P t') (hl : Loadable H st t) (hkeys : ∀ e ∈ t'.entries, KeyStored H st e.1 e.2) :
    Loadable H st' t' := by
  have hputs := h.puts ht'
  refine ⟨fun e he => hputs.keyStored cf na (ht'.mem he) (hkeys e he), fun l r hmem => ?_⟩
  rcases h.fresh l r hmem with hold | ⟨l', r', hmem', hhash, hst⟩
  · exact (hputs.loadable cf na ht hl).branches l r hold
  · have heq := (ht'.sub hmem).rootHash_inj cf (ht'.sub hmem') (congrArg maskTop hhash)
    obtain ⟨rfl, rfl⟩ := node.inj heq
    exact hst

end

end JamDuna.Storage
