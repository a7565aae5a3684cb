/-
# Proofs of the trie

`storage/trie.go`: `Trace` returns the hashes beside the path to a key, and `VerifyRaw`
computes a root from a key, a value and such hashes, from the last one up.

Nothing bounds the hashes that a caller passes to `VerifyRaw`, so its soundness is about
any of them: from the root down, a step of the computation and a branch of the trie with
the same hash have the same encoding, because a leaf and a branch are told apart by the
first bit and a left hash by its other bits. So the computation follows the trie down to
a leaf (`mem_of_pathHash`). The hash is assumed to have no collisions between the inputs
in play, those of the trie and those of the computation (`HashedApart`); no function
with results of 32 bytes is without collisions altogether.

For a flushed session the proofs are those of what `Get` returns
(`verifyRaw_complete_and_sound`), unless a value is the encoding of a branch. The branch
then takes the place of the value in the store, and the leaf gets the hash of another value
when it moves (`movedLeaf_unverifiable`).
-/

import JamDuna.Storage.Isolation

namespace JamDuna.Storage

open JamDuna.Basis List Session

section

variable (H : HashFn) (key : Bytes)

/-- One step of the loop of `VerifyRaw`. -/
def verifyStep (sibling : Bytes × ℕ) (leafHash : Bytes) : Bytes :=
  if trieBit key sibling.2 then H (trieBranch sibling.1 leafHash)
  else H (trieBranch leafHash sibling.1)

/-- `VerifyRaw`. `trieLeafStandalone` is `trieLeaf`. -/
def verifyRaw (value rootHash : Bytes) (path : List Bytes) : Bool :=
  if path.length = 0 then H (trieLeaf H key value) == rootHash
  else path.zipIdx.foldr (verifyStep H key) (H (trieLeaf H key value)) == rootHash

variable {H key} {k : Key} {v : Bytes} {t l r : StateTrie} {d : ℕ}

/-- The root that `VerifyRaw` computes from the hashes from depth `d` on. -/
def pathHash (H : HashFn) (key value : Bytes) : ℕ → List Bytes → Bytes
  | _, [] => H (trieLeaf H key value)
  | d, h :: path =>
    if trieBit key d then H (trieBranch h (pathHash H key value (d + 1) path))
    else H (trieBranch (pathHash H key value (d + 1) path) h)

theorem foldr_verifyStep (d : ℕ) (path : List Bytes) :
    (path.zipIdx d).foldr (verifyStep H key) (H (trieLeaf H key v)) = pathHash H key v d path := by
  induction path generalizing d with
  | nil => rfl
  | cons h path ih =>
    rw [zipIdx_cons, foldr_cons, ih, verifyStep, pathHash]

theorem verifyRaw_iff {root : Bytes} {path : List Bytes} :
    verifyRaw H key v root path = true ↔ pathHash H key v 0 path = root := by
  rw [verifyRaw, foldr_verifyStep]
  cases path with
  | nil => simp [pathHash]
  | cons h path => simp

@[simp] theorem length_pathHash (path : List Bytes) : (pathHash H key v d path).length = 32 := by
  cases path with
  | nil => exact H.length_run _
  | cons h path =>
    rw [pathHash]
    split_ifs <;> exact H.length_run _

/-- The bits of a key without its padding. -/
theorem trieBit_bytes (k : Key) (i : ℕ) : trieBit k.bytes i = k.bit i := by
  have hlen := k.length_eq
  rw [Key.bit, trieBit, trieBit, Key.norm_eq]
  rcases Nat.lt_trichotomy (i / 8) 31 with h | h | h
  · rw [getElem?_append_left (by omega)]
  · rw [h, ← hlen, getElem?_concat_length, getElem?_eq_none (le_refl _)]
    exact (Nat.zero_testBit _).symm
  · rw [getElem?_eq_none (by omega), getElem?_eq_none (by simp; omega)]

theorem trieLeaf_bytes (k : Key) (v : Bytes) : trieLeaf H k.bytes v = trieLeaf H k.norm v := by
  rw [trieLeaf, trieLeaf, fixed_key, fixed_of_length k.length_eq]

variable {n : ℕ} {m : Mem} {p : Option ℕ} {cells : List ℕ}

/-- The hashes beside the path to a key. -/
def siblings (H : HashFn) (k : Key) : ℕ → StateTrie → List Bytes
  | _, .empty => []
  | _, .leaf _ _ => []
  | d, .node l r =>
    if k.bit d then rootHash H l :: siblings H k (d + 1) r
    else rootHash H r :: siblings H k (d + 1) l

/-- **`Trace` of a stored key** returns the hashes beside its path. -/
theorem Rep.tracePath_eq (hr : Rep H m.heap t p cells) (hf : Fits k n d t)
    (hmem : (k, v) ∈ t.entries) : tracePath m k.norm n p d = .ok (siblings H k d t) := by
  induction hr generalizing n d with
  | nil | zero hp => exact absurd hmem not_mem_nil
  | @single p k' v' hp =>
    obtain ⟨n, rfl⟩ := hf.exists_succ
    obtain ⟨rfl, -⟩ := Prod.mk.inj (mem_singleton.mp hmem)
    rw [tracePath, Mem.node_eq hp, leafNode_key, if_pos rfl]
    rfl
  | @branch p pl pr l r cl cr hp hl hr hnodup ihl ihr =>
    obtain ⟨n, rfl⟩ := hf.exists_succ
    have hside := hf.side
    have hbit : trieBit k.norm d = k.bit d := rfl
    rw [tracePath, Mem.node_eq hp, if_neg (key_ne_of_none rfl _), hbit, siblings]
    cases hb : k.bit d with
    | false =>
      rw [hb] at hside
      have ih := ihl hside (hf.canon.mem_left_iff.mpr ⟨hmem, hb⟩)
      simp only [Node.child, Bool.not_false, if_true, if_false, Bool.false_eq_true, ih, hr.hashOf]
      rfl
    | true =>
      rw [hb] at hside
      have ih := ihr hside (hf.canon.mem_right_iff.mpr ⟨hmem, hb⟩)
      simp only [Node.child, Bool.not_true, if_true, if_false, Bool.false_eq_true, ih, hl.hashOf]
      rfl

theorem Rep.trace_eq (hr : Rep H m.heap t p cells) (hc : t.Canon Key.bit 0)
    (hmem : (k, v) ∈ t.entries) : trace m k.norm p = .ok (siblings H k 0 t) := by
  have hpath := hr.tracePath_eq (.root hc k) hmem
  cases p with
  | none =>
    cases hr
    exact absurd hmem not_mem_nil
  | some p =>
    rw [trace, levels_norm]
    exact hpath

/-- The hashes beside the path lead to the root. -/
theorem pathHash_siblings (hc : t.Canon Key.bit d) (hmem : (k, v) ∈ t.entries) :
    pathHash H k.bytes v d (siblings H k d t) = rootHash H t := by
  induction t generalizing d with
  | empty => exact absurd hmem not_mem_nil
  | leaf k' v' =>
    obtain ⟨rfl, rfl⟩ := Prod.mk.inj (mem_singleton.mp hmem)
    rw [siblings, pathHash, trieLeaf_bytes, rootHash]
  | node l r ihl ihr =>
    rw [siblings, rootHash]
    cases hb : k.bit d with
    | false =>
      have ih := ihl hc.child_left (hc.mem_left_iff.mpr ⟨hmem, hb⟩)
      simp [pathHash, trieBit_bytes, hb, ih]
    | true =>
      have ih := ihr hc.child_right (hc.mem_right_iff.mpr ⟨hmem, hb⟩)
      simp [pathHash, trieBit_bytes, hb, ih]

end

section

variable (H : HashFn)

/-- What `VerifyRaw` hashes from depth `d` on: a value that is not embedded in its leaf is
hashed too. -/
def pathInputs (key value : Bytes) : ℕ → List Bytes → List Bytes
  | _, [] => trieLeaf H key value :: if 32 < value.length then [value] else []
  | d, h :: path =>
    let inner := pathHash H key value (d + 1) path
    (if trieBit key d then trieBranch h inner else trieBranch inner h) ::
      pathInputs key value (d + 1) path

/-- The input has no collision with what is hashed for tries of pairs in `P`, also without the
first bit, and its hash is not zero. -/
structure HashedApart (P : List (Key × Bytes)) (x : Bytes) : Prop where
  inj : ∀ y, Input H P y → maskTop (H y) = maskTop (H x) → y = x
  ne_zero : maskTop (H x) ≠ zeroHash

end

variable {H : HashFn} {k : Key} {v : Bytes} {t : StateTrie} {d : ℕ} {P : List (Key × Bytes)}
  {path : List Bytes}

theorem HashedApart.eq_of_hash {x y : Bytes} (hx : HashedApart H P x) (hy : Input H P y)
    (h : H y = H x) : y = x :=
  hx.inj y hy (congrArg maskTop h)

/-- What `VerifyRaw` computes is the hash of an input. -/
theorem exists_input_pathHash (key : Bytes) (d : ℕ) (path : List Bytes) :
    ∃ x ∈ pathInputs H key v d path, pathHash H key v d path = H x := by
  cases path with
  | nil => exact ⟨_, mem_cons_self .., rfl⟩
  | cons h path =>
    refine ⟨_, mem_cons_self .., ?_⟩
    rw [pathHash]
    split_ifs <;> rfl

section

variable (ht : Part P t)
include ht

/-- Without the first bit the hash of the computation still tells the trie. -/
theorem rootHash_eq_of_maskTop {key : Bytes}
    (hpath : ∀ x ∈ pathInputs H key v d path, HashedApart H P x)
    (h : maskTop (rootHash H t) = maskTop (pathHash H key v d path)) :
    rootHash H t = pathHash H key v d path := by
  obtain ⟨y, hy, heq⟩ := exists_input_pathHash (H := H) (v := v) key d path
  by_cases hne : t = .empty
  · subst hne
    rw [heq] at h
    exact absurd (h.symm.trans maskTop_zeroHash) (hpath y hy).ne_zero
  · obtain ⟨x, hx, hroot⟩ := ht.input (H := H) hne
    rw [hroot, heq] at h ⊢
    rw [(hpath y hy).inj x hx h]

/-- A leaf of the trie is the only one with its hash. -/
theorem mem_of_leafHash (hleaf : ∀ x ∈ pathInputs H k.bytes v d [], HashedApart H P x)
    (h : rootHash H t = H (trieLeaf H k.bytes v)) : (k, v) ∈ t.entries := by
  have henc : HashedApart H P (trieLeaf H k.bytes v) := hleaf _ (mem_cons_self ..)
  cases t with
  | empty =>
    refine absurd ?_ henc.ne_zero
    rw [← h]
    exact maskTop_zeroHash
  | leaf k' v' =>
    have hmem : (k', v') ∈ P := ht.mem (.head _)
    have heq := henc.eq_of_hash (.leaf hmem) h
    rw [trieLeaf_bytes] at heq
    obtain ⟨rfl, rfl | ⟨hv', hv, hhash⟩⟩ := trieLeaf_inj heq
    · exact .head _
    · have hvalue : HashedApart H P v := hleaf v (by simp [pathInputs, hv])
      rw [hvalue.eq_of_hash (.value hmem hv') hhash]
      exact .head _
  | node l r =>
    exact absurd (henc.eq_of_hash (.branch ht) h).symm
      (trieLeaf_ne_trieBranch (length_rootHash H l))

end

/-- **A computation that ends in the root of a trie started at one of its leaves.** -/
theorem mem_of_pathHash (hlen : ∀ h ∈ path, h.length = 32) (ht : Part P t)
    (hpath : ∀ x ∈ pathInputs H k.bytes v d path, HashedApart H P x)
    (h : rootHash H t = pathHash H k.bytes v d path) : (k, v) ∈ t.entries := by
  induction path generalizing t d with
  | nil => exact mem_of_leafHash ht hpath h
  | cons s path ih =>
    have hs : s.length = 32 := hlen s (mem_cons_self ..)
    have hrest : ∀ x ∈ pathInputs H k.bytes v (d + 1) path, HashedApart H P x := fun x hx =>
      hpath x (.tail _ hx)
    obtain ⟨y, hy, heq⟩ : ∃ y, HashedApart H P y ∧ rootHash H t = H y ∧
        y = if trieBit k.bytes d then trieBranch s (pathHash H k.bytes v (d + 1) path)
          else trieBranch (pathHash H k.bytes v (d + 1) path) s := by
      refine ⟨_, hpath _ (mem_cons_self ..), h.trans ?_, rfl⟩
      rw [pathHash]
      split_ifs <;> rfl
    have hbranch : ∃ a b : Bytes, a.length = 32 ∧ y = trieBranch a b := by
      rw [heq.2]
      split_ifs
      · exact ⟨_, _, hs, rfl⟩
      · exact ⟨_, _, length_pathHash path, rfl⟩
    cases t with
    | empty =>
      refine absurd ?_ hy.ne_zero
      rw [← heq.1]
      exact maskTop_zeroHash
    | leaf k' v' =>
      obtain ⟨a, b, ha, rfl⟩ := hbranch
      exact absurd (hy.eq_of_hash (.leaf (ht.mem (.head _))) heq.1) (trieLeaf_ne_trieBranch ha)
    | node l r =>
      have henc := (hy.eq_of_hash (.branch ht) heq.1).trans heq.2
      have hlen' : ∀ h ∈ path, h.length = 32 := fun h hh => hlen h (.tail _ hh)
      split_ifs at henc
      · obtain ⟨-, hr⟩ := trieBranch_inj (length_rootHash H l) hs henc
        exact mem_append_right _ (ih hlen' ht.right hrest hr)
      · obtain ⟨hl, -⟩ := trieBranch_inj (length_rootHash H l) (length_pathHash path) henc
        exact mem_append_left _ (ih hlen' ht.left hrest (rootHash_eq_of_maskTop ht.left hrest hl))

/-- **A proof is accepted for what `Get` returns and nothing else.** In a flushed session
`Trace` of a stored key is accepted with its value, and whatever hashes are accepted with a
key and a value, the key is stored with that value. -/
theorem verifyRaw_complete_and_sound {ops : List Op} {s : Session}
    (cf : CollisionFree H (pairs ops)) (va : ValuesApart H (pairs ops)) (h : new.Calls H ops s)
    (hs : s.Flushed) :
    (∀ k v, s.get k = .ok (some v) →
      ∃ path, s.trace k = .ok path ∧ verifyRaw H k.bytes v s.root path = true) ∧
    ∀ (k : Key) (v : Bytes) (path : List Bytes), (∀ h ∈ path, h.length = 32) →
      (∀ x ∈ pathInputs H k.bytes v 0 path, HashedApart H (pairs ops) x) →
      verifyRaw H k.bytes v s.root path = true → s.get k = .ok (some v) := by
  obtain ⟨a, -, ha, -⟩ := calls_refine cf va h (fun _ he => he) (refines_new H _)
  obtain ⟨cells, hlaid⟩ := ha.laid
  have hmem : ∀ k v, s.get k = .ok (some v) ↔ (k, v) ∈ a.trie.entries := fun k v => by
    rw [ha.get_eq, view_of_flushed (ha.flushed_iff.mp hs), Except.ok.injEq,
      hlaid.canon.lookup_eq_some]
  refine ⟨fun k v hget => ?_, fun k v path hlen hpath haccept => ?_⟩
  · have hentry := (hmem k v).mp hget
    refine ⟨siblings H k 0 a.trie, hlaid.rep.trace_eq hlaid.canon hentry, ?_⟩
    rw [verifyRaw_iff, ha.root_eq]
    exact pathHash_siblings hlaid.canon hentry
  · rw [verifyRaw_iff, ha.root_eq] at haccept
    exact (hmem k v).mpr (mem_of_pathHash hlen hlaid.part hpath haccept.symm)

/-- Two keys, one of them with a value that is not embedded, are inserted and flushed. -/
def shortAndLong : List Op :=
  [.insert (keyAt 0x00) [1], .insert (keyAt 0x80) (replicate 40 2),
    .flush [] [(keyAt 0x00, [1]), (keyAt 0x80, replicate 40 2)]]

theorem verifyRaw_shortAndLong : ∃ s, new.Calls polyHash shortAndLong s ∧
    (∃ path, s.trace (keyAt 0x80) = .ok path ∧
      verifyRaw polyHash (keyAt 0x80).bytes (replicate 40 2) s.root path = true) ∧
    verifyRaw polyHash (keyAt 0x00).bytes [1] s.root
      [polyHash (trieLeaf polyHash (keyAt 0x80).norm (replicate 40 2))] = true ∧
    s.get (keyAt 0x00) = .ok (some [1]) := by
  obtain ⟨s, hs, hflushed, hget, haccept⟩ : ∃ s, shortAndLong.foldlM (step polyHash) .new = some s ∧
      s.Flushed ∧ s.get (keyAt 0x80) = .ok (some (replicate 40 2)) ∧
      verifyRaw polyHash (keyAt 0x00).bytes [1] s.root
        [polyHash (trieLeaf polyHash (keyAt 0x80).norm (replicate 40 2))] = true := by
    decide +kernel
  have h : new.Calls polyHash shortAndLong s := run_of_foldlM hs
  obtain ⟨hcomplete, hsound⟩ := verifyRaw_complete_and_sound
    (collisionFree_of_check (by decide +kernel))
    (noAlias_of_check (by decide +kernel)).toValuesApart h hflushed
  have hcheck : ∀ x ∈ pathInputs polyHash (keyAt 0x00).bytes [1] 0
        [polyHash (trieLeaf polyHash (keyAt 0x80).norm (replicate 40 2))],
      (∀ y ∈ inputs polyHash (pairs shortAndLong),
        maskTop (polyHash y) = maskTop (polyHash x) → y = x) ∧ maskTop (polyHash x) ≠ zeroHash := by
    decide +kernel
  refine ⟨s, h, hcomplete _ _ hget, haccept, hsound _ _ _ (fun h hh => ?_)
    (fun x hx => ⟨fun y hy => (hcheck x hx).1 y hy.mem_inputs, (hcheck x hx).2⟩) haccept⟩
  rw [mem_singleton.mp hh]
  exact polyHash.length_run _

/-- The encoding of the branch above the leaves of two keys. -/
def siblingBranch : Bytes :=
  trieBranch (rootHash polyHash (.leaf (keyAt 0x00) [1]))
    (rootHash polyHash (.leaf (keyAt 0x40) [2]))

/-- It is the value of a third key, which is inserted before the two; the fourth key moves the
leaf of the third. -/
def moveThird : List Op :=
  [.insert (keyAt 0x80) siblingBranch, .insert (keyAt 0x00) [1], .insert (keyAt 0x40) [2],
    .insert (keyAt 0xC0) [3], .flush [] [(keyAt 0x80, siblingBranch), (keyAt 0x00, [1]),
      (keyAt 0x40, [2]), (keyAt 0xC0, [3])]]

/-- **The proof of a stored pair is turned away**, without any collision. The value of the third
key is overwritten by the branch, and when its leaf is moved it gets the hash of what is in the
store. -/
theorem movedLeaf_unverifiable : CollisionFree polyHash (pairs moveThird) ∧
    ∃ s path, new.Calls polyHash moveThird s ∧ s.Flushed ∧ s.trace (keyAt 0x80) = .ok path ∧
      verifyRaw polyHash (keyAt 0x80).bytes siblingBranch s.root path = false := by
  refine ⟨collisionFree_of_check (by decide +kernel), ?_⟩
  obtain ⟨s, hs, hflushed, hreject⟩ :
      ∃ s, moveThird.foldlM (step polyHash) .new = some s ∧ s.Flushed ∧
        (s.trace (keyAt 0x80)).map (verifyRaw polyHash (keyAt 0x80).bytes siblingBranch s.root) =
          .ok false := by
    decide +kernel
  cases hpath : s.trace (keyAt 0x80) with
  | error e =>
    rw [hpath] at hreject
    cases hreject
  | ok path =>
    rw [hpath] at hreject
    exact ⟨s, path, run_of_foldlM hs, hflushed, hpath, Except.ok.inj hreject⟩

end JamDuna.Storage
