/-
# Loading a trie from the store

`SetRoot` and `levelDBGetNode` of `storage/trie.go`: the nodes of an earlier root are
read from the store. A hash is first taken for the hash of a leaf; a leaf has its key
under the hash of leaf hash and value. Everything else is a branch, whose entry holds
the hashes of its children.

`levelDBGetNode_spec`: a trie whose leaves, keys and branches are in the store is
loaded. As long as no two kinds of entries meet, the entries of an earlier flush stay,
so that every earlier state can be restored (`setRoot_restores`). They can meet: a
value of 64 bytes may be the encoding of a branch, and its entry then takes the place of
that branch (`branch_overwritten_by_value`). A root has one set of values (`root_eq_iff`).
-/

import JamDuna.Storage.HistoryIndependence

namespace JamDuna.Storage

open JamDuna.Basis List Option BitTrie Session

section

variable (H : HashFn)

/-- `levelDBGetNode`, with the levels that it can go down. -/
def levelDBGetNode : ℕ → Bytes → Mem → Except TrieError (Option ℕ × Mem)
  | 0, _, _ => .error .tooDeep
  | n + 1, nodeHash, m =>
    if nodeHash = zeroHash then .ok (m.new ⟨nodeHash, none, none, none⟩)
    else match (getDBLeafValue m.store nodeHash).toOption.join with
      | some leafValue =>
        .ok (m.new ⟨nodeHash, m.store (H (nodeHash ++ leafValue)), none, none⟩)
      | none =>
        match m.store nodeHash with
        | none => .ok (m.new Node.zero)
        | some value =>
          if value = zeroHash then .ok (m.new Node.zero)
          else if value.length < 70 then .error (.branchTooShort value.length)
          else do
            let left ← levelDBGetNode n ((value.drop 6).take 32) m
            let right ← levelDBGetNode n ((value.drop 38).take 32) left.2
            return right.2.new ⟨nodeHash, none, left.1, right.1⟩

/-- `SetRoot`: the session afterwards, and the error. -/
def Session.setRoot (s : Session) (root : Bytes) : Session × Option TrieError :=
  let cleared : Session := { s with tree := ⟨s.tree.root, [], []⟩ }
  if root = zeroHash then (⟨⟨none, [], []⟩, s.mem⟩, none)
  else if s.tree.root.map (fun p => (s.mem.node p).hash) = some root then (cleared, none)
  else match levelDBGetNode H (keyBits + 1) root s.mem with
    | .error e => (cleared, some (.failedToLoad root e))
    | .ok rootNode =>
      if rootNode.2.hashOf rootNode.1 = zeroHash then (cleared, some (.rootNotFound root))
      else (⟨⟨rootNode.1, [], []⟩, rootNode.2⟩, none)

end

variable {H : HashFn} {P : List (Key × Bytes)}

section

variable {m : Mem} {t l r : StateTrie} {k : Key} {v : Bytes}

variable {st : Store}

theorem Loadable.left (h : Loadable H st (.node l r)) : Loadable H st l :=
  ⟨fun e he => h.keys e (mem_append_left _ he),
    fun a b hmem => h.branches a b (mem_subtries_left hmem)⟩

theorem Loadable.right (h : Loadable H st (.node l r)) : Loadable H st r :=
  ⟨fun e he => h.keys e (mem_append_right _ he),
    fun a b hmem => h.branches a b (mem_subtries_right hmem)⟩

/-- The entry of a branch is no leaf. -/
theorem getDBLeafValue_branch {q : Bytes} (h : st q = some (branchRecord H l r)) :
    (getDBLeafValue st q).toOption = none := by
  have hlen : (branchRecord H l r).length = 70 := by simp [branchRecord, branchTag]
  rw [getDBLeafValue, h]
  simp only [trieDecodeLeaf, hlen]
  rfl

/-- The hashes of the children in the entry of a branch. -/
theorem branchRecord_hashes (l r : StateTrie) :
    ((branchRecord H l r).drop 6).take 32 = rootHash H l ∧
      ((branchRecord H l r).drop 38).take 32 = rootHash H r := by
  have hl := length_rootHash H l
  have hr := length_rootHash H r
  have hdrop : (branchRecord H l r).drop 6 = rootHash H l ++ rootHash H r := rfl
  have hdrop' : (branchRecord H l r).drop 38 = rootHash H r := by
    rw [show (38 : ℕ) = 6 + 32 from rfl, ← drop_drop, hdrop, drop_left' hl]
  exact ⟨by rw [hdrop, take_left' hl], by rw [hdrop', take_of_length_le hr.le]⟩

/-- The loaded trie is at `p` in new cells, and the store is as before. -/
structure Loads (H : HashFn) (m : Mem) (t : StateTrie) (r : Option ℕ × Mem) (p : ℕ)
    (cells : List ℕ) : Prop where
  ptr : r.1 = some p
  rep : Rep H r.2.heap t (some p) cells
  fresh : ∀ q ∈ cells, m.heap.length ≤ q
  frame : Frame m.heap r.2.heap []
  store : r.2.store = m.store

theorem loads_zero (m : Mem) : Loads H m .empty (m.new Node.zero) m.heap.length [m.heap.length] :=
  ⟨rfl, .zero (by simp [Mem.new]), by simp, Frame.append _ _ _, rfl⟩

theorem loads_leaf (m : Mem) (k : Key) (v : Bytes) :
    Loads H m (.leaf k v) (m.new (leafNode H k.norm v)) m.heap.length [m.heap.length] :=
  ⟨rfl, .single (by simp [Mem.new]), by simp, Frame.append _ _ _, rfl⟩

/-- A new branch above two loaded tries. -/
theorem Loads.branch {left right : Option ℕ × Mem} {pl pr : ℕ} {cl cr : List ℕ}
    (hl : Loads H m l left pl cl) (hr : Loads H left.2 r right pr cr) :
    ∃ p cells, Loads H m (.node l r)
      (right.2.new ⟨rootHash H (.node l r), none, left.1, right.1⟩) p cells := by
  set n : Node := ⟨rootHash H (.node l r), none, left.1, right.1⟩ with hn
  have happend : Frame right.2.heap (right.2.new n).2.heap [] := Frame.append _ _ _
  have hframe : Frame left.2.heap (right.2.new n).2.heap [] := hr.frame.trans happend (by simp)
  refine ⟨right.2.heap.length, right.2.heap.length :: (cl ++ cr), rfl, .branch ?_
    (hl.rep.frame hframe (by simp)) (hr.rep.frame happend (by simp)) ?_, ?_,
    hl.frame.trans hframe (by simp), hr.store.trans hl.store⟩
  · rw [hn, hl.ptr, hr.ptr]
    simp [Mem.new]
  · -- the cells of the left trie are older than those of the right one, and the new cell is last
    have hlt := hl.rep.lt_length
    have hlen := hr.frame.length_le
    refine nodup_cons_append.mpr ⟨fun hmem => ?_, fun hmem => ?_, hl.rep.cells_nodup,
      hr.rep.cells_nodup, fun q hq hq' => ?_⟩
    · have := hlt _ hmem
      omega
    · have := hr.rep.lt_length _ hmem
      omega
    · have h₁ := hlt q hq
      have h₂ := hr.fresh q hq'
      omega
  · intro q hq
    have hlen := hl.frame.length_le
    have hlen' := hr.frame.length_le
    rcases mem_cons.mp hq with rfl | hq
    · omega
    · rcases mem_append.mp hq with hq | hq
      · exact hl.fresh q hq
      · have := hr.fresh q hq
        omega

/-- **A trie whose entries are in the store is loaded.** -/
theorem levelDBGetNode_spec {n : ℕ} (hn : t.height < n) (hs : Solid H t)
    (hsaved : Saved H m.store t) (hload : Loadable H m.store t) :
    ∃ r p cells, levelDBGetNode H n (rootHash H t) m = .ok r ∧ Loads H m t r p cells := by
  have hsucc : ∀ {n i : ℕ}, i < n → ∃ n', n = n' + 1 := fun h => ⟨_, (Nat.succ_pred_eq_of_pos
    (Nat.zero_lt_of_lt h)).symm⟩
  induction t generalizing n m with
  | empty =>
    obtain ⟨n, rfl⟩ := hsucc hn
    exact ⟨_, _, _, if_pos rfl, loads_zero m⟩
  | leaf k v =>
    obtain ⟨n, rfl⟩ := hsucc hn
    have hkey : m.store (H (H (trieLeaf H k.norm v) ++ v)) = some k.norm :=
      hload.keys (k, v) (.head _)
    have hvalue := getDBLeafValue_leaf (hsaved (k, v) (.head _))
    refine ⟨_, _, _, ?_, loads_leaf m k v⟩
    rw [levelDBGetNode, if_neg (hs.hash_ne (by simp)), rootHash, hvalue]
    simp only [Except.toOption, join_some, hkey]
    rfl
  | node l r ihl ihr =>
    obtain ⟨n, rfl⟩ := hsucc hn
    have hheight : max l.height r.height + 1 < n + 1 := hn
    have hrecord := hload.branches l r (mem_subtries_self _)
    obtain ⟨hleft, hright⟩ := branchRecord_hashes (H := H) l r
    obtain ⟨left, pl, cl, hl, hloadl⟩ := ihl (m := m) (n := n) (by omega)
      (hs.side false) (hsaved.side false) hload.left
    obtain ⟨right, pr, cr, hr, hloadr⟩ := ihr (m := left.2) (n := n) (by omega)
      (hs.side true) (hloadl.store ▸ hsaved.side true) (hloadl.store ▸ hload.right)
    obtain ⟨p, cells, hnode⟩ := hloadl.branch hloadr
    have hlen : (branchRecord H l r).length = 70 := by simp [branchRecord, branchTag]
    have hne : branchRecord H l r ≠ zeroHash := fun h => by
      have := congrArg length h
      rw [hlen] at this
      cases this
    refine ⟨_, p, cells, ?_, hnode⟩
    rw [levelDBGetNode, if_neg (hs.hash_ne (by simp)), getDBLeafValue_branch hrecord, hrecord]
    simp only [join_none, if_neg hne, hlen, lt_irrefl, if_false, hleft, hright]
    rw [hl]
    simp only [bind, Except.bind, hr]
    rfl

variable {root : Option ℕ} {cells : List ℕ} {s s₁ : Session}

/-- **`SetRoot` on the root of a trie whose entries are in the store** succeeds, and the
session then holds that trie with nothing staged. -/
theorem setRoot_spec (cf : CollisionFree H P) {a : TrieState} (hs : Refines H P s a)
    (ht : t.Canon Key.bit 0) (hpairs : ∀ e ∈ t.entries, e ∈ P) (hsaved : Saved H s.mem.store t)
    (hload : Loadable H s.mem.store t) :
    (s.setRoot H (rootHash H t)).2 = none ∧
      Refines H P (s.setRoot H (rootHash H t)).1 ⟨t, [], []⟩ := by
  have hpart : Part P t := .of_canon ht hpairs
  have hsolid := hpart.solid cf
  unfold setRoot
  by_cases hzero : rootHash H t = zeroHash
  · obtain rfl := hsolid.hash_eq_iff.mp hzero
    rw [if_pos hzero]
    exact ⟨rfl, (laid_empty s.mem).refines⟩
  rw [if_neg hzero]
  obtain ⟨cells, hlaid⟩ := hs.laid
  by_cases hsame : s.tree.root.map (fun p => (s.mem.node p).hash) = some (rootHash H t)
  · -- the session is at this root already, and the root determines the trie
    rw [if_pos hsame]
    obtain ⟨p, hp, hhash⟩ := map_eq_some_iff.mp hsame
    have hroot : rootHash H a.trie = rootHash H t := by
      rw [← hlaid.rep.hashOf, hp, ← hhash]
      rfl
    have htrie := hlaid.part.rootHash_inj cf hpart (congrArg maskTop hroot)
    rw [htrie] at hlaid
    exact ⟨rfl, hlaid.refines⟩
  rw [if_neg hsame]
  have hheight : t.height < keyBits + 1 := by
    have := ht.height_le (k := (⟨replicate 31 0, rfl⟩ : Key)) Key.separates
      agrees_zero (Nat.zero_le _)
    omega
  obtain ⟨r, p, cells', hr, hloads⟩ := levelDBGetNode_spec hheight hsolid hsaved hload
  rw [hr]
  dsimp only
  rw [if_neg (by rw [hloads.ptr, hloads.rep.hashOf]; exact hzero)]
  exact ⟨rfl, Laid.refines ⟨hloads.ptr ▸ hloads.rep, ht, hpairs, hloads.store ▸ hsaved⟩⟩

theorem loadable_new (H : HashFn) : Loadable H new.mem.store .empty :=
  ⟨by simp [entries], by simp [subtries]⟩

/-- **Every earlier state can be restored.** After any calls that lead to a flushed
session `s₁`, and any further calls on the same store, `SetRoot` with the root of `s₁`
succeeds, and `Get` returns what it returned in `s₁`, provided that the hash has no
collisions on what is hashed for the inserted pairs and no two kinds of entries meet. -/
theorem setRoot_restores {ops₁ ops₂ : List Op} (cf : CollisionFree H (pairs (ops₁ ++ ops₂)))
    (na : NoAlias H (pairs (ops₁ ++ ops₂))) (h₁ : new.Calls H ops₁ s₁)
    (hflushed : s₁.Flushed) (h : s₁.Calls H ops₂ s) :
    (s.setRoot H s₁.root).2 = none ∧ (s.setRoot H s₁.root).1.root = s₁.root ∧
      ∀ k, (s.setRoot H s₁.root).1.get k = s₁.get k := by
  have hpairs := pairs_append ops₁ ops₂
  have va := na.toValuesApart
  obtain ⟨a, -, ha, -, hload⟩ := calls_refine cf va h₁
    (fun e he => hpairs ▸ mem_append_left _ he) (refines_new H _)
  obtain ⟨b, -, hb, hputs, -⟩ := calls_refine cf va h
    (fun e he => hpairs ▸ mem_append_right _ he) ha
  obtain ⟨cells, hlaid⟩ := ha.laid
  have hsaved := hputs.saved cf va hlaid.pairs hlaid.saved
  have hloadable := hputs.loadable cf na hlaid.part (hload na (loadable_new H))
  obtain ⟨hok, href⟩ := setRoot_spec cf hb hlaid.canon hlaid.pairs hsaved hloadable
  rw [ha.root_eq]
  refine ⟨hok, href.root_eq, fun k => ?_⟩
  rw [href.get_eq, ha.get_eq, view_of_flushed (ha.flushed_iff.mp hflushed),
    view_of_flushed ⟨rfl, rfl⟩]

end

/-- The first key is replaced after a flush, and the old state restored. -/
theorem setRoot_restores_twoKeys :
    ∃ s₁ s, new.Calls polyHash twoKeys s₁ ∧ s₁.Calls polyHash replaceFirst s ∧
      s₁.root ≠ s.root ∧ (s.setRoot polyHash s₁.root).2 = none ∧
      (s.setRoot polyHash s₁.root).1.root = s₁.root ∧
      ∀ k, (s.setRoot polyHash s₁.root).1.get k = s₁.get k := by
  obtain ⟨s₁, hs₁, s, hs, hflushed, hne⟩ : ∃ s₁, twoKeys.foldlM (step polyHash) .new = some s₁ ∧
      ∃ s, replaceFirst.foldlM (step polyHash) s₁ = some s ∧ s₁.Flushed ∧ s₁.root ≠ s.root := by
    decide +kernel
  have h₁ : new.Calls polyHash twoKeys s₁ := run_of_foldlM hs₁
  have h : s₁.Calls polyHash replaceFirst s := run_of_foldlM hs
  exact ⟨s₁, s, h₁, h, hne, setRoot_restores (collisionFree_of_check (by decide +kernel))
    (noAlias_of_check (by decide +kernel)) h₁ hflushed h⟩

/-- The encoding of the branch that two keys make. -/
def branchAsValue : Bytes :=
  trieBranch (rootHash polyHash (.leaf (keyAt 0x00) [1]))
    (rootHash polyHash (.leaf (keyAt 0x80) [2]))

/-- A third key gets this encoding for its value. -/
def insertBranch : List Op :=
  [.insert (keyAt 0x40) branchAsValue, .flush [] [(keyAt 0x40, branchAsValue)]]

/-- **A value takes the place of a branch.** The entry of the value of 64 bytes is put
under the root of the earlier state, and `SetRoot` fails, without any collision. -/
theorem branch_overwritten_by_value : CollisionFree polyHash (pairs (twoKeys ++ insertBranch)) ∧
      ∃ s₁ s, new.Calls polyHash twoKeys s₁ ∧ s₁.Flushed ∧
        s₁.Calls polyHash insertBranch s ∧ s.Flushed ∧
        (s.setRoot polyHash s₁.root).2 = some (.failedToLoad s₁.root (.branchTooShort 64)) := by
  refine ⟨collisionFree_of_check (by decide +kernel), ?_⟩
  obtain ⟨s₁, hs₁, s, hs, hflushed₁, hfacts⟩ : ∃ s₁, twoKeys.foldlM (step polyHash) .new = some s₁ ∧
      ∃ s, insertBranch.foldlM (step polyHash) s₁ = some s ∧ s₁.Flushed ∧ s.Flushed ∧
        (s.setRoot polyHash s₁.root).2 = some (.failedToLoad s₁.root (.branchTooShort 64)) := by
    decide +kernel
  exact ⟨s₁, s, run_of_foldlM hs₁, hflushed₁, run_of_foldlM hs, hfacts⟩

end JamDuna.Storage
