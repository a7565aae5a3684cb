/-
# One level of an operation on the nodes

`insertNode` and `deleteNode` of `storage/trie.go` go down on the side of the key,
assign what the recursive call returns, and compute the hash of the cell again.
`descendInto_spec` and `rehash_spec` are these two steps on tries laid out in the
heap. `Yields` is the result of such an operation: a trie in the old cells and new
ones, of the old cells only some written, and in the store only new branches
(`BranchPuts`).
-/

import JamDuna.Storage.Represent

namespace JamDuna.Storage

open JamDuna.Basis List Function BitTrie

variable {H : HashFn}

section

variable (H)

/-- The entry of a branch in the store. -/
def branchRecord (l r : StateTrie) : Bytes := branchTag ++ (rootHash H l ++ rootHash H r)

/-- The store holds a branch of the trie at `q`. -/
def Holds (t : StateTrie) (st : Store) (q : Bytes) : Prop :=
  ∃ l r, .node l r ∈ t.subtries ∧ q = rootHash H (.node l r) ∧ st q = some (branchRecord H l r)

/-- From `st` to `st'` only branches of the trie have been put, and every branch that
is not among `old` has. -/
structure BranchPuts (old : List StateTrie) (t : StateTrie) (st st' : Store) : Prop where
  changed : ∀ q, st' q = st q ∨ Holds H t st' q
  fresh : ∀ l r, .node l r ∈ t.subtries → .node l r ∈ old ∨ Holds H t st' (rootHash H (.node l r))

variable {H} {t t' l r : StateTrie} {old old' : List StateTrie} {st st' st'' : Store} {q : Bytes}

theorem Holds.mono (h : Holds H t st q)
    (hsub : ∀ l r, .node l r ∈ t.subtries → .node l r ∈ t'.subtries) : Holds H t' st q := by
  obtain ⟨l, r, hmem, hq, hst⟩ := h
  exact ⟨l, r, hsub l r hmem, hq, hst⟩

theorem BranchPuts.refl (st : Store) (hold : ∀ l r, .node l r ∈ t.subtries → .node l r ∈ old) :
    BranchPuts H old t st st :=
  ⟨fun _ => .inl rfl, fun l r hmem => .inl (hold l r hmem)⟩

theorem BranchPuts.mono (h : BranchPuts H old t st st')
    (hsub : ∀ l r, .node l r ∈ old → .node l r ∈ old') : BranchPuts H old' t st st' :=
  ⟨h.changed, fun l r hmem => (h.fresh l r hmem).imp_left (hsub l r)⟩

/-- Putting the branch of two tries, after branches of these have been put. -/
theorem BranchPuts.branch (hchanged : ∀ q, st' q = st q ∨ Holds H (.node l r) st' q)
    (hfresh : ∀ a b, .node a b ∈ l.subtries ++ r.subtries →
      .node a b ∈ old ∨ Holds H (.node l r) st' (rootHash H (.node a b))) :
    BranchPuts H old (.node l r) st (update st' (rootHash H (.node l r))
      (some (branchRecord H l r))) := by
  set st'' := update st' (rootHash H (.node l r)) (some (branchRecord H l r)) with hst''
  have hself : Holds H (.node l r) st'' (rootHash H (.node l r)) :=
    ⟨l, r, mem_subtries_self _, rfl, by rw [hst'', update_self]⟩
  have hkeep : ∀ q, Holds H (.node l r) st' q → Holds H (.node l r) st'' q := by
    rintro q ⟨a, b, hmem, hq, hst⟩
    by_cases hroot : q = rootHash H (.node l r)
    · exact hroot ▸ hself
    · exact ⟨a, b, hmem, hq, by rw [hst'', update_of_ne hroot, hst]⟩
  refine ⟨fun q => ?_, fun a b hmem => ?_⟩
  · by_cases hroot : q = rootHash H (.node l r)
    · exact .inr (hroot ▸ hself)
    · refine (hchanged q).imp (fun h => ?_) (hkeep q)
      rw [hst'', update_of_ne hroot, h]
  · rcases mem_cons.mp hmem with heq | hmem
    · rw [heq]
      exact .inr hself
    · exact (hfresh a b hmem).imp_right (hkeep _)

end

/-- The result `r` of an operation on a trie in the cells `cells` of `m`: the trie
`t'` at `p'` in the cells `cells'`, where only the cells `W` have been written and all
branches but those among `old` have been put into the store. -/
structure Yields (H : HashFn) (m : Mem) (old : List StateTrie) (cells W : List ℕ) (t' : StateTrie)
    (r : Option ℕ × Mem) (p' : ℕ) (cells' : List ℕ) : Prop where
  ptr : r.1 = some p'
  rep : Rep H r.2.heap t' (some p') cells'
  cells_sub : ∀ q ∈ cells', q ∈ cells ∨ m.heap.length ≤ q
  frame : Frame m.heap r.2.heap W
  puts : BranchPuts H old t' m.store r.2.store

/-- A new leaf. -/
theorem yields_new_leaf (m : Mem) (old : List StateTrie) (cells W : List ℕ) (k : Key) (v : Bytes) :
    Yields H m old cells W (.leaf k v) (m.new (leafNode H k.norm v)) m.heap.length
      [m.heap.length] where
  ptr := rfl
  rep := .single (by simp [Mem.new])
  cells_sub := by simp
  frame := Frame.append _ _ _
  puts := .refl _ (by simp [subtries])

variable {m : Mem} {p : ℕ} {l r : StateTrie} {pl pr : Option ℕ} {cl cr : List ℕ}

/-- A child that was `nil` becomes an empty node. -/
theorem orEmpty_spec (hl : Rep H m.heap l pl cl) :
    ∃ q cl', (m.orEmpty pl).1 = some q ∧ Rep H (m.orEmpty pl).2.heap l (some q) cl' ∧
      (∀ x ∈ cl', x ∈ cl ∨ m.heap.length ≤ x) ∧
      Frame m.heap (m.orEmpty pl).2.heap [] ∧ (m.orEmpty pl).2.store = m.store := by
  cases pl with
  | none =>
    cases hl
    refine ⟨m.heap.length, [m.heap.length], rfl, .zero ?_, by simp, Frame.append _ _ _, rfl⟩
    simp [Mem.orEmpty, Mem.new]
  | some q => exact ⟨q, cl, rfl, hl, fun x hx => .inl hx, Frame.refl _ _, rfl⟩

theorem nodup_cons_append {α : Type} {a : α} {l₁ l₂ : List α} :
    (a :: (l₁ ++ l₂)).Nodup ↔ a ∉ l₁ ∧ a ∉ l₂ ∧ l₁.Nodup ∧ l₂.Nodup ∧ ∀ x ∈ l₁, x ∉ l₂ := by
  rw [nodup_cons, mem_append, not_or, nodup_append']
  exact ⟨fun ⟨⟨h₁, h₂⟩, h₃, h₄, h₅⟩ => ⟨h₁, h₂, h₃, h₄, fun x hx hx' => h₅ hx hx'⟩,
    fun ⟨h₁, h₂, h₃, h₄, h₅⟩ => ⟨⟨h₁, h₂⟩, h₃, h₄, fun x hx hx' => h₅ x hx hx'⟩⟩

/-- **Rehashing a cell** whose children are tries makes it the branch of these. -/
theorem rehash_spec (hp : p < m.heap.length) (hkey : (m.node p).key = none)
    (hleft : (m.node p).left = pl) (hright : (m.node p).right = pr)
    (hl : Rep H m.heap l pl cl) (hr : Rep H m.heap r pr cr) (hnodup : (p :: (cl ++ cr)).Nodup) :
    ∃ cells', Rep H (rehash H m p).heap (.node l r) (some p) cells' ∧
      (∀ q ∈ cells', q ∈ p :: (cl ++ cr) ∨ m.heap.length ≤ q) ∧
      Frame m.heap (rehash H m p).heap [p] ∧
      (rehash H m p).store =
        update m.store (rootHash H (.node l r)) (some (branchRecord H l r)) := by
  obtain ⟨hpl, hpr, -, -, hlr⟩ := nodup_cons_append.mp hnodup
  obtain ⟨ql, cl', hql, hl', hcl', hfl, hstl⟩ := orEmpty_spec hl
  obtain ⟨qr, cr', hqr, hr', hcr', hfr, hstr⟩ :=
    orEmpty_spec (m := (m.orEmpty pl).2) (hr.frame hfl (by simp))
  set ml := (m.orEmpty pl).2
  set mr := (ml.orEmpty pr).2
  have hlen : m.heap.length ≤ mr.heap.length := hfl.length_le.trans hfr.length_le
  have hhash : H (trieBranch (m.hashOf pl) (m.hashOf pr)) = rootHash H (.node l r) := by
    rw [hl.hashOf, hr.hashOf]
    rfl
  have hdata : fixed 32 (m.hashOf pl) ++ fixed 32 (m.hashOf pr) = rootHash H l ++ rootHash H r := by
    rw [hl.hashOf, hr.hashOf, fixed_of_length (length_rootHash H l),
      fixed_of_length (length_rootHash H r)]
  have hheap : (rehash H m p).heap =
      mr.heap.set p ⟨rootHash H (.node l r), none, some ql, some qr⟩ := by
    simp only [rehash, levelDBSetBranch, Mem.levelDBSet, Mem.set, hleft, hright, hhash, hkey]
    rw [hql, hqr]
  have hstore : (rehash H m p).store =
      update m.store (rootHash H (.node l r)) (some (branchRecord H l r)) := by
    simp only [rehash, levelDBSetBranch, Mem.levelDBSet, Mem.set, hleft, hright, hhash, hdata]
    rw [hstr, hstl]
    rfl
  -- the cells of the children are not the cell itself, and not each other's
  have hout : ∀ x ∈ cl', x ≠ p := by
    rintro x hx rfl
    exact (hcl' x hx).elim hpl fun hle => absurd hp hle.not_gt
  have hout' : ∀ x ∈ cr', x ≠ p := by
    rintro x hx rfl
    exact (hcr' x hx).elim hpr fun hle => absurd (hp.trans_le hfl.length_le) hle.not_gt
  have hframe : Frame mr.heap (rehash H m p).heap [p] := by
    rw [hheap]
    exact Frame.set _ _ (.head _)
  refine ⟨p :: (cl' ++ cr'), .branch ?_ ((hl'.frame hfr (by simp)).frame hframe ?_)
    (hr'.frame hframe ?_) ?_, ?_, ?_, hstore⟩
  · rw [hheap, getElem?_set_self (hp.trans_le hlen)]
  · simpa using hout
  · simpa using hout'
  · refine nodup_cons_append.mpr ⟨fun hx => hout p hx rfl, fun hx => hout' p hx rfl,
      hl'.cells_nodup, hr'.cells_nodup, fun x hx hx' => ?_⟩
    rcases hcr' x hx' with hxr | hle
    · rcases hcl' x hx with hxl | hle
      · exact hlr x hxl hxr
      · exact absurd (hr.lt_length x hxr) hle.not_gt
    · exact absurd (hl'.lt_length x hx) hle.not_gt
  · intro q hq
    rcases mem_cons.mp hq with rfl | hq
    · exact .inl mem_cons_self
    · rcases mem_append.mp hq with hq | hq
      · exact (hcl' q hq).imp_left fun hx => .tail _ (mem_append_left _ hx)
      · exact (hcr' q hq).imp (fun hx => .tail _ (mem_append_right _ hx)) hfl.length_le.trans
  · exact (hfl.trans hfr (by simp)).mono (by simp) |>.trans hframe (by simp)

variable {d : ℕ} {W : List ℕ} {old : List StateTrie} {f : Option ℕ → ℕ → Mem → Option ℕ × Mem}
  {k : Key}

/-- Assigning to a cell above the one trie `s`, which an operation has turned into
`s'`, and the other trie `o`, which it has left alone. -/
theorem assign_spec {s' o : StateTrie} {po : Option ℕ} {c co c' : List ℕ} {p' : ℕ}
    {res : Option ℕ × Mem} (hp : p < m.heap.length) (y : Yields H m old c W s' res p' c')
    (hW : ∀ q ∈ W, q ∈ c) (ho : Rep H m.heap o po co) (hpc : p ∉ c) (hpo : p ∉ co)
    (hdisj : ∀ q ∈ c, q ∉ co) (n : Node) :
    res.2.node p = m.node p ∧ (res.2.set p n).heap[p]? = some n ∧
      Rep H (res.2.set p n).heap s' (some p') c' ∧ Rep H (res.2.set p n).heap o po co ∧
      p ∉ c' ∧ (∀ q ∈ c', q ∉ co) ∧ Frame m.heap (res.2.set p n).heap (p :: W) := by
  have hset : Frame res.2.heap (res.2.set p n).heap [p] := Frame.set _ _ (.head _)
  have hpc' : p ∉ c' := fun h =>
    (y.cells_sub p h).elim hpc fun hle => absurd hp hle.not_gt
  refine ⟨y.frame.node hp fun h => hpc (hW p h),
    Mem.getElem?_set_self (hp.trans_le y.frame.length_le) n, y.rep.frame hset ?_,
    (ho.frame y.frame fun q hq hqW => hdisj q (hW q hqW) hq).frame hset ?_, hpc', ?_, ?_⟩
  · rintro q hq hmem
    obtain rfl := mem_singleton.mp hmem
    exact hpc' hq
  · rintro q hq hmem
    obtain rfl := mem_singleton.mp hmem
    exact hpo hq
  · exact fun q hq hqo => (y.cells_sub q hq).elim (fun h => hdisj q h hqo) fun hle =>
      absurd (ho.lt_length q hqo) hle.not_gt
  · exact (y.frame.mono fun q hq => .inl (.tail _ hq)).trans hset (by simp)

/-- The memory after the recursive call and the assignment of its result: the cell
`p` has the tries `l'` and `r'` below it. -/
structure Descended (H : HashFn) (m : Mem) (p : ℕ) (old : List StateTrie) (cells W : List ℕ)
    (l' r' : StateTrie) (m' : Mem) (pl' pr' : Option ℕ) (cl' cr' : List ℕ) : Prop where
  cell : m'.heap[p]? = some { m.node p with left := pl', right := pr' }
  left : Rep H m'.heap l' pl' cl'
  right : Rep H m'.heap r' pr' cr'
  nodup : (p :: (cl' ++ cr')).Nodup
  left_some : (m.node p).left.isSome → pl'.isSome
  right_some : (m.node p).right.isSome → pr'.isSome
  cells_sub : ∀ q ∈ cl' ++ cr', q ∈ cells ∨ m.heap.length ≤ q
  frame : Frame m.heap m'.heap (p :: W)
  changed : ∀ q, m'.store q = m.store q ∨ Holds H l' m'.store q ∨ Holds H r' m'.store q
  fresh : ∀ a b, .node a b ∈ l'.subtries ++ r'.subtries → .node a b ∈ old ∨
    Holds H l' m'.store (rootHash H (.node a b)) ∨ Holds H r' m'.store (rootHash H (.node a b))

/-- **One level of a descent.** The recursive call turns the side of the key into
another trie, and the other side stays. -/
theorem descendInto_spec {g : StateTrie → StateTrie} {p' : ℕ} {c' : List ℕ}
    (hp : p < m.heap.length) (hleft : (m.node p).left = pl) (hright : (m.node p).right = pr)
    (hl : Rep H m.heap l pl cl) (hr : Rep H m.heap r pr cr) (hnodup : (p :: (cl ++ cr)).Nodup)
    (hW : ∀ q ∈ W, q ∈ if k.bit d then cr else cl)
    (y : Yields H m (side (k.bit d) l r).subtries (if k.bit d then cr else cl) W
      (g (side (k.bit d) l r)) (f (if k.bit d then pr else pl) (d + 1) m) p' c') :
    ∃ pl' pr' cl' cr', Descended H m p (l.subtries ++ r.subtries) (cl ++ cr) W
      (if k.bit d then l else g l) (if k.bit d then g r else r) (descendInto f k.norm d p m)
      pl' pr' cl' cr' := by
  obtain ⟨hpl, hpr, hcl, hcr, hlr⟩ := nodup_cons_append.mp hnodup
  have hbit : trieBit k.norm d = k.bit d := rfl
  cases hb : k.bit d with
  | true =>
    simp only [hb, if_true] at hW y
    obtain ⟨hnode, hcell, hrep, hother, hpc', hdisj, hframe⟩ := assign_spec hp y hW hl hpr hpl
      (fun q hq hq' => hlr q hq' hq) ((m.node p).setChild true (some p'))
    have hm' : descendInto f k.norm d p m =
        (f pr (d + 1) m).2.set p ((m.node p).setChild true (some p')) := by
      have hchild : (m.node p).child true = pr := hright
      simp only [descendInto, hbit, hb, hchild, y.ptr, hnode]
    rw [hm']
    refine ⟨pl, some p', cl, c', by rw [hcell, ← hleft]; rfl, hother, hrep,
      nodup_cons_append.mpr ⟨hpl, hpc', hcl, y.rep.cells_nodup, fun q hq hq' => hdisj q hq' hq⟩,
      hleft ▸ id, fun _ => rfl, fun q hq => ?_, hframe,
      fun q => (y.puts.changed q).imp_right .inr, fun a b hab => ?_⟩
    · rcases mem_append.mp hq with hq | hq
      · exact .inl (mem_append_left _ hq)
      · exact (y.cells_sub q hq).imp_left fun h => mem_append_right _ h
    · rcases mem_append.mp hab with hab | hab
      · exact .inl (mem_append_left _ hab)
      · exact (y.puts.fresh a b hab).imp (fun h => mem_append_right _ h) .inr
  | false =>
    simp only [hb, Bool.false_eq_true, if_false] at hW y
    obtain ⟨hnode, hcell, hrep, hother, hpc', hdisj, hframe⟩ := assign_spec hp y hW hr hpl hpr
      hlr ((m.node p).setChild false (some p'))
    have hm' : descendInto f k.norm d p m =
        (f pl (d + 1) m).2.set p ((m.node p).setChild false (some p')) := by
      have hchild : (m.node p).child false = pl := hleft
      simp only [descendInto, hbit, hb, hchild, y.ptr, hnode]
    rw [hm']
    refine ⟨some p', pr, c', cr, by rw [hcell, ← hright]; rfl, hrep, hother,
      nodup_cons_append.mpr ⟨hpc', hpr, y.rep.cells_nodup, hcr, hdisj⟩,
      fun _ => rfl, hright ▸ id, fun q hq => ?_, hframe,
      fun q => (y.puts.changed q).imp_right .inl, fun a b hab => ?_⟩
    · rcases mem_append.mp hq with hq | hq
      · exact (y.cells_sub q hq).imp_left fun h => mem_append_left _ h
      · exact .inl (mem_append_right _ hq)
    · rcases mem_append.mp hab with hab | hab
      · exact (y.puts.fresh a b hab).imp (fun h => mem_append_left _ h) .inl
      · exact .inl (mem_append_right _ hab)

variable {cells cl' cr' : List ℕ} {l' r' : StateTrie} {m' : Mem} {pl' pr' : Option ℕ}

/-- What is made of the cell and the two sides is in old cells or new ones. -/
theorem Descended.cells_of (h : Descended H m p old cells W l' r' m' pl' pr' cl' cr')
    {cells' : List ℕ} (hsub : ∀ q ∈ cells', q ∈ p :: (cl' ++ cr') ∨ m'.heap.length ≤ q) :
    ∀ q ∈ cells', q ∈ p :: cells ∨ m.heap.length ≤ q := by
  intro q hq
  rcases hsub q hq with hmem | hle
  · rcases mem_cons.mp hmem with rfl | hmem
    · exact .inl mem_cons_self
    · exact (h.cells_sub q hmem).imp_left fun hc => .tail _ hc
  · exact .inr (h.frame.length_le.trans hle)

/-- A descent and the rehashing of the cell make it the branch of the two sides. -/
theorem Descended.rehash (h : Descended H m p old cells W l' r' m' pl' pr' cl' cr')
    (hkey : (m.node p).key = none) :
    ∃ cells', Yields H m old (p :: cells) (p :: W) (.node l' r')
      (some p, Storage.rehash H m' p) p cells' := by
  have hnode := Mem.node_eq h.cell
  obtain ⟨cells', hrep, hsub, hframe, hstore⟩ := rehash_spec
    (lt_of_cell h.cell) (by rw [hnode]; exact hkey) (by rw [hnode])
    (by rw [hnode]) h.left h.right h.nodup
  have hholds : ∀ q, Holds H l' m'.store q ∨ Holds H r' m'.store q →
      Holds H (.node l' r') m'.store q := fun q hq =>
    hq.elim (fun h => h.mono fun _ _ => mem_subtries_left)
      fun h => h.mono fun _ _ => mem_subtries_right
  refine ⟨cells', rfl, hrep, h.cells_of hsub, h.frame.trans hframe (by simp), ?_⟩
  rw [hstore]
  exact .branch (fun q => (h.changed q).imp_right (hholds q))
    fun a b hab => (h.fresh a b hab).imp_right (hholds _)

end JamDuna.Storage
