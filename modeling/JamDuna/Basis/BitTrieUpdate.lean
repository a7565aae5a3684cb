/-
# Operations on canonical binary tries

`insert`, `delete` and `build` recurse as an implementation on nodes does, and keep a
trie canonical. The recursion of `insert` and `build` is bounded by the number of bits
that are left. `delete` removes the leaf that the descent of a key ends at, *whatever
key it holds* (`descent`); `Canon.delete_spec` says exactly what is lost.
-/

import JamDuna.Basis.BitTrie

namespace JamDuna.Basis

open List BitTrie Canon
namespace BitTrie

variable {κ α : Type} {bit : κ → ℕ → Bool} {d N : ℕ} {k : κ} {v : α} {l r t t' : BitTrie κ α}

/-- A branch with one side replaced, on the side of the bit. -/
def descend (f : BitTrie κ α → BitTrie κ α) (b : Bool) (l r : BitTrie κ α) : BitTrie κ α :=
  if b then node l (f r) else node (f l) r

theorem mem_entries_descend {f : BitTrie κ α → BitTrie κ α} (b : Bool) {e : κ × α} :
    e ∈ (descend f b l r).entries ↔ e ∈ (f (side b l r)).entries ∨ e ∈ (side (!b) l r).entries := by
  cases b <;> simp [descend, side, entries, or_comm]

theorem mem_entries_node (b : Bool) {e : κ × α} :
    e ∈ (node l r).entries ↔ e ∈ (side b l r).entries ∨ e ∈ (side (!b) l r).entries := by
  cases b <;> simp [side, entries, or_comm]

section

variable [DecidableEq κ]

/-- The insertion of a pair at depth `d`, with `n` levels left. A leaf of another
key moves below a new branch, and the insertion goes on in that branch. -/
def insert (bit : κ → ℕ → Bool) (k : κ) (v : α) : ℕ → ℕ → BitTrie κ α → BitTrie κ α
  | 0, _, _ => leaf k v
  | _ + 1, _, empty => leaf k v
  | n + 1, d, leaf k' v' =>
    if k' = k then leaf k v
    else if bit k' d then descend (insert bit k v n (d + 1)) (bit k d) empty (leaf k' v')
    else descend (insert bit k v n (d + 1)) (bit k d) (leaf k' v') empty
  | n + 1, d, node l r => descend (insert bit k v n (d + 1)) (bit k d) l r

/-- The insertion of a pair gives a canonical trie with the pair in place of what
the key had. -/
structure Inserted (bit : κ → ℕ → Bool) (k : κ) (v : α) (d : ℕ) (t t' : BitTrie κ α) : Prop where
  canon : Canon bit d t'
  mem_iff : ∀ e, e ∈ t'.entries ↔ e = (k, v) ∨ (e ∈ t.entries ∧ e.1 ≠ k)

/-- Inserting below a branch whose sides are canonical and hold another key. -/
theorem Inserted.descend {f : BitTrie κ α → BitTrie κ α} (hl : Canon bit (d + 1) l)
    (hr : Canon bit (d + 1) r) (left : ∀ e ∈ l.entries, bit e.1 d = false)
    (right : ∀ e ∈ r.entries, bit e.1 d = true) (ha : Agrees bit d k (node l r))
    (other : ∃ e ∈ (node l r).entries, e.1 ≠ k)
    (hf : ∀ s, Canon bit (d + 1) s → Agrees bit (d + 1) k s → Inserted bit k v (d + 1) s (f s)) :
    Inserted bit k v d (node l r) (descend f (bit k d) l r) := by
  obtain ⟨e₀, he₀, hne⟩ := other
  have hside : ∀ b, Canon bit (d + 1) (side b l r) ∧ ∀ e ∈ (side b l r).entries, bit e.1 d = b := by
    intro b
    cases b
    · exact ⟨hl, left⟩
    · exact ⟨hr, right⟩
  have ih := hf (side (bit k d) l r) (hside _).1
    (Agrees.succ (fun e he => ha e (mem_entries_side he)) (hside _).2)
  have hmem : ∀ e, e ∈ (BitTrie.descend f (bit k d) l r).entries ↔
      e = (k, v) ∨ (e ∈ (node l r).entries ∧ e.1 ≠ k) := by
    intro e
    have hk : e ∈ (side (!bit k d) l r).entries → e.1 ≠ k := by
      rintro he rfl
      simpa using (hside _).2 e he
    rw [mem_entries_descend, ih.mem_iff, mem_entries_node (bit k d)]
    tauto
  have hbit : ∀ e ∈ (f (side (bit k d) l r)).entries, bit e.1 d = bit k d := by
    intro e he
    rcases (ih.mem_iff e).mp he with rfl | ⟨he, -⟩
    · rfl
    · exact (hside _).2 e he
  have htwo : ∃ e ∈ (BitTrie.descend f (bit k d) l r).entries,
      ∃ e' ∈ (BitTrie.descend f (bit k d) l r).entries, e.1 ≠ e'.1 :=
    ⟨e₀, (hmem e₀).mpr (.inr ⟨he₀, hne⟩), (k, v), (hmem _).mpr (.inl rfl), hne⟩
  refine ⟨?_, hmem⟩
  cases hb : bit k d <;> rw [hb] at ih hbit htwo
  · exact branch ih.canon hr hbit right htwo
  · exact branch hl ih.canon left hbit htwo

/-- **Insertion.** With a level left for every bit, `insert` keeps a trie
canonical and puts the pair in. -/
theorem insert_inserted (hsep : Separates bit N) {n : ℕ} (hn : N < d + n) (ht : Canon bit d t)
    (ha : Agrees bit d k t) : Inserted bit k v d t (t.insert bit k v n d) := by
  induction n generalizing d t with
  | zero =>
    -- all bits are used up, so every key of the trie is `k`
    have hall : ∀ e ∈ t.entries, e.1 = k := fun e he =>
      hsep _ _ fun i hi => ha e he i (by omega)
    refine ⟨single, fun e => ?_⟩
    simp only [insert, entries, mem_singleton]
    exact ⟨.inl, fun h => h.elim id fun h => absurd (hall e h.1) h.2⟩
  | succ n ih =>
    have hn' : N < d + 1 + n := by omega
    cases t with
    | empty => exact ⟨single, fun e => by simp [insert, entries]⟩
    | leaf k' v' =>
      rw [insert]
      split_ifs with hk hb
      · subst hk
        refine ⟨single, fun e => ?_⟩
        simp only [entries, mem_singleton]
        exact ⟨.inl, fun h => h.elim id fun h => absurd (by rw [h.1]) h.2⟩
      · -- the old leaf goes to the right
        have h := Inserted.descend nil single (by simp [entries]) (by simpa [entries] using hb) ha
          ⟨(k', v'), .head _, hk⟩ fun s hs => ih hn' hs
        exact ⟨h.canon, h.mem_iff⟩
      · -- the old leaf goes to the left
        have h := Inserted.descend single nil (by simpa [entries] using hb) (by simp [entries]) ha
          ⟨(k', v'), .head _, hk⟩ fun s hs => ih hn' hs
        exact ⟨h.canon, h.mem_iff⟩
    | node l r =>
      obtain ⟨e, he, e', he', hne⟩ := ht.two_keys
      have hother : ∃ e ∈ (node l r).entries, e.1 ≠ k := by
        by_cases hk : e.1 = k
        · exact ⟨e', he', fun hk' => hne (hk.trans hk'.symm)⟩
        · exact ⟨e, he, hk⟩
      exact Inserted.descend ht.child_left ht.child_right ht.bit_left ht.bit_right ha hother
        fun s hs => ih hn' hs

/-- The value of a key after an insertion. -/
theorem Inserted.lookup_eq {k' : κ} (h : Inserted bit k v d t t') (ht : Canon bit d t) :
    t'.lookup bit k' d = if k' = k then some v else t.lookup bit k' d := by
  refine Option.ext fun w => ?_
  rw [h.canon.lookup_eq_some, h.mem_iff]
  split_ifs with hk
  · subst hk
    simp [eq_comm]
  · simp [hk, ht.lookup_eq_some]

theorem insert_ne_empty (n d : ℕ) : t.insert bit k v n d ≠ empty := by
  cases n with
  | zero => simp [insert]
  | succ n =>
    cases t with
    | empty => simp [insert]
    | leaf k' v' => rw [insert, descend, descend]; split_ifs <;> simp
    | node l r => rw [insert, descend]; split_ifs <;> simp

end

/-- A branch that is left with one leaf becomes that leaf. -/
def collapse : BitTrie κ α → BitTrie κ α → BitTrie κ α
  | empty, empty => empty
  | empty, leaf k v => leaf k v
  | leaf k v, empty => leaf k v
  | l, r => node l r

theorem entries_collapse (l r : BitTrie κ α) : (collapse l r).entries = l.entries ++ r.entries := by
  cases l <;> cases r <;> simp [collapse, entries]

/-- What `collapse` looks at. -/
theorem collapse_cases (l r : BitTrie κ α) : (l = empty ∧ r = empty ∧ collapse l r = empty) ∨
    (l = empty ∧ (∃ k v, r = leaf k v) ∧ collapse l r = r) ∨
    (r = empty ∧ (∃ k v, l = leaf k v) ∧ collapse l r = l) ∨
    (¬(l = empty ∧ r = empty) ∧ ¬(l = empty ∧ ∃ k v, r = leaf k v) ∧
      ¬(r = empty ∧ ∃ k v, l = leaf k v) ∧ collapse l r = node l r) := by
  cases l <;> cases r <;> simp [collapse]

/-- Both sides are in what `collapse` gives, but for empty ones. -/
theorem mem_subtries_collapse {s l r : BitTrie κ α} (hs : s ∈ l.subtries ∨ s ∈ r.subtries)
    (hne : s ≠ empty) : s ∈ (collapse l r).subtries := by
  obtain ⟨rfl, rfl, -⟩ | ⟨rfl, -, hc⟩ | ⟨rfl, -, hc⟩ | ⟨-, -, -, hc⟩ := collapse_cases l r
  · exact absurd (by simpa [subtries] using hs) hne
  · rw [hc]
    exact hs.resolve_left (by simpa [subtries] using hne)
  · rw [hc]
    exact hs.resolve_right (by simpa [subtries] using hne)
  · rw [hc]
    exact hs.elim mem_subtries_left mem_subtries_right

/-- The deletion of a key at depth `d`: the leaf at the end of its descent goes. -/
def delete (bit : κ → ℕ → Bool) (k : κ) : ℕ → BitTrie κ α → BitTrie κ α
  | _, empty => empty
  | _, leaf _ _ => empty
  | d, node l r =>
    if bit k d then collapse l (delete bit k (d + 1) r) else collapse (delete bit k (d + 1) l) r

theorem delete_node (k : κ) (d : ℕ) (l r : BitTrie κ α) :
    (node l r).delete bit k d = collapse (if bit k d then l else l.delete bit k (d + 1))
      (if bit k d then r.delete bit k (d + 1) else r) := by
  rw [delete]
  split_ifs <;> rfl

/-- The key of the leaf at the end of the descent of a key. -/
def descent (bit : κ → ℕ → Bool) (k : κ) : ℕ → BitTrie κ α → Option κ
  | _, empty => none
  | _, leaf k' _ => some k'
  | d, node l r => if bit k d then descent bit k (d + 1) r else descent bit k (d + 1) l

theorem exists_mem_of_descent {k' : κ} (h : t.descent bit k d = some k') :
    ∃ v, (k', v) ∈ t.entries := by
  induction t generalizing d with
  | empty => simp [descent] at h
  | leaf k₀ v₀ =>
    cases h
    exact ⟨v₀, .head _⟩
  | node l r ihl ihr =>
    rw [descent] at h
    split_ifs at h
    · obtain ⟨v, hv⟩ := ihr h
      exact ⟨v, mem_append_right _ hv⟩
    · obtain ⟨v, hv⟩ := ihl h
      exact ⟨v, mem_append_left _ hv⟩

/-- The descent of a key of the trie ends at its own leaf. -/
theorem Canon.descent_eq_self (h : Canon bit d t) (hk : (k, v) ∈ t.entries) :
    t.descent bit k d = some k := by
  induction h with
  | nil => simp [entries] at hk
  | single =>
    simp only [entries, mem_singleton, Prod.mk.injEq] at hk
    rw [descent, hk.1]
  | @branch d l r hl hr left right two ihl ihr =>
    have hnode := branch hl hr left right two
    rw [descent]
    split_ifs with hb
    · exact ihr (hnode.mem_right_iff.mpr ⟨hk, hb⟩)
    · exact ihl (hnode.mem_left_iff.mpr ⟨hk, Bool.not_eq_true _ ▸ hb⟩)

/-- A descent that starts one bit too late finds at most one of the keys that agree on
the bit it leaves out. -/
theorem Canon.descent_succ_unique {k' : κ} (h : Canon bit d t) (hb : bit k d = bit k' d)
    (hk : t.descent bit k (d + 1) = some k) (hk' : t.descent bit k' (d + 1) = some k') :
    k = k' := by
  induction h with
  | nil => simp [descent] at hk
  | single => exact (Option.some.inj hk).symm.trans (Option.some.inj hk')
  | @branch d l r hl hr left right two ihl ihr =>
    -- the side where a key is found is that of the bit left out
    have hside : ∀ {x : κ}, (node l r).descent bit x (d + 1) = some x →
        bit x (d + 1) = bit x d ∧ (side (bit x d) l r).descent bit x (d + 1 + 1) = some x := by
      intro x hx
      rw [descent] at hx
      split_ifs at hx with hbit
      · obtain ⟨w, hw⟩ := exists_mem_of_descent hx
        rw [right _ hw, hbit]
        exact ⟨rfl, hx⟩
      · obtain ⟨w, hw⟩ := exists_mem_of_descent hx
        rw [left _ hw, Bool.eq_false_of_not_eq_true hbit]
        exact ⟨rfl, hx⟩
    obtain ⟨hk₁, hk⟩ := hside hk
    obtain ⟨hk₁', hk'⟩ := hside hk'
    have hnext : bit k (d + 1) = bit k' (d + 1) := by rw [hk₁, hk₁', hb]
    rw [← hb] at hk'
    cases hbit : bit k d <;> rw [hbit] at hk hk'
    · exact ihl hnext hk hk'
    · exact ihr hnext hk hk'

/-- What is not a branch does not become one. -/
theorem delete_ne_node (h : ∀ l r, t ≠ node l r) (l r : BitTrie κ α) :
    t.delete bit k d ≠ node l r := by
  cases t with
  | empty | leaf => simp [delete]
  | node a b => exact absurd rfl (h a b)

theorem Canon.collapse (hl : Canon bit (d + 1) l) (hr : Canon bit (d + 1) r)
    (left : ∀ e ∈ l.entries, bit e.1 d = false) (right : ∀ e ∈ r.entries, bit e.1 d = true) :
    Canon bit d (collapse l r) := by
  have hboth : l ≠ empty → r ≠ empty → Canon bit d (node l r) := by
    intro hl₀ hr₀
    obtain ⟨e, he⟩ := exists_mem_of_ne_nil _ (hl.entries_ne_nil hl₀)
    obtain ⟨e', he'⟩ := exists_mem_of_ne_nil _ (hr.entries_ne_nil hr₀)
    refine .branch hl hr left right
      ⟨e, mem_append_left _ he, e', mem_append_right _ he', fun heq => ?_⟩
    have hb := left e he
    rw [heq, right e' he'] at hb
    cases hb
  have hone : (∃ l' r', l = node l' r') ∨ (∃ l' r', r = node l' r') → Canon bit d (node l r) := by
    rintro (⟨l', r', rfl⟩ | ⟨l', r', rfl⟩)
    · obtain ⟨e, he, e', he', hne⟩ := hl.two_keys
      exact .branch hl hr left right ⟨e, mem_append_left _ he, e', mem_append_left _ he', hne⟩
    · obtain ⟨e, he, e', he', hne⟩ := hr.two_keys
      exact .branch hl hr left right ⟨e, mem_append_right _ he, e', mem_append_right _ he', hne⟩
  cases l with
  | empty =>
    cases r with
    | empty => exact .nil
    | leaf => exact .single
    | node l' r' => exact hone (.inr ⟨l', r', rfl⟩)
  | leaf =>
    cases r with
    | empty => exact .single
    | leaf => exact hboth (by simp) (by simp)
    | node l' r' => exact hone (.inr ⟨l', r', rfl⟩)
  | node l' r' => exact hone (.inl ⟨l', r', rfl⟩)

/-- **Deletion** takes exactly the entry at the end of the descent, and keeps a
trie canonical. -/
theorem Canon.delete_spec (h : Canon bit d t) :
    Canon bit d (t.delete bit k d) ∧ ∀ e, e ∈ (t.delete bit k d).entries ↔
      e ∈ t.entries ∧ t.descent bit k d ≠ some e.1 := by
  induction h with
  | nil => exact ⟨.nil, fun e => by simp [delete, entries]⟩
  | single =>
    refine ⟨.nil, fun e => ?_⟩
    simp only [delete, entries, descent, not_mem_nil, mem_singleton, false_iff]
    rintro ⟨rfl, hne⟩
    exact hne rfl
  | @branch d l r hl hr left right two ihl ihr =>
    rw [delete, descent]
    split_ifs with hb
    · refine ⟨.collapse hl ihr.1 left fun e he => right e ((ihr.2 e).mp he).1, fun e => ?_⟩
      rw [entries_collapse, mem_append, ihr.2 e, entries, mem_append]
      have hkeep : e ∈ l.entries → r.descent bit k (d + 1) ≠ some e.1 := by
        intro he hdesc
        obtain ⟨w, hw⟩ := exists_mem_of_descent hdesc
        exact bit_ne (left e he) (right (e.1, w) hw)
      tauto
    · refine ⟨.collapse ihl.1 hr (fun e he => left e ((ihl.2 e).mp he).1) right, fun e => ?_⟩
      rw [entries_collapse, mem_append, ihl.2 e, entries, mem_append]
      have hkeep : e ∈ r.entries → l.descent bit k (d + 1) ≠ some e.1 := by
        intro he hdesc
        obtain ⟨w, hw⟩ := exists_mem_of_descent hdesc
        exact bit_ne (left (e.1, w) hw) (right e he)
      tauto

/-- The trie of a list of pairs at depth `d`, split by bits; it runs out of levels
when two pairs have the same key. -/
def build (bit : κ → ℕ → Bool) : ℕ → ℕ → List (κ × α) → Option (BitTrie κ α)
  | _, _, [] => some empty
  | _, _, [(k, v)] => some (leaf k v)
  | 0, _, _ :: _ :: _ => none
  | n + 1, d, kv :: kv' :: kvs => do
    let l ← build bit n (d + 1) ((kv :: kv' :: kvs).filter fun e => !bit e.1 d)
    let r ← build bit n (d + 1) ((kv :: kv' :: kvs).filter fun e => bit e.1 d)
    return node l r

/-- **Building all at once** gives a canonical trie of the pairs, when their keys
are distinct and start alike up to the depth. -/
theorem build_spec (hsep : Separates bit N) {n : ℕ} (hn : N ≤ d + n) {kvs : List (κ × α)}
    (hnodup : (kvs.map Prod.fst).Nodup)
    (halike : ∀ e ∈ kvs, ∀ e' ∈ kvs, ∀ i < d, bit e.1 i = bit e'.1 i) :
    ∃ t, build bit n d kvs = some t ∧ Canon bit d t ∧ ∀ e, e ∈ t.entries ↔ e ∈ kvs := by
  fun_induction build bit n d kvs with
  | case1 n d => exact ⟨_, rfl, .nil, fun e => by simp [entries]⟩
  | case2 n d k v => exact ⟨_, rfl, .single, fun e => by simp [entries]⟩
  | case3 d e e' kvs =>
    -- two distinct keys would agree on all bits
    have heq : e.1 = e'.1 := hsep _ _ fun i hi =>
      halike e (by simp) e' (by simp) i (by omega)
    simp [heq] at hnodup
  | case4 n d e₁ e₂ kvs ihl ihr =>
    set all := e₁ :: e₂ :: kvs with hall
    have hside : ∀ (b : Bool) (f : κ × α → Bool), (∀ e, f e = true → bit e.1 d = b) →
        ∀ e ∈ all.filter f, ∀ e' ∈ all.filter f, ∀ i < d + 1, bit e.1 i = bit e'.1 i := by
      intro b f hf e he e' he' i hi
      rw [mem_filter] at he he'
      rcases Nat.lt_succ_iff_lt_or_eq.mp hi with hlt | rfl
      · exact halike e he.1 e' he'.1 i hlt
      · rw [hf e he.2, hf e' he'.2]
    obtain ⟨l, hl, hlc, hlm⟩ := ihl (by omega) (hnodup.sublist (filter_sublist.map _))
      (hside false _ fun e he => by simpa using he)
    obtain ⟨r, hr, hrc, hrm⟩ := ihr (by omega) (hnodup.sublist (filter_sublist.map _))
      (hside true _ fun e he => he)
    have hmem : ∀ e, e ∈ (node l r).entries ↔ e ∈ all := by
      intro e
      rw [entries, mem_append, hlm, hrm, mem_filter, mem_filter]
      cases bit e.1 d <;> simp
    refine ⟨node l r, ?_, ?_, hmem⟩
    · rw [hl, hr]
      rfl
    · refine .branch hlc hrc (fun e he => ?_) (fun e he => ?_)
        ⟨e₁, (hmem e₁).mpr (by simp [hall]), e₂, (hmem e₂).mpr (by simp [hall]), ?_⟩
      · simpa using (mem_filter.mp ((hlm e).mp he)).2
      · exact (mem_filter.mp ((hrm e).mp he)).2
      · rw [hall, map_cons, map_cons, nodup_cons] at hnodup
        exact fun heq => hnodup.1 (heq ▸ .head _)

end BitTrie

end JamDuna.Basis
