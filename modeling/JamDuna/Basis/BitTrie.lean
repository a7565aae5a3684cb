/-
# Canonical binary tries

A binary trie over keys that are read bit by bit: `bit k d` is the bit of `k` at
depth `d`. A trie is canonical when every branch separates its keys by the bit of
its depth and holds at least two keys, so that a key sits at the first depth where
it is alone. A canonical trie is then determined by its entries (`Canon.ext`):
however it came about, by insertions, deletions or all at once, equal contents
mean equal tries.

`lookup` reads a trie, and `height` bounds the depth of its leaves. The operations
that change a trie are in `BitTrieUpdate`.
-/

import Mathlib.Tactic

namespace JamDuna.Basis

open List

/-- A binary trie with its values at the leaves. -/
inductive BitTrie (κ α : Type) where
  | empty
  | leaf (k : κ) (v : α)
  | node (l r : BitTrie κ α)
  deriving DecidableEq, Repr

namespace BitTrie

variable {κ α : Type}

/-- The pairs at the leaves, from left to right. -/
def entries : BitTrie κ α → List (κ × α)
  | empty => []
  | leaf k v => [(k, v)]
  | node l r => l.entries ++ r.entries

/-- A trie and all the tries below it. -/
def subtries : BitTrie κ α → List (BitTrie κ α)
  | empty => [empty]
  | leaf k v => [leaf k v]
  | node l r => node l r :: (l.subtries ++ r.subtries)

/-- The side of a branch that a bit selects. -/
def side (b : Bool) (l r : BitTrie κ α) : BitTrie κ α := if b then r else l

theorem mem_subtries_self (t : BitTrie κ α) : t ∈ t.subtries := by
  cases t <;> simp [subtries]

theorem mem_subtries_left {s l r : BitTrie κ α} (h : s ∈ l.subtries) : s ∈ (node l r).subtries := by
  simp [subtries, h]

theorem mem_subtries_right {s l r : BitTrie κ α} (h : s ∈ r.subtries) :
    s ∈ (node l r).subtries := by
  simp [subtries, h]

variable {b : Bool} {e : κ × α}

theorem mem_subtries_side {s l r : BitTrie κ α} (h : s ∈ (side b l r).subtries) :
    s ∈ (node l r).subtries := by
  cases b
  · exact mem_subtries_left h
  · exact mem_subtries_right h

theorem mem_entries_side {l r : BitTrie κ α}
    (h : e ∈ (side b l r).entries) : e ∈ (node l r).entries := by
  cases b
  · exact mem_append_left _ h
  · exact mem_append_right _ h

theorem leaf_mem_subtries {t : BitTrie κ α} {k : κ} {v : α} :
    leaf k v ∈ t.subtries ↔ (k, v) ∈ t.entries := by
  induction t with
  | empty | leaf => simp [subtries, entries]
  | node l r ihl ihr => simp [subtries, entries, ihl, ihr]

theorem mem_subtries_trans {s t u : BitTrie κ α} (hu : u ∈ s.subtries) (hs : s ∈ t.subtries) :
    u ∈ t.subtries := by
  induction t with
  | empty | leaf =>
    obtain rfl := mem_singleton.mp hs
    exact hu
  | node l r ihl ihr =>
    rcases mem_cons.mp hs with rfl | hs
    · exact hu
    · rcases mem_append.mp hs with hs | hs
      · exact mem_subtries_left (ihl hs)
      · exact mem_subtries_right (ihr hs)

theorem mem_entries_of_mem_subtries {s t : BitTrie κ α} (hs : s ∈ t.subtries)
    (he : e ∈ s.entries) : e ∈ t.entries :=
  leaf_mem_subtries.mp (mem_subtries_trans (leaf_mem_subtries.mpr he) hs)

variable (bit : κ → ℕ → Bool)

/-- A canonical trie whose root is at depth `d`. -/
inductive Canon : ℕ → BitTrie κ α → Prop
  | nil {d : ℕ} : Canon d empty
  | single {d : ℕ} {k : κ} {v : α} : Canon d (leaf k v)
  | branch {d : ℕ} {l r : BitTrie κ α} (hl : Canon (d + 1) l) (hr : Canon (d + 1) r)
      (left : ∀ e ∈ l.entries, bit e.1 d = false) (right : ∀ e ∈ r.entries, bit e.1 d = true)
      (two : ∃ e ∈ (node l r).entries, ∃ e' ∈ (node l r).entries, e.1 ≠ e'.1) :
      Canon d (node l r)

/-- The keys of the trie start with the first `d` bits of `k`. -/
def Agrees (d : ℕ) (k : κ) (t : BitTrie κ α) : Prop := ∀ e ∈ t.entries, ∀ i < d, bit e.1 i = bit k i

/-- Keys that agree on the first `N` bits are equal. -/
def Separates (N : ℕ) : Prop := ∀ k k' : κ, (∀ i < N, bit k i = bit k' i) → k = k'

variable {bit} {d N : ℕ} {k : κ} {v : α} {l r t t' : BitTrie κ α}

theorem agrees_zero : Agrees bit 0 k t := fun _ _ _ hi => absurd hi (Nat.not_lt_zero _)

theorem Agrees.succ (h : Agrees bit d k t) (hb : ∀ e ∈ t.entries, bit e.1 d = bit k d) :
    Agrees bit (d + 1) k t := by
  intro e he i hi
  rcases Nat.lt_succ_iff_lt_or_eq.mp hi with hlt | rfl
  · exact h e he i hlt
  · exact hb e he

theorem bit_ne (hf : b = false) (ht : b = true) : False := by
  rw [hf] at ht
  cases ht

namespace Canon

section

variable (h : Canon bit d (node l r))
include h

theorem child_left : Canon bit (d + 1) l := by
  cases h; assumption

theorem child_right : Canon bit (d + 1) r := by
  cases h; assumption

theorem bit_left : ∀ e ∈ l.entries, bit e.1 d = false := by
  cases h; assumption

theorem bit_right : ∀ e ∈ r.entries, bit e.1 d = true := by
  cases h; assumption

theorem two_keys : ∃ e ∈ (node l r).entries, ∃ e' ∈ (node l r).entries, e.1 ≠ e'.1 := by
  cases h; assumption

end

/-- A branch of a canonical trie is above the last bit. -/
theorem depth_lt (hsep : Separates bit N) (h : Canon bit d (node l r))
    (ha : Agrees bit d k (node l r)) : d < N := by
  obtain ⟨e, he, e', he', hne⟩ := h.two_keys
  by_contra hd
  refine hne (hsep _ _ fun i hi => ?_)
  have hid : i < d := lt_of_lt_of_le hi (not_lt.mp hd)
  rw [ha e he i hid, ha e' he' i hid]

variable {e : κ × α}

section

variable (h : Canon bit d (node l r))
include h

/-- The side of a branch that a key is on is determined by its bit. -/
theorem mem_left_iff : e ∈ l.entries ↔ e ∈ (node l r).entries ∧ bit e.1 d = false := by
  constructor
  · exact fun he => ⟨mem_append_left _ he, h.bit_left e he⟩
  · rintro ⟨he, hb⟩
    rcases mem_append.mp he with hl | hr
    · exact hl
    · rw [h.bit_right e hr] at hb
      cases hb

theorem mem_right_iff : e ∈ r.entries ↔ e ∈ (node l r).entries ∧ bit e.1 d = true := by
  constructor
  · exact fun he => ⟨mem_append_right _ he, h.bit_right e he⟩
  · rintro ⟨he, hb⟩
    rcases mem_append.mp he with hl | hr
    · rw [h.bit_left e hl] at hb
      cases hb
    · exact hr

theorem child (b : Bool) : Canon bit (d + 1) (side b l r) := by
  cases b
  · exact h.child_left
  · exact h.child_right

theorem mem_side_iff {b : Bool} :
    e ∈ (side b l r).entries ↔ e ∈ (node l r).entries ∧ bit e.1 d = b := by
  cases b
  · exact h.mem_left_iff
  · exact h.mem_right_iff

end

/-- No key has two entries. -/
theorem entries_unique (h : Canon bit d t) {w : α} (hv : (k, v) ∈ t.entries)
    (hw : (k, w) ∈ t.entries) : v = w := by
  induction h with
  | nil => simp [entries] at hv
  | single =>
    simp only [entries, mem_singleton, Prod.mk.injEq] at hv hw
    rw [hv.2, hw.2]
  | branch hl hr left right _ ihl ihr =>
    rcases mem_append.mp hv with hv | hv <;> rcases mem_append.mp hw with hw | hw
    · exact ihl hv hw
    · exact (bit_ne (left (k, v) hv) (right (k, w) hw)).elim
    · exact (bit_ne (left (k, w) hw) (right (k, v) hv)).elim
    · exact ihr hv hw

theorem entries_nodup (h : Canon bit d t) : (t.entries.map Prod.fst).Nodup := by
  induction h with
  | nil => exact nodup_nil
  | single => exact nodup_singleton _
  | branch hl hr left right _ ihl ihr =>
    rw [entries, map_append, nodup_append']
    refine ⟨ihl, ihr, fun k hkl hkr => ?_⟩
    obtain ⟨e, he, rfl⟩ := mem_map.mp hkl
    obtain ⟨e', he', heq⟩ := mem_map.mp hkr
    have hright := right e' he'
    rw [heq, left e he] at hright
    cases hright

theorem entries_ne_nil (h : Canon bit d t) (hne : t ≠ empty) : t.entries ≠ [] := by
  cases h with
  | nil => exact absurd rfl hne
  | single => exact cons_ne_nil _ _
  | branch hl hr left right two =>
    obtain ⟨e, he, -⟩ := two
    exact ne_nil_of_mem he

/-- A trie with at most one key is not a branch. -/
theorem not_node (h : Canon bit d t) {e₀ : κ × α} (hall : ∀ e ∈ t.entries, e = e₀) (l r) :
    t ≠ node l r := by
  rintro rfl
  obtain ⟨e, he, e', he', hne⟩ := h.two_keys
  exact hne (by rw [hall e he, hall e' he'])

/-- **A canonical trie is determined by its entries.** -/
theorem ext (ht : Canon bit d t) (ht' : Canon bit d t')
    (h : ∀ e, e ∈ t.entries ↔ e ∈ t'.entries) : t = t' := by
  induction ht generalizing t' with
  | nil =>
    by_contra hne
    obtain ⟨e, he⟩ := exists_mem_of_ne_nil _ (ht'.entries_ne_nil (Ne.symm hne))
    exact not_mem_nil ((h e).mpr he)
  | single =>
    have hall : ∀ e ∈ t'.entries, e = _ := fun e he => mem_singleton.mp ((h e).mpr he)
    cases t' with
    | empty => exact absurd ((h _).mp (.head _)) not_mem_nil
    | leaf k' v' =>
      obtain ⟨rfl, rfl⟩ := Prod.mk.inj (hall _ (.head _))
      rfl
    | node l' r' => exact absurd rfl (ht'.not_node hall l' r')
  | branch hl hr left right two ihl ihr =>
    have hnode := Canon.branch hl hr left right two
    cases t' with
    | empty =>
      obtain ⟨e, he, -⟩ := two
      exact absurd ((h e).mp he) not_mem_nil
    | leaf k' v' =>
      have hall : ∀ e ∈ (node _ _).entries, e = (k', v') :=
        fun e he => mem_singleton.mp ((h e).mp he)
      exact absurd rfl (hnode.not_node hall _ _)
    | node l' r' =>
      rw [ihl ht'.child_left fun e => by rw [hnode.mem_left_iff, ht'.mem_left_iff, h e],
        ihr ht'.child_right fun e => by rw [hnode.mem_right_iff, ht'.mem_right_iff, h e]]

end Canon

/-- The number of branches on the longest way down. -/
def height : BitTrie κ α → ℕ
  | empty => 0
  | leaf _ _ => 0
  | node l r => max l.height r.height + 1

/-- A side of a branch is empty, or its keys agree with one of them on one bit more. -/
theorem Canon.side_cases (h : Canon bit d (node l r)) (ha : Agrees bit d k (node l r)) (b : Bool) :
    side b l r = empty ∨ ∃ k', Agrees bit (d + 1) k' (side b l r) := by
  refine or_iff_not_imp_left.mpr fun hne => ?_
  obtain ⟨e, he⟩ := exists_mem_of_ne_nil _ ((h.child b).entries_ne_nil hne)
  obtain ⟨hmem, hbit⟩ := h.mem_side_iff.mp he
  refine ⟨e.1, Agrees.succ (fun e' he' i hi => ?_) fun e' he' => ?_⟩
  · rw [ha e' (h.mem_side_iff.mp he').1 i hi, ha e hmem i hi]
  · rw [(h.mem_side_iff.mp he').2, hbit]

/-- **The entries of a canonical trie are in the order of the bits.** `R` holds of two keys
when the first bit in which they differ is set in the second one only. -/
theorem Canon.pairwise_entries {R : κ → κ → Prop}
    (hR : ∀ d a b, (∀ i < d, bit a i = bit b i) → bit a d = false → bit b d = true → R a b)
    (h : Canon bit d t) (ha : Agrees bit d k t) : t.entries.Pairwise fun e e' => R e.1 e'.1 := by
  induction h generalizing k with
  | nil => exact Pairwise.nil
  | single => exact pairwise_singleton _ _
  | @branch d l r hl hr left right two ihl ihr =>
    have hnode := Canon.branch hl hr left right two
    have hside : ∀ b, (∀ k', Agrees bit (d + 1) k' (side b l r) →
        (side b l r).entries.Pairwise fun e e' => R e.1 e'.1) →
        (side b l r).entries.Pairwise fun e e' => R e.1 e'.1 := by
      intro b ih
      rcases hnode.side_cases ha b with hempty | ⟨k', hk'⟩
      · rw [hempty]
        exact Pairwise.nil
      · exact ih k' hk'
    refine pairwise_append.mpr ⟨hside false fun _ ha' => ihl ha',
      hside true fun _ ha' => ihr ha', fun e he e' he' => ?_⟩
    refine hR d e.1 e'.1 (fun i hi => ?_) (left e he) (right e' he')
    rw [ha e (mem_append_left _ he) i hi, ha e' (mem_append_right _ he') i hi]

/-- A canonical trie is not higher than there are bits. -/
theorem Canon.height_le (hsep : Separates bit N) (h : Canon bit d t) (ha : Agrees bit d k t)
    (hd : d ≤ N) : t.height + d ≤ N := by
  induction h generalizing k with
  | nil | single => simpa [height] using hd
  | @branch d l r hl hr left right two ihl ihr =>
    have hnode := Canon.branch hl hr left right two
    have hlt : d < N := hnode.depth_lt hsep ha
    have hside : ∀ b, (∀ k', Agrees bit (d + 1) k' (side b l r) →
        (side b l r).height + (d + 1) ≤ N) → (side b l r).height + (d + 1) ≤ N := by
      intro b ih
      rcases hnode.side_cases ha b with hempty | ⟨k', hk'⟩
      · rw [hempty, height]
        omega
      · exact ih k' hk'
    have hl' := hside false fun _ ha' => ihl ha' hlt
    have hr' := hside true fun _ ha' => ihr ha' hlt
    simp only [side, Bool.false_eq_true, if_false, if_true] at hl' hr'
    rw [height]
    omega

section

variable [DecidableEq κ]

/-- The value of a key. -/
def lookup (bit : κ → ℕ → Bool) (k : κ) : ℕ → BitTrie κ α → Option α
  | _, empty => none
  | _, leaf k' v => if k' = k then some v else none
  | d, node l r => if bit k d then lookup bit k (d + 1) r else lookup bit k (d + 1) l

theorem lookup_node (k : κ) (d : ℕ) (l r : BitTrie κ α) :
    (node l r).lookup bit k d = (side (bit k d) l r).lookup bit k (d + 1) := by
  rw [lookup, side]
  split_ifs <;> rfl

/-- Looking up is reading the entries. -/
theorem Canon.lookup_eq_some (h : Canon bit d t) :
    t.lookup bit k d = some v ↔ (k, v) ∈ t.entries := by
  induction h with
  | nil => simp [lookup, entries]
  | single => simp [lookup, entries, eq_comm]
  | @branch d l r hl hr left right two ihl ihr =>
    have hnode := Canon.branch hl hr left right two
    have ih : ∀ b, (side b l r).lookup bit k (d + 1) = some v ↔ (k, v) ∈ (side b l r).entries := by
      intro b
      cases b
      · exact ihl
      · exact ihr
    rw [lookup_node, ih, hnode.mem_side_iff]
    exact and_iff_left rfl

theorem Canon.lookup_eq_none (h : Canon bit d t) :
    t.lookup bit k d = none ↔ ∀ v, (k, v) ∉ t.entries := by
  rw [Option.eq_none_iff_forall_ne_some]
  exact forall_congr' fun v => not_congr h.lookup_eq_some

/-- Canonical tries with the same values are equal. -/
theorem Canon.ext_lookup (ht : Canon bit d t) (ht' : Canon bit d t')
    (h : ∀ k, t.lookup bit k d = t'.lookup bit k d) : t = t' :=
  ht.ext ht' fun ⟨k, v⟩ => by rw [← ht.lookup_eq_some, ← ht'.lookup_eq_some, h k]

end

end BitTrie

end JamDuna.Basis
