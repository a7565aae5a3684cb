/-
# Exchange sort over all pairs of positions

The sort that runs two full loops over the positions of a list and, at the
pair `(i, j)`, swaps the two entries when the entry at `i` is the smaller one:

    for i := range set { for j := range set {
      if set[i] < set[j] { set[i], set[j] = set[j], set[i] } } }

The comparison looks the wrong way round, and the inner loop does not start at
`i + 1`, yet the result is ascending. The invariant that carries the proof is
about the outer position: before pass `i` the entries below `i` are ascending
(`PrefixSorted`), and inside the pass every entry met so far is at most the
entry at `i` (`PassInv`). A pass therefore ends with the maximum at `i`, and
the prefix grows by one.
-/

import Mathlib.Tactic

namespace JamDuna.Basis

open List

variable {α : Type*} [LinearOrder α]

/-- One comparison of the sort: the entries at `i` and `j` change places when
the entry at `i` is smaller. -/
def exchange (l : List α) (i j : ℕ) : List α :=
  if h : i < l.length ∧ j < l.length then
    if l[i] < l[j] then (l.set i l[j]).set j l[i] else l
  else l

/-- The inner loop at the outer position `i`. -/
def exchangePass (l : List α) (i : ℕ) : List α :=
  (range l.length).foldl (fun s j => exchange s i j) l

/-- Both loops. -/
def exchangeSort (l : List α) : List α := (range l.length).foldl exchangePass l

theorem exchange_perm (l : List α) (i j : ℕ) : (exchange l i j).Perm l := by
  unfold exchange
  split_ifs with h hlt
  · exact set_set_perm h.1 h.2
  all_goals exact Perm.refl l

/-- The entries below position `i` are ascending. -/
def PrefixSorted (l : List α) (i : ℕ) : Prop :=
  ∀ a b, (hab : a < b) → b < i → (hb : b < l.length) → l[a] ≤ l[b]

/-- What a pass at `i` keeps after its first `j` comparisons. -/
def PassInv (l : List α) (i j : ℕ) : Prop :=
  PrefixSorted l i ∧ ∀ k, k < j → (hk : k < l.length) → (hi : i < l.length) → l[k] ≤ l[i]

variable {l : List α} {i : ℕ}

/-- **One comparison keeps the pass invariant.** When the two entries swap at
`j < i`, the entry that moves into the prefix lies between its neighbours: the
one before it was already compared, the one after it is above the old entry. -/
theorem PassInv.exchange {j : ℕ} (hi : i < l.length) (hj : j < l.length)
    (h : PassInv l i j) : PassInv (exchange l i j) i (j + 1) := by
  obtain ⟨hs, hm⟩ := h
  unfold Basis.exchange
  rw [dif_pos ⟨hi, hj⟩]
  split_ifs with hlt
  · have hij : i ≠ j := fun e => by subst e; exact lt_irrefl _ hlt
    constructor
    · intro a b hab hbi hb
      simp only [length_set] at hb
      simp only [getElem_set]
      rw [if_neg (show ¬ i = a by omega), if_neg (show ¬ i = b by omega)]
      split_ifs with h1 h2 h2
      · omega
      · subst h1
        exact hlt.le.trans (hs _ _ hab hbi hb)
      · subst h2
        exact hm a hab (by omega) hi
      · exact hs a b hab hbi hb
    · intro k hk hkl hil
      simp only [length_set] at hkl hil
      simp only [getElem_set, if_true, if_neg hij.symm]
      split_ifs with h1 h2
      · exact hlt.le
      · exact le_refl _
      · exact (hm k (by omega) hkl hi).trans hlt.le
  · refine ⟨hs, fun k hk hkl hil => ?_⟩
    rcases Nat.lt_succ_iff_lt_or_eq.mp hk with hk' | rfl
    · exact hm k hk' hkl hil
    · exact not_lt.mp hlt

/-- The comparisons of a pass, run up to `j`, keep its invariant. -/
theorem passInv_range (hi : i < l.length) (hs : PrefixSorted l i) :
    ∀ j, j ≤ l.length → let s := (range j).foldl (fun s j => exchange s i j) l
      s.Perm l ∧ PassInv s i j := by
  intro j
  induction j with
  | zero => exact fun _ => ⟨Perm.refl l, hs, fun k hk => absurd hk (Nat.not_lt_zero k)⟩
  | succ j ih =>
    intro hj
    obtain ⟨hp, hinv⟩ := ih (by omega)
    simp only [range_succ, foldl_append, foldl_cons, foldl_nil]
    have hlen := hp.length_eq
    exact ⟨(exchange_perm _ i j).trans hp, hinv.exchange (by omega) (by omega)⟩

/-- **A pass extends the sorted prefix by one position.** -/
theorem exchangePass_spec (hi : i < l.length) (hs : PrefixSorted l i) :
    (exchangePass l i).Perm l ∧ PrefixSorted (exchangePass l i) (i + 1) := by
  obtain ⟨hp, hsorted, hmax⟩ := passInv_range hi hs l.length le_rfl
  refine ⟨hp, fun a b hab hb hbl => ?_⟩
  rcases Nat.lt_succ_iff_lt_or_eq.mp hb with hb' | rfl
  · exact hsorted a b hab hb' hbl
  · exact hmax a (hab.trans hi) (hab.trans hbl) hbl

/-- The passes, run up to `i`, leave the first `i` positions ascending. -/
theorem exchangeSort_range (l : List α) :
    ∀ i, i ≤ l.length → let s := (range i).foldl exchangePass l
      s.Perm l ∧ PrefixSorted s i := by
  intro i
  induction i with
  | zero => exact fun _ => ⟨Perm.refl l, fun a b _ hb => absurd hb (Nat.not_lt_zero b)⟩
  | succ i ih =>
    intro hi
    obtain ⟨hp, hs⟩ := ih (by omega)
    simp only [range_succ, foldl_append, foldl_cons, foldl_nil]
    have hlen := hp.length_eq
    obtain ⟨hp', hs'⟩ := exchangePass_spec (by omega) hs
    exact ⟨hp'.trans hp, hs'⟩

/-- The sort only reorders. -/
theorem exchangeSort_perm (l : List α) : (exchangeSort l).Perm l :=
  (exchangeSort_range l l.length le_rfl).1

@[simp] theorem mem_exchangeSort {l : List α} {a : α} : a ∈ exchangeSort l ↔ a ∈ l :=
  (exchangeSort_perm l).mem_iff

/-- **The sort ascends.** -/
theorem exchangeSort_sorted (l : List α) : (exchangeSort l).Pairwise (· ≤ ·) := by
  obtain ⟨hp, hs⟩ := exchangeSort_range l l.length le_rfl
  rw [pairwise_iff_getElem]
  intro a b ha hb hab
  exact hs a b hab (by have := hp.length_eq; exact this ▸ hb) hb

/-- **On distinct entries it ascends strictly**, and only then. -/
theorem exchangeSort_strict_iff (l : List α) : (exchangeSort l).Pairwise (· < ·) ↔ l.Nodup := by
  constructor
  · intro h
    exact (exchangeSort_perm l).nodup_iff.mp (h.imp fun hab => ne_of_lt hab)
  · intro h
    have hne : (exchangeSort l).Pairwise (· ≠ ·) := (exchangeSort_perm l).nodup_iff.mpr h
    exact (exchangeSort_sorted l).imp₂ (fun _ _ hle hne => lt_of_le_of_ne hle hne) hne

/-- A list in order is left as it is. -/
theorem exchangeSort_eq_self (h : l.Pairwise (· ≤ ·)) : exchangeSort l = l :=
  (exchangeSort_perm l).eq_of_pairwise (fun _ _ _ _ hab hba => le_antisymm hab hba)
    (exchangeSort_sorted l) h

example : exchangeSort [3, 1, 2] = [1, 2, 3] := by decide

end JamDuna.Basis
