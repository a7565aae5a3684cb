/-
# Keeping the least entries

A bounded store of the entries with the least keys: everything is sorted by its key,
stably, and the list is cut after `n` entries. With keys that are all different the
entries that stay are those with fewer than `n` smaller keys (`mem_keepLeast_iff`).

`pairwise_of_adjacent` turns a loop that compares neighbours into an order of the
whole list.
-/

import Mathlib.Tactic
import Mathlib.Data.List.Sort

namespace JamDuna.Basis

open List

variable {α κ : Type} [LinearOrder κ] {key : α → κ} {l : List α}

/-- Neighbours that are related by a transitive relation give a list whose entries
are. -/
theorem pairwise_of_adjacent {R : α → α → Prop} (htrans : ∀ a b c, R a b → R b c → R a c)
    (h : ∀ p ∈ l.zip l.tail, R p.1 p.2) : l.Pairwise R := by
  induction l with
  | nil => exact .nil
  | cons a l ih =>
    cases l with
    | nil => exact pairwise_singleton R a
    | cons b l =>
      have hab : R a b := h (a, b) (by simp)
      have htail : (b :: l).Pairwise R := ih fun p hp => h p (.tail _ hp)
      refine pairwise_cons.mpr ⟨fun c hc => ?_, htail⟩
      rcases mem_cons.mp hc with rfl | hc
      · exact hab
      · exact htrans a b c hab (rel_of_pairwise_cons htail hc)

/-- In a strictly increasing list the first `n` entries are those with fewer than `n`
smaller keys. -/
theorem mem_take_iff_countP_lt (h : l.Pairwise fun a b => key a < key b) {x : α} (hx : x ∈ l)
    (n : ℕ) : x ∈ l.take n ↔ l.countP (fun a => decide (key a < key x)) < n := by
  induction l generalizing n with
  | nil => cases hx
  | cons a l ih =>
    rw [pairwise_cons] at h
    cases n with
    | zero => simp
    | succ n =>
      rw [take_succ_cons, mem_cons, countP_cons]
      rcases mem_cons.mp hx with rfl | hx
      · -- nothing after the head is smaller than it
        have hnone : l.countP (fun a => decide (key a < key x)) = 0 :=
          countP_eq_zero.mpr fun b hb => by simpa using (h.1 b hb).le
        simp [hnone]
      · have hax : key a < key x := h.1 x hx
        have hne : x ≠ a := fun e => absurd hax (by rw [e]; exact lt_irrefl _)
        simp [hne, hax, ih h.2 hx n]

/-- The entries with the `n` least keys, in the order of their keys. -/
def keepLeast (key : α → κ) (n : ℕ) (l : List α) : List α :=
  (l.insertionSort fun a b => key a ≤ key b).take n

theorem length_keepLeast_le (n : ℕ) : (keepLeast key n l).length ≤ n := length_take_le _ _

/-- Different keys in a list that is sorted by them increase. -/
theorem pairwise_lt_of_nodup (h : l.Pairwise fun a b => key a ≤ key b)
    (hnodup : (l.map key).Nodup) : l.Pairwise fun a b => key a < key b :=
  (h.and (pairwise_map.mp hnodup)).imp fun hab => lt_of_le_of_ne hab.1 hab.2

/-- Sorted by different keys, a list is strictly increasing. -/
theorem sorted_of_nodup (h : (l.map key).Nodup) :
    (l.insertionSort fun a b => key a ≤ key b).Pairwise fun a b => key a < key b := by
  refine pairwise_lt_of_nodup (pairwise_insertionSort _ l) ?_
  exact ((perm_insertionSort _ l).map key).nodup_iff.mpr h

theorem keepLeast_pairwise (h : (l.map key).Nodup) (n : ℕ) :
    (keepLeast key n l).Pairwise fun a b => key a < key b :=
  (sorted_of_nodup h).sublist (take_sublist _ _)

/-- **What stays.** With different keys an entry stays precisely if fewer than `n` of
the entries have a smaller key. -/
theorem mem_keepLeast_iff (h : (l.map key).Nodup) {x : α} (hx : x ∈ l) (n : ℕ) :
    x ∈ keepLeast key n l ↔ l.countP (fun a => decide (key a < key x)) < n := by
  have hperm := perm_insertionSort (fun a b => key a ≤ key b) l
  rw [keepLeast, mem_take_iff_countP_lt (sorted_of_nodup h) (hperm.mem_iff.mpr hx), hperm.countP_eq]

end JamDuna.Basis
