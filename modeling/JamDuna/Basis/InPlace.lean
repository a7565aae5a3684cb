/-
# Filtering an array in place

The loop `kept := xs[:0]; for _, x := range xs { if p(x) { kept = append(kept, x) } }`
writes the elements it keeps over the front of the array it reads. The reader is
never behind the writer, so it still sees every element (`getElem?_front_append`); but
afterwards the array holds the kept elements followed by what the writer did not
reach (`keepLoop_eq`), and so a later reader of the whole array sees an element of
the old front no more, and a kept one perhaps twice.
-/

import Mathlib.Tactic

namespace JamDuna.Basis

open List

variable {α : Type*}

/-- One round of the loop at position `i`, on the array and the number of elements
kept so far. -/
def keepAt (p : α → Bool) (s : List α × ℕ) (i : ℕ) : List α × ℕ :=
  match s.1[i]? with
  | none => s
  | some x => if p x then (s.1.set s.2 x, s.2 + 1) else s

/-- The first `n` rounds of the loop over `xs`. -/
def keepLoop (p : α → Bool) (xs : List α) (n : ℕ) : List α × ℕ :=
  (range n).foldl (keepAt p) (xs, 0)

/-- The array after the loop, and the number of elements kept. -/
def filterInPlace (p : α → Bool) (xs : List α) : List α × ℕ := keepLoop p xs xs.length

theorem keepLoop_succ (p : α → Bool) (xs : List α) (n : ℕ) :
    keepLoop p xs (n + 1) = keepAt p (keepLoop p xs n) n := by
  rw [keepLoop, range_succ, foldl_append]
  rfl

variable {front xs : List α} {n : ℕ}

/-- A front of no more than `n` elements, written over `xs`, leaves position `n` as
it was. -/
theorem getElem?_front_append (h : front.length ≤ n) :
    (front ++ xs.drop front.length)[n]? = xs[n]? := by
  rw [getElem?_append_right h, getElem?_drop]
  congr 1
  omega

/-- Writing `x` just after the front. -/
theorem set_front_append (x : α) (h : front.length < xs.length) :
    (front ++ xs.drop front.length).set front.length x =
      (front ++ [x]) ++ xs.drop (front ++ [x]).length := by
  rw [set_append_right _ _ (le_refl _), Nat.sub_self, drop_eq_getElem_cons h,
    set_cons_zero, append_assoc, length_append]
  rfl

/-- **The array during the loop**: the elements kept of the first `n`, followed by
the old elements from there on. -/
theorem keepLoop_eq (p : α → Bool) (xs : List α) (hn : n ≤ xs.length) :
    keepLoop p xs n = ((xs.take n).filter p ++ xs.drop ((xs.take n).filter p).length,
        ((xs.take n).filter p).length) := by
  induction n with
  | zero => simp [keepLoop]
  | succ n ih =>
    have hlt : n < xs.length := hn
    have hfront : ((xs.take n).filter p).length ≤ n :=
      (length_filter_le _ _).trans (length_take_le _ _)
    have hread : ((xs.take n).filter p ++ xs.drop ((xs.take n).filter p).length)[n]? =
        some (xs.get ⟨n, hlt⟩) := by
      rw [getElem?_front_append hfront]
      exact getElem?_eq_getElem hlt
    have htake : xs.take (n + 1) = xs.take n ++ [xs.get ⟨n, hlt⟩] := take_succ_eq_append_getElem hlt
    rw [keepLoop_succ, ih hlt.le, htake, filter_append, keepAt, hread]
    by_cases hp : p (xs.get ⟨n, hlt⟩)
    · simp only [hp, if_true, filter_cons_of_pos, filter_nil]
      rw [set_front_append _ (lt_of_le_of_lt hfront hlt), length_append]
      rfl
    · simp only [hp, Bool.false_eq_true, if_false, not_false_eq_true, filter_cons_of_neg,
        filter_nil, append_nil]

/-- **The array after the loop.** -/
theorem filterInPlace_eq (p : α → Bool) (xs : List α) :
    filterInPlace p xs = (xs.filter p ++ xs.drop (xs.filter p).length, (xs.filter p).length) := by
  rw [filterInPlace, keepLoop_eq p xs (le_refl _), take_length]

end JamDuna.Basis
