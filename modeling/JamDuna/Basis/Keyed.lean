/-
# Lists whose elements have distinct keys, and folds over them

A loop that merges results one by one, each under the key of its producer, is a
`foldl`. When the keys are distinct, what the loop has done to one component is a
function of the results found under the keys that matter for it: `byKey` finds the
result of a key, and `byKey_concat` says how it changes when one more result is
processed, which is the step of every proof by induction on the processed prefix.

`foldl_ite_last` is the loop that overwrites its variable at some elements: the
last one of them decides.
-/

import Mathlib.Tactic

namespace JamDuna.Basis

open List

variable {α β κ : Type}

/-- A loop that takes over `f x` at the elements with `p` ends with the last of
them, or where it began. -/
theorem foldl_ite_last (p : α → Bool) (f : α → β) (b : β) (l : List α) :
    l.foldl (fun acc x => if p x then f x else acc) b = ((l.filter p).getLast?.map f).getD b := by
  induction l using reverseRecOn with
  | nil => rfl
  | append_singleton l x ih =>
    rw [foldl_append, ih, filter_append]
    cases hx : p x <;> simp [hx]

/-- **Induction over the processed prefix** of a list with distinct keys. -/
theorem keyed_induction (key : α → κ) {P : List α → Prop} {l : List α} (hl : (l.map key).Nodup)
    (nil : P []) (concat : ∀ l x, (l.map key).Nodup → key x ∉ l.map key → P l → P (l ++ [x])) :
    P l := by
  induction l using reverseRecOn with
  | nil => exact nil
  | append_singleton l x ih =>
    rw [map_append, map_singleton, nodup_append'] at hl
    obtain ⟨hnodup, -, hdisj⟩ := hl
    exact concat l x hnodup (fun hmem => hdisj hmem (by simp)) (ih hnodup)

variable [DecidableEq κ] (key : α → κ)

/-- The element of a list under a key. -/
def byKey (l : List α) (k : κ) : Option α := l.find? fun x => key x == k

variable {l : List α}

theorem key_of_byKey {k : κ} {x : α} (h : byKey key l k = some x) : key x = k := by
  simpa using find?_some h

theorem mem_of_byKey (h : byKey key l k = some x) : x ∈ l :=
  mem_of_find?_eq_some h

theorem byKey_eq_none : byKey key l k = none ↔ k ∉ l.map key := by
  simp [byKey, find?_eq_none]

/-- One more element answers for its own key and for no other. -/
theorem byKey_concat (hx : key x ∉ l.map key) (k : κ) :
    byKey key (l ++ [x]) k = if key x = k then some x else byKey key l k := by
  unfold byKey
  rw [find?_append]
  split_ifs with hk
  · subst hk
    have hnone : byKey key l (key x) = none := (byKey_eq_none key).mpr hx
    unfold byKey at hnone
    simp [hnone]
  · simp [hk]

/-- With distinct keys every element is found under its key. -/
theorem byKey_of_mem (hl : (l.map key).Nodup) (hx : x ∈ l) : byKey key l (key x) = some x := by
  cases h : byKey key l (key x) with
  | none => exact absurd (mem_map_of_mem hx) ((byKey_eq_none key).mp h)
  | some y =>
    exact congrArg some (inj_on_of_nodup_map hl (mem_of_byKey key h) hx (key_of_byKey key h))

end JamDuna.Basis
