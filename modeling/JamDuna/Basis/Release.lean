/-
# Releasing items in rounds

Items wait for each other. In every round the items that wait for nothing are
released in the order of the list, their names are struck from what the others
wait for, and the next round runs on what is left; the process ends with the
first round that releases nothing.

For items with distinct names the released list is a topological order of what
was recorded (`release_ordered`), repeats no name (`release_nodup`), and cannot
be extended: whoever is left waits for somebody who was not released
(`release_maximal`).
-/

import Mathlib.Tactic

namespace JamDuna.Basis

open List

/-- An item and the names it waits for. -/
structure Waiting (ι κ : Type) where
  item : ι
  waits : Finset κ

variable {ι κ : Type} [DecidableEq κ] (ident : ι → κ)

/-- Strike the names `done`: the items so named leave the list, and nobody waits
for them any more. -/
def strike (done : Finset κ) (r : List (Waiting ι κ)) : List (Waiting ι κ) :=
  (r.filter fun w => ident w.item ∉ done).map fun w => ⟨w.item, w.waits \ done⟩

/-- The items that wait for nothing. -/
def ready (r : List (Waiting ι κ)) : List ι := (r.filter fun w => w.waits = ∅).map (·.item)

/-- The names of the items that wait for nothing. -/
def readyNames (r : List (Waiting ι κ)) : Finset κ := ((ready r).map ident).toFinset

variable {r : List (Waiting ι κ)} {x : ι}

variable {done : Finset κ} {d : κ} {after before : List ι}

theorem mem_strike {w : Waiting ι κ} :
    w ∈ strike ident done r ↔ ∃ v ∈ r, ident v.item ∉ done ∧ ⟨v.item, v.waits \ done⟩ = w := by
  simp [strike, and_assoc]

theorem mem_ready : x ∈ ready r ↔ ∃ w ∈ r, w.waits = ∅ ∧ w.item = x := by
  simp [ready, and_assoc]

theorem mem_readyNames : d ∈ readyNames ident r ↔ d ∈ (ready r).map ident := mem_toFinset

/-- A round that releases something shortens the list. -/
theorem strike_length_lt (h : ready r ≠ []) :
    (strike ident (readyNames ident r) r).length < r.length := by
  obtain ⟨x, hx⟩ := exists_mem_of_ne_nil _ h
  obtain ⟨w, hw, hwaits, rfl⟩ := mem_ready.mp hx
  rw [strike, length_map]
  refine length_filter_lt_length_iff_exists.mpr ⟨w, hw, ?_⟩
  have hname : ident w.item ∈ readyNames ident r := (mem_readyNames ident).mpr (mem_map_of_mem hx)
  simpa using hname

/-- The released items, round after round. -/
def release (r : List (Waiting ι κ)) : List ι :=
  if _h : ready r = [] then []
  else ready r ++ release (strike ident (readyNames ident r) r)
termination_by r.length
decreasing_by exact strike_length_lt ident _h

theorem strike_names_sublist (done : Finset κ) (r : List (Waiting ι κ)) :
    ((strike ident done r).map fun w => ident w.item).Sublist (r.map fun w => ident w.item) := by
  rw [strike, map_map]
  exact filter_sublist.map _

theorem ready_names_sublist (r : List (Waiting ι κ)) :
    ((ready r).map ident).Sublist (r.map fun w => ident w.item) := by
  rw [ready, map_map]
  exact filter_sublist.map _

/-- Only listed items are released. -/
theorem exists_of_mem_release (hx : x ∈ release ident r) : ∃ w ∈ r, w.item = x := by
  induction r using release.induct ident with
  | case1 r h =>
    rw [release, dif_pos h] at hx
    cases hx
  | case2 r h ih =>
    rw [release, dif_neg h] at hx
    rcases mem_append.mp hx with hx | hx
    · obtain ⟨w, hw, -, rfl⟩ := mem_ready.mp hx
      exact ⟨w, hw, rfl⟩
    · obtain ⟨w, hw, rfl⟩ := ih hx
      obtain ⟨v, hv, -, rfl⟩ := (mem_strike ident).mp hw
      exact ⟨v, hv, rfl⟩

/-- What a later round releases is not among the names just struck. -/
theorem not_mem_of_mem_release_strike
    (hx : x ∈ release ident (strike ident done r)) : ident x ∉ done := by
  obtain ⟨w, hw, rfl⟩ := exists_of_mem_release ident hx
  obtain ⟨v, -, hv, rfl⟩ := (mem_strike ident).mp hw
  exact hv

/-- **No name is released twice.** -/
theorem release_nodup (hr : (r.map fun w => ident w.item).Nodup) :
    ((release ident r).map ident).Nodup := by
  induction r using release.induct ident with
  | case1 r h => simp [release, h]
  | case2 r h ih =>
    rw [release, dif_neg h, map_append, nodup_append']
    refine ⟨hr.sublist (ready_names_sublist ident r),
      ih (hr.sublist (strike_names_sublist ident _ r)), fun d hd hd' => ?_⟩
    obtain ⟨x, hx, rfl⟩ := mem_map.mp hd'
    exact not_mem_of_mem_release_strike ident hx ((mem_readyNames ident).mpr hd)

/-- An element that is not in the first part of a list is split off in the second. -/
theorem append_eq_append_cons_of_not_mem {as bs : List ι}
    (h : as ++ bs = before ++ x :: after) (hx : x ∉ as) :
    ∃ mid, before = as ++ mid ∧ bs = mid ++ x :: after := by
  rcases append_eq_append_iff.mp h with ⟨mid, hbefore, hbs⟩ | ⟨mid, has, hbs⟩
  · exact ⟨mid, hbefore, hbs⟩
  · cases mid with
    | nil => exact ⟨[], by simpa using has.symm, by simpa using hbs.symm⟩
    | cons y mid =>
      obtain ⟨rfl, -⟩ := cons.inj hbs
      exact absurd (has ▸ by simp) hx

/-- **An item is released after everything it waits for.** -/
theorem release_ordered (hr : (r.map fun w => ident w.item).Nodup) (hw : w ∈ r)
    (h : release ident r = before ++ w.item :: after) (hd : d ∈ w.waits) :
    d ∈ before.map ident := by
  induction r using release.induct ident generalizing before w with
  | case1 r hr0 =>
    rw [release, dif_pos hr0] at h
    simp at h
  | case2 r hr0 ih =>
    rw [release, dif_neg hr0] at h
    by_cases hnow : w.item ∈ ready r
    · -- released in this round: it waits for nothing
      obtain ⟨v, hv, hempty, hvw⟩ := mem_ready.mp hnow
      have hvw : v = w := inj_on_of_nodup_map hr hv hw (congrArg ident hvw)
      rw [← hvw, hempty] at hd
      exact absurd hd (Finset.notMem_empty d)
    · -- released later: what it waits for is struck now, or is released before it then
      obtain ⟨mid, rfl, hlater⟩ := append_eq_append_cons_of_not_mem h hnow
      have hout : ident w.item ∉ readyNames ident r := by
        refine not_mem_of_mem_release_strike ident (r := r) ?_
        rw [hlater]
        simp
      rw [map_append, mem_append]
      by_cases hdone : d ∈ readyNames ident r
      · exact .inl ((mem_readyNames ident).mp hdone)
      · exact .inr (ih (hr.sublist (strike_names_sublist ident _ r))
          ((mem_strike ident).mpr ⟨w, hw, hout, rfl⟩) hlater (Finset.mem_sdiff.mpr ⟨hd, hdone⟩))

/-- **Whoever is left waits for somebody who is not released.** -/
theorem release_maximal (hw : w ∈ r) (h : ident w.item ∉ (release ident r).map ident) :
    ∃ d ∈ w.waits, d ∉ (release ident r).map ident := by
  induction r using release.induct ident generalizing w with
  | case1 r hr0 =>
    rw [release, dif_pos hr0]
    have hne : w.waits ≠ ∅ := fun hempty =>
      ne_nil_of_mem (mem_ready.mpr ⟨w, hw, hempty, rfl⟩) hr0
    obtain ⟨d, hd⟩ := Finset.nonempty_iff_ne_empty.mpr hne
    exact ⟨d, hd, by simp⟩
  | case2 r hr0 ih =>
    rw [release, dif_neg hr0, map_append, mem_append, not_or] at h
    obtain ⟨hnow, hlater⟩ := h
    have hout : ident w.item ∉ readyNames ident r := fun hm => hnow ((mem_readyNames ident).mp hm)
    obtain ⟨d, hd, hdlater⟩ := ih ((mem_strike ident).mpr ⟨w, hw, hout, rfl⟩) hlater
    obtain ⟨hdw, hdnow⟩ := Finset.mem_sdiff.mp hd
    refine ⟨d, hdw, ?_⟩
    rw [release, dif_neg hr0, map_append, mem_append, not_or]
    exact ⟨fun hm => hdnow ((mem_readyNames ident).mpr hm), hdlater⟩

end JamDuna.Basis
