/-
# The accumulation sequence is a topological order

`PriorityQueue` of `statedb/accumulate.go` is the release in rounds of
`JamDuna.Basis.Release`, with a report named by its package hash
(`priorityQueue_eq_release`). From the facts about the release follows what
`AccumulatableSequence` guarantees (`accumulatableSequence_topological`).

The dependencies that count are those an entry of the ready queue records. They
are the ones the report still waited for when it was last edited: a dependency
struck in an earlier block may have left the accumulation history since, so in
terms of the report's own dependencies the order can look broken
(`struckDependency_released`).
-/

import JamDuna.Basis.Release
import JamDuna.StateDB.Accumulate

namespace JamDuna.StateDB

open JamDuna.Types JamDuna.Basis

/-- An entry of the ready queue as an item that waits. -/
def toWaiting (e : AccumulationQueue) : Waiting WorkReport Hash :=
  ⟨e.workReport, e.workPackageHash.toFinset⟩

section

open List

variable {x : List Hash} {d : Hash} {e : AccumulationQueue} {w : WorkReport}

/-- What an edited entry waits for. -/
theorem mem_struck {hashes : List Hash} :
    d ∈ (hashes.filter fun h => !x.contains h).insertionSort (· ≤ ·) ↔ d ∈ hashes ∧ d ∉ x := by
  simp [mem_insertionSort]

theorem queueEditing_map_toWaiting (r : List AccumulationQueue) (x : List Hash) :
    (queueEditing r x).map toWaiting =
      strike WorkReport.workPackageHash x.toFinset (r.map toWaiting) := by
  have hstruck : ∀ e : AccumulationQueue, toWaiting ⟨e.workReport,
        (e.workPackageHash.filter fun h => !x.contains h).insertionSort (· ≤ ·)⟩ =
      ⟨e.workReport, (toWaiting e).waits \ x.toFinset⟩ := by
    intro e
    unfold toWaiting
    congr 1
    ext h
    simp only [mem_toFinset, Finset.mem_sdiff, mem_struck]
  rw [queueEditing, strike, filter_map, map_map, map_map]
  simp only [Function.comp_def, hstruck]
  simp [toWaiting]

theorem ready_map_toWaiting (r : List AccumulationQueue) :
    ready (r.map toWaiting) = unblocked r := by
  have hpred : ∀ e : AccumulationQueue,
      decide ((toWaiting e).waits = ∅) = (e.workPackageHash.length == 0) := by
    intro e
    rw [Bool.eq_iff_iff]
    simp [toWaiting]
  rw [ready, unblocked, filter_map, map_map]
  simp only [Function.comp_def, hpred]
  rfl

/-- **`PriorityQueue` is the release in rounds.** -/
theorem priorityQueue_eq_release (r : List AccumulationQueue) :
    priorityQueue r = release WorkReport.workPackageHash (r.map toWaiting) := by
  induction r using priorityQueue.induct with
  | case1 r h =>
    rw [priorityQueue, dif_pos h, release, dif_pos (by rw [ready_map_toWaiting, h])]
  | case2 r h ih =>
    rw [priorityQueue, dif_neg h, release, dif_neg (by rw [ready_map_toWaiting]; exact h),
      ready_map_toWaiting, ih, queueEditing_map_toWaiting]
    simp only [readyNames, ready_map_toWaiting, mapping]

theorem mem_queueEditing {r : List AccumulationQueue} :
    e ∈ queueEditing r x ↔ ∃ f ∈ r, f.workReport.workPackageHash ∉ x ∧ e = ⟨f.workReport,
        (f.workPackageHash.filter fun h => !x.contains h).insertionSort (· ≤ ·)⟩ := by
  rw [queueEditing, mem_map]
  constructor
  · rintro ⟨f, hf, rfl⟩
    obtain ⟨hmem, hout⟩ := mem_filter.mp hf
    exact ⟨f, hmem, by simpa using hout, rfl⟩
  · rintro ⟨f, hmem, hout, rfl⟩
    exact ⟨f, mem_filter.mpr ⟨hmem, by simpa using hout⟩, rfl⟩

theorem mapping_append (v w : List WorkReport) : mapping (v ++ w) = mapping v ++ mapping w :=
  map_append

/-- The package hashes of the entries of a queue. -/
def queueHashes (r : List AccumulationQueue) : List Hash :=
  r.map fun e => e.workReport.workPackageHash

theorem queueEditing_hashes_sublist (r : List AccumulationQueue) (x : List Hash) :
    (queueHashes (queueEditing r x)).Sublist (queueHashes r) := by
  rw [queueHashes, queueEditing, map_map]
  exact filter_sublist.map _

section

variable {r : List AccumulationQueue}

theorem exists_of_mem_priorityQueue {w : WorkReport} (hw : w ∈ priorityQueue r) :
    ∃ e ∈ r, e.workReport = w := by
  rw [priorityQueue_eq_release] at hw
  obtain ⟨v, hv, rfl⟩ := exists_of_mem_release _ hw
  obtain ⟨e, he, rfl⟩ := mem_map.mp hv
  exact ⟨e, he, rfl⟩

theorem waiting_hashes (r : List AccumulationQueue) :
    ((r.map toWaiting).map fun w => w.item.workPackageHash) = queueHashes r := by
  rw [map_map]
  rfl

theorem mapping_priorityQueue_nodup (hr : (queueHashes r).Nodup) :
    (mapping (priorityQueue r)).Nodup := by
  rw [priorityQueue_eq_release]
  exact release_nodup _ (by rw [waiting_hashes]; exact hr)

theorem priorityQueue_ordered (hr : (queueHashes r).Nodup) {before after : List WorkReport}
    {e : AccumulationQueue} (he : e ∈ r) (h : priorityQueue r = before ++ e.workReport :: after)
    {d : Hash} (hd : d ∈ e.workPackageHash) : d ∈ mapping before := by
  rw [priorityQueue_eq_release] at h
  exact release_ordered _ (by rw [waiting_hashes]; exact hr) (mem_map_of_mem he) h
    (mem_toFinset.mpr hd)

theorem priorityQueue_maximal {e : AccumulationQueue} (he : e ∈ r)
    (h : e.workReport.workPackageHash ∉ mapping (priorityQueue r)) :
    ∃ d ∈ e.workPackageHash, d ∉ mapping (priorityQueue r) := by
  rw [priorityQueue_eq_release] at h ⊢
  obtain ⟨d, hd, hout⟩ := release_maximal _ (mem_map_of_mem he) h
  exact ⟨d, mem_toFinset.mp hd, hout⟩

end

section

/-! The reports released at once come first; what they leave behind of a queue
`r` is released after them. -/

variable {now : List WorkReport} {r : List AccumulationQueue}

theorem sequence_nodup (h : (mapping now ++ queueHashes r).Nodup) :
    (mapping (now ++ priorityQueue (queueEditing r (mapping now)))).Nodup := by
  rw [nodup_append'] at h
  obtain ⟨hnow, hr, -⟩ := h
  rw [mapping_append, nodup_append']
  refine ⟨hnow, mapping_priorityQueue_nodup (hr.sublist (queueEditing_hashes_sublist r _)), ?_⟩
  intro d hd hd'
  obtain ⟨w, hw, rfl⟩ := mem_map.mp hd'
  obtain ⟨e, he, rfl⟩ := exists_of_mem_priorityQueue hw
  obtain ⟨f, -, hf, rfl⟩ := mem_queueEditing.mp he
  exact hf hd

theorem sequence_ordered (h : (mapping now ++ queueHashes r).Nodup) {e : AccumulationQueue}
    (he : e ∈ r) {before after : List WorkReport}
    (hseq : now ++ priorityQueue (queueEditing r (mapping now)) = before ++ e.workReport :: after)
    {d : Hash} (hd : d ∈ e.workPackageHash) : d ∈ mapping before := by
  rw [nodup_append'] at h
  obtain ⟨-, hr, hdisj⟩ := h
  have hout : e.workReport.workPackageHash ∉ mapping now := fun hm =>
    hdisj hm (mem_map_of_mem he)
  have hnot : e.workReport ∉ now := fun hm => hout (mem_map_of_mem hm)
  obtain ⟨mid, rfl, hlater⟩ := append_eq_append_cons_of_not_mem hseq hnot
  rw [mapping_append, mem_append]
  by_cases hdnow : d ∈ mapping now
  · exact .inl hdnow
  · have hstruck := mem_queueEditing.mpr ⟨e, he, hout, rfl⟩
    refine .inr (priorityQueue_ordered (hr.sublist (queueEditing_hashes_sublist r _)) hstruck
      hlater (mem_struck.mpr ⟨hd, hdnow⟩))

theorem sequence_maximal {e : AccumulationQueue} (he : e ∈ r) (h : e.workReport.workPackageHash ∉
      mapping (now ++ priorityQueue (queueEditing r (mapping now)))) :
    ∃ d ∈ e.workPackageHash, d ∉ mapping (now ++ priorityQueue (queueEditing r (mapping now))) := by
  rw [mapping_append, mem_append, not_or] at h
  obtain ⟨hnow, hlater⟩ := h
  obtain ⟨d, hd, hout⟩ := priorityQueue_maximal (mem_queueEditing.mpr ⟨e, he, hnow, rfl⟩) hlater
  obtain ⟨hmem, hdnow⟩ := mem_struck.mp hd
  refine ⟨d, hmem, ?_⟩
  rw [mapping_append, mem_append, not_or]
  exact ⟨hdnow, hout⟩

end

theorem dependencies_eq_nil_iff : dependencies w = [] ↔
      (w.refineContext.prerequisites.length == 0 && w.segmentRootLookup.length == 0) = true := by
  simp [dependencies]

theorem mem_accumulatedImmediately {ws : List WorkReport} :
    w ∈ accumulatedImmediately ws ↔ w ∈ ws ∧ dependencies w = [] := by
  rw [accumulatedImmediately, mem_filter, dependencies_eq_nil_iff]

/-- The entry of a report with dependencies: it records those that the history
does not hold. -/
theorem mem_queuedExecution {j : JamState} {ws : List WorkReport} :
    e ∈ j.queuedExecution ws ↔
      ∃ w ∈ ws, dependencies w ≠ [] ∧ w.workPackageHash ∉ j.accumulated ∧ e = ⟨w,
        ((depandancy w).workPackageHash.filter fun h => !j.accumulated.contains h).insertionSort
          (· ≤ ·)⟩ := by
  have hdeps : ∀ w : WorkReport, (w.refineContext.prerequisites.length != 0 ||
      w.segmentRootLookup.length != 0) = true ↔ dependencies w ≠ [] := by
    intro w
    rw [ne_eq, dependencies_eq_nil_iff, Bool.not_eq_true, Bool.and_eq_false_iff, Bool.or_eq_true]
    simp [bne]
  rw [JamState.queuedExecution, mem_queueEditing]
  constructor
  · rintro ⟨f, hf, hout, rfl⟩
    obtain ⟨w, hw, rfl⟩ := mem_map.mp hf
    obtain ⟨hmem, hne⟩ := mem_filter.mp hw
    exact ⟨w, hmem, (hdeps w).mp hne, hout, rfl⟩
  · rintro ⟨w, hmem, hne, hout, rfl⟩
    exact ⟨depandancy w, mem_map_of_mem (mem_filter.mpr ⟨hmem, (hdeps w).mpr hne⟩), hout, rfl⟩

/-- What such an entry waits for. -/
theorem mem_queued_hashes {j : JamState} :
    d ∈ ((depandancy w).workPackageHash.filter fun h => !j.accumulated.contains h).insertionSort
        (· ≤ ·) ↔ d ∈ dependencies w ∧ d ∉ j.accumulated := by
  rw [mem_struck, depandancy, mem_insertionSort, mem_dedup]

/-- The reports released at once and the new entries share no report. -/
theorem available_hashes_nodup {j : JamState} {ws : List WorkReport} {hs : List Hash}
    (h : (hs ++ mapping ws).Nodup) :
    (mapping (accumulatedImmediately ws) ++ (hs ++ queueHashes (j.queuedExecution ws))).Nodup := by
  -- the available reports are those without dependencies and those with
  have hperm := (filter_append_perm (fun w : WorkReport =>
    w.refineContext.prerequisites.length == 0 && w.segmentRootLookup.length == 0) ws).map
      WorkReport.workPackageHash
  have hqueued : (queueHashes (j.queuedExecution ws)).Sublist
      ((ws.filter fun w => !(w.refineContext.prerequisites.length == 0 &&
        w.segmentRootLookup.length == 0)).map WorkReport.workPackageHash) := by
    refine (queueEditing_hashes_sublist _ _).trans ?_
    rw [queueHashes, map_map]
    simp only [Bool.not_and]
    exact List.Sublist.refl _
  rw [map_append] at hperm
  have hall : (hs ++ (mapping (accumulatedImmediately ws) ++
      queueHashes (j.queuedExecution ws))).Nodup := by
    refine ((List.Perm.append_left hs hperm).nodup_iff.mpr h).sublist ?_
    exact (List.Sublist.refl hs).append ((List.Sublist.refl _).append hqueued)
  refine (List.Perm.nodup_iff ?_).mpr hall
  rw [← append_assoc, ← append_assoc]
  exact perm_append_comm.append_right _

variable {j : JamState} {slot : UInt32} {ws : List WorkReport}

/-- The reports released at once, then the queue and the new entries. -/
theorem accumulatableSequence_eq (j : JamState) (slot : UInt32) (ws : List WorkReport) :
    j.accumulatableSequence slot ws = accumulatedImmediately ws ++
      priorityQueue (queueEditing (j.readyEntries slot ++ j.queuedExecution ws)
        (mapping (accumulatedImmediately ws))) := rfl

theorem sequence_hashes_nodup (slot : UInt32) (h : (queueHashes j.readyQueue ++ mapping ws).Nodup) :
    (mapping (accumulatedImmediately ws) ++
      queueHashes (j.readyEntries slot ++ j.queuedExecution ws)).Nodup := by
  have hperm : (queueHashes (j.readyEntries slot)).Perm (queueHashes j.readyQueue) :=
    (readyEntries_perm j slot).map _
  rw [queueHashes, map_append]
  exact available_hashes_nodup ((hperm.append_right _).nodup_iff.mpr h)

variable {x : WorkReport}

/-- Every element of the sequence is an available report or comes from the
queue. -/
theorem mem_accumulatableSequence (hx : x ∈ j.accumulatableSequence slot ws) :
    x ∈ ws ∨ ∃ e ∈ j.readyQueue, e.workReport = x := by
  rw [accumulatableSequence_eq] at hx
  rcases mem_append.mp hx with hx | hx
  · exact .inl (mem_accumulatedImmediately.mp hx).1
  · obtain ⟨e, he, rfl⟩ := exists_of_mem_priorityQueue hx
    obtain ⟨f, hf, -, rfl⟩ := mem_queueEditing.mp he
    rcases mem_append.mp hf with hf | hf
    · exact .inr ⟨f, (readyEntries_perm j slot).mem_iff.mp hf, rfl⟩
    · obtain ⟨w, hw, -, -, rfl⟩ := mem_queuedExecution.mp hf
      exact .inl hw

/-- With distinct package hashes, a report whose hash is in the sequence is in
the sequence. -/
theorem mem_sequence_of_hash_mem (h : (queueHashes j.readyQueue ++ mapping ws).Nodup)
    (hx : x ∈ ws ∨ ∃ e ∈ j.readyQueue, e.workReport = x)
    (hm : x.workPackageHash ∈ mapping (j.accumulatableSequence slot ws)) :
    x ∈ j.accumulatableSequence slot ws := by
  have hnodup : ((j.readyQueue.map (·.workReport) ++ ws).map WorkReport.workPackageHash).Nodup := by
    rw [map_append, map_map]
    exact h
  have hlisted : ∀ y, (y ∈ ws ∨ ∃ e ∈ j.readyQueue, e.workReport = y) →
      y ∈ j.readyQueue.map (·.workReport) ++ ws := by
    rintro y (hy | ⟨e, he, rfl⟩)
    · exact mem_append_right _ hy
    · exact mem_append_left _ (mem_map_of_mem he)
  obtain ⟨y, hy, hyx⟩ := mem_map.mp hm
  have hxy := inj_on_of_nodup_map hnodup (hlisted y (mem_accumulatableSequence hy))
    (hlisted x hx) hyx
  exact hxy ▸ hy

/-- An available report with dependencies is in the sequence only when its own
package is not in the history. -/
theorem not_accumulated_of_mem_sequence (h : (queueHashes j.readyQueue ++ mapping ws).Nodup)
    (hx : x ∈ ws) (hne : dependencies x ≠ [])
    (hm : x ∈ j.accumulatableSequence slot ws) : x.workPackageHash ∉ j.accumulated := by
  rw [accumulatableSequence_eq] at hm
  rcases mem_append.mp hm with hm | hm
  · exact absurd (mem_accumulatedImmediately.mp hm).2 hne
  · obtain ⟨e, he, rfl⟩ := exists_of_mem_priorityQueue hm
    obtain ⟨f, hf, -, rfl⟩ := mem_queueEditing.mp he
    rcases mem_append.mp hf with hf | hf
    · -- an entry of the queue would share its hash with an available report
      have hqueue : f.workReport.workPackageHash ∈ queueHashes j.readyQueue :=
        mem_map_of_mem ((readyEntries_perm j slot).mem_iff.mp hf)
      exact absurd (mem_map_of_mem hx) ((nodup_append'.mp h).2.2 hqueue)
    · obtain ⟨w, -, -, hout, rfl⟩ := mem_queuedExecution.mp hf
      exact hout

/-- **The accumulation sequence is a maximal topological order.** When the
reports of the ready queue and the available ones have distinct package hashes,
no package occurs twice, a report comes after the packages it depends on (for an
available report those not in the history, for an entry of the queue the recorded
ones), and a report left out waits for a package that is left out too. -/
theorem accumulatableSequence_topological (j : JamState) (slot : UInt32) (ws : List WorkReport)
    (h : (queueHashes j.readyQueue ++ mapping ws).Nodup) :
    (mapping (j.accumulatableSequence slot ws)).Nodup ∧
      (∀ x ∈ j.accumulatableSequence slot ws, x ∈ ws ∨ ∃ e ∈ j.readyQueue, e.workReport = x) ∧
      (∀ before x after, j.accumulatableSequence slot ws = before ++ x :: after →
        (x ∈ ws → ∀ d ∈ dependencies x, d ∈ j.accumulated ∨ d ∈ mapping before) ∧
        ∀ e ∈ j.readyQueue, e.workReport = x → ∀ d ∈ e.workPackageHash, d ∈ mapping before) ∧
      (∀ e ∈ j.readyQueue, e.workReport ∉ j.accumulatableSequence slot ws →
        ∃ d ∈ e.workPackageHash, d ∉ mapping (j.accumulatableSequence slot ws)) ∧
      ∀ x ∈ ws, x ∉ j.accumulatableSequence slot ws → x.workPackageHash ∉ j.accumulated →
        ∃ d ∈ dependencies x, d ∉ j.accumulated ∧
          d ∉ mapping (j.accumulatableSequence slot ws) := by
  have hnodup := sequence_hashes_nodup slot h
  have hqueue : ∀ e ∈ j.readyQueue, e ∈ j.readyEntries slot ++ j.queuedExecution ws :=
    fun e he => mem_append_left _ ((readyEntries_perm j slot).mem_iff.mpr he)
  refine ⟨sequence_nodup hnodup, fun x hx => mem_accumulatableSequence hx, ?_, ?_, ?_⟩
  · intro before x after hseq
    constructor
    · intro hx d hd
      by_cases hhist : d ∈ j.accumulated
      · exact .inl hhist
      · have hne : dependencies x ≠ [] := ne_nil_of_mem hd
        have hmem : x ∈ j.accumulatableSequence slot ws := by rw [hseq]; simp
        have hentry := mem_queuedExecution.mpr
          ⟨x, hx, hne, not_accumulated_of_mem_sequence h hx hne hmem, rfl⟩
        exact .inr (sequence_ordered hnodup (mem_append_right _ hentry) hseq
          (mem_queued_hashes.mpr ⟨hd, hhist⟩))
    · rintro e he rfl d hd
      exact sequence_ordered hnodup (hqueue e he) hseq hd
  · intro e he hout
    exact sequence_maximal (hqueue e he) fun hm =>
      hout (mem_sequence_of_hash_mem h (.inr ⟨e, he, rfl⟩) hm)
  · intro x hx hout hhist
    have hne : dependencies x ≠ [] := fun hnil =>
      hout (mem_append_left _ (mem_accumulatedImmediately.mpr ⟨hx, hnil⟩))
    have hentry := mem_queuedExecution.mpr ⟨x, hx, hne, hhist, rfl⟩
    obtain ⟨d, hd, hdout⟩ := sequence_maximal (mem_append_right _ hentry) fun hm =>
      hout (mem_sequence_of_hash_mem h (.inl hx) hm)
    obtain ⟨hdep, hdhist⟩ := mem_queued_hashes.mp hd
    exact ⟨d, hdep, hdhist, hdout⟩

end

/-- Package 3 depends on the packages 1 and 2, and waits in the queue for 2
only: 1 was accumulated and has left the history. -/
def struckDependency : JamState :=
  { freshState with
    accumulationQueue := Vector.replicate epochLength [] |>.set 0 [⟨plainReport 3 0 [1, 2], [2]⟩] }

theorem accumulatableSequence_topological_struckDependency :
    (mapping (struckDependency.accumulatableSequence 5 [plainReport 2 1 []])).Nodup ∧
      ∀ d ∈ [(2 : Hash)], d ∈ mapping [plainReport 2 1 []] := by
  have h := accumulatableSequence_topological struckDependency 5 [plainReport 2 1 []]
    (by decide +kernel)
  refine ⟨h.1, (h.2.2.1 [plainReport 2 1 []] (plainReport 3 0 [1, 2]) [] ?_).2
    ⟨plainReport 3 0 [1, 2], [2]⟩ ?_ rfl⟩
  · decide +kernel
  · decide +kernel

/-- When package 2 becomes available, 3 follows it although its dependency 1 is
neither in the history nor in the sequence. -/
theorem struckDependency_released :
    (queueHashes struckDependency.readyQueue ++ mapping [plainReport 2 1 []]).Nodup ∧
      struckDependency.accumulatableSequence 5 [plainReport 2 1 []] =
        [plainReport 2 1 []] ++ plainReport 3 0 [1, 2] :: [] ∧
      (1 : Hash) ∈ dependencies (plainReport 3 0 [1, 2]) ∧
      (1 : Hash) ∉ struckDependency.accumulated ∧
      (1 : Hash) ∉ mapping [plainReport 2 1 []] := by
  decide +kernel

end JamDuna.StateDB
