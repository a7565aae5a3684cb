/-
# The ready queue from block to block

`UpdateLatestHistory` and `UpdateReadyQueuedReport` of `statedb/accumulate.go`.
The queue has one list of entries for each slot of an epoch; `slotHashes` are the
packages in one of them. A block puts its new entries into the slot of its
phase, empties the slots that were skipped and strikes what was accumulated from
the rest, so the queue never holds an accumulated package and repeats none
(`readyQueue_updateReadyQueuedReport`).
-/

import JamDuna.StateDB.AccumulationOrder

namespace JamDuna.StateDB

open JamDuna.Types JamState

/-- The packages waiting in one slot of the ready queue. -/
def JamState.slotHashes (j : JamState) (n : Fin epochLength) : List Hash :=
  queueHashes (j.queueSlot n)

theorem queueHashes_readyQueue (j : JamState) :
    queueHashes j.readyQueue = (List.finRange epochLength).flatMap j.slotHashes := by
  have hlist : j.accumulationQueue.toList = (List.finRange epochLength).map j.queueSlot := by
    rw [← List.ofFn_eq_map, ← Vector.toList_ofFn]
    congr 1
    ext n hn
    simp [queueSlot_eq]
  rw [queueHashes, readyQueue, hlist, List.map_flatten, List.map_map, List.flatMap]
  rfl

variable {j : JamState}

variable {p : Hash} {prev : UInt32}

theorem mem_readyQueue_hashes : p ∈ queueHashes j.readyQueue ↔ ∃ n, p ∈ j.slotHashes n := by
  rw [queueHashes_readyQueue, List.mem_flatMap]
  exact ⟨fun ⟨n, _, hn⟩ => ⟨n, hn⟩, fun ⟨n, hn⟩ => ⟨n, List.mem_finRange n, hn⟩⟩

theorem readyQueue_nodup_iff :
    (queueHashes j.readyQueue).Nodup ↔ (∀ n, (j.slotHashes n).Nodup) ∧
        ∀ n n', n ≠ n' → (j.slotHashes n).Disjoint (j.slotHashes n') := by
  rw [queueHashes_readyQueue, List.nodup_flatMap]
  refine and_congr ⟨fun h n => h n (List.mem_finRange n), fun h n _ => h n⟩ ?_
  constructor
  · intro h n n' hne
    have : Std.Symm (Function.onFun List.Disjoint j.slotHashes) := ⟨fun _ _ hd => hd.symm⟩
    exact h.forall (List.mem_finRange n) (List.mem_finRange n') hne
  · intro h
    exact (List.nodup_finRange _).pairwise_of_forall_ne fun n _ n' _ hne => h n n' hne

/-- The last slot of the history after a block. -/
theorem mem_back_updateLatestHistory {wStar : List WorkReport} {num : ℕ} :
    p ∈ (j.updateLatestHistory wStar num).accumulationHistory.back ↔
      p ∈ mapping (wStar.take num) := by
  have hback : (j.updateLatestHistory wStar num).accumulationHistory.back =
      (mapping (wStar.take num)).insertionSort (· ≤ ·) := by
    simp [updateLatestHistory, Vector.back]
  rw [hback, List.mem_insertionSort]

/-- `UpdateReadyQueuedReport` changes nothing but the queue. -/
theorem updateReadyQueuedReport_frame (j : JamState) (wQ : List AccumulationQueue) (prev : UInt32) :
    j.updateReadyQueuedReport wQ prev =
      { j with accumulationQueue := (j.updateReadyQueuedReport wQ prev).accumulationQueue } := by
  unfold updateReadyQueuedReport
  simp only
  split_ifs <;> rfl

/-- The slots of the queue after `UpdateReadyQueuedReport`: an edited part of the
new entries in the current slot, and of the old ones elsewhere. -/
theorem slotHashes_updateReadyQueuedReport (wQ : List AccumulationQueue) (hprev : prev ≠ 0)
    (hle : prev ≤ j.safroleState.timeslot) (n : Fin epochLength) :
    (∀ p ∈ (j.updateReadyQueuedReport wQ prev).slotHashes n, p ∉ j.accumulationHistory.back) ∧
      if n.val = j.safroleState.phase j.safroleState.timeslot then
        ((j.updateReadyQueuedReport wQ prev).slotHashes n).Sublist (queueHashes wQ)
      else ((j.updateReadyQueuedReport wQ prev).slotHashes n).Sublist (j.slotHashes n) := by
  set age := (j.safroleState.phase j.safroleState.timeslot + epochLength - n.val) % epochLength
  have hphase := j.safroleState.phase_lt j.safroleState.timeslot
  have hearly : ¬ (prev = 0 ∨ j.safroleState.timeslot < prev) := by
    rintro (h | h)
    · exact hprev h
    · exact absurd hle (UInt32.not_le.mpr h)
  have hslot : (j.updateReadyQueuedReport wQ prev).queueSlot n =
      if age = 0 then queueEditing wQ j.accumulationHistory.back
      else if age < (j.safroleState.timeslot - prev).toNat then []
      else queueEditing (j.queueSlot n) j.accumulationHistory.back := by
    rw [queueSlot_eq]
    simp [updateReadyQueuedReport, hearly, age]
  have hedited : ∀ r : List AccumulationQueue,
      ∀ p ∈ queueHashes (queueEditing r j.accumulationHistory.back),
        p ∉ j.accumulationHistory.back := by
    intro r p hp
    obtain ⟨e, he, rfl⟩ := List.mem_map.mp hp
    obtain ⟨f, -, hf, rfl⟩ := mem_queueEditing.mp he
    exact hf
  have hzero : age = 0 ↔ n.val = j.safroleState.phase j.safroleState.timeslot := by
    have hn : n.val < 12 := n.isLt
    have hphase : j.safroleState.phase j.safroleState.timeslot < 12 := hphase
    change (_ + 12 - n.val) % 12 = 0 ↔ _
    omega
  unfold slotHashes
  rw [hslot]
  by_cases hn : n.val = j.safroleState.phase j.safroleState.timeslot
  · rw [if_pos (hzero.mpr hn), if_pos hn]
    exact ⟨hedited _, queueEditing_hashes_sublist _ _⟩
  · rw [if_neg (mt hzero.mp hn), if_neg hn]
    split_ifs
    · exact ⟨by simp [queueHashes], List.nil_sublist _⟩
    · exact ⟨hedited _, queueEditing_hashes_sublist _ _⟩

/-- **The ready queue after a block** holds no accumulated package, repeats none,
and every package in it was in the queue or is new. -/
theorem readyQueue_updateReadyQueuedReport {wQ : List AccumulationQueue}
    (hprev : prev ≠ 0) (hle : prev ≤ j.safroleState.timeslot)
    (hnodup : (queueHashes wQ ++ queueHashes j.readyQueue).Nodup) :
    (queueHashes (j.updateReadyQueuedReport wQ prev).readyQueue).Nodup ∧
      ∀ p ∈ queueHashes (j.updateReadyQueuedReport wQ prev).readyQueue,
        p ∉ j.accumulationHistory.back ∧ (p ∈ queueHashes wQ ∨ p ∈ queueHashes j.readyQueue) := by
  obtain ⟨hnew, hold, hdisj⟩ := List.nodup_append'.mp hnodup
  obtain ⟨holdslot, holddisj⟩ := readyQueue_nodup_iff.mp hold
  have hslot := slotHashes_updateReadyQueuedReport wQ hprev hle
  have hsub : ∀ n p, p ∈ (j.updateReadyQueuedReport wQ prev).slotHashes n →
      if n.val = j.safroleState.phase j.safroleState.timeslot then p ∈ queueHashes wQ
      else p ∈ j.slotHashes n := by
    intro n p hp
    have h := (hslot n).2
    split_ifs with hn
    · rw [if_pos hn] at h
      exact h.subset hp
    · rw [if_neg hn] at h
      exact h.subset hp
  refine ⟨readyQueue_nodup_iff.mpr ⟨fun n => ?_, fun n n' hne p hp hp' => ?_⟩, fun p hp => ?_⟩
  · have h := (hslot n).2
    split_ifs at h
    · exact hnew.sublist h
    · exact (holdslot n).sublist h
  · -- a package of two slots: both old, or one of them is the current slot
    have h := hsub n p hp
    have h' := hsub n' p hp'
    split_ifs at h h' with hn hn'
    · exact hne (Fin.ext (hn.trans hn'.symm))
    · exact hdisj h (mem_readyQueue_hashes.mpr ⟨n', h'⟩)
    · exact hdisj h' (mem_readyQueue_hashes.mpr ⟨n, h⟩)
    · exact holddisj n n' hne h h'
  · obtain ⟨n, hn⟩ := mem_readyQueue_hashes.mp hp
    refine ⟨(hslot n).1 p hn, ?_⟩
    have h := hsub n p hn
    split_ifs at h
    · exact .inl h
    · exact .inr (mem_readyQueue_hashes.mpr ⟨n, h⟩)

end JamDuna.StateDB
