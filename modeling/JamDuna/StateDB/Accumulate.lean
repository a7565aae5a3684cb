/-
# The ready queue and the order of accumulation

`statedb/accumulate.go`: from the available reports, the ready queue and the
accumulation history to the sequence of reports to accumulate
(`AccumulatableSequence`), and the update of queue and history afterwards
(`ApplyStateTransitionAccumulation`).

The queue has one list of entries for every slot of an epoch. An entry holds a
report and the package hashes it *still* waits for: `QueueEditing` strikes the
hashes of accumulated packages from that list and drops entries whose own
package is accumulated. `PriorityQueue` recurses on the edited list; it stops
because every round with a result drops the entries of that result
(`queueEditing_length_lt`).

`sort.Slice` on hashes is `List.insertionSort`: the order is total, so every sort
yields the same list. The gas and the machine that decide how much of the
sequence is accumulated are outside; their outcome is the parameter `num`.
-/

import JamDuna.StateDB.State

namespace JamDuna.StateDB

open JamDuna.Types

/-- `AccumulatedImmediately`: the reports without dependencies. -/
def accumulatedImmediately (workReports : List WorkReport) : List WorkReport :=
  workReports.filter fun w =>
    w.refineContext.prerequisites.length == 0 && w.segmentRootLookup.length == 0

/-- The prerequisites of a report and the packages of its segment roots. -/
def dependencies (w : WorkReport) : List Hash :=
  w.refineContext.prerequisites ++ w.segmentRootLookup.map (·.workPackageHash)

/-- `Depandancy`: the dependencies as a set, in order. -/
def depandancy (w : WorkReport) : AccumulationQueue :=
  ⟨w, (dependencies w).dedup.insertionSort (· ≤ ·)⟩

/-- `QueueEditing`. -/
def queueEditing (r : List AccumulationQueue) (x : List Hash) : List AccumulationQueue :=
  (r.filter fun item => !x.contains item.workReport.workPackageHash).map fun item =>
    ⟨item.workReport, (item.workPackageHash.filter fun h => !x.contains h).insertionSort (· ≤ ·)⟩

/-- `Mapping`. -/
def mapping (w : List WorkReport) : List Hash := w.map (·.workPackageHash)

/-- The reports of the entries that wait for nothing: the loop of
`PriorityQueue`. -/
def unblocked (r : List AccumulationQueue) : List WorkReport :=
  (r.filter fun item => item.workPackageHash.length == 0).map (·.workReport)

/-- A round of `PriorityQueue` with a result shortens the queue. -/
theorem queueEditing_length_lt {r : List AccumulationQueue} (h : unblocked r ≠ []) :
    (queueEditing r (mapping (unblocked r))).length < r.length := by
  obtain ⟨w, hw⟩ := List.exists_mem_of_ne_nil _ h
  obtain ⟨item, hitem, rfl⟩ := List.mem_map.mp hw
  rw [queueEditing, List.length_map]
  refine List.length_filter_lt_length_iff_exists.mpr ⟨item, (List.mem_filter.mp hitem).1, ?_⟩
  have hmem : item.workReport.workPackageHash ∈ mapping (unblocked r) := List.mem_map_of_mem hw
  simpa using hmem

/-- `PriorityQueue`. -/
def priorityQueue (r : List AccumulationQueue) : List WorkReport :=
  if _h : unblocked r = [] then []
  else unblocked r ++ priorityQueue (queueEditing r (mapping (unblocked r)))
termination_by r.length
decreasing_by exact queueEditing_length_lt _h

/-- The whole accumulation history in one list: `accumulatedcup` of
`QueuedExecution`. -/
def JamState.accumulated (j : JamState) : List Hash := j.accumulationHistory.toList.flatten

/-- `QueuedExecution`: the entries of the reports with dependencies, less what
the history holds. -/
def JamState.queuedExecution (j : JamState) (workReports : List WorkReport) :
    List AccumulationQueue :=
  queueEditing ((workReports.filter fun w =>
    w.refineContext.prerequisites.length != 0 || w.segmentRootLookup.length != 0).map depandancy)
    j.accumulated

/-- `CurrentEpochSlot`, for the slot of the block's header. -/
def currentEpochSlot (slot : UInt32) : ℕ := slot.toNat % epochLength

/-- All entries of the ready queue. -/
def JamState.readyQueue (j : JamState) : List AccumulationQueue :=
  j.accumulationQueue.toList.flatten

/-- The ready queue from the current slot of the epoch on, round once. -/
def JamState.readyEntries (j : JamState) (slot : UInt32) : List AccumulationQueue :=
  (j.accumulationQueue.toList.drop (currentEpochSlot slot)).flatten ++
    (j.accumulationQueue.toList.take (currentEpochSlot slot)).flatten

/-- Going round once meets every entry. -/
theorem readyEntries_perm (j : JamState) (slot : UInt32) :
    (j.readyEntries slot).Perm j.readyQueue := by
  have hsplit : j.readyQueue = (j.accumulationQueue.toList.take (currentEpochSlot slot)).flatten ++
      (j.accumulationQueue.toList.drop (currentEpochSlot slot)).flatten := by
    rw [← List.flatten_append, List.take_append_drop]
    rfl
  rw [hsplit]
  exact List.perm_append_comm

/-- `ComputeReadyQueue`. -/
def JamState.computeReadyQueue (j : JamState) (slot : UInt32)
    (queuedExecution : List AccumulationQueue) (accumulatedImmediately : List WorkReport) :
    List AccumulationQueue :=
  queueEditing (j.readyEntries slot ++ queuedExecution) (mapping accumulatedImmediately)

/-- `AccumulatableSequence`. -/
def JamState.accumulatableSequence (j : JamState) (slot : UInt32) (w : List WorkReport) :
    List WorkReport :=
  accumulatedImmediately w ++
    priorityQueue (j.computeReadyQueue slot (j.queuedExecution w) (accumulatedImmediately w))

/-- `GetReadyQueue`: the package hashes that `PriorityQueue` would release. -/
def JamState.getReadyQueue (j : JamState) (slot : UInt32) (w : List WorkReport) : List Hash :=
  mapping (priorityQueue (j.computeReadyQueue slot (j.queuedExecution w)
    (accumulatedImmediately w)))

/-- `UpdateLatestHistory`: the history moves up by one slot, and the last slot
takes the hashes of what was accumulated. -/
def JamState.updateLatestHistory (j : JamState) (wStar : List WorkReport) (num : ℕ) : JamState :=
  { j with accumulationHistory := Vector.ofFn fun i =>
      if h : i.val + 1 < epochLength then j.accumulationHistory.get ⟨i.val + 1, h⟩
      else (mapping (wStar.take num)).insertionSort (· ≤ ·) }

/-- `UpdateReadyQueuedReport`. The loop meets every slot of the queue once: the
current one, `i = 0`, takes the new entries, the slots skipped since the last
block are emptied, and the others are edited. -/
def JamState.updateReadyQueuedReport (j : JamState) (wQ : List AccumulationQueue)
    (previousT : UInt32) : JamState :=
  let timeslot := j.safroleState.timeslot
  if previousT = 0 ∨ timeslot < previousT then j
  else
    let accumulated := j.accumulationHistory.back
    let phase := j.safroleState.phase timeslot
    { j with accumulationQueue := Vector.ofFn fun num =>
        let i := (phase + epochLength - num.val) % epochLength
        if i = 0 then queueEditing wQ accumulated
        else if i < (timeslot - previousT).toNat then []
        else queueEditing (j.queueSlot num) accumulated }

/-- `ApplyStateTransitionAccumulation`. -/
def JamState.applyStateTransitionAccumulation (j : JamState) (available wStar : List WorkReport)
    (num : ℕ) (previousTimeslot : UInt32) : JamState :=
  (j.updateLatestHistory wStar (min num wStar.length)).updateReadyQueuedReport
    (j.queuedExecution available) previousTimeslot

end JamDuna.StateDB
