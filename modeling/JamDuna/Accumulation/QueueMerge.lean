/-
# Merging the authorization queues of a batch

`ParallelizedAccumulate` (`statedb/accumulate.go`) takes over the whole queue of
every result with `QueueDirty` set, in ascending order of the services. So the
last such service decides about all cores (`queue_mergeResults`), also about those
whose assigner is another service of the batch, and about those of which it made
itself the assigner during its run.

`assignedQueue` is what the cores are to hold: core `c` what the service that was
its assigner before the batch wrote. When the merge gives that is
`parallelizedAccumulate_queue_iff`.
-/

import JamDuna.Accumulation.Parallel
import JamDuna.Basis.Keyed

namespace JamDuna.Accumulation

open JamDuna.Types JamDuna.Basis Option Batch

/-- The results of the batch that `ParallelizedAccumulate` runs. -/
def batchOf (blake2 : Bytes → Hash) (env : HostEnv) (o : PartialState)
    (transfersIn : List DeferredTransfer) (workReports : List WorkReport)
    (freeAccumulation : List (UInt32 × UInt64)) (run : UInt32 → ServiceRun) : Batch o :=
  runBatch blake2 env o transfersIn run (batchServices transfersIn workReports freeAccumulation)
    (batchServices_sorted transfersIn workReports freeAccumulation)

section

variable {o : PartialState} (b : Batch o)

theorem Batch.nodup : (b.results.map (·.service)).Nodup := b.sorted.imp fun h => UInt32.ne_of_lt h

/-- The partial state that a service of the batch ended with. -/
def Batch.partialOf (s : UInt32) : Option PartialState :=
  (byKey (·.service) b.results s).map (·.xy.u)

theorem Batch.partialOf_of_mem {r : AccRes} (hr : r ∈ b.results) :
    b.partialOf r.service = some r.xy.u := by
  unfold partialOf
  rw [byKey_of_mem _ b.nodup hr]
  rfl

variable {s : UInt32} {u : PartialState}

theorem Batch.exists_of_partialOf (h : b.partialOf s = some u) :
    ∃ r ∈ b.results, r.service = s ∧ r.xy.u = u := by
  obtain ⟨r, hr, rfl⟩ := map_eq_some_iff.mp h
  exact ⟨r, mem_of_byKey _ hr, key_of_byKey _ hr, rfl⟩

theorem Batch.kept_partialOf (h : b.partialOf s = some u) : Kept o u := by
  obtain ⟨r, hr, -, rfl⟩ := b.exists_of_partialOf h
  exact b.kept r hr

end

section

variable {o : PartialState}

/-- The result with `QueueDirty` set that is merged last. -/
def Batch.lastDirty (b : Batch o) : Option AccRes := (b.results.filter (·.xy.u.queueDirty)).getLast?

/-- **What the merge does to the queue**: the last dirty result replaces it. -/
theorem queue_mergeResults (b : Batch o) : (mergeResults o b.results).queueWorkReport =
    (b.lastDirty.map (·.xy.u.queueWorkReport)).getD o.queueWorkReport := by
  unfold mergeResults lastDirty
  rw [← foldl_ite_last]
  exact (List.foldl_hom (fun st : PartialState × Mutated => st.1.queueWorkReport)
    (fun _ _ => rfl)).symm

/-- The queue that core `c` is to hold after the batch: the one its assigner ended
with, and the old one if the assigner did not run. -/
def Batch.assignedQueue (b : Batch o) (c : Fin totalCores) : CoreQueue :=
  match b.partialOf (o.privilegedState.authQueueServiceID c) with
  | some u => u.queueWorkReport c
  | none => o.queueWorkReport c

theorem Batch.mem_of_lastDirty {b : Batch o} {r : AccRes} (h : b.lastDirty = some r) :
    r ∈ b.results :=
  (List.mem_filter.mp (List.mem_of_getLast? h)).1

/-- Without a dirty result every core is to keep its queue. -/
theorem Batch.assignedQueue_of_clean {b : Batch o} (h : b.lastDirty = none) (c : Fin totalCores) :
    b.assignedQueue c = o.queueWorkReport c := by
  unfold assignedQueue
  cases hu : b.partialOf (o.privilegedState.authQueueServiceID c) with
  | none => rfl
  | some u =>
    obtain ⟨r, hr, -, rfl⟩ := b.exists_of_partialOf hu
    have hclean : r.xy.u.queueDirty = false := by
      have hnil := List.getLast?_eq_none_iff.mp h
      simpa using List.filter_eq_nil_iff.mp hnil r hr
    exact congrFun ((b.kept r hr).queue hclean) c

end

section

variable (blake2 : Bytes → Hash) (env : HostEnv) (timeslot : UInt32) (o : PartialState)
  (transfersIn : List DeferredTransfer) (workReports : List WorkReport)
  (freeAccumulation : List (UInt32 × UInt64)) (partials : List (UInt32 × XContext))
  (run : UInt32 → ServiceRun)

/-- Outside the accounts, `ParallelizedAccumulate` is the merge of its batch. -/
theorem parallelizedAccumulate_eq_merge :
    ∃ accounts, (parallelizedAccumulate blake2 env timeslot o transfersIn workReports
      freeAccumulation partials run).o =
        { mergeResults o (batchOf blake2 env o transfersIn workReports freeAccumulation run).results
          with serviceAccounts := accounts } := by
  unfold parallelizedAccumulate
  dsimp only
  split_ifs with hnil
  · refine ⟨o.serviceAccounts, ?_⟩
    have hresults :
        (batchOf blake2 env o transfersIn workReports freeAccumulation run).results = [] := by
      simp [batchOf, runBatch, List.isEmpty_iff.mp hnil]
    rw [hresults]
    rfl
  · exact ⟨_, rfl⟩

/-- **The queues of the cores.** After a batch every core holds the queue that its
assigner wrote, or its old one, precisely when no ASSIGN of the batch succeeded, or
the last service with a successful ASSIGN has these very queues in its copy for all
cores of which it was not the assigner. -/
theorem parallelizedAccumulate_queue_iff :
    (∀ c, (parallelizedAccumulate blake2 env timeslot o transfersIn workReports freeAccumulation
        partials run).o.queueWorkReport c =
          (batchOf blake2 env o transfersIn workReports freeAccumulation run).assignedQueue c) ↔
      ∀ r, (batchOf blake2 env o transfersIn workReports freeAccumulation run).lastDirty = some r →
        ∀ c, o.privilegedState.authQueueServiceID c ≠ r.service → r.xy.u.queueWorkReport c =
            (batchOf blake2 env o transfersIn workReports freeAccumulation run).assignedQueue c := by
  generalize hb : batchOf blake2 env o transfersIn workReports freeAccumulation run = b
  have hqueue : (parallelizedAccumulate blake2 env timeslot o transfersIn workReports
      freeAccumulation partials run).o.queueWorkReport =
        (b.lastDirty.map (·.xy.u.queueWorkReport)).getD o.queueWorkReport := by
    obtain ⟨accounts, hout⟩ := parallelizedAccumulate_eq_merge blake2 env timeslot o transfersIn
      workReports freeAccumulation partials run
    rw [hout, hb]
    exact queue_mergeResults b
  rw [hqueue]
  cases hlast : b.lastDirty with
  | none => simp [assignedQueue_of_clean hlast]
  | some r =>
    simp only [map_some, getD_some, some.injEq, forall_eq']
    refine ⟨fun h c _ => h c, fun h c => ?_⟩
    by_cases hown : o.privilegedState.authQueueServiceID c = r.service
    · unfold assignedQueue
      rw [hown, b.partialOf_of_mem (mem_of_lastDirty hlast)]
    · exact h c hown

end

/-- A trie in which every service has an account with code. -/
def populatedEnv : HostEnv where
  getService := fun s => some { serviceIndex := s }
  readServicePreimageBlob := fun _ _ => some []
  readServicePreimageLookup := fun _ _ _ => none

/-- A partial state with manager 9 and the assigners 1 and 2 for the two cores; the
queues hold zeros. -/
def twoAssigners : PartialState where
  serviceAccounts := fun _ => none
  upcomingValidators := []
  upcomingDirty := false
  queueWorkReport := fun _ => Vector.replicate _ 0
  queueDirty := false
  privilegedState := ⟨9, ![1, 2], 9, 9, fun _ => none⟩
  privilegedDirty := false

/-- A run that makes the given host calls and ends regularly. -/
def regularRun (calls : List HostCall) : ServiceRun := ⟨calls, false, 0, none⟩

/-- The services 1 and 2 each assign a new queue to their own core and remain the
assigner. -/
def assignOwnCores (s : UInt32) : ServiceRun :=
  if s = 1 then regularRun [.assign 0 (Vector.replicate _ 7) 1]
  else regularRun [.assign 1 (Vector.replicate _ 8) 2]

/-- Core 0 loses the queue that its assigner wrote: service 2 is merged last, and
its copy still has the old queue of core 0. -/
theorem other_assigner_reverts_queue :
    let b := batchOf (fun _ => 0) populatedEnv twoAssigners [] [] [(1, 0), (2, 0)] assignOwnCores
    let out := parallelizedAccumulate (fun _ => 0) populatedEnv 1 twoAssigners [] []
      [(1, 0), (2, 0)] [] assignOwnCores
    b.assignedQueue 0 = Vector.replicate _ 7 ∧ b.assignedQueue 1 = Vector.replicate _ 8 ∧
      out.o.queueWorkReport 0 = Vector.replicate _ 0 ∧
      out.o.queueWorkReport 1 = Vector.replicate _ 8 := by
  decide +kernel

end JamDuna.Accumulation
