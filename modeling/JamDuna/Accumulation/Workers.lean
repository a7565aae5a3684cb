/-
# The workers of a batch

`ParallelizedAccumulate` of `statedb/accumulate.go` sends the services of a batch to a pool of
goroutines. A worker takes the next service, accumulates it on its own copy of the state, and
sends the result, if there is a context; so the results arrive in the order in which the services
end. They are sorted by service before the merge, and no two have the same service: whatever the
order was, the outcome is that of the batch run in ascending order.
-/

import JamDuna.Accumulation.Parallel
import JamDuna.Basis.Runs

namespace JamDuna.Accumulation

open JamDuna.Types JamDuna.Basis List

/-- The services that wait in the channel, those that a worker has taken, and the results in the
order of their arrival. -/
structure Pool where
  jobs : List UInt32
  taken : List UInt32
  results : List AccRes

/-- A worker takes the next service, or a service that was taken ends. -/
inductive PoolEvent where
  | take
  | done (service : UInt32)

/-- What an event does, with `par` workers; `single` is `SingleAccumulate` on a copy of the state,
and nothing is sent for the nil context. -/
def Pool.step (par : ℕ) (single : UInt32 → Option AccRes) (p : Pool) : PoolEvent → Option Pool
  | .take =>
    match p.jobs with
    | [] => none
    | s :: jobs =>
      if p.taken.length < par then some { p with jobs := jobs, taken := s :: p.taken } else none
  | .done s =>
    if s ∈ p.taken then
      some { p with taken := p.taken.erase s, results := p.results ++ (single s).toList }
    else none

/-- The results arrive in this order in some run of the pool. -/
def Arrive (par : ℕ) (single : UInt32 → Option AccRes) (services : List UInt32)
    (results : List AccRes) : Prop :=
  ∃ events, Run (fun p e q => Pool.step par single p e = some q) ⟨services, [], []⟩ events
    ⟨[], [], results⟩

variable {par : ℕ} {single : UInt32 → Option AccRes} {services : List UInt32}
  {results : List AccRes}

/-- An event neither loses nor repeats a result. -/
theorem perm_of_step {p q : Pool} {e : PoolEvent} (h : p.step par single e = some q) :
    (q.results ++ (q.jobs ++ q.taken).filterMap single).Perm
      (p.results ++ (p.jobs ++ p.taken).filterMap single) := by
  obtain ⟨jobs, taken, results⟩ := p
  cases e with
  | take =>
    cases jobs with
    | nil => cases h
    | cons s jobs =>
      dsimp only [Pool.step] at h
      split_ifs at h
      cases h
      exact (perm_middle.filterMap single).append_left results
  | done s =>
    dsimp only [Pool.step] at h
    split_ifs at h with hs
    cases h
    have hcons (l : List UInt32) :
        (s :: l).filterMap single = (single s).toList ++ l.filterMap single := by
      cases hsingle : single s <;> simp [hsingle]
    have hperm : (s :: (jobs ++ taken.erase s)).Perm (jobs ++ taken) :=
      perm_middle.symm.trans ((perm_cons_erase hs).symm.append_left jobs)
    have hsent := hperm.filterMap single
    rw [hcons] at hsent
    rw [append_assoc]
    exact hsent.append_left results

/-- **Every run of the pool ends with the results of all services**, in some order. -/
theorem Arrive.perm (h : Arrive par single services results) :
    results.Perm (services.filterMap single) := by
  obtain ⟨events, hrun⟩ := h
  have hall := hrun.preserves (P := fun p => (p.results ++
    (p.jobs ++ p.taken).filterMap single).Perm (services.filterMap single))
    (fun _ _ _ hstep hp => (perm_of_step hstep).trans hp) (by simp)
  simpa using hall

/-- One worker, taking each service after the other. -/
theorem arrive_in_order (hpar : 0 < par) :
    Arrive par single services (services.filterMap single) := by
  suffices ∀ results : List AccRes, ∃ events,
      Run (fun p e q => Pool.step par single p e = some q) ⟨services, [], results⟩ events
        ⟨[], [], results ++ services.filterMap single⟩ from this []
  induction services with
  | nil => exact fun results => ⟨[], by simpa using Run.refl⟩
  | cons s services ih =>
    intro results
    obtain ⟨events, hrun⟩ := ih (results ++ (single s).toList)
    have htake : Pool.step par single ⟨s :: services, [], results⟩ .take =
        some ⟨services, [s], results⟩ := if_pos hpar
    have hdone : Pool.step par single ⟨services, [s], results⟩ (.done s) =
        some ⟨services, [], results ++ (single s).toList⟩ := by simp [Pool.step]
    have hlast : results ++ (s :: services).filterMap single =
        results ++ (single s).toList ++ services.filterMap single := by
      cases hsingle : single s <;> simp [hsingle]
    rw [hlast]
    exact ⟨_, ((Run.single htake).trans (Run.single hdone)).trans hrun⟩

section

variable (blake2 : Bytes → Hash) (env : HostEnv) (timeslot : UInt32) (o : PartialState)
  (transfersIn : List DeferredTransfer) (workReports : List WorkReport)
  (freeAccumulation : List (UInt32 × UInt64)) (partials : List (UInt32 × XContext))
  (run : UInt32 → ServiceRun)

/-- `ParallelizedAccumulate`, from the results in the order of their arrival on. -/
def collectResults (results : List AccRes) : ParallelOutcome :=
  if (batchServices transfersIn workReports freeAccumulation).isEmpty then
    ⟨o, partials, 0, [], [], []⟩
  else mergeBatch blake2 env timeslot o partials
    (results.insertionSort fun r r' => r.service ≤ r'.service)

/-- The results arrive in this order in some run of the pool over the batch, on a machine with so
many processors. -/
def BatchArrive (procs : ℕ) (results : List AccRes) : Prop :=
  Arrive (max 1 procs) (fun s => singleAccumulate blake2 env o transfersIn (run s) s)
    (batchServices transfersIn workReports freeAccumulation) results

/-- **The order in which the services end does not matter**, for any number of processors: there
is a run of the pool, and after every run the outcome is the same. -/
theorem collectResults_eq (procs : ℕ) : (∃ results,
      BatchArrive blake2 env o transfersIn workReports freeAccumulation run procs results) ∧
    ∀ results, BatchArrive blake2 env o transfersIn workReports freeAccumulation run procs results →
        collectResults blake2 env timeslot o transfersIn workReports freeAccumulation partials
          results = parallelizedAccumulate blake2 env timeslot o transfersIn workReports
            freeAccumulation partials run := by
  refine ⟨⟨_, arrive_in_order (by omega)⟩, fun results harrive => ?_⟩
  set batch := runBatch blake2 env o transfersIn run _
    (batchServices_sorted transfersIn workReports freeAccumulation)
  have hsorted := batch.sorted
  -- both lists are sorted, and a service has one result
  have hsort : results.insertionSort (fun r r' => r.service ≤ r'.service) = batch.results := by
    have hperm := (perm_insertionSort (fun r r' => r.service ≤ r'.service) results).trans
      (Arrive.perm harrive)
    have hnodup : (batch.results.map (·.service)).Nodup := hsorted.imp fun h => UInt32.ne_of_lt h
    refine hperm.eq_of_pairwise (fun r r' hr hr' hle hle' => ?_) (pairwise_insertionSort _ results)
      ((pairwise_map.mp hsorted).imp fun h => UInt32.le_of_lt h)
    exact inj_on_of_nodup_map hnodup (hperm.mem_iff.mp hr) hr' (UInt32.le_antisymm hle hle')
  unfold collectResults parallelizedAccumulate
  rw [hsort]

end

end JamDuna.Accumulation
