/-
# Accumulating a batch of services

`SingleAccumulate` and `ParallelizedAccumulate` of `statedb/accumulate.go`. Every
service of the batch runs on a copy of the partial state with the dirty flags
cleared, the results are sorted by service, and one loop merges them back:
accounts entry by entry, the authorization queue and the upcoming validators as a
whole, the privileges field by field. The blobs that the services provided are
integrated last.

The machine that runs a service is outside; `ServiceRun` holds what it decides.
`Batch` is the list of results with what every batch guarantees: a service occurs
once, runs under its own index, and what its dirty flags do not mark is unchanged.
-/

import JamDuna.Accumulation.Context

namespace JamDuna.Accumulation

open JamDuna.Types XContext

/-- What the virtual machine contributes to the accumulation of a service. -/
structure ServiceRun where
  calls : List HostCall
  /-- The run ended out of gas or in a panic. -/
  exceptional : Bool
  gasUsed : UInt64
  /-- The output, when it has 32 bytes. -/
  ok : Option Hash

/-- `accRes`: the result of one service. -/
structure AccRes where
  service : UInt32
  output : Hash
  gasUsed : UInt64
  xy : XContext

section

variable (blake2 : Bytes → Hash) (env : HostEnv) (o : PartialState)

/-- `NewXContext`, after the amounts of the selected transfers are credited. -/
def newXContext (s : UInt32) (account : ServiceAccount) : XContext :=
  ⟨s, o.resetDirtyFlags.setAccount s account, [], 0, []⟩

/-- The account of a service with the transfers to it credited. -/
def ServiceAccount.credit (account : ServiceAccount) (selected : List DeferredTransfer) :
    ServiceAccount :=
  if selected.isEmpty then account
  else { account with
    balance := selected.foldl (fun b t => b + t.amount) account.balance
    dirty := true }

/-- `SingleAccumulate`; `none` is the `nil` context of a service without an account.
A service without code keeps its fresh context. -/
def singleAccumulate (transfersIn : List DeferredTransfer) (run : ServiceRun) (s : UInt32) :
    Option AccRes :=
  match (o.serviceAccounts s).or (env.getService s) with
  | none => none
  | some account =>
    let account := account.credit (transfersIn.filter (·.receiverIndex == s))
    let x := newXContext o s account
    match account.preimageBlob env account.codeHash with
    | none => some ⟨s, 0, 0, x⟩
    | some _ =>
      let vm := runHostCalls blake2 env x run.calls
      if run.exceptional then some ⟨s, vm.y.yield, run.gasUsed, vm.y⟩
      else some ⟨s, run.ok.getD vm.x.yield, run.gasUsed, vm.x⟩

variable {blake2 env o}

theorem kept_newXContext (s : UInt32) (account : ServiceAccount) :
    Kept o (newXContext o s account).u :=
  ⟨fun _ => rfl, fun _ => rfl, fun _ => rfl, fun _ => rfl, fun _ => rfl, fun _ _ => rfl⟩

/-- No host call changes whose context it is. -/
theorem serviceIndex_hostCall (vm : VM) (call : HostCall)
    (h : vm.y.serviceIndex = vm.x.serviceIndex) :
    (vm.hostCall blake2 env call).x.serviceIndex = vm.x.serviceIndex ∧
      (vm.hostCall blake2 env call).y.serviceIndex = vm.x.serviceIndex := by
  cases call with
  | bless | assign | designate =>
    simp only [VM.hostCall, hostBless, hostAssign, assignCore, hostDesignate]
    split_ifs <;> exact ⟨rfl, h⟩
  | checkpoint => exact ⟨rfl, rfl⟩
  | provide target blob =>
    simp only [VM.hostCall, hostProvide]
    split
    · exact ⟨rfl, h⟩
    · split_ifs <;> exact ⟨rfl, h⟩
  | other accounts transfers yield => exact ⟨rfl, h⟩

theorem serviceIndex_runHostCalls (x : XContext) (calls : List HostCall) :
    (runHostCalls blake2 env x calls).x.serviceIndex = x.serviceIndex ∧
      (runHostCalls blake2 env x calls).y.serviceIndex = x.serviceIndex := by
  have hrun : ∀ (calls : List HostCall) (vm : VM), vm.x.serviceIndex = x.serviceIndex →
      vm.y.serviceIndex = x.serviceIndex →
      (calls.foldl (VM.hostCall blake2 env) vm).x.serviceIndex = x.serviceIndex ∧
        (calls.foldl (VM.hostCall blake2 env) vm).y.serviceIndex = x.serviceIndex := by
    intro calls
    induction calls with
    | nil => exact fun _ hx hy => ⟨hx, hy⟩
    | cons call calls ih =>
      intro vm hx hy
      obtain ⟨hx', hy'⟩ : (vm.hostCall blake2 env call).x.serviceIndex = vm.x.serviceIndex ∧
          (vm.hostCall blake2 env call).y.serviceIndex = vm.x.serviceIndex :=
        serviceIndex_hostCall vm call (hy.trans hx.symm)
      exact ih _ (hx'.trans hx) (hy'.trans hx)
  exact hrun calls ⟨x, x⟩ rfl rfl

/-- **What a service returns**: a result under its own index whose unset dirty
flags vouch for unchanged components. -/
theorem singleAccumulate_spec {transfersIn : List DeferredTransfer} {run : ServiceRun}
    {s : UInt32} {r : AccRes} (h : singleAccumulate blake2 env o transfersIn run s = some r) :
    r.service = s ∧ r.xy.serviceIndex = s ∧ Kept o r.xy.u := by
  unfold singleAccumulate at h
  cases hacc : (o.serviceAccounts s).or (env.getService s) with
  | none => simp [hacc] at h
  | some account =>
    simp only [hacc] at h
    generalize account.credit (transfersIn.filter (·.receiverIndex == s)) = account at h
    set vm := runHostCalls blake2 env (newXContext o s account) run.calls
    obtain ⟨hix, hiy⟩ : vm.x.serviceIndex = s ∧ vm.y.serviceIndex = s :=
      serviceIndex_runHostCalls (newXContext o s account) run.calls
    obtain ⟨hkx, hky⟩ : Kept o vm.x.u ∧ Kept o vm.y.u :=
      kept_runHostCalls (kept_newXContext s account) run.calls
    split at h
    · cases h
      exact ⟨rfl, rfl, kept_newXContext s account⟩
    · split_ifs at h
      · cases h
        exact ⟨rfl, hiy, hky⟩
      · cases h
        exact ⟨rfl, hix, hkx⟩

end

/-- The results of a batch, in ascending order of the services. -/
structure Batch (o : PartialState) where
  results : List AccRes
  sorted : (results.map (·.service)).Pairwise (· < ·)
  own : ∀ r ∈ results, r.xy.serviceIndex = r.service
  kept : ∀ r ∈ results, Kept o r.xy.u

/-- The services of a batch: those of the digests, of the free accumulations and of
the transfers, in ascending order. -/
def batchServices (transfersIn : List DeferredTransfer) (workReports : List WorkReport)
    (freeAccumulation : List (UInt32 × UInt64)) : List UInt32 :=
  ((workReports.flatMap fun w => w.results.map (·.serviceID)) ++ freeAccumulation.map (·.1) ++
    transfersIn.map (·.receiverIndex)).dedup.insertionSort (· ≤ ·)

theorem batchServices_sorted (transfersIn : List DeferredTransfer) (workReports : List WorkReport)
    (freeAccumulation : List (UInt32 × UInt64)) :
    (batchServices transfersIn workReports freeAccumulation).Pairwise (· < ·) := by
  unfold batchServices
  generalize ((workReports.flatMap fun w => w.results.map (·.serviceID)) ++
    freeAccumulation.map (·.1) ++ transfersIn.map (·.receiverIndex)) = l
  have hle := List.pairwise_insertionSort (· ≤ ·) l.dedup
  have hne : (l.dedup.insertionSort (· ≤ ·)).Nodup :=
    (List.perm_insertionSort (· ≤ ·) l.dedup).nodup_iff.mpr l.nodup_dedup
  exact (hle.and hne).imp fun h => UInt32.lt_of_le_of_ne h.1 h.2

/-- Running every service of a sorted list on its copy of the partial state. -/
def runBatch (blake2 : Bytes → Hash) (env : HostEnv) (o : PartialState)
    (transfersIn : List DeferredTransfer) (run : UInt32 → ServiceRun) (services : List UInt32)
    (hs : services.Pairwise (· < ·)) : Batch o where
  results := services.filterMap fun s => singleAccumulate blake2 env o transfersIn (run s) s
  sorted := by
    rw [List.pairwise_map, List.pairwise_filterMap]
    refine hs.imp fun hlt r hr r' hr' => ?_
    rw [(singleAccumulate_spec hr).1, (singleAccumulate_spec hr').1]
    exact hlt
  own := by
    intro r hr
    obtain ⟨s, -, hs⟩ := List.mem_filterMap.mp hr
    obtain ⟨h₁, h₂, -⟩ := singleAccumulate_spec hs
    exact h₂.trans h₁.symm
  kept := by
    intro r hr
    obtain ⟨s, -, hs⟩ := List.mem_filterMap.mp hr
    exact (singleAccumulate_spec hs).2.2

/-- The accounts after a result is merged: a dirty account updates the one that is
there, or is taken over. -/
def mergeAccounts (accounts updates : Accounts) : Accounts := fun sid =>
  match updates sid with
  | none => accounts sid
  | some sa =>
    if sa.dirty then
      match accounts sid with
      | some existing => some { existing.mergeUpdates sa with dirty := true }
      | none => some sa
    else accounts sid

/-- `managerMutatedA`, `managerMutatedR` and `managerMutatedU`. -/
structure Mutated where
  a : Bool
  r : Bool
  u : Bool

/-- The merge of the manager's privileges, when they are dirty. -/
def mergeManager (original : PrivilegedServiceState) (st : PrivilegedServiceState × Mutated)
    (p : PrivilegedServiceState) : PrivilegedServiceState × Mutated :=
  let mutA := decide (original.authQueueServiceID ≠ p.authQueueServiceID)
  let mutR := decide (original.registrarServiceID ≠ p.registrarServiceID)
  let mutU := decide (original.upcomingValidatorsServiceID ≠ p.upcomingValidatorsServiceID)
  ({ alwaysAccServiceID := fun k => (p.alwaysAccServiceID k).or (st.1.alwaysAccServiceID k)
     managerServiceID := p.managerServiceID
     authQueueServiceID := if mutA then p.authQueueServiceID else st.1.authQueueServiceID
     registrarServiceID := if mutR then p.registrarServiceID else st.1.registrarServiceID
     upcomingValidatorsServiceID :=
       if mutU then p.upcomingValidatorsServiceID else st.1.upcomingValidatorsServiceID },
    ⟨st.2.a || mutA, st.2.r || mutR, st.2.u || mutU⟩)

/-- The first core of which a service was the assigner: `allowMutatatedIndex`. -/
def firstCore (assigners : Fin totalCores → UInt32) (s : UInt32) : Option (Fin totalCores) :=
  (List.finRange totalCores).find? fun c => assigners c == s

/-- The merge of another service's privileges, when they are dirty. -/
def mergeOther (original : PrivilegedServiceState) (st : PrivilegedServiceState × Mutated)
    (s : UInt32) (p : PrivilegedServiceState) : PrivilegedServiceState × Mutated :=
  ({ st.1 with
     authQueueServiceID :=
       match st.2.a, firstCore original.authQueueServiceID s with
       | false, some c => Function.update st.1.authQueueServiceID c (p.authQueueServiceID c)
       | _, _ => st.1.authQueueServiceID
     registrarServiceID :=
       if !st.2.r && s == original.registrarServiceID then p.registrarServiceID
       else st.1.registrarServiceID
     upcomingValidatorsServiceID :=
       if !st.2.u && s == original.upcomingValidatorsServiceID then p.upcomingValidatorsServiceID
       else st.1.upcomingValidatorsServiceID },
    st.2)

/-- The privileges after a result is merged; `original` are those before the loop. -/
def mergePrivileges (original : PrivilegedServiceState) (st : PrivilegedServiceState × Mutated)
    (r : AccRes) : PrivilegedServiceState × Mutated :=
  if r.xy.u.privilegedDirty then
    if r.service = original.managerServiceID then
      mergeManager original st r.xy.u.privilegedState
    else mergeOther original st r.service r.xy.u.privilegedState
  else st

/-- One round of the merge loop. -/
def mergeResult (original : PrivilegedServiceState) (st : PartialState × Mutated) (r : AccRes) :
    PartialState × Mutated :=
  let privileges := mergePrivileges original (st.1.privilegedState, st.2) r
  ({ st.1 with
     serviceAccounts := mergeAccounts st.1.serviceAccounts r.xy.u.serviceAccounts
     queueWorkReport := if r.xy.u.queueDirty then r.xy.u.queueWorkReport else st.1.queueWorkReport
     upcomingValidators :=
       if r.xy.u.upcomingDirty && r.xy.serviceIndex == original.upcomingValidatorsServiceID then
         r.xy.u.upcomingValidators
       else st.1.upcomingValidators
     privilegedState := privileges.1 },
    privileges.2)

/-- The merge loop of `ParallelizedAccumulate`. -/
def mergeResults (o : PartialState) (results : List AccRes) : PartialState :=
  (results.foldl (mergeResult o.privilegedState) (o, ⟨false, false, false⟩)).1

section

variable (blake2 : Bytes → Hash) (env : HostEnv)

/-- `accumulated_partial[s] = x`. -/
def setPartial (partials : List (UInt32 × XContext)) (s : UInt32) (x : XContext) :
    List (UInt32 × XContext) :=
  partials.filter (fun e => e.1 != s) ++ [(s, x)]

/-- The blobs of all contexts, in ascending order of the providing services. -/
def allProvided (partials : List (UInt32 × XContext)) : List Provided :=
  (partials.insertionSort fun e e' => e.1 ≤ e'.1).flatMap (·.2.provided)

/-- `tmpProvide`: the blob for a service that was written last. -/
def tmpProvide (partials : List (UInt32 × XContext)) (s : UInt32) : Option Bytes :=
  (((allProvided partials).filter (·.serviceIndex == s)).getLast?).map (·.data)

/-- The integration of a blob into the account it is for. -/
def ServiceAccount.integrate (a : ServiceAccount) (timeslot : UInt32) (blob : Bytes) :
    ServiceAccount :=
  let z := UInt32.ofNat blob.length
  let h := blake2 blob
  if a.lookupTimeslots env h z = some [] ∧ (a.newAccount || a.dirty) ∧ !a.deletedAccount then
    ((a.cacheLookup env h z).writePreimage h blob).writeLookup h z (some [timeslot])
  else a.cacheLookup env h z

/-- The last loop of `ParallelizedAccumulate`, account by account: the services are
distinct, so their order does not matter. -/
def integrateProvided (timeslot : UInt32) (accounts : Accounts)
    (partials : List (UInt32 × XContext)) : Accounts := fun s =>
  match tmpProvide partials s with
  | none => accounts s
  | some blob => (accounts s).map fun a => a.integrate blake2 env timeslot blob

end

/-- What `ParallelizedAccumulate` leaves behind. -/
structure ParallelOutcome where
  o : PartialState
  partials : List (UInt32 × XContext)
  totalGasUsed : UInt64
  transfersOut : List DeferredTransfer
  accumulationOutput : List (UInt32 × Hash)
  gasUsage : List (UInt32 × UInt64)

/-- The merge of a batch, from the results on. -/
def mergeBatch (blake2 : Bytes → Hash) (env : HostEnv) (timeslot : UInt32) (o : PartialState)
    (partials : List (UInt32 × XContext)) (results : List AccRes) : ParallelOutcome :=
  let merged := mergeResults o results
  let partials := results.foldl (fun ps r => setPartial ps r.service r.xy) partials
  { o := { merged with serviceAccounts :=
      integrateProvided blake2 env timeslot merged.serviceAccounts partials }
    partials := partials
    totalGasUsed := results.foldl (fun n r => n + r.gasUsed) 0
    transfersOut := results.flatMap (·.xy.transfers)
    accumulationOutput := (results.filter fun r => r.output != 0).map fun r => (r.service, r.output)
    gasUsage := results.map fun r => (r.service, r.gasUsed) }

/-- `ParallelizedAccumulate`. -/
def parallelizedAccumulate (blake2 : Bytes → Hash) (env : HostEnv) (timeslot : UInt32)
    (o : PartialState) (transfersIn : List DeferredTransfer) (workReports : List WorkReport)
    (freeAccumulation : List (UInt32 × UInt64)) (partials : List (UInt32 × XContext))
    (run : UInt32 → ServiceRun) : ParallelOutcome :=
  let services := batchServices transfersIn workReports freeAccumulation
  if services.isEmpty then ⟨o, partials, 0, [], [], []⟩
  else mergeBatch blake2 env timeslot o partials (runBatch blake2 env o transfersIn run services
      (batchServices_sorted transfersIn workReports freeAccumulation)).results

end JamDuna.Accumulation
