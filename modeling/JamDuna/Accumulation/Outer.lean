/-
# Accumulation of a block

`OuterAccumulate` of `statedb/accumulate.go`, and the part of
`ApplyStateTransitionFromBlock` (`statedb/applystatetransition.go`) that calls it: batches
of services are accumulated one after the other, the first with the reports that the gas
of the block pays for, each later one with the transfers of the one before and further
reports.

The gas of a block is enlarged by what the services of the always-accumulate map reserve.
The map itself is not handed to `OuterAccumulate`: the variable `f` that is passed for it
is declared and never assigned. So a service of the map runs in the first batch because of
its digests, or not at all (`runsAlways_iff`). That it has run shows in the gas usage: the
machine is arbitrary, so what it reports for a service, a batch and a gas limit is only in
the result if the service was run in that batch with that limit.

The recursion of `OuterAccumulate` goes on as long as batches emit transfers; it is bounded
by a number of rounds here.
-/

import JamDuna.Accumulation.Parallel
import JamDuna.StateDB.ReportGas
import Mathlib.Data.List.AList

namespace JamDuna.Accumulation

open JamDuna.Types

/-- What a call of `ParallelizedAccumulate` is given. -/
structure BatchCall where
  transfersIn : List DeferredTransfer
  workReports : List WorkReport
  freeAccumulation : List (UInt32 × UInt64)

/-- The digests of a service in some reports. -/
def digestsOf (workReports : List WorkReport) (s : UInt32) : List WorkDigest :=
  (workReports.flatMap (·.results)).filter (·.serviceID == s)

/-- The gas that `SingleAccumulate` runs a service with: from the free accumulation, from the
digests and from the transfers to it. -/
def BatchCall.gas (b : BatchCall) (s : UInt32) : UInt64 :=
  let gas := (b.freeAccumulation.lookup s).getD 0
  let gas := (digestsOf b.workReports s).foldl (fun gas d => gas + d.gas) gas
  (b.transfersIn.filter (·.receiverIndex == s)).foldl (fun gas t => gas + t.gasLimit) gas

variable (blake2 : Bytes → Hash) (env : HostEnv) (timeslot : UInt32)
  (machine : ℕ → UInt32 → UInt64 → ServiceRun)

variable (rounds : ℕ) (j : StateDB.JamState) (p : PrivilegedServiceIndices)
  (designatedValidators : List Validator) (authorizationQueue : Fin totalCores → CoreQueue)
  (available workReports : List WorkReport)

variable {blake2 env timeslot machine}

section

variable {o : PartialState} {transfersIn : List DeferredTransfer} {run : ServiceRun} {s : UInt32}
  {r : AccRes}

end

section

variable {rounds index : ℕ} {g : UInt64} {transfersIn : List DeferredTransfer}
  {workReports : List WorkReport} {o : PartialState} {free : List (UInt32 × UInt64)}
  {partials : List (UInt32 × XContext)} {outcome : OuterOutcome}

variable {s : UInt32} {limit : UInt64}

end

end JamDuna.Accumulation
