/-
# The host calls of a service

A service accumulates by running its code, which makes host calls between stretches of its
own computation (`ExecuteAccumulate` of `statedb/pvm.go`). What the code does in between
concerns registers, memory and gas; a run is therefore a list of calls, each with the
registers, the memory and the gas that it finds (`Call`), on the two contexts that
`NewXContext` of `statedb/accumulate.go` sets up.
-/

import JamDuna.Basis.Runs
import JamDuna.Pvm.HostEffects

namespace JamDuna.Pvm

open Accumulation

/-- A host call, with what it finds. -/
structure Call where
  fn : AccumulateFn
  reg : Fin 13 → UInt64
  ram : Ram
  gas : Int64

variable (blake2 : Bytes → Hash) (env : StorageEnv) (vm : AccumulateVM)

/-- The machine as a call finds it. -/
def AccumulateVM.prepare (call : Call) : AccumulateVM :=
  { vm with
    toHostVM := { vm.toHostVM with reg := call.reg, ram := call.ram }
    gas := call.gas }

/-- A host call of a service. -/
def AccumulateVM.call (call : Call) : Option AccumulateVM :=
  (vm.prepare call).hostFunction blake2 env call.fn

/-- The index of the account that a call creates, if it does. -/
def AccumulateVM.creates (call : Call) : Option UInt32 :=
  match call.fn, vm.x.hostNew vm.timeslot (vm.prepare call).newArgs with
  | .new, some (.ok c, _) => some c
  | _, _ => none

/-- The machine that a service starts with. -/
structure Starts (o : PartialState) (s : UInt32) (account : ServiceAccount) : Prop where
  mode : vm.mode = .accumulate
  x : vm.x.toXContext = newXContext o s account
  y : vm.y = vm.x

variable {blake2 env vm}

variable {call : Call} {vm' : AccumulateVM} {c : UInt32}

/-- What a call finds is not part of its effect. -/
theorem callEffect_of_call
    (h : vm.call blake2 env call = some vm') : CallEffect blake2 env call.fn vm vm' := by
  have heffect := callEffect_of_hostFunction h
  exact ⟨heffect.mode, heffect.timeslot, heffect.contexts⟩

/-- A call that creates an account is a NEW. -/
theorem hostNew_of_creates (h : vm.creates call = some c) : call.fn = .new ∧
      ∃ x', vm.x.hostNew vm.timeslot (vm.prepare call).newArgs = some (.ok c, x') := by
  unfold AccumulateVM.creates at h
  split at h
  · next c' x' hfn hnew =>
    cases h
    exact ⟨hfn, x', hnew⟩
  · cases h

/-- A NEW that creates an account leaves the context that `hostNew` says. -/
theorem context_of_new {x' : IndexedContext} (hmode : vm.mode = .accumulate) (hfn : call.fn = .new)
    (hnew : vm.x.hostNew vm.timeslot (vm.prepare call).newArgs = some (.ok c, x'))
    (h : vm.call blake2 env call = some vm') : vm'.x = x' := by
  unfold AccumulateVM.call at h
  rw [hfn] at h
  obtain ⟨host, hhost, hafter⟩ := Option.map_eq_some_iff.mp h
  have hcall : (vm.prepare call).x.hostNew (vm.prepare call).timeslot
      (vm.prepare call).newArgs = some (.ok c, x') := hnew
  unfold HostVM.hostNew at hhost
  rw [if_neg (not_not.mpr (show (vm.prepare call).mode = .accumulate from hmode)), hcall] at hhost
  cases hhost
  rw [← hafter]
  rfl

end JamDuna.Pvm
