/-
# The interpreter makes host calls

The merge of a batch (`JamDuna.Accumulation.Parallel`) takes a run of the virtual machine as
the list of its host calls on the two contexts, with the way it ended and the gas it used.
The interpreter of `pvm/interpreter/vmgo.go` is such a run: whatever program it executes, its
contexts are those of a list of calls, and what `SingleAccumulate` returns with it is what it
returns for that list (`singleAccumulate_of_singleRun`).
-/

import JamDuna.Pvm.GasRuns

namespace JamDuna.Pvm

open Accumulation Option

variable {blake2 : Bytes → Hash} {env : StorageEnv} {handle : Instruction → Guest → Option Guest}
  {x : XContext}

/-- The contexts of a machine are those that a list of calls leads to. -/
def FromCalls (blake2 : Bytes → Hash) (env : StorageEnv) (x : XContext) (vm : AccumulateVM) :
    Prop :=
  ∃ calls, runHostCalls blake2 env.toHostEnv x calls = ⟨vm.x.toXContext, vm.y.toXContext⟩

/-- A host call of the machine is one more call. -/
theorem FromCalls.call {vm vm' : AccumulateVM} {call : Call} (h : FromCalls blake2 env x vm)
    (hcall : vm.call blake2 env call = some vm') : FromCalls blake2 env x vm' := by
  obtain ⟨calls, hcalls⟩ := h
  have hnext : ∃ c, (⟨vm.x.toXContext, vm.y.toXContext⟩ : VM).hostCall blake2 env.toHostEnv c =
      ⟨vm'.x.toXContext, vm'.y.toXContext⟩ := by
    rcases (callEffect_of_call hcall).contexts with ⟨-, hx, hy⟩ | ⟨-, hy, heffect⟩
    · rw [hx, hy]
      exact ⟨.checkpoint, rfl⟩
    · rw [hy]
      exact heffect.hostCall vm.y.toXContext
  obtain ⟨c, hc⟩ := hnext
  refine ⟨calls ++ [c], ?_⟩
  unfold runHostCalls at hcalls ⊢
  rw [List.foldl_append, hcalls]
  exact hc

/-- **A run of the interpreter is a run of host calls**: `SingleAccumulate` returns for it what
it returns for some list of calls, way of ending and gas used. -/
theorem singleAccumulate_of_singleRun {load : Bytes → LoadedCode} {o : PartialState}
    {transfersIn : List DeferredTransfer} {s : UInt32} {limit : UInt64} {fuel : ℕ}
    {r : SingleResult}
    (h : singleRun blake2 env handle load o transfersIn s limit fuel = some (some r)) :
    ∃ run, (singleAccumulate blake2 env.toHostEnv o transfersIn run s).map
      (fun a => (a.gasUsed, a.xy)) = r.xy.map fun xy => (r.gasUsed, xy) := by
  unfold singleRun singleSetup at h
  unfold singleAccumulate
  generalize (o.serviceAccounts s).or (env.getService s) = found at h ⊢
  cases found with
  | none =>
    obtain rfl := some.inj (some.inj h)
    exact ⟨⟨[], false, 0, none⟩, rfl⟩
  | some account =>
    dsimp only at h ⊢
    generalize account.credit (transfersIn.filter (·.receiverIndex == s)) = account at h ⊢
    generalize account.preimageBlob env.toHostEnv account.codeHash = blob at h ⊢
    cases blob with
    | none =>
      obtain rfl := some.inj (some.inj h)
      exact ⟨⟨[], false, 0, none⟩, rfl⟩
    | some code =>
      obtain ⟨ended, hended, hmap⟩ := map_eq_some_iff.mp h
      obtain ⟨vm, rfl, rfl⟩ := map_eq_some_iff.mp hmap
      obtain ⟨calls, hcalls⟩ : FromCalls blake2 env (newXContext o s account) vm.host := by
        refine host_of_execute (fun id gas reg ram s r hr hs => ?_) ⟨[], rfl⟩ hended
        obtain ⟨s', hcall, rfl⟩ := map_eq_some_iff.mp hr
        exact hs.call hcall
      refine ⟨⟨calls, decide (vm.hostResultCode ≠ .ok), gasUsed limit vm.gas, none⟩, ?_⟩
      rw [hcalls]
      unfold VMGo.context
      by_cases hok : vm.hostResultCode = .ok
      · simp [hok]
      · simp [hok]

/-- The run of the payer, and the calls that stand for it. -/
theorem singleAccumulate_of_payer :
    let ended := singleRun (fun _ => 0) emptyTrie (fun _ _ => none) (fun _ => payerCode 5)
      (contextOf payer).u [] 1 100 3
    ∃ r run, ended = some (some r) ∧
      (singleAccumulate (fun _ => 0) emptyTrie.toHostEnv (contextOf payer).u [] run 1).map
        (fun a => (a.gasUsed, a.xy)) = r.xy.map fun xy => (r.gasUsed, xy) := by
  intro ended
  obtain ⟨r, hr⟩ := isSome_iff_exists.mp (show ended.join.isSome by decide +kernel)
  obtain ⟨run, hrun⟩ := singleAccumulate_of_singleRun (join_eq_some_iff.mp hr)
  exact ⟨r, run, join_eq_some_iff.mp hr, hrun⟩

end JamDuna.Pvm
