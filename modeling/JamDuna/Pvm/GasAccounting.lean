/-
# What the gas of a run covers

A transfer takes gas along, which the receiver gets in a later batch, and `step` of
`pvm/interpreter/vmgo.go` charges the sender for it. As long as every TRANSFER is charged
(`ChargeSafe`), the gas that is left and the gas that the transfers of either context take
along stay below what the run was given (`Covered`): a transfer that uses the gas up ends the
run, which is then left with the transfers of the last checkpoint.
-/

import JamDuna.Pvm.GasSteps

namespace JamDuna.Pvm

open JamDuna.Basis Accumulation Option HostVM

/-- The gas that transfers take along. -/
def attachedGas (transfers : List DeferredTransfer) : ℕ := (transfers.map (·.gasLimit.toNat)).sum

theorem attachedGas_append (ts : List DeferredTransfer) (t : DeferredTransfer) :
    attachedGas (ts ++ [t]) = attachedGas ts + t.gasLimit.toNat := by
  unfold attachedGas
  rw [List.map_append, List.sum_append]
  rfl

variable {blake2 : Bytes → Hash} {env : StorageEnv}

/-- Only TRANSFER defers transfers. -/
theorem HostEffect.transfers {x x' : IndexedContext} {fn : AccumulateFn}
    (h : HostEffect blake2 env x fn x') (hfn : fn ≠ .host .transfer) :
    x'.transfers = x.transfers := by
  cases h with
  | quiet _ hquiet _ => exact hquiet.transfers
  | bless m v r a z =>
    dsimp only [XContext.hostBless]
    split_ifs <;> rfl
  | assign c q a =>
    dsimp only [XContext.hostAssign, XContext.assignCore]
    split_ifs <;> rfl
  | designate v =>
    dsimp only [XContext.hostDesignate]
    split_ifs <;> rfl
  | provide target blob => exact (quiet_hostProvide x target blob).transfers
  | new timeslot args result hnew =>
    rcases hostNew_cases hnew with ⟨next, rfl, -⟩ | ⟨xs, codeHash, c, next, -, -, rfl⟩
    · rfl
    · rfl
  | transfer => exact absurd rfl hfn
  | eject d k l hquiet _ _ _ _ _ => exact hquiet.transfers

/-- TRANSFER defers nothing, or a transfer with the gas of register 9 and `OK` in
register 7. -/
theorem hostTransfer_transfers {vm vm' : HostVM} (h : vm.hostTransfer env = some vm') :
    vm'.x.transfers = vm.x.transfers ∨
      (vm'.reg 7 = Code.ok ∧ ∃ t : DeferredTransfer, t.gasLimit = vm'.reg 9 ∧
        vm'.x.transfers = vm.x.transfers ++ [t]) := by
  unfold hostTransfer at h
  split_ifs at h with hmode
  · cases h
    exact .inl rfl
  · split at h
    · cases h
      exact .inl rfl
    · next memo _ =>
      split at h
      · cases h
        exact .inl rfl
      · dsimp only at h
        split_ifs at h with hlow
        · cases h
          exact .inl rfl
        · split at h
          · cases h
          · cases h
            unfold transferFrom
            dsimp only
            split_ifs
            · exact .inl rfl
            · exact .inr ⟨writeRegister_reg_self .., _, rfl, rfl⟩

theorem eq_of_ofId_transfer {id : UInt64} (h : AccumulateFn.ofId id = .host .transfer) :
    id = 20 := by
  unfold AccumulateFn.ofId at h
  cases hlookup : accumulateHostFunctions.lookup id.toNat with
  | none =>
    rw [hlookup] at h
    cases h
  | some fn =>
    rw [hlookup, getD_some] at h
    subst h
    have hmem : (id.toNat, AccumulateFn.host .transfer) ∈ accumulateHostFunctions := by
      obtain ⟨before, after, hsplit, -⟩ := List.lookup_eq_some_iff.mp hlookup
      rw [hsplit]
      exact List.mem_append_right _ (.head _)
    have hid : id.toNat = 20 := by simpa [accumulateHostFunctions] using hmem
    exact UInt64.toNat_inj.mp hid

/-- What a host call does to the transfers of the contexts. -/
theorem call_transfers {vm vm' : AccumulateVM} {call : Call}
    (h : vm.call blake2 env call = some vm') :
    (vm'.x.transfers = vm.x.transfers ∧
        (vm'.y.transfers = vm.y.transfers ∨ vm'.y.transfers = vm.x.transfers)) ∨
      (call.fn = .host .transfer ∧ vm'.y = vm.y ∧ vm'.reg 7 = Code.ok ∧
        ∃ t : DeferredTransfer, t.gasLimit = vm'.reg 9 ∧
          vm'.x.transfers = vm.x.transfers ++ [t]) := by
  rcases (callEffect_of_call h).contexts with ⟨-, hx, hy⟩ | ⟨-, hy, heffect⟩
  · exact .inl ⟨by rw [hx], .inr (by rw [hy])⟩
  · by_cases hfn : call.fn = .host .transfer
    · unfold AccumulateVM.call at h
      rw [hfn] at h
      obtain ⟨host, hhost, rfl⟩ := map_eq_some_iff.mp h
      dsimp only [hostFunction] at hhost
      split_ifs at hhost with hmode
      · rcases hostTransfer_transfers hhost with hsame | ⟨hok, t, hgas, happend⟩
        · exact .inl ⟨hsame, .inl rfl⟩
        · exact .inr ⟨hfn, rfl, hok, t, hgas, happend⟩
      · cases hhost
        exact .inl ⟨rfl, .inl rfl⟩
    · exact .inl ⟨heffect.transfers hfn, .inl (by rw [hy])⟩

variable (blake2 env) (p : Program) (handle : Instruction → Guest → Option Guest)

/-- The step of a machine, and the host call that it makes, do not add gas. -/
def GasFalls (vm : VMGo AccumulateVM) : Prop :=
  (∀ vm' e, vm.step p handle (accumulateCalls blake2 env) = some (vm', e) → vm'.gas ≤ vm.gas) ∧
    ∀ id called vm', vm.pendingCall p = some (id, called) →
      called.callHost (accumulateCalls blake2 env) id = some vm' → vm'.gas ≤ called.gas

/-- A TRANSFER of the machine that leaves `OK` in register 7 has at most `2 ^ 63` and the gas
that is left in register 9. -/
def ChargeSafe (vm : VMGo AccumulateVM) : Prop :=
  ∀ id called returned, vm.pendingCall p = some (id, called) →
    called.invoke (accumulateCalls blake2 env) id = some returned →
    id = 20 → returned.reg 7 = Code.ok → ((returned.reg 9).toNat : ℤ) ≤ 2 ^ 63 + called.gas.toInt

/-- The machine makes a step in a run. -/
def StepsFrom (start vm : VMGo AccumulateVM) : Prop :=
  Reached (executeRound p handle (accumulateCalls blake2 env)) start vm ∧ vm.terminated = false

/-- What the gas of a machine covers: the rest, and the transfers of both contexts. -/
structure Covered (limit : ℕ) (vm : VMGo AccumulateVM) : Prop where
  nonneg : 0 ≤ vm.gas.toInt
  x : attachedGas vm.host.x.transfers + vm.gas.toInt ≤ limit
  y : attachedGas vm.host.y.transfers + vm.gas.toInt ≤ limit

variable {blake2 env p handle} {limit : ℕ} {vm vm' : VMGo AccumulateVM}

variable {id : UInt64} {returned : VMGo AccumulateVM}

/-- A host call of an accumulation is a call of the machine around. -/
theorem call_of_invoke (h : vm.invoke (accumulateCalls blake2 env) id = some returned) :
    vm.host.call blake2 env ⟨AccumulateFn.ofId id, vm.reg, vm.ram, vm.gas⟩ =
        some returned.host ∧ returned.reg = returned.host.reg := by
  obtain ⟨r, hr, hout⟩ := map_eq_some_iff.mp h
  obtain ⟨host, hhost, rfl⟩ := map_eq_some_iff.mp hr
  subst hout
  split_ifs
  all_goals exact ⟨hhost, rfl⟩

/-- **A host call does not add gas** exactly if its charge is one. -/
theorem callHost_gas_le_iff
    (hgas : 0 ≤ vm.gas.toInt) (hinvoke : vm.invoke (accumulateCalls blake2 env) id = some returned)
    (h : vm.callHost (accumulateCalls blake2 env) id = some vm') :
    vm'.gas ≤ vm.gas ↔ (id = 20 → returned.reg 7 = Code.ok →
      ((returned.reg 9).toNat : ℤ) ≤ 2 ^ 63 + vm.gas.toInt) := by
  obtain ⟨r, hr, -, -, hleft⟩ := callHost_cases h
  obtain rfl := some.inj (hinvoke.symm.trans hr)
  rw [hleft]
  by_cases hcharged : id = 20 ∧ returned.reg 7 = Code.ok
  · rw [if_pos hcharged, transferGas_le_iff hgas]
    exact ⟨fun hle _ _ => hle, fun hle => hle hcharged.1 hcharged.2⟩
  · rw [if_neg hcharged]
    exact ⟨fun _ hid hok => absurd ⟨hid, hok⟩ hcharged, fun _ => Int64.le_refl _⟩

/-- What a paid host call leaves covered: the checkpoint, and the context unless the gas is
used up. -/
structure CallCovered (limit : ℕ) (called vm' : VMGo AccumulateVM) : Prop where
  nonneg : 0 ≤ vm'.gas.toInt
  le : vm'.gas.toInt ≤ called.gas.toInt
  x : 0 < vm'.gas.toInt → attachedGas vm'.host.x.transfers + vm'.gas.toInt ≤ limit
  y : attachedGas vm'.host.y.transfers + vm'.gas.toInt ≤ limit

theorem Covered.callHost {called : VMGo AccumulateVM}
    (h : Covered limit called)
    (hinvoke : called.invoke (accumulateCalls blake2 env) id = some returned)
    (hsafe : id = 20 → returned.reg 7 = Code.ok →
      ((returned.reg 9).toNat : ℤ) ≤ 2 ^ 63 + called.gas.toInt)
    (hcall : called.callHost (accumulateCalls blake2 env) id = some vm') :
    CallCovered limit called vm' := by
  have hx := h.x
  have hy := h.y
  have hle : vm'.gas.toInt ≤ called.gas.toInt :=
    Int64.le_iff_toInt_le.mp ((callHost_gas_le_iff h.nonneg hinvoke hcall).mpr hsafe)
  obtain ⟨r, hr, -, hhost, hleft⟩ := callHost_cases hcall
  obtain rfl := some.inj (hinvoke.symm.trans hr)
  obtain ⟨hmachine, hreg⟩ := call_of_invoke hinvoke
  have hnonneg : 0 ≤ vm'.gas.toInt := by
    rw [hleft]
    split_ifs
    · exact transferGas_nonneg ..
    · exact h.nonneg
  rcases call_transfers hmachine with ⟨hsame, hcheckpoint⟩ | ⟨hfn, hkept, hok, t, ht, happend⟩
  · refine ⟨hnonneg, hle, fun _ => ?_, ?_⟩
    · rw [hhost, hsame]
      omega
    · rw [hhost]
      rcases hcheckpoint with hold | hcopy
      · rw [hold]
        omega
      · rw [hcopy]
        omega
  · -- the transfer is paid from the gas of the call, or the gas is used up
    have hid : id = 20 := eq_of_ofId_transfer hfn
    rw [← hreg] at hok ht
    have hcharged : vm'.gas = transferGas called.gas (returned.reg 9) := by
      rw [hleft, if_pos ⟨hid, hok⟩]
    refine ⟨hnonneg, hle, fun hpos => ?_, ?_⟩
    · rw [hcharged] at hpos ⊢
      have hpaid := toInt_transferGas_of_pos h.nonneg (hsafe hid hok) hpos
      rw [hhost, happend, attachedGas_append, ht]
      omega
    · rw [hhost, hkept]
      omega

/-- **What a step leaves covered.** -/
theorem Covered.step {e : Option StepError} (h : Covered limit vm)
    (hsafe : ChargeSafe blake2 env p vm)
    (hstep : vm.step p handle (accumulateCalls blake2 env) = some (vm', e)) :
    CallCovered limit vm vm' ∧ (e ≠ none → Covered limit vm') ∧
      (e = none → vm'.gas.toInt = 0 ∨ vm'.gas.toInt < vm.gas.toInt) := by
  have hx := h.x
  have hy := h.y
  rcases step_cases h.nonneg hstep with hpays | ⟨rfl, id, called, hpending, hcall⟩
  · obtain ⟨hhost, hnonneg, hle, hless⟩ := hpays
    have hcovered : Covered limit vm' := ⟨hnonneg, by rw [hhost]; omega, by rw [hhost]; omega⟩
    exact ⟨⟨hnonneg, hle, fun _ => hcovered.x, hcovered.y⟩, fun _ => hcovered, hless⟩
  · obtain ⟨hhost, hleft, hcost⟩ := pendingCall_spec h.nonneg hpending
    obtain ⟨returned, hinvoke, -⟩ := callHost_cases hcall
    have hcalled : Covered limit called := ⟨hleft, by rw [hhost]; omega, by rw [hhost]; omega⟩
    obtain ⟨hnonneg, hle, hx', hy'⟩ :=
      hcalled.callHost hinvoke (hsafe id called returned hpending hinvoke) hcall
    exact ⟨⟨hnonneg, by omega, hx', hy'⟩, fun hne => absurd rfl hne, fun _ => .inr (by omega)⟩

section

variable (h : Covered limit vm) (hsafe : vm.terminated = false → ChargeSafe blake2 env p vm)
include h hsafe

/-- A round that goes on leaves everything covered, with less gas. -/
theorem Covered.next (hround : executeRound p handle (accumulateCalls blake2 env) vm = .next vm') :
    Covered limit vm' ∧ vm'.gas.toInt < vm.gas.toInt := by
  obtain ⟨hrunning, hstep, hpos⟩ := executeRound_next hround
  obtain ⟨hcall, -, hless⟩ := h.step (hsafe hrunning) hstep
  refine ⟨⟨hcall.nonneg, hcall.x hpos, hcall.y⟩, ?_⟩
  rcases hless rfl with hzero | hlt
  · omega
  · exact hlt

/-- The machine that a run ends with: the transfers of its context are covered. -/
theorem Covered.done {r : VMGo AccumulateVM}
    (hround : executeRound p handle (accumulateCalls blake2 env) vm = .done (some r)) :
    0 ≤ r.gas.toInt ∧ attachedGas r.context.transfers + r.gas.toInt ≤ limit := by
  have hcontext : ∀ m : VMGo AccumulateVM, Covered limit m →
      attachedGas m.context.transfers + m.gas.toInt ≤ limit := by
    intro m hm
    unfold VMGo.context
    split_ifs
    · exact hm.x
    · exact hm.y
  rcases executeRound_done hround with ⟨-, rfl⟩ | ⟨hrunning, ⟨e, hstep⟩ | ⟨vm₁, hstep, rfl⟩⟩
  · have hfinish : Covered limit vm.finish := by
      refine ⟨?_, ?_, ?_⟩
      · rw [finish_gas]
        exact h.nonneg
      · rw [finish_gas, finish_host]
        exact h.x
      · rw [finish_gas, finish_host]
        exact h.y
    exact ⟨hfinish.nonneg, hcontext _ hfinish⟩
  · have hcovered := (h.step (hsafe hrunning) hstep).2.1 nofun
    exact ⟨hcovered.nonneg, hcontext _ hcovered⟩
  · -- out of gas: the context is that of the checkpoint
    obtain ⟨hnonneg, -, -, hy⟩ := (h.step (hsafe hrunning) hstep).1
    refine ⟨le_rfl, ?_⟩
    show (attachedGas vm₁.host.y.transfers : ℤ) + (0 : Int64).toInt ≤ limit
    rw [Int64.toInt_zero]
    omega

end

end JamDuna.Pvm
