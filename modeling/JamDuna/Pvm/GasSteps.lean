/-
# What a step costs

Every step of the interpreter (`pvm/interpreter/vmgo.go`) takes at least a unit of gas, and an
ECALLI ten more. A TRANSFER that leaves `OK` is charged the gas that goes with the transfer,
register 9, which is read as a signed number: from `2 ^ 63` on the charge is negative. Where
the sum leaves the signed range the gas is set to zero; where it does not, it grows
(`transferGas_le_iff`).

`step_cases` is the inversion of a step: it makes a host call (`VMGo.pendingCall`), or it
leaves the host as it is and takes gas.
-/

import JamDuna.Pvm.Interpreter

namespace JamDuna.Pvm

open JamDuna.Basis Option Int64 VMGo

section

theorem toInt_clampGas (gas : Int64) : (clampGas gas).toInt = max gas.toInt 0 := by
  unfold clampGas
  split_ifs with h
  · rw [lt_iff_toInt_lt, toInt_zero] at h
    rw [toInt_zero]
    omega
  · rw [lt_iff_toInt_lt, toInt_zero] at h
    omega

/-- The gas that is left after a TRANSFER. -/
def transferGas (gas : Int64) (limit : UInt64) : Int64 := clampGas (gas - limit.toInt64)

variable {gas : Int64} {limit : UInt64}

theorem toInt_transferGas (h : 0 ≤ gas.toInt) :
    (transferGas gas limit).toInt = if limit.toNat < 2 ^ 63 then max (gas.toInt - limit.toNat) 0
      else if (limit.toNat : ℤ) ≤ 2 ^ 63 + gas.toInt then 0
      else gas.toInt + 2 ^ 64 - limit.toNat := by
  have hlt := gas.toInt_lt
  have hlimit := limit.toNat_lt
  unfold transferGas
  rw [toInt_clampGas, toInt_sub_of_nonneg h, toInt_toInt64]
  split_ifs <;> omega

theorem transferGas_nonneg (gas : Int64) (limit : UInt64) : 0 ≤ (transferGas gas limit).toInt := by
  unfold transferGas
  rw [toInt_clampGas]
  omega

/-- **The charge of a TRANSFER is a charge** exactly up to `2 ^ 63` and the gas that is left. -/
theorem transferGas_le_iff (h : 0 ≤ gas.toInt) :
    transferGas gas limit ≤ gas ↔ (limit.toNat : ℤ) ≤ 2 ^ 63 + gas.toInt := by
  have hlimit := limit.toNat_lt
  rw [le_iff_toInt_le, toInt_transferGas h]
  split_ifs <;> omega

/-- A TRANSFER that leaves gas is paid in full. -/
theorem toInt_transferGas_of_pos (h : 0 ≤ gas.toInt)
    (hsafe : (limit.toNat : ℤ) ≤ 2 ^ 63 + gas.toInt) (hpos : 0 < (transferGas gas limit).toInt) :
    (transferGas gas limit).toInt + limit.toNat = gas.toInt := by
  rw [toInt_transferGas h] at hpos ⊢
  split_ifs at hpos ⊢ <;> omega

end

variable {σ : Type} (p : Program) (handle : Instruction → Guest → Option Guest)
  (calls : HostCalls σ)

/-- The machine behind an ECALLI. -/
def VMGo.behind (vm : VMGo σ) (inst : Instruction) : VMGo σ :=
  { vm with toGuest := vm.toGuest.advance inst }

/-- The machine that has paid for an ECALLI. -/
def VMGo.paid (vm : VMGo σ) (inst : Instruction) : VMGo σ := ((vm.charge 1).behind inst).charge 10

/-- The host call that a step makes, with the machine that has paid for it. -/
def VMGo.pendingCall (vm : VMGo σ) : Option (UInt64 × VMGo σ) :=
  if p.code.length ≤ vm.pc.toNat then none
  else
    match p.fetch vm.pc.toNat with
    | some (some inst) =>
      if inst.opcode = 10 ∧ vm.isChild = false ∧ ¬ (vm.charge 1).gas < 0 ∧
          ¬ (vm.paid inst).gas < 0 then
        some (inst.imm, vm.paid inst)
      else none
    | _ => none

variable {p handle calls} {vm vm' : VMGo σ} {e : Option StepError}

theorem toInt_charge {cost : Int64} (h : 0 ≤ vm.gas.toInt) (hcost : 0 ≤ cost.toInt) :
    (vm.charge cost).gas.toInt = vm.gas.toInt - cost.toInt := by
  have hlt := vm.gas.toInt_lt
  show (vm.gas - cost).toInt = _
  rw [toInt_sub_of_nonneg h]
  split_ifs <;> omega

theorem not_lt_zero_iff {gas : Int64} : ¬ gas < 0 ↔ 0 ≤ gas.toInt := by
  rw [lt_iff_toInt_lt, toInt_zero]
  omega

/-- A step without a host call: the host stays, and gas is taken. -/
structure Pays (vm vm' : VMGo σ) (e : Option StepError) : Prop where
  host : vm'.host = vm.host
  nonneg : 0 ≤ vm'.gas.toInt
  le : vm'.gas.toInt ≤ vm.gas.toInt
  less : e = none → vm'.gas.toInt = 0 ∨ vm'.gas.toInt < vm.gas.toInt

/-- An ECALLI from a machine that has paid the step. -/
theorem ecalli_cases {inst : Instruction} (hgas : 0 ≤ (vm.charge 1).gas.toInt)
    (hpaid : (vm.charge 1).gas.toInt = vm.gas.toInt - 1)
    (h : (vm.charge 1).ecalli calls inst = some (vm', e)) :
    Pays vm vm' e ∨ (vm.isChild = false ∧ ¬ (vm.paid inst).gas < 0 ∧ e = none ∧
        (vm.paid inst).callHost calls inst.imm = some vm') := by
  unfold ecalli at h
  dsimp only at h
  split_ifs at h with hchild hoog
  · cases h
    have hkept : (vm.charge 1).gas.toInt ≤ vm.gas.toInt := by omega
    exact .inl ⟨rfl, hgas, hkept, nofun⟩
  · cases h
    have hzero : (0 : Int64).toInt ≤ vm.gas.toInt := by
      rw [toInt_zero]
      omega
    exact .inl ⟨rfl, le_rfl, hzero, fun _ => .inl rfl⟩
  · obtain ⟨called, hcalled, hout⟩ := map_eq_some_iff.mp h
    cases hout
    have hparent : vm.isChild = false := Bool.eq_false_iff.mpr hchild
    exact .inr ⟨hparent, hoog, rfl, hcalled⟩

/-- **The inversion of a step.** -/
theorem step_cases (hgas : 0 ≤ vm.gas.toInt) (h : vm.step p handle calls = some (vm', e)) :
    Pays vm vm' e ∨ (e = none ∧ ∃ id called, vm.pendingCall p = some (id, called) ∧
        called.callHost calls id = some vm') := by
  have hpaid : (vm.charge 1).gas.toInt = vm.gas.toInt - 1 := toInt_charge hgas (by decide)
  unfold step at h
  by_cases hbounds : p.code.length ≤ vm.pc.toNat
  · rw [if_pos hbounds] at h
    cases h
    have hclamp : (clampGas (vm.gas - 1)).toInt = max (vm.gas.toInt - 1) 0 := by
      rw [toInt_clampGas]
      exact congrArg (max · 0) hpaid
    refine .inl ⟨rfl, ?_, ?_, nofun⟩
    · show 0 ≤ (clampGas (vm.gas - 1)).toInt
      omega
    · show (clampGas (vm.gas - 1)).toInt ≤ _
      omega
  · rw [if_neg hbounds] at h
    split at h
    · cases h
    · cases h
      exact .inl ⟨rfl, hgas, le_rfl, nofun⟩
    · next inst hfetch =>
      split_ifs at h with hoog hecalli
      · cases h
        refine .inl ⟨rfl, le_rfl, ?_, nofun⟩
        exact toInt_zero ▸ hgas
      · have hleft := not_lt_zero_iff.mp hoog
        rcases ecalli_cases hleft hpaid h with hpays | ⟨hchild, henough, he, hcall⟩
        · exact .inl hpays
        · refine .inr ⟨he, _, _, ?_, hcall⟩
          unfold pendingCall
          rw [if_neg hbounds, hfetch]
          exact if_pos ⟨hecalli, hchild, hoog, henough⟩
      · obtain ⟨g, -, hout⟩ := map_eq_some_iff.mp h
        cases hout
        have hleft := not_lt_zero_iff.mp hoog
        refine .inl ⟨rfl, hleft, ?_, fun _ => .inr ?_⟩
        · show (vm.charge 1).gas.toInt ≤ _
          omega
        · show (vm.charge 1).gas.toInt < _
          omega

/-- What a machine that makes a host call has paid, and that it makes the call of the same
host. -/
theorem pendingCall_spec {id : UInt64} {called : VMGo σ} (hgas : 0 ≤ vm.gas.toInt)
    (h : vm.pendingCall p = some (id, called)) :
    called.host = vm.host ∧ 0 ≤ called.gas.toInt ∧ called.gas.toInt + 11 = vm.gas.toInt := by
  have hpaid : (vm.charge 1).gas.toInt = vm.gas.toInt - 1 := toInt_charge hgas (by decide)
  unfold pendingCall at h
  split_ifs at h with hbounds
  split at h
  · next inst _ =>
    split_ifs at h with hcond
    obtain ⟨-, -, hone, hten⟩ := hcond
    cases h
    have hleft := not_lt_zero_iff.mp hone
    have hbehind : 0 ≤ ((vm.charge 1).behind inst).gas.toInt := hleft
    have hcalled : (vm.paid inst).gas.toInt = (vm.charge 1).gas.toInt - 10 :=
      toInt_charge hbehind (by decide)
    refine ⟨rfl, not_lt_zero_iff.mp hten, ?_⟩
    omega
  · cases h

/-- A host call: the host function, and the charge for a TRANSFER. -/
theorem callHost_cases {id : UInt64} (h : vm.callHost calls id = some vm') :
    ∃ returned, vm.invoke calls id = some returned ∧ returned.gas = vm.gas ∧
      vm'.host = returned.host ∧
      vm'.gas = if id = 20 ∧ returned.reg 7 = Code.ok then transferGas vm.gas (returned.reg 9)
        else vm.gas := by
  obtain ⟨returned, hinvoke, hout⟩ := map_eq_some_iff.mp h
  obtain ⟨r, -, hreturned⟩ := map_eq_some_iff.mp hinvoke
  have hgas : returned.gas = vm.gas := by
    rw [← hreturned]
    split_ifs <;> rfl
  have hcharge : (returned.chargeTransfer id).host = returned.host ∧
      (returned.chargeTransfer id).gas =
        if id = 20 ∧ returned.reg 7 = Code.ok then transferGas vm.gas (returned.reg 9)
        else vm.gas := by
    unfold chargeTransfer
    split_ifs
    · exact ⟨rfl, by rw [← hgas]; rfl⟩
    · exact ⟨rfl, hgas⟩
  refine ⟨returned, hinvoke, hgas, ?_⟩
  rw [← hout]
  by_cases hpanic : (returned.chargeTransfer id).machineState = .panic
  · rw [if_pos hpanic]
    exact hcharge
  · rw [if_neg hpanic]
    exact hcharge

variable {r : VMGo σ}

/-- The machine of a loop that ends with the gas used up. -/
def VMGo.exhausted (vm : VMGo σ) : VMGo σ := { vm.outOfGas with hostResultCode := .oog }

/-- A round that goes on is a step that leaves gas. -/
theorem executeRound_next (h : executeRound p handle calls vm = .next vm') :
    vm.terminated = false ∧ vm.step p handle calls = some (vm', none) ∧ 0 < vm'.gas.toInt := by
  unfold executeRound at h
  split_ifs at h with hterminated
  split at h
  · cases h
  · cases h
  · next hstep =>
    split_ifs at h with hgas
    obtain rfl := Round.next.inj h
    rw [le_iff_toInt_le, toInt_zero] at hgas
    exact ⟨Bool.eq_false_iff.mpr hterminated, hstep, by omega⟩

/-- A round that ends the loop: the machine has terminated, or its step returns an error or
uses the gas up. -/
theorem executeRound_done (h : executeRound p handle calls vm = .done (some r)) :
    (vm.terminated = true ∧ r = vm.finish) ∨ (vm.terminated = false ∧
        ((∃ e, vm.step p handle calls = some (r, some e)) ∨
          ∃ vm', vm.step p handle calls = some (vm', none) ∧ r = vm'.exhausted)) := by
  unfold executeRound at h
  split_ifs at h with hterminated
  · exact .inl ⟨hterminated, (some.inj (Round.done.inj h)).symm⟩
  · refine .inr ⟨Bool.eq_false_iff.mpr hterminated, ?_⟩
    split at h
    · cases h
    · next err hstep =>
      obtain rfl := some.inj (Round.done.inj h)
      exact .inl ⟨err, hstep⟩
    · next vm₁ hstep =>
      split_ifs at h
      exact .inr ⟨vm₁, hstep, (some.inj (Round.done.inj h)).symm⟩

theorem finish_host (vm : VMGo σ) : vm.finish.host = vm.host := by
  unfold finish
  split_ifs <;> rfl

theorem finish_gas (vm : VMGo σ) : vm.finish.gas = vm.gas := by
  unfold finish
  split_ifs <;> rfl

variable {P : σ → Prop}
  (hcalls : ∀ id gas reg ram s r, calls id gas reg ram s = some r → P s → P r.host)

include hcalls

/-- A step makes at most one call, so it keeps what the calls keep of the host. -/
theorem host_of_step {e : Option StepError} (hP : P vm.host)
    (h : vm.step p handle calls = some (vm', e)) : P vm'.host := by
  unfold step at h
  by_cases hbounds : p.code.length ≤ vm.pc.toNat
  · rw [if_pos hbounds] at h
    cases h
    exact hP
  rw [if_neg hbounds] at h
  split at h
  · cases h
  · cases h
    exact hP
  · unfold ecalli at h
    dsimp only at h
    split_ifs at h
    iterate 3
      cases h
      exact hP
    · obtain ⟨called, hcalled, hout⟩ := map_eq_some_iff.mp h
      cases hout
      obtain ⟨returned, hinvoke, -, hhost, -⟩ := callHost_cases hcalled
      obtain ⟨r, hr, rfl⟩ := map_eq_some_iff.mp hinvoke
      have hreturned := hcalls _ _ _ _ _ r hr hP
      rw [hhost]
      split_ifs <;> exact hreturned
    · obtain ⟨g, -, hout⟩ := map_eq_some_iff.mp h
      cases hout
      exact hP

/-- **What the calls keep of the host, a run keeps.** -/
theorem host_of_execute {fuel : ℕ} {entryPoint : UInt32} (hP : P vm.host)
    (h : vm.execute p handle calls fuel entryPoint = some (some r)) : P r.host := by
  unfold execute at h
  split_ifs at h
  · obtain rfl := some.inj (some.inj h)
    exact hP
  · obtain ⟨head, hreached, hdone⟩ := reached_of_loop h
    have hhead : P head.host := by
      refine hreached.invariant (P := fun vm => P vm.host) hP fun t u _ ht hround => ?_
      obtain ⟨-, hstep, -⟩ := executeRound_next hround
      exact host_of_step hcalls ht hstep
    rcases executeRound_done hdone with ⟨-, rfl⟩ | ⟨-, ⟨e, hstep⟩ | ⟨vm₁, hstep, rfl⟩⟩
    · rw [finish_host]
      exact hhead
    · exact host_of_step hcalls hhead hstep
    · have hafter := host_of_step hcalls hhead hstep
      exact hafter

end JamDuna.Pvm
