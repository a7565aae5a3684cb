/-
# Gas is accounted for

`SingleAccumulate` of `statedb/accumulate.go` runs the code of a service with the gas of its
free accumulation, of its digests and of the transfers to it, and reports what the run has
used. If every TRANSFER of the run is charged (`ChargeSafe`), gas never grows, the transfers
that the run leaves take along no more than it has used, and it has used at most the limit; a
TRANSFER with a larger register 9 is paid gas instead (`gasAccounted_iff`).
-/

import JamDuna.Pvm.GasAccounting

namespace JamDuna.Pvm

open JamDuna.Types JamDuna.Basis Accumulation Option

section

theorem toNat_gasUsed {limit : UInt64} {left : Int64} (hnonneg : 0 ≤ left.toInt)
    (hle : left.toInt ≤ limit.toNat) :
    ((gasUsed limit left).toNat : ℤ) = limit.toNat - left.toInt := by
  have hclamp : clampGas left = left := if_neg (not_lt_zero_iff.mpr hnonneg)
  have hleft := toNat_toUInt64_of_nonneg hnonneg
  have hsub : left.toUInt64 ≤ limit := by
    rw [UInt64.le_iff_toNat_le]
    omega
  unfold gasUsed
  rw [hclamp, UInt64.toNat_sub_of_le _ _ hsub]
  omega

/-- The gas that the transfers of a result take along. -/
def SingleResult.attached (r : SingleResult) : ℕ := attachedGas ((r.xy.map (·.transfers)).getD [])

variable (blake2 : Bytes → Hash) (env : StorageEnv) (handle : Instruction → Guest → Option Guest)
  (load : Bytes → LoadedCode) (o : PartialState) (transfersIn : List DeferredTransfer)
  (s : UInt32) (limit : UInt64)

/-- A machine that makes a step in the run of a service, with the program it runs. -/
def RunStep (p : Program) (vm : VMGo AccumulateVM) : Prop :=
  ∃ code x, singleSetup env o transfersIn s = .inr (code, x) ∧ p = (load code).program ∧
    StepsFrom blake2 env p handle (((load code).start x limit).enter entryPointAccumulate) vm

variable {blake2 env handle load o transfersIn s limit} {p : Program} {vm start : VMGo AccumulateVM}

/-- Everything is covered at the head of the loop. -/
theorem covered_of_reached (hstart : Covered limit.toNat start)
    (hsafe : ∀ vm, StepsFrom blake2 env p handle start vm → ChargeSafe blake2 env p vm)
    (h : Reached (executeRound p handle (accumulateCalls blake2 env)) start vm) :
    Covered limit.toNat vm :=
  h.invariant hstart fun vm _ hreached hcovered hround =>
    (hcovered.next (fun hrunning => hsafe vm ⟨hreached, hrunning⟩) hround).1

/-- The same, without the condition, as far as the gas is not below zero. -/
theorem nonneg_of_reached (hstart : 0 ≤ start.gas.toInt)
    (h : Reached (executeRound p handle (accumulateCalls blake2 env)) start vm) :
    0 ≤ vm.gas.toInt := by
  refine h.invariant (P := fun vm => 0 ≤ vm.gas.toInt) hstart fun t u _ _ hround => ?_
  obtain ⟨-, -, hpos⟩ := executeRound_next hround
  omega

/-- A step that makes no host call takes gas, and a host call is one that is charged. -/
theorem gasFalls_of_chargeSafe (hgas : 0 ≤ vm.gas.toInt) (hsafe : ChargeSafe blake2 env p vm) :
    GasFalls blake2 env p handle vm := by
  have hcalls : ∀ id called vm', vm.pendingCall p = some (id, called) →
      called.callHost (accumulateCalls blake2 env) id = some vm' → vm'.gas ≤ called.gas := by
    intro id called vm' hpending hcall
    obtain ⟨-, hleft, -⟩ := pendingCall_spec hgas hpending
    obtain ⟨returned, hinvoke, -⟩ := callHost_cases hcall
    exact (callHost_gas_le_iff hleft hinvoke hcall).mpr (hsafe id called returned hpending hinvoke)
  refine ⟨fun vm' e hstep => ?_, hcalls⟩
  rw [Int64.le_iff_toInt_le]
  rcases step_cases hgas hstep with hpays | ⟨-, id, called, hpending, hcall⟩
  · exact hpays.le
  · obtain ⟨-, -, hcost⟩ := pendingCall_spec hgas hpending
    have hle := Int64.le_iff_toInt_le.mp (hcalls id called vm' hpending hcall)
    omega

/-- A host call that does not add gas is charged. -/
theorem chargeSafe_of_gasFalls (hgas : 0 ≤ vm.gas.toInt) (h : GasFalls blake2 env p handle vm) :
    ChargeSafe blake2 env p vm := by
  intro id called returned hpending hinvoke
  obtain ⟨-, hleft, -⟩ := pendingCall_spec hgas hpending
  have hcall : ∃ vm', called.callHost (accumulateCalls blake2 env) id = some vm' := by
    unfold VMGo.callHost
    rw [hinvoke]
    exact ⟨_, rfl⟩
  obtain ⟨vm', hcall⟩ := hcall
  exact (callHost_gas_le_iff hleft hinvoke hcall).mp (h.2 id called vm' hpending hcall)

variable {code : Bytes} {x : XContext}

variable (load) in
/-- The run starts with its limit, and with no transfers. -/
theorem covered_start (hlimit : limit.toNat < 2 ^ 63)
    (hsetup : singleSetup env o transfersIn s = .inr (code, x)) :
    Covered limit.toNat ((load code).start x limit) := by
  have hgas : limit.toInt64.toInt = limit.toNat := by
    rw [toInt_toInt64, if_pos hlimit]
  have hnone : x.transfers = [] := by
    unfold singleSetup at hsetup
    split at hsetup
    · cases hsetup
    · dsimp only at hsetup
      split at hsetup
      · cases hsetup
      · cases hsetup
        rfl
  have hattached : (attachedGas x.transfers : ℤ) + limit.toInt64.toInt ≤ limit.toNat := by
    rw [hnone, hgas]
    simp [attachedGas]
  refine ⟨?_, hattached, hattached⟩
  show 0 ≤ limit.toInt64.toInt
  omega

/-- A service that is not run uses nothing, and leaves no transfers. -/
theorem accounted_of_setup {r : SingleResult} (hsetup : singleSetup env o transfersIn s = .inl r) :
    r.attached ≤ r.gasUsed.toNat ∧ r.gasUsed ≤ limit := by
  have hzero : (0 : UInt64) ≤ limit := UInt64.zero_le
  unfold singleSetup at hsetup
  split at hsetup
  · cases hsetup
    exact ⟨le_rfl, hzero⟩
  · dsimp only at hsetup
    split at hsetup
    · cases hsetup
      exact ⟨le_rfl, hzero⟩
    · cases hsetup

section

variable (hstart : Covered limit.toNat ((load code).start x limit))
  (hsafe : ∀ vm, StepsFrom blake2 env (load code).program handle
    (((load code).start x limit).enter entryPointAccumulate) vm →
    ChargeSafe blake2 env (load code).program vm)
include hstart hsafe

/-- The result of a run that is charged for every TRANSFER. -/
theorem accounted_of_execute {fuel : ℕ} {r : VMGo AccumulateVM}
    (h : VMGo.execute (load code).program handle (accumulateCalls blake2 env) fuel
      ((load code).start x limit) entryPointAccumulate = some (some r)) :
    0 ≤ r.gas.toInt ∧ attachedGas r.context.transfers + r.gas.toInt ≤ limit.toNat := by
  unfold VMGo.execute at h
  split_ifs at h with hempty
  · -- without code the context is the fresh one
    obtain rfl := some.inj (some.inj h)
    exact ⟨hstart.nonneg, hstart.x⟩
  · have hentered : Covered limit.toNat (((load code).start x limit).enter entryPointAccumulate) :=
      ⟨hstart.nonneg, hstart.x, hstart.y⟩
    obtain ⟨vm, hreached, hdone⟩ := reached_of_loop h
    exact (covered_of_reached hentered hsafe hreached).done
      (fun hrunning => hsafe vm ⟨hreached, hrunning⟩) hdone

/-- Such a run returns, within as many steps as it has gas. -/
theorem execute_returns :
    ∃ fuel r, VMGo.execute (load code).program handle (accumulateCalls blake2 env) fuel
      ((load code).start x limit) entryPointAccumulate = some r := by
  unfold VMGo.execute
  split_ifs with hempty
  · exact ⟨0, _, rfl⟩
  · have hentered : Covered limit.toNat (((load code).start x limit).enter entryPointAccumulate) :=
      ⟨hstart.nonneg, hstart.x, hstart.y⟩
    refine ⟨_, loop_returns (P := fun vm => Covered limit.toNat vm ∧
        Reached (executeRound (load code).program handle (accumulateCalls blake2 env))
          (((load code).start x limit).enter entryPointAccumulate) vm)
      (fun vm => vm.gas.toInt.toNat) ⟨hentered, .refl⟩ ?_⟩
    rintro t u ⟨hcovered, hreached⟩ hround
    obtain ⟨hcovered', hless⟩ := hcovered.next (fun hrunning => hsafe t ⟨hreached, hrunning⟩) hround
    have hnonneg := hcovered'.nonneg
    exact ⟨⟨hcovered', hreached.next hround⟩, by omega⟩

end

end

section

variable (blake2 : Bytes → Hash) (env : StorageEnv) (handle : Instruction → Guest → Option Guest)
  (load : Bytes → LoadedCode) (o : PartialState) (transfersIn : List DeferredTransfer)
  (workReports : List WorkReport) (freeAccumulation : List (UInt32 × UInt64)) (s : UInt32)

/-- **Gas is monotone and accounted for** in the run of a service that is given less than
`2 ^ 63`, exactly if every TRANSFER of the run that leaves `OK` has at most `2 ^ 63` and the
gas that is left in register 9. Then the run returns, too. -/
theorem gasAccounted_iff
    (hlimit : (accumulationGas transfersIn workReports freeAccumulation s).toNat < 2 ^ 63) :
    ((∀ p vm, RunStep blake2 env handle load o transfersIn s
          (accumulationGas transfersIn workReports freeAccumulation s) p vm →
        GasFalls blake2 env p handle vm) ∧
      (∃ fuel, (singleRun blake2 env handle load o transfersIn s
        (accumulationGas transfersIn workReports freeAccumulation s) fuel).isSome) ∧
      ∀ fuel r, singleRun blake2 env handle load o transfersIn s
          (accumulationGas transfersIn workReports freeAccumulation s) fuel = some (some r) →
        r.attached ≤ r.gasUsed.toNat ∧
          r.gasUsed ≤ accumulationGas transfersIn workReports freeAccumulation s) ↔
      ∀ p vm, RunStep blake2 env handle load o transfersIn s
          (accumulationGas transfersIn workReports freeAccumulation s) p vm →
        ChargeSafe blake2 env p vm := by
  generalize accumulationGas transfersIn workReports freeAccumulation s = limit at hlimit ⊢
  have hnonneg : ∀ p vm, RunStep blake2 env handle load o transfersIn s limit p vm →
      0 ≤ vm.gas.toInt := by
    rintro p vm ⟨code, x, hsetup, -, hreached, -⟩
    have hstart : 0 ≤ (((load code).start x limit).enter entryPointAccumulate).gas.toInt :=
      (covered_start load hlimit hsetup).nonneg
    exact nonneg_of_reached hstart hreached
  constructor
  · rintro ⟨hfalls, -, -⟩ p vm hstep
    exact chargeSafe_of_gasFalls (hnonneg p vm hstep) (hfalls p vm hstep)
  · intro hsafe
    refine ⟨fun p vm hstep => gasFalls_of_chargeSafe (hnonneg p vm hstep) (hsafe p vm hstep),
      ?_, ?_⟩
    · unfold singleRun
      split
      · exact ⟨0, rfl⟩
      · next code x hsetup =>
        have hsteps : ∀ vm, StepsFrom blake2 env (load code).program handle
            (((load code).start x limit).enter entryPointAccumulate) vm →
              ChargeSafe blake2 env (load code).program vm :=
          fun vm hvm => hsafe _ vm ⟨code, x, hsetup, rfl, hvm⟩
        obtain ⟨fuel, r, hr⟩ := execute_returns (covered_start load hlimit hsetup) hsteps
        refine ⟨fuel, ?_⟩
        rw [hr]
        rfl
    · intro fuel r hrun
      unfold singleRun at hrun
      split at hrun
      · next r' hsetup =>
        obtain rfl := some.inj (some.inj hrun)
        exact accounted_of_setup hsetup
      · next code x hsetup =>
        obtain ⟨ended, hended, hmap⟩ := map_eq_some_iff.mp hrun
        obtain ⟨vm, rfl, rfl⟩ := map_eq_some_iff.mp hmap
        obtain ⟨hleft, hattached⟩ := accounted_of_execute (covered_start load hlimit hsetup)
          (fun vm hvm => hsafe _ vm ⟨code, x, hsetup, rfl, hvm⟩) hended
        have hused : ((gasUsed limit vm.gas).toNat : ℤ) = limit.toNat - vm.gas.toInt :=
          toNat_gasUsed hleft (by omega)
        rw [UInt64.le_iff_toNat_le]
        constructor
        · show attachedGas vm.context.transfers ≤ (gasUsed limit vm.gas).toNat
          omega
        · show (gasUsed limit vm.gas).toNat ≤ limit.toNat
          omega

end

/-- The account of a service 1 whose code is the empty preimage. -/
def payer : ServiceAccount where
  serviceIndex := 1
  balance := 1000000
  preimage h := if h = 0 then some ⟨false, false, []⟩ else none

/-- ECALLI 20 at the entry point, and nothing behind it. -/
def transferProgram : Program := ⟨[0, 0, 0, 0, 0, 10, 20], [1, 1, 1, 1, 1, 1, 0]⟩

/-- The machine of the program: TRANSFER of nothing to the service itself, with so much gas. -/
def payerCode (gasLimit : UInt64) : LoadedCode where
  program := transferProgram
  machine :=
    { reg := fun i => if i = 7 then 1 else if i = 9 then gasLimit else 0
      ram := zeroRam
      heapPointer := 0
      pc := 0
      terminated := false
      resultCode := .ok
      machineState := .halt
      gas := 0
      isChild := false
      host := { machineOf .accumulate payer [] with y := contextOf payer, gas := 0 }
      hostResultCode := .ok }
  newServiceIndex := 65536

/-- The machine at the entry point, with a limit of 100. -/
def payerStart (gasLimit : UInt64) : VMGo AccumulateVM :=
  ((payerCode gasLimit).start (newXContext (contextOf payer).u 1 payer) 100).enter
    entryPointAccumulate

/-- The step of the payer goes behind the code, and leaves register 9. -/
theorem payerStart_next {vm : VMGo AccumulateVM}
    (h : executeRound transferProgram (fun _ _ => none) (accumulateCalls (fun _ => 0) emptyTrie)
      (payerStart 5) = .next vm) : transferProgram.code.length ≤ vm.pc.toNat := by
  have hpc : (match executeRound transferProgram (fun _ _ => none)
      (accumulateCalls (fun _ => 0) emptyTrie) (payerStart 5) with
    | .next vm => vm.pc == 7
    | .done _ => false) = true := by decide +kernel
  rw [h] at hpc
  rw [beq_iff_eq.mp hpc]
  decide

/-- A machine behind the code makes no call, and no further round. -/
theorem pendingCall_behind {vm : VMGo AccumulateVM}
    (h : transferProgram.code.length ≤ vm.pc.toNat) : vm.pendingCall transferProgram = none :=
  if_pos h

theorem chargeSafe_payerStart :
    ChargeSafe (fun _ => 0) emptyTrie transferProgram (payerStart 5) := by
  intro id called returned hpending hinvoke _ _
  have hreg : ∀ c ∈ (payerStart 5).pendingCall transferProgram,
      ∀ r ∈ c.2.invoke (accumulateCalls (fun _ => 0) emptyTrie) c.1, r.reg 9 = 5 := by
    decide +kernel
  have hnonneg := (pendingCall_spec (show 0 ≤ (payerStart 5).gas.toInt by decide) hpending).2.1
  rw [hreg _ hpending _ hinvoke]
  have hfive : (5 : UInt64).toNat = 5 := rfl
  omega

/-- The heads of the loop in the run of the payer. -/
theorem payer_reached {vm : VMGo AccumulateVM}
    (h : Reached (executeRound transferProgram (fun _ _ => none)
      (accumulateCalls (fun _ => 0) emptyTrie)) (payerStart 5) vm) :
    vm = payerStart 5 ∨ transferProgram.code.length ≤ vm.pc.toNat := by
  refine h.invariant (P := fun vm => vm = payerStart 5 ∨
    transferProgram.code.length ≤ vm.pc.toNat) (.inl rfl) fun t u _ ht hround => ?_
  rcases ht with rfl | hbehind
  · exact .inr (payerStart_next hround)
  · obtain ⟨-, hstep, -⟩ := executeRound_next hround
    unfold VMGo.step at hstep
    rw [if_pos hbehind] at hstep
    cases hstep

/-- A TRANSFER with 5 units of gas is paid for: the transfer takes along no more than the run
has used, which is at most 100. -/
theorem gasAccounted_transfer :
    ∃ r, singleRun (fun _ => 0) emptyTrie (fun _ _ => none) (fun _ => payerCode 5)
        (contextOf payer).u [] 1 (accumulationGas [] [] [(1, 100)] 1) 3 = some (some r) ∧
      r.attached = 5 ∧ r.attached ≤ r.gasUsed.toNat ∧
      r.gasUsed ≤ accumulationGas [] [] [(1, 100)] 1 := by
  have hsafe := (gasAccounted_iff (fun _ => 0) emptyTrie (fun _ _ => none) (fun _ => payerCode 5)
    (contextOf payer).u [] [] [(1, 100)] 1 (by decide)).mpr (by
      rintro p vm ⟨code, x, hsetup, rfl, hreached, -⟩
      obtain ⟨-, rfl⟩ := Prod.mk.inj (Sum.inr.inj hsetup.symm)
      rcases payer_reached hreached with rfl | hbehind
      · exact chargeSafe_payerStart
      · intro id called returned hpending
        exact nomatch (pendingCall_behind hbehind).symm.trans hpending)
  obtain ⟨ended, hended, r, rfl, hr⟩ : ∃ ended, singleRun (fun _ => 0) emptyTrie (fun _ _ => none)
      (fun _ => payerCode 5) (contextOf payer).u [] 1 (accumulationGas [] [] [(1, 100)] 1) 3 =
        some ended ∧ ∃ r, ended = some r ∧ r.attached = 5 := by decide +kernel
  exact ⟨r, hended, hr, hsafe.2.2 3 r hended⟩

/-- A TRANSFER with `2 ^ 64 - 1000` units of gas adds 1000 to the gas that is left, and the gas
used wraps around. -/
theorem gas_paid_out : (accumulationGas [] [] [(1, 100)] 1).toNat < 2 ^ 63 ∧
      (∃ vm', (payerStart 18446744073709550616).step transferProgram (fun _ _ => none)
          (accumulateCalls (fun _ => 0) emptyTrie) = some (vm', none) ∧
        (payerStart 18446744073709550616).gas < vm'.gas) ∧
      ∃ r, singleRun (fun _ => 0) emptyTrie (fun _ _ => none)
          (fun _ => payerCode 18446744073709550616) (contextOf payer).u [] 1
          (accumulationGas [] [] [(1, 100)] 1) 3 = some (some r) ∧
        accumulationGas [] [] [(1, 100)] 1 < r.gasUsed := by
  refine ⟨by decide, ?_, ?_⟩
  · obtain ⟨⟨vm', e⟩, hout, rfl, hlt⟩ : ∃ out, (payerStart 18446744073709550616).step
        transferProgram (fun _ _ => none) (accumulateCalls (fun _ => 0) emptyTrie) = some out ∧
        out.2 = none ∧ (payerStart 18446744073709550616).gas < out.1.gas := by decide +kernel
    exact ⟨vm', hout, hlt⟩
  · obtain ⟨ended, hended, r, rfl, hused⟩ : ∃ ended, singleRun (fun _ => 0) emptyTrie
        (fun _ _ => none) (fun _ => payerCode 18446744073709550616) (contextOf payer).u [] 1
        (accumulationGas [] [] [(1, 100)] 1) 3 = some ended ∧
        ∃ r, ended = some r ∧ accumulationGas [] [] [(1, 100)] 1 < r.gasUsed := by decide +kernel
    exact ⟨r, hended, hused⟩

end JamDuna.Pvm
