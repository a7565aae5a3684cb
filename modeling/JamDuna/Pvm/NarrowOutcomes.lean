/-
# The calls that narrow their registers

TRANSFER, WRITE, SOLICIT and FORGET with wide registers, and the result for all six calls
(`narrowRegisters_iff`): a wide index acts as a service that does not exist exactly when the
service of the lower half is not there or has nothing for the call, and a range that leaves
the address space panics the guest exactly when the range of the lower halves is refused.
-/

import JamDuna.Pvm.NarrowCopies

namespace JamDuna.Pvm

open Accumulation Option HostVM

section

variable (env : StorageEnv) {vm : HostVM}

section

variable (hmode : vm.mode = .accumulate) (hown : vm.serviceAccount.isSome)
include hmode hown

/-- What TRANSFER can do: only a memo that cannot be read panics the guest, and only a
receiver that is not there gives `WHO`. -/
theorem hostTransfer_cases :
    (vm.ram.readRAMBytes (vm.reg 10).toUInt32 memoSize = none ∧
      vm.hostFunction env .transfer = some vm.panic) ∨
    ((vm.ram.readRAMBytes (vm.reg 10).toUInt32 memoSize).isSome ∧
      (vm.getXUDS env (vm.reg 7)).join = none ∧
      vm.hostFunction env .transfer = some (vm.writeRegister 7 Code.who)) ∨
    ((vm.ram.readRAMBytes (vm.reg 10).toUInt32 memoSize).isSome ∧
      (vm.getXUDS env (vm.reg 7)).join ≠ none ∧
      ∃ vm', vm.hostFunction env .transfer = some vm' ∧ vm'.panicked = vm.panicked ∧
        vm'.reg 7 ≠ Code.who) := by
  obtain ⟨sender, hsender⟩ := isSome_iff_exists.mp hown
  dsimp only [hostFunction, hostTransfer]
  rw [if_pos hmode, if_neg (not_not.mpr hmode)]
  cases vm.ram.readRAMBytes (vm.reg 10).toUInt32 memoSize with
  | none => exact .inl ⟨rfl, rfl⟩
  | some memo =>
    cases (vm.getXUDS env (vm.reg 7)).join with
    | none => exact .inr (.inl ⟨rfl, rfl, rfl⟩)
    | some receiver =>
      refine .inr (.inr ⟨rfl, nofun, ?_⟩)
      dsimp only
      split_ifs
      · refine ⟨_, rfl, rfl, ?_⟩
        rw [writeRegister_reg_self]
        decide
      · rw [hsender]
        refine ⟨_, rfl, ?_⟩
        dsimp only [transferFrom]
        split_ifs
        all_goals
          refine ⟨rfl, ?_⟩
          rw [writeRegister_reg_self]
          decide

/-- **TRANSFER panics exactly when the memo cannot be read** at the lower half of its
pointer. -/
theorem panicsUnchanged_transfer_iff (hrun : vm.panicked = false) :
    PanicsUnchanged env vm .transfer ↔ PanicCondition env vm .transfer := by
  dsimp only [PanicCondition]
  rw [← readRAMBytes_eq_none_iff, ← not_isSome_iff_eq_none]
  rcases hostTransfer_cases env hmode hown with
    ⟨hmemo, hcall⟩ | ⟨hmemo, -, hcall⟩ | ⟨hmemo, -, vm', hcall, hpanicked, -⟩
  · exact iff_of_true ((Loaded.refl env vm).panicsUnchanged hcall)
      (not_isSome_iff_eq_none.mpr hmemo)
  · exact iff_of_false (not_panicsUnchanged hcall hrun) fun h => h hmemo
  · exact iff_of_false (not_panicsUnchanged hcall (hpanicked.trans hrun)) fun h => h hmemo

/-- **TRANSFER to a wide index**: the service of the lower half is the receiver. -/
theorem actsAsMissing_transfer_iff :
    ActsAsMissing env vm .transfer ↔ MissingCondition env vm .transfer := by
  dsimp only [MissingCondition]
  have hmissing : vm.missing .transfer =
      if (vm.ram.readRAMBytes (vm.reg 10).toUInt32 memoSize).isSome then
        vm.writeRegister 7 Code.who
      else vm.panic := rfl
  rcases hostTransfer_cases env hmode hown with
    ⟨hmemo, hcall⟩ | ⟨hmemo, hjoin, hcall⟩ | ⟨hmemo, hjoin, vm', hcall, -, hseven⟩
  · rw [hmemo] at hmissing ⊢
    exact iff_of_true (actsAsMissing_panic hmissing hcall) nofun
  · rw [if_pos hmemo] at hmissing
    exact iff_of_true ((Loaded.refl env vm).actsAsMissing hmissing hcall) fun _ => hjoin
  · rw [if_pos hmemo] at hmissing
    exact iff_of_false (not_actsAsMissing hmissing hcall (.inr hseven)) fun h => hjoin (h hmemo)

end

theorem writeArgs_isSome_iff (vm : HostVM) : vm.writeArgs.isSome ↔
    (vm.ram.readRAMBytes (vm.reg 7).toUInt32 (vm.reg 8).toUInt32).isSome ∧
      vm.writeValue.isSome := by
  unfold writeArgs
  split
  · next hk hv => simp [hk, hv]
  · next hno =>
    refine ⟨nofun, fun ⟨hk, hv⟩ => ?_⟩
    obtain ⟨muK, hmuK⟩ := isSome_iff_exists.mp hk
    obtain ⟨v, hv⟩ := isSome_iff_exists.mp hv
    exact (hno muK v hmuK hv).elim

section

variable (hmode : vm.mode = .accumulate) (hown : vm.serviceAccount.isSome)
  (hrun : vm.panicked = false)
include hmode hown hrun

/-- **WRITE panics exactly when the key or the value cannot be read**, in the lower halves of
the registers. -/
theorem panicsUnchanged_write_iff :
    PanicsUnchanged env vm .write ↔ PanicCondition env vm .write := by
  obtain ⟨a, ha⟩ := isSome_iff_exists.mp hown
  have hargs := writeArgs_isSome_iff vm
  have hvalue : vm.writeValue = none ↔
      (vm.reg 10 ≠ 0 ∧ ¬ vm.ram.ReadsWord (vm.reg 9) (vm.reg 10)) := by
    rw [← readRAMBytes_eq_none_iff]
    unfold writeValue
    split_ifs with h <;> simp [h]
  have hcall : vm.hostFunction env .write = vm.hostWrite env := by
    dsimp only [hostFunction]
    rw [if_pos hmode]
  unfold hostWrite at hcall
  rw [if_neg (not_not.mpr hmode)] at hcall
  dsimp only [PanicCondition]
  rw [← readRAMBytes_eq_none_iff, ← hvalue]
  cases hk : vm.ram.readRAMBytes (vm.reg 7).toUInt32 (vm.reg 8).toUInt32 with
  | none =>
    rw [hk] at hcall
    exact iff_of_true ((Loaded.refl env vm).panicsUnchanged hcall) (.inl rfl)
  | some muK =>
    rw [hk] at hargs hcall
    rw [ha] at hcall
    cases hw : vm.writeArgs with
    | none =>
      rw [hw] at hargs hcall
      refine iff_of_true ((Loaded.refl env vm).panicsUnchanged hcall) (.inr ?_)
      by_contra hv
      exact absurd (hargs.mpr ⟨rfl, isSome_iff_ne_none.mpr hv⟩) (by decide)
    | some args =>
      rw [hw] at hargs hcall
      refine iff_of_false (not_panicsUnchanged hcall hrun) ?_
      rintro (h | h)
      · cases h
      · exact absurd h (isSome_iff_ne_none.mp (hargs.mp rfl).2)

/-- What SOLICIT and FORGET can do: only a hash that cannot be read panics the guest. -/
theorem requestCall_panics_iff {fn : HostFn}
    {call : ServiceAccount → Hash → UInt64 → RequestResult × ServiceAccount}
    (hcall : vm.hostFunction env fn = vm.requestCall call) :
    PanicsUnchanged env vm fn ↔ ¬ vm.ram.ReadsWord (vm.reg 7) 32 := by
  obtain ⟨a, ha⟩ := isSome_iff_exists.mp hown
  have hthirty : (32 : UInt64).toUInt32 = 32 := rfl
  rw [← readRAMBytes_eq_none_iff, hthirty]
  unfold requestCall at hcall
  rw [if_neg (not_not.mpr hmode)] at hcall
  cases hk : vm.ram.readRAMBytes (vm.reg 7).toUInt32 32 with
  | none =>
    rw [hk] at hcall
    exact iff_of_true ((Loaded.refl env vm).panicsUnchanged hcall) rfl
  | some h =>
    rw [hk, ha] at hcall
    exact iff_of_false (not_panicsUnchanged hcall hrun) nofun

theorem panicsUnchanged_solicit_iff :
    PanicsUnchanged env vm .solicit ↔ PanicCondition env vm .solicit :=
  requestCall_panics_iff env hmode hown hrun (if_pos hmode)

theorem panicsUnchanged_forget_iff :
    PanicsUnchanged env vm .forget ↔ PanicCondition env vm .forget :=
  requestCall_panics_iff env hmode hown hrun (if_pos hmode)

end

end

/-- **Wide registers act as their lower halves.** For a service that is running, whatever its
registers and memory: a call for a service with an index of `2 ^ 32` or more has the outcome
for a service that does not exist exactly under `MissingCondition`, and a call whose range
leaves the address space panics exactly under `PanicCondition`; no account is changed in
either case. The lengths of values are those of Go slices. -/
theorem narrowRegisters_iff (env : StorageEnv) (vm : HostVM) (fn : HostFn)
    (hmode : vm.mode = .accumulate) (hstart : vm.Started) (hrun : vm.panicked = false)
    (hlen : ∀ c, vm.copySource env fn = some c → c.value.length < 2 ^ 63) :
    (NamesHigh vm fn → (ActsAsMissing env vm fn ↔ MissingCondition env vm fn)) ∧
      (LeavesMemory env vm fn → (PanicsUnchanged env vm fn ↔ PanicCondition env vm fn)) := by
  have hown := hstart hmode
  cases fn with
  | read =>
    exact ⟨actsAsMissing_read_iff env hmode hown hrun hlen,
      fun _ => panicsUnchanged_read_iff env hmode hown hrun hlen⟩
  | lookup =>
    exact ⟨actsAsMissing_lookup_iff env hmode hrun hlen,
      fun _ => panicsUnchanged_lookup_iff env hmode hrun hlen⟩
  | transfer =>
    exact ⟨fun _ => actsAsMissing_transfer_iff env hmode hown,
      fun _ => panicsUnchanged_transfer_iff env hmode hown hrun⟩
  | write => exact ⟨False.elim, fun _ => panicsUnchanged_write_iff env hmode hown hrun⟩
  | solicit => exact ⟨False.elim, fun _ => panicsUnchanged_solicit_iff env hmode hown hrun⟩
  | forget => exact ⟨False.elim, fun _ => panicsUnchanged_forget_iff env hmode hown hrun⟩
  -- the other calls name no service and no range here
  | fetch | historicalLookup | info | eject => exact ⟨False.elim, fun ⟨_, hr, _⟩ => nomatch hr⟩

/-- READ of service `2 ^ 32 + 2` finds no service 2; SOLICIT with a hash at `2 ^ 32 + 12288`
finds no page there. -/
theorem narrowRegisters_missing :
    ActsAsMissing emptyTrie (copierVM [4294967298, 0, 1, 4096, 0, 8]) .read ∧
      PanicsUnchanged emptyTrie (copierVM [4294979584, 5]) .solicit := by
  have hsource : (copierVM [4294967298, 0, 1, 4096, 0, 8]).copySource emptyTrie .read = none := by
    decide +kernel
  have hservice : ((copierVM [4294967298, 0, 1, 4096, 0, 8]).getXUDS emptyTrie
      4294967298).join = none := by decide +kernel
  constructor
  · refine ((narrowRegisters_iff emptyTrie _ .read rfl (fun _ => rfl) rfl ?_).1
      ⟨by decide, by decide⟩).mpr ?_
    · intro c hc
      cases hsource.symm.trans hc
    · intro muK a _ ha
      cases hservice.symm.trans ha
  · refine ((narrowRegisters_iff emptyTrie _ .solicit rfl (fun _ => rfl) rfl nofun).2
      ⟨(4294979584, 32), .head _, by decide, by decide⟩).mpr ?_
    rintro (hzero | ⟨-, hreadable⟩)
    · exact absurd hzero (by decide)
    · exact absurd hreadable (by decide +kernel)

/-- READ of service `2 ^ 32 + 1` returns the value of service 1, and WRITE with the key at
`2 ^ 32` takes the key at address 0; the balance is 0, so it answers `FULL`. -/
theorem narrowRegisters_truncated : (copierVM [4294967297, 0, 1, 4096, 0, 8]).Started ∧
      NamesHigh (copierVM [4294967297, 0, 1, 4096, 0, 8]) .read ∧
      ¬ ActsAsMissing emptyTrie (copierVM [4294967297, 0, 1, 4096, 0, 8]) .read ∧
      (copierVM [4294967296, 1, 0, 0]).Started ∧
      LeavesMemory emptyTrie (copierVM [4294967296, 1, 0, 0]) .write ∧
      ¬ PanicsUnchanged emptyTrie (copierVM [4294967296, 1, 0, 0]) .write := by
  refine ⟨fun _ => rfl, ⟨by decide, by decide⟩, ?_, fun _ => rfl,
    ⟨(4294967296, 1), .head _, by decide, by decide⟩, ?_⟩
  · rintro ⟨vm', hout, hreg, -⟩
    have hread : ((copierVM [4294967297, 0, 1, 4096, 0, 8]).hostFunction emptyTrie .read).map
        (·.reg 7) = some 3 := by decide +kernel
    have hmissing : ((copierVM [4294967297, 0, 1, 4096, 0, 8]).missing .read).reg 7 =
        Code.none := by decide +kernel
    rw [hout, map_some, hreg, hmissing] at hread
    exact absurd hread (by decide)
  · rintro ⟨vm', hout, hpanicked, -⟩
    have hwrite : ((copierVM [4294967296, 1, 0, 0]).hostFunction emptyTrie .write).map
        (·.panicked) = some false := by decide +kernel
    rw [hout, map_some, hpanicked] at hwrite
    exact absurd hwrite (by decide)

end JamDuna.Pvm
