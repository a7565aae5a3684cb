/-
# The account of the running service

`ExecuteAccumulate` of `statedb/pvm.go` starts a service only when the context has its
account, and no host call takes an account out of the context: EJECT marks it as deleted.
So `Started` holds along every run (`started_of_run`), and `getXUDS` returns a nil account
for the marker `2 ^ 64 - 1` only.
-/

import JamDuna.Basis.Runs
import JamDuna.Pvm.HostEffects

namespace JamDuna.Pvm

open JamDuna.Basis Accumulation Function

variable {env : StorageEnv} {vm : HostVM}

/-- A nil account with the code `OK` comes from the marker `2 ^ 64 - 1` only. -/
theorem getXUDS_eq_nil_iff (env : StorageEnv) (hown : vm.serviceAccount.isSome) (i : UInt64) :
    vm.getXUDS env i = some none ↔ i = maxUint64 ∧ vm.x.u.serviceAccounts 0xffffffff = none := by
  have hmarker : (maxUint64).toUInt32 = 0xffffffff := rfl
  unfold HostVM.getXUDS
  by_cases hmax : i = maxUint64
  · subst hmax
    rw [if_pos (.inl rfl), hmarker]
    simp
  · by_cases hself : i.toUInt32 = vm.x.serviceIndex
    · rw [if_pos (.inr hself), hself]
      unfold HostVM.serviceAccount at hown
      obtain ⟨a, ha⟩ := Option.isSome_iff_exists.mp hown
      simp [ha, hmax]
    · rw [if_neg (by rintro (h | h); exacts [hmax h, hself h])]
      cases vm.x.u.serviceAccounts i.toUInt32 with
      | some a => simp [hmax]
      | none => cases env.getService i.toUInt32 <;> simp [hmax]

theorem toUInt64_ne_max (s : UInt32) : s.toUInt64 ≠ maxUint64 := by
  intro h
  have hnat : s.toUInt64.toNat = maxUint64.toNat := congrArg UInt64.toNat h
  have hlt := s.toNat_lt
  have hmax : maxUint64.toNat = 2 ^ 64 - 1 := rfl
  rw [UInt32.toNat_toUInt64, hmax] at hnat
  omega

theorem isSome_serviceAccount_setAccount (h : vm.serviceAccount.isSome) (s : UInt32)
    (a : ServiceAccount) : (vm.setAccount s a).serviceAccount.isSome := by
  show (update vm.x.u.serviceAccounts s (some a) vm.x.serviceIndex).isSome
  by_cases hs : vm.x.serviceIndex = s
  · rw [hs, update_self]
    rfl
  · rw [update_of_ne hs]
    exact h

variable {vm' : HostVM}

/-- **A started service stays started along every run of host calls**, whatever the guest
does to its registers and memory in between. -/
theorem started_of_run {calls : List HostFn} (h : vm.Started)
    (hrun : Run (fun vm fn vm' => ∃ reg ram,
      ({ vm with reg := reg, ram := ram } : HostVM).hostFunction env fn = some vm') vm calls vm') :
    vm'.Started := by
  refine hrun.preserves (P := HostVM.Started) ?_ h
  rintro vm fn vm' ⟨reg, ram, hout⟩ hstart hmode
  have hadvances : Advances (fun _ => 0) env (.host fn) { vm with reg := reg, ram := ram } vm' :=
    advances_hostFunction hout
  have hsome := hadvances.step.isSome_account (hstart (hadvances.mode.symm.trans hmode))
  rw [← hadvances.step.serviceIndex] at hsome
  exact hsome

/-- An EJECT of nobody. -/
theorem started_after_eject : ∃ vm vm' : HostVM, vm.mode = .accumulate ∧
    vm.hostFunction emptyTrie .eject = some vm' ∧ vm'.Started := by
  let vm := machineOf .accumulate { serviceIndex := 1 } []
  have hstart : vm.Started := fun _ => rfl
  obtain ⟨vm', hvm⟩ := Option.isSome_iff_exists.mp
    (show (vm.hostFunction emptyTrie .eject).isSome by decide +kernel)
  exact ⟨vm, vm', rfl, hvm, started_of_run hstart (.single ⟨_, _, hvm⟩)⟩

end JamDuna.Pvm
