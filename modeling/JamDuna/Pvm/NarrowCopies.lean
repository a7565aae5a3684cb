/-
# READ and LOOKUP with wide registers

The two calls that copy a value out, `hostRead` and `hostLookup` of
`statedb/pvm_hostfunctions.go`, and what they do with the lower halves of their registers.
Each has one lemma that says what the call can do (`hostRead_cases`, `hostLookup_cases`); the
two equivalences of a call follow from it.
-/

import JamDuna.Pvm.NarrowRegisters

namespace JamDuna.Pvm

open JamDuna.Types Accumulation Option HostVM

variable (env : StorageEnv) {vm : HostVM}

section

variable (hmode : vm.mode = .accumulate)
include hmode

theorem hostRead_of_unreadable
    (hk : vm.ram.readRAMBytes (vm.reg 8).toUInt32 (vm.reg 9).toUInt32 = none) :
    vm.hostFunction env .read = some vm.panic := by
  dsimp only [hostFunction, hostRead]
  rw [if_pos hmode, if_neg (not_not.mpr hmode), hk]

/-- READ finds the account that `readAccount` says, once the key is read. -/
theorem hostRead_of_readable (hown : vm.serviceAccount.isSome) {muK : Bytes}
    (hk : vm.ram.readRAMBytes (vm.reg 8).toUInt32 (vm.reg 9).toUInt32 = some muK) :
    (vm.readAccount env = none ∧ vm.hostFunction env .read = some (vm.writeRegister 7 Code.none)) ∨
    ∃ a vm₁, vm.readAccount env = some a ∧ Loaded env vm vm₁ ∧
      vm.hostFunction env .read = vm₁.readValue env a muK := by
  dsimp only [hostFunction]
  rw [if_pos hmode]
  rcases hostRead_of_key env hmode hk with ⟨hnone, hcall⟩ | ⟨a, vm₁, ha, hcall, rfl | ⟨s, hx, rfl⟩⟩
  · exact .inl ⟨hnone, hcall hown⟩
  · exact .inr ⟨a, _, ha, Loaded.refl env _, hcall⟩
  · have hjoin : (vm.getXUDS env s).join = some a := by rw [hx]; rfl
    exact .inr ⟨a, _, ha,
      loaded_setAccount (effective_of_getXUDS hjoin) (SameAccount.refl env a), hcall⟩

/-- What READ can do: there is no value, or its window is copied out. -/
theorem hostRead_cases (hown : vm.serviceAccount.isSome) {muK : Bytes}
    (hk : vm.ram.readRAMBytes (vm.reg 8).toUInt32 (vm.reg 9).toUInt32 = some muK) :
    (vm.copySource env .read = none ∧
      (∀ a, vm.readAccount env = some a → a.readStorage env muK = none) ∧
      ∃ vm₁, Loaded env vm vm₁ ∧ vm.hostFunction env .read = some (vm₁.writeRegister 7 Code.none)) ∨
    ∃ a c vm₁, vm.readAccount env = some a ∧ a.readStorage env muK = some c.value ∧
      vm.copySource env .read = some c ∧ Loaded env vm vm₁ ∧
      vm.hostFunction env .read = vm₁.copyOut c.value c.destination c.offset c.length := by
  have hsource : vm.copySource env .read = (vm.readAccount env).bind fun a =>
      (a.readStorage env muK).map fun v => ⟨v, vm.reg 10, vm.reg 11, vm.reg 12⟩ := by
    dsimp only [copySource]
    rw [if_neg (not_not.mpr hmode), hk, bind_some]
  rcases hostRead_of_readable env hmode hown hk with ⟨hnone, hcall⟩ | ⟨a, vm₁, ha, hload, hcall⟩
  · rw [hnone] at hsource
    rw [hnone]
    exact .inl ⟨hsource, nofun, vm, Loaded.refl env vm, hcall⟩
  · rw [ha, bind_some] at hsource
    unfold readValue at hcall
    cases hv : a.readStorage env muK with
    | none =>
      rw [hv] at hsource hcall
      refine .inl ⟨hsource, fun b hb => ?_, vm₁, hload, hcall⟩
      rw [← some.inj (ha.symm.trans hb)]
      exact hv
    | some v =>
      rw [hv] at hsource hcall
      refine .inr ⟨a, ⟨v, vm.reg 10, vm.reg 11, vm.reg 12⟩, vm₁, ha, hv, hsource, hload, ?_⟩
      rw [hcall]
      rw [hload.reg]

/-- **READ panics exactly when the key cannot be read or the window not be written**, in the
lower halves of the registers. -/
theorem panicsUnchanged_read_iff (hown : vm.serviceAccount.isSome) (hrun : vm.panicked = false)
    (hlen : ∀ c, vm.copySource env .read = some c → c.value.length < 2 ^ 63) :
    PanicsUnchanged env vm .read ↔ PanicCondition env vm .read := by
  dsimp only [PanicCondition]
  rw [← readRAMBytes_eq_none_iff]
  cases hk : vm.ram.readRAMBytes (vm.reg 8).toUInt32 (vm.reg 9).toUInt32 with
  | none =>
    exact iff_of_true ((Loaded.refl env vm).panicsUnchanged (hostRead_of_unreadable env hmode hk))
      (.inl rfl)
  | some muK =>
    rcases hostRead_cases env hmode hown hk with
      ⟨hsource, -, vm₁, hload, hcall⟩ | ⟨a, c, vm₁, -, -, hsource, hload, hcall⟩
    · rw [hsource]
      exact iff_of_false (not_panicsUnchanged hcall (hload.panicked.trans hrun))
        fun h => h.elim nofun fun ⟨c, hc, _⟩ => nomatch hc
    · rw [hsource]
      rcases hload.copyOut_cases (hlen c hsource) with ⟨hrefused, hout⟩ | ⟨htaken, ram, hout⟩
      · exact iff_of_true (hload.panicsUnchanged (hcall.trans hout)) (.inr ⟨c, rfl, hrefused⟩)
      · refine iff_of_false (not_panicsUnchanged (hcall.trans hout) (hload.panicked.trans hrun)) ?_
        rintro (h | ⟨c', hc', hrefused⟩)
        · cases h
        · cases hc'
          exact hrefused htaken

end

theorem high_ne_own (hhigh : 2 ^ 32 ≤ (vm.reg 7).toNat) :
    vm.reg 7 ≠ vm.x.serviceIndex.toUInt64 := by
  intro h
  have hlt := vm.x.serviceIndex.toNat_lt
  rw [h, UInt32.toNat_toUInt64] at hhigh
  omega

/-- **READ of a wide index**: the service of the lower half is asked. -/
theorem actsAsMissing_read_iff (hmode : vm.mode = .accumulate)
    (hown : vm.serviceAccount.isSome) (hrun : vm.panicked = false)
    (hlen : ∀ c, vm.copySource env .read = some c → c.value.length < 2 ^ 63)
    (hhigh : NamesHigh vm .read) : ActsAsMissing env vm .read ↔ MissingCondition env vm .read := by
  have haccount : vm.readAccount env = (vm.getXUDS env (vm.reg 7)).join := by
    dsimp only [readAccount]
    rw [if_neg hhigh.2, if_neg (high_ne_own hhigh.1)]
  dsimp only [MissingCondition]
  rw [← haccount]
  cases hk : vm.ram.readRAMBytes (vm.reg 8).toUInt32 (vm.reg 9).toUInt32 with
  | none =>
    have hmissing : vm.missing .read = vm.panic := by
      dsimp only [missing]
      rw [hk]
      rfl
    exact iff_of_true (actsAsMissing_panic hmissing (hostRead_of_unreadable env hmode hk)) nofun
  | some muK =>
    have hmissing : vm.missing .read = vm.writeRegister 7 Code.none := by
      dsimp only [missing]
      rw [hk]
      rfl
    rcases hostRead_cases env hmode hown hk with
      ⟨-, hnone, vm₁, hload, hcall⟩ | ⟨a, c, vm₁, ha, hv, hsource, hload, hcall⟩
    · refine iff_of_true (hload.actsAsMissing hmissing hcall) fun muK' a hmuK ha => ?_
      rw [← some.inj hmuK]
      exact hnone a ha
    · refine iff_of_false ?_ fun hcond => absurd (hv.symm.trans (hcond muK a rfl ha)) nofun
      rcases hload.copyOut_cases (hlen c hsource) with ⟨-, hout⟩ | ⟨-, ram, hout⟩
      · refine not_actsAsMissing hmissing (hcall.trans hout) (.inl ?_)
        rw [hrun]
        exact nofun
      · refine not_actsAsMissing hmissing (hcall.trans hout) (.inr ?_)
        rw [writeRegister_reg_self]
        exact ofNat_length_ne_none (hlen c hsource)

variable {vm₁ : HostVM}

theorem toUInt32_clampedLength {c : Copy} (hlen : c.value.length < 2 ^ 63) :
    (clampedLength c.value c.offset c.length).toUInt32 = UInt32.ofNat c.size := by
  rw [← UInt32.toNat_inj, UInt64.toNat_toUInt32, Copy.toNat_length hlen, UInt32.toNat_ofNat']

/-- LOOKUP without a preimage: nothing is to be written. -/
theorem copyPreimage_none (vm : HostVM) :
    vm.copyPreimage none = some (vm.writeRegister 7 Code.none) := by
  have hlength : (clampedLength [] (vm.reg 10) (vm.reg 11)).toUInt32 = 0 := by
    rw [← UInt32.toNat_inj, UInt64.toNat_toUInt32, toNat_clampedLength]
    simp
  have hempty : vm.ram.canWrite (vm.reg 9).toUInt32 0 = true := rfl
  unfold copyPreimage
  dsimp only [getD_none]
  rw [hlength, hempty]
  rfl

variable {env}

/-- What the end of LOOKUP can do with a preimage. -/
theorem Loaded.copyPreimage_cases (h : Loaded env vm vm₁) {c : Copy}
    (hc : c.destination = vm.reg 9 ∧ c.offset = vm.reg 10 ∧ c.length = vm.reg 11)
    (hlen : c.value.length < 2 ^ 63) :
    (c.LookupRefused vm.ram ∧ vm₁.copyPreimage (some c.value) = some vm₁.panic) ∨
    (¬ c.LookupRefused vm.ram ∧ ∀ vm', vm₁.copyPreimage (some c.value) = some vm' →
      vm'.panicked = vm.panicked ∧ (vm'.reg 7 = UInt64.ofNat c.value.length ∨
        vm'.reg 7 = vm.reg 7)) := by
  obtain ⟨hdest, hoffset, hlength⟩ := hc
  unfold copyPreimage Copy.LookupRefused
  dsimp only [getD_some]
  rw [h.reg, h.ram, ← hdest, ← hoffset, ← hlength, toUInt32_clampedLength hlen]
  by_cases hcan : vm.ram.canWrite c.destination.toUInt32 (UInt32.ofNat c.size) = false
  · rw [if_pos hcan]
    exact .inl ⟨.inl hcan, rfl⟩
  rw [if_neg hcan, Copy.toNat_offset hlen, Copy.toNat_length hlen]
  unfold goSlice
  by_cases hle : c.start ≤ c.size ∧ c.size ≤ c.value.length
  · rw [if_pos hle, map_some]
    unfold storePreimage
    rw [h.reg, h.ram, ← hdest]
    cases hw : vm.ram.writeRAMBytes c.destination.toUInt32 ((c.value.take c.size).drop c.start) with
    | none => exact .inl ⟨.inr ⟨hle.1, (writeRAMBytes_eq_none_iff _ _).mp hw⟩, rfl⟩
    | some ram =>
      refine .inr ⟨?_, fun vm' hout => ?_⟩
      · rintro (hno | ⟨-, hrefused⟩)
        · exact hcan hno
        · rw [(writeRAMBytes_eq_none_iff _ _).mpr hrefused] at hw
          cases hw
      · cases hout
        split_ifs
        · exact ⟨h.panicked, .inl (writeRegister_reg_self ..)⟩
        · exact ⟨h.panicked, .inr rfl⟩
  · rw [if_neg hle, map_none]
    refine .inr ⟨?_, fun _ hout => absurd hout (some_ne_none _).symm⟩
    rintro (hno | ⟨hstart, -⟩)
    · exact hcan hno
    · have := c.start_add_size_le
      exact hle ⟨hstart, by omega⟩

variable (env)

section

variable (hmode : vm.mode = .accumulate)
include hmode

theorem hostLookup_of_missing (hnone : vm.lookupAccount env (vm.reg 7) = none) :
    vm.hostFunction env .lookup = some (vm.writeRegister 7 Code.none) := by
  dsimp only [hostFunction, hostLookup]
  rw [if_pos hmode, if_neg (not_not.mpr hmode), hnone]

/-- What LOOKUP can do with the account it found. -/
theorem hostLookup_cases {s : UInt32} {a : ServiceAccount}
    (ha : vm.lookupAccount env (vm.reg 7) = some (s, a)) :
    (vm.ram.readRAMBytes (vm.reg 8).toUInt32 32 = none ∧
      ∃ vm₁, Loaded env vm vm₁ ∧ vm.hostFunction env .lookup = some vm₁.panic) ∨
    ∃ k vm₁, vm.ram.readRAMBytes (vm.reg 8).toUInt32 32 = some k ∧ Loaded env vm vm₁ ∧
      vm.copySource env .lookup = (a.preimageBlob env.toHostEnv (Hash.ofBytes k)).map
        (fun v => ⟨v, vm.reg 9, vm.reg 10, vm.reg 11⟩) ∧
      vm.hostFunction env .lookup =
        vm₁.copyPreimage (a.preimageBlob env.toHostEnv (Hash.ofBytes k)) := by
  have heffective := effective_of_lookupAccount ha
  dsimp only [hostFunction, hostLookup, copySource]
  rw [if_pos hmode, if_neg (not_not.mpr hmode), if_neg (not_not.mpr hmode), ha]
  cases hk : vm.ram.readRAMBytes (vm.reg 8).toUInt32 32 with
  | none =>
    exact .inl ⟨rfl, _, loaded_setAccount heffective (SameAccount.refl env a), rfl⟩
  | some k =>
    exact .inr ⟨k, _, rfl,
      loaded_setAccount heffective (sameAccount_cachePreimage env a (Hash.ofBytes k)), rfl, rfl⟩

/-- **LOOKUP panics exactly when it finds an account and cannot read the hash or cannot
write**, in the lower halves of the registers. -/
theorem panicsUnchanged_lookup_iff (hrun : vm.panicked = false)
    (hlen : ∀ c, vm.copySource env .lookup = some c → c.value.length < 2 ^ 63) :
    PanicsUnchanged env vm .lookup ↔ PanicCondition env vm .lookup := by
  dsimp only [PanicCondition]
  rw [← readRAMBytes_eq_none_iff]
  have hthirty : (32 : UInt64).toUInt32 = 32 := rfl
  rw [hthirty]
  cases ha : vm.lookupAccount env (vm.reg 7) with
  | none =>
    exact iff_of_false (not_panicsUnchanged (hostLookup_of_missing env hmode ha) hrun)
      fun h => nomatch h.1
  | some found =>
    rcases hostLookup_cases env hmode ha with
      ⟨hk, vm₁, hload, hcall⟩ | ⟨k, vm₁, hk, hload, hsource, hcall⟩
    · exact iff_of_true (hload.panicsUnchanged hcall) ⟨rfl, .inl hk⟩
    · rw [hk, hsource]
      cases hv : found.2.preimageBlob env.toHostEnv (Hash.ofBytes k) with
      | none =>
        rw [hv, copyPreimage_none] at hcall
        exact iff_of_false (not_panicsUnchanged hcall (hload.panicked.trans hrun))
          fun h => h.2.elim nofun fun ⟨c, hc, _⟩ => nomatch hc
      | some v =>
        rw [hv] at hsource hcall
        rcases hload.copyPreimage_cases ⟨rfl, rfl, rfl⟩ (hlen _ hsource) with
          ⟨hrefused, hout⟩ | ⟨htaken, hout⟩
        · exact iff_of_true (hload.panicsUnchanged (hcall.trans hout))
            ⟨rfl, .inr ⟨_, rfl, hrefused⟩⟩
        · refine iff_of_false ?_ ?_
          · intro h
            obtain ⟨vm', hout', -⟩ := id h
            exact not_panicsUnchanged hout' ((hout vm' (hcall ▸ hout')).1.trans hrun) h
          · rintro ⟨-, h | ⟨c, hc, hrefused⟩⟩
            · cases h
            · cases hc
              exact htaken hrefused

/-- **LOOKUP of a wide index**: the service of the lower half is asked. -/
theorem actsAsMissing_lookup_iff (hrun : vm.panicked = false)
    (hlen : ∀ c, vm.copySource env .lookup = some c → c.value.length < 2 ^ 63)
    (hhigh : NamesHigh vm .lookup) :
    ActsAsMissing env vm .lookup ↔ MissingCondition env vm .lookup := by
  have haccount : vm.lookupAccount env (vm.reg 7) =
      ((vm.getXUDS env (vm.reg 7)).join).map ((vm.reg 7).toUInt32, ·) := by
    dsimp only [lookupAccount]
    rw [if_neg (not_or.mpr ⟨high_ne_own hhigh.1, hhigh.2⟩)]
  dsimp only [MissingCondition]
  cases ha : (vm.getXUDS env (vm.reg 7)).join with
  | none =>
    rw [ha] at haccount
    exact iff_of_true
      ((Loaded.refl env vm).actsAsMissing rfl (hostLookup_of_missing env hmode haccount)) nofun
  | some a =>
    rw [ha] at haccount
    rcases hostLookup_cases env hmode haccount with
      ⟨hk, vm₁, hload, hcall⟩ | ⟨k, vm₁, hk, hload, hsource, hcall⟩
    · refine iff_of_false (not_actsAsMissing rfl hcall (.inl ?_)) fun h => ?_
      · rw [hrun]
        exact nofun
      · obtain ⟨k, hk', -⟩ := h a rfl
        exact nomatch hk.symm.trans hk'
    · cases hv : a.preimageBlob env.toHostEnv (Hash.ofBytes k) with
      | none =>
        rw [hv, copyPreimage_none] at hcall
        refine iff_of_true (hload.actsAsMissing rfl hcall) fun b hb => ⟨k, hk, ?_⟩
        rw [← some.inj hb]
        exact hv
      | some v =>
        rw [hv] at hsource hcall
        refine iff_of_false (fun hacts => ?_) fun h => ?_
        · obtain ⟨vm', hout', -⟩ := id hacts
          refine not_actsAsMissing rfl hout' ?_ hacts
          rw [hcall] at hout'
          rcases hload.copyPreimage_cases ⟨rfl, rfl, rfl⟩ (hlen _ hsource) with
            ⟨-, hout⟩ | ⟨-, hout⟩
          · obtain rfl := some.inj (hout.symm.trans hout')
            rw [hrun]
            exact .inl nofun
          · rcases (hout vm' hout').2 with h | h <;> rw [h]
            · exact .inr (ofNat_length_ne_none (hlen _ hsource))
            · exact .inr hhigh.2
        · obtain ⟨k', hk', hnone⟩ := h a rfl
          obtain rfl := some.inj (hk.symm.trans hk')
          exact nomatch hv.symm.trans hnone

end

end JamDuna.Pvm
