/-
# Registers that are narrowed to 32 bits

READ, WRITE, TRANSFER, SOLICIT, FORGET and LOOKUP of `statedb/pvm_hostfunctions.go` take
pointers, lengths and the index of a service from 64-bit registers, and narrow each of them
to 32 bits where it is used. A register of `2 ^ 32` or more then acts as its lower half:

* an index names the service of its lower half, where there is one (`MissingCondition`);
* a range is that of the lower halves, and panics the guest only if that one is refused
  (`PanicCondition`).

LOOKUP, moreover, looks for the account before it reads the hash, so a missing account hides
a pointer that would panic.
-/

import JamDuna.Pvm.CopyWindow

namespace JamDuna.Pvm

open JamDuna.Types Accumulation Function Option UInt64 HostVM

section

variable (env : StorageEnv) (vm : HostVM)

/-- The account under an index: that of the context, or else that of the trie. -/
def HostVM.effective (s : UInt32) : Option ServiceAccount :=
  (vm.x.u.serviceAccounts s).or (env.getService s)

/-- The accounts differ at most in the preimages that are cached. -/
structure SameAccount (a b : ServiceAccount) : Prop where
  fields : b = { a with preimage := b.preimage }
  preimages : ∀ h, b.preimageBlob env.toHostEnv h = a.preimageBlob env.toHostEnv h

/-- No account is changed. -/
def SameAccounts (vm' : HostVM) : Prop :=
  ∀ s, (vm.effective env s = none ∧ vm'.effective env s = none) ∨
    ∃ a b, vm.effective env s = some a ∧ vm'.effective env s = some b ∧ SameAccount env a b

/-- The range of the lower halves of two registers is read: it is empty, or readable and
below `2 ^ 32`. -/
def Ram.ReadsWord (ram : Ram) (p n : UInt64) : Prop :=
  n.toNat % 2 ^ 32 = 0 ∨ (p.toNat % 2 ^ 32 + n.toNat % 2 ^ 32 < 2 ^ 32 ∧
      ram.Readable (p.toNat % 2 ^ 32) (n.toNat % 2 ^ 32))

/-- Data is written to the lower half of a register. -/
def Ram.TakesWord (ram : Ram) (p : UInt64) (data : Bytes) : Prop :=
  data = [] ∨ (p.toNat % 2 ^ 32 + data.length % 2 ^ 32 < 2 ^ 32 ∧
      ram.Writable (p.toNat % 2 ^ 32) (data.length % 2 ^ 32))

/-- Register 7 names a service with more than 32 bits; the marker `2 ^ 64 - 1` names the
running service in READ and LOOKUP. -/
def NamesHigh : HostFn → Prop
  | .read => 2 ^ 32 ≤ (vm.reg 7).toNat ∧ vm.reg 7 ≠ maxUint64
  | .lookup => 2 ^ 32 ≤ (vm.reg 7).toNat ∧ vm.reg 7 ≠ maxUint64
  | .transfer => 2 ^ 32 ≤ (vm.reg 7).toNat
  | _ => False

/-- The machine after a call for a service that does not exist. -/
def HostVM.missing : HostFn → HostVM
  | .read =>
    if (vm.ram.readRAMBytes (vm.reg 8).toUInt32 (vm.reg 9).toUInt32).isSome then
      vm.writeRegister 7 Code.none
    else vm.panic
  | .lookup => vm.writeRegister 7 Code.none
  | .transfer =>
    if (vm.ram.readRAMBytes (vm.reg 10).toUInt32 memoSize).isSome then
      vm.writeRegister 7 Code.who
    else vm.panic
  | _ => vm

/-- The outcome is that for a service that does not exist, and no account is changed. -/
def ActsAsMissing (fn : HostFn) : Prop :=
  ∃ vm', vm.hostFunction env fn = some vm' ∧ vm'.reg = (vm.missing fn).reg ∧
    vm'.ram = (vm.missing fn).ram ∧ vm'.panicked = (vm.missing fn).panicked ∧
    vm'.x.transfers = vm.x.transfers ∧ SameAccounts env vm vm'

/-- The service of the lower half is not there, or has nothing for the call. -/
def MissingCondition : HostFn → Prop
  | .read => ∀ muK a, vm.ram.readRAMBytes (vm.reg 8).toUInt32 (vm.reg 9).toUInt32 = some muK →
      (vm.getXUDS env (vm.reg 7)).join = some a → a.readStorage env muK = none
  | .lookup => ∀ a, (vm.getXUDS env (vm.reg 7)).join = some a →
      ∃ k, vm.ram.readRAMBytes (vm.reg 8).toUInt32 32 = some k ∧
        a.preimageBlob env.toHostEnv (Hash.ofBytes k) = none
  | .transfer => (vm.ram.readRAMBytes (vm.reg 10).toUInt32 memoSize).isSome →
      (vm.getXUDS env (vm.reg 7)).join = none
  | _ => True

/-- The ranges that the registers of a call describe: those it reads, and the destination of
the window it copies. -/
def HostVM.ranges : HostFn → List (ℕ × ℕ)
  | .read => ((vm.reg 8).toNat, (vm.reg 9).toNat) ::
      ((vm.copySource env .read).map fun c => (c.destination.toNat, c.size)).toList
  | .lookup => ((vm.reg 8).toNat, 32) ::
      ((vm.copySource env .lookup).map fun c => (c.destination.toNat, c.size)).toList
  | .write => [((vm.reg 7).toNat, (vm.reg 8).toNat), ((vm.reg 9).toNat, (vm.reg 10).toNat)]
  | .transfer => [((vm.reg 10).toNat, 128)]
  | .solicit => [((vm.reg 7).toNat, 32)]
  | .forget => [((vm.reg 7).toNat, 32)]
  | _ => []

/-- A range that is not empty leaves the address space. -/
def LeavesMemory (fn : HostFn) : Prop := ∃ r ∈ vm.ranges env fn, 0 < r.2 ∧ 2 ^ 32 < r.1 + r.2

/-- The guest panics, and no account is changed. -/
def PanicsUnchanged (fn : HostFn) : Prop :=
  ∃ vm', vm.hostFunction env fn = some vm' ∧ vm'.panicked = true ∧
    vm'.x.transfers = vm.x.transfers ∧ SameAccounts env vm vm'

/-- LOOKUP cannot write: the whole window is not writable, or the part that it takes is not. -/
def Copy.LookupRefused (c : Copy) (ram : Ram) : Prop :=
  ram.canWrite c.destination.toUInt32 (UInt32.ofNat c.size) = false ∨
    (c.start ≤ c.size ∧ ¬ ram.TakesWord c.destination ((c.value.take c.size).drop c.start))

/-- A range of lower halves is refused. -/
def PanicCondition : HostFn → Prop
  | .read => ¬ vm.ram.ReadsWord (vm.reg 8) (vm.reg 9) ∨
      ∃ c, vm.copySource env .read = some c ∧ ¬ vm.ram.TakesWord c.destination c.bytes
  | .write => ¬ vm.ram.ReadsWord (vm.reg 7) (vm.reg 8) ∨
      (vm.reg 10 ≠ 0 ∧ ¬ vm.ram.ReadsWord (vm.reg 9) (vm.reg 10))
  | .transfer => ¬ vm.ram.ReadsWord (vm.reg 10) 128
  | .solicit => ¬ vm.ram.ReadsWord (vm.reg 7) 32
  | .forget => ¬ vm.ram.ReadsWord (vm.reg 7) 32
  | .lookup => (vm.lookupAccount env (vm.reg 7)).isSome ∧ (¬ vm.ram.ReadsWord (vm.reg 8) 32 ∨
        ∃ c, vm.copySource env .lookup = some c ∧ c.LookupRefused vm.ram)
  | _ => False

end

section

variable {ram : Ram}

theorem readRAMBytes_eq_none_iff (p n : UInt64) :
    ram.readRAMBytes p.toUInt32 n.toUInt32 = none ↔ ¬ ram.ReadsWord p n := by
  have hzero : n.toUInt32 = 0 ↔ n.toNat % 2 ^ 32 = 0 := by
    rw [← UInt32.toNat_inj, toNat_toUInt32]
    rfl
  rw [← not_isSome_iff_eq_none, isSome_readRAMBytes_iff, hzero, toNat_toUInt32, toNat_toUInt32]
  rfl

theorem writeRAMBytes_eq_none_iff (p : UInt64) (data : Bytes) :
    ram.writeRAMBytes p.toUInt32 data = none ↔ ¬ ram.TakesWord p data := by
  rw [writeRAMBytes_eq, toNat_toUInt32]
  unfold Ram.TakesWord
  by_cases hnil : data = []
  · simp [hnil]
  · rw [if_neg hnil]
    by_cases htakes : p.toNat % 2 ^ 32 + data.length % 2 ^ 32 < 2 ^ 32 ∧
        ram.Writable (p.toNat % 2 ^ 32) (data.length % 2 ^ 32)
    · rw [if_pos htakes]
      exact ⟨nofun, fun h => absurd (.inr htakes) h⟩
    · rw [if_neg htakes]
      exact ⟨fun _ h => h.elim hnil htakes, fun _ => rfl⟩

end

variable {env : StorageEnv} {vm vm' : HostVM}

theorem SameAccount.refl (env : StorageEnv) (a : ServiceAccount) : SameAccount env a a :=
  ⟨rfl, fun _ => rfl⟩

theorem sameAccount_cachePreimage (env : StorageEnv) (a : ServiceAccount) (h : Hash) :
    SameAccount env a (a.cachePreimage env.toHostEnv h) := by
  refine ⟨?_, fun h' => preimageBlob_cachePreimage env.toHostEnv a h h'⟩
  unfold ServiceAccount.cachePreimage
  split <;> rfl

/-- The accounts of a context that is the same. -/
theorem sameAccounts_of_eq (h : vm'.x.u.serviceAccounts = vm.x.u.serviceAccounts) :
    SameAccounts env vm vm' := by
  intro s
  have hs : vm'.effective env s = vm.effective env s := by
    unfold effective
    rw [h]
  cases ha : vm.effective env s with
  | none => exact .inl ⟨rfl, hs.trans ha⟩
  | some a => exact .inr ⟨a, a, rfl, hs.trans ha, SameAccount.refl env a⟩

variable {s : UInt32} {a : ServiceAccount} {i : UInt64}

/-- An account that is entered into the context as it is, but for cached preimages. -/
theorem sameAccounts_setAccount {b : ServiceAccount}
    (ha : vm.effective env s = some a) (hab : SameAccount env a b)
    (hx : vm'.x.u.serviceAccounts = (vm.setAccount s b).x.u.serviceAccounts) :
    SameAccounts env vm vm' := by
  intro t
  by_cases hts : t = s
  · subst hts
    refine .inr ⟨a, b, ha, ?_, hab⟩
    unfold effective
    rw [hx]
    show (update vm.x.u.serviceAccounts t (some b) t).or _ = _
    rw [update_self]
    rfl
  · have ht : vm'.effective env t = vm.effective env t := by
      unfold effective
      rw [hx]
      show (update vm.x.u.serviceAccounts s (some b) t).or _ = _
      rw [update_of_ne hts]
    cases hc : vm.effective env t with
    | none => exact .inl ⟨rfl, ht.trans hc⟩
    | some c => exact .inr ⟨c, c, rfl, ht.trans hc, SameAccount.refl env c⟩

theorem effective_of_getXUDS
    (h : (vm.getXUDS env i).join = some a) : vm.effective env i.toUInt32 = some a := by
  have hx := join_eq_some_iff.mp h
  unfold getXUDS at hx
  dsimp only at hx
  unfold effective
  split_ifs at hx
  · rw [some.inj hx]
    rfl
  · cases hs : vm.x.u.serviceAccounts i.toUInt32 with
    | some b =>
      rw [hs] at hx
      rw [← some.inj hx]
      rfl
    | none =>
      rw [hs] at hx
      obtain ⟨b, hb, hba⟩ := map_eq_some_iff.mp hx
      rw [none_or, hb, hba]

theorem effective_of_lookupAccount
    (h : vm.lookupAccount env i = some (s, a)) : vm.effective env s = some a := by
  unfold lookupAccount at h
  dsimp only at h
  split at h
  · next b hown =>
    cases h
    split_ifs at hown
    unfold effective
    unfold serviceAccount at hown
    rw [hown]
    rfl
  · obtain ⟨b, hb, hsb⟩ := map_eq_some_iff.mp h
    cases hsb
    exact effective_of_getXUDS hb

variable {vm₁ : HostVM}

/-- The machine with an account brought into the context. -/
structure Loaded (env : StorageEnv) (vm vm₁ : HostVM) : Prop where
  reg : vm₁.reg = vm.reg
  ram : vm₁.ram = vm.ram
  panicked : vm₁.panicked = vm.panicked
  transfers : vm₁.x.transfers = vm.x.transfers
  accounts : SameAccounts env vm vm₁

theorem Loaded.refl (env : StorageEnv) (vm : HostVM) : Loaded env vm vm :=
  ⟨rfl, rfl, rfl, rfl, sameAccounts_of_eq rfl⟩

theorem loaded_setAccount {s : UInt32} {a b : ServiceAccount} (ha : vm.effective env s = some a)
    (hab : SameAccount env a b) : Loaded env vm (vm.setAccount s b) :=
  ⟨rfl, rfl, rfl, rfl, sameAccounts_setAccount ha hab rfl⟩

/-- The accounts do not change with registers, memory and a panic. -/
theorem Loaded.accounts_of_context (h : Loaded env vm vm₁) (hx : vm'.x = vm₁.x) :
    vm'.x.transfers = vm.x.transfers ∧ SameAccounts env vm vm' := by
  refine ⟨by rw [hx, h.transfers], fun s => ?_⟩
  have hs : vm'.effective env s = vm₁.effective env s := by
    unfold effective
    rw [hx]
  rw [hs]
  exact h.accounts s

section

variable {fn : HostFn} {code : UInt64}

theorem Loaded.panicsUnchanged (h : Loaded env vm vm₁)
    (hout : vm.hostFunction env fn = some vm₁.panic) : PanicsUnchanged env vm fn :=
  ⟨_, hout, rfl, h.accounts_of_context rfl⟩

theorem not_panicsUnchanged (hout : vm.hostFunction env fn = some vm')
    (hrun : vm'.panicked = false) : ¬ PanicsUnchanged env vm fn := by
  rintro ⟨vm'', hout', hpanicked, -⟩
  obtain rfl := some.inj (hout.symm.trans hout')
  exact absurd (hrun.symm.trans hpanicked) (by decide)

theorem Loaded.actsAsMissing (h : Loaded env vm vm₁)
    (hmissing : vm.missing fn = vm.writeRegister 7 code)
    (hout : vm.hostFunction env fn = some (vm₁.writeRegister 7 code)) :
    ActsAsMissing env vm fn := by
  unfold ActsAsMissing
  rw [hmissing]
  refine ⟨_, hout, ?_, h.ram, h.panicked, h.accounts_of_context rfl⟩
  show update vm₁.reg 7 code = update vm.reg 7 code
  rw [h.reg]

theorem actsAsMissing_panic (hmissing : vm.missing fn = vm.panic)
    (hout : vm.hostFunction env fn = some vm.panic) : ActsAsMissing env vm fn := by
  unfold ActsAsMissing
  rw [hmissing]
  exact ⟨_, hout, rfl, rfl, rfl, (Loaded.refl env vm).accounts_of_context rfl⟩

/-- A call that panics, or that ends with another code, does not act as for a service that
does not exist. -/
theorem not_actsAsMissing (hmissing : vm.missing fn = vm.writeRegister 7 code)
    (hout : vm.hostFunction env fn = some vm')
    (hend : vm'.panicked ≠ vm.panicked ∨ vm'.reg 7 ≠ code) : ¬ ActsAsMissing env vm fn := by
  unfold ActsAsMissing
  rw [hmissing]
  rintro ⟨vm'', hout', hreg, -, hpanicked, -⟩
  obtain rfl := some.inj (hout.symm.trans hout')
  rcases hend with h | h
  · exact h hpanicked
  · exact h (by rw [hreg, writeRegister_reg_self])

end

/-- What the copy of a window can do. -/
theorem Loaded.copyOut_cases (h : Loaded env vm vm₁) {c : Copy} (hlen : c.value.length < 2 ^ 63) :
    (¬ vm.ram.TakesWord c.destination c.bytes ∧
      vm₁.copyOut c.value c.destination c.offset c.length = some vm₁.panic) ∨
    (vm.ram.TakesWord c.destination c.bytes ∧ ∃ ram,
      vm₁.copyOut c.value c.destination c.offset c.length =
        some (({ vm₁ with ram := ram } : HostVM).writeRegister 7 (ofNat c.value.length))) := by
  rw [← writeRAMBytes_eq_none_iff, ← h.ram]
  unfold copyOut
  rw [Copy.window_eq_bytes hlen]
  dsimp only
  cases hw : vm₁.ram.writeRAMBytes c.destination.toUInt32 c.bytes with
  | none => exact .inl ⟨rfl, rfl⟩
  | some ram =>
    refine .inr ⟨?_, ram, rfl⟩
    by_contra hrefused
    rw [(writeRAMBytes_eq_none_iff _ _).mpr (h.ram ▸ hrefused)] at hw
    cases hw

/-- The length of a value is no result code. -/
theorem ofNat_length_ne_none {v : Bytes} (hlen : v.length < 2 ^ 63) :
    ofNat v.length ≠ Code.none := by
  intro h
  have hnat : (ofNat v.length).toNat = Code.none.toNat := congrArg toNat h
  have hnone : Code.none.toNat = 2 ^ 64 - 1 := rfl
  rw [toNat_ofNat', hnone] at hnat
  omega

end JamDuna.Pvm
