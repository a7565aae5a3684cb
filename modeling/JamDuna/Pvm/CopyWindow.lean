/-
# The windowed copy law

READ, FETCH, HISTORICAL_LOOKUP, LOOKUP and INFO of `statedb/pvm_hostfunctions.go` copy a
window of a value `v` to the guest: the bytes from `min(f, |v|)` on, at most `l` of them.
The law is that a writable destination then has these bytes, all other memory is as before
and register 7 has `|v|` (`CopyLaw`).

The first three calls keep it. LOOKUP takes the slice up to the *length* of the window,
so with an offset it writes too little, or is no slice at all; and it leaves register 7 as it
is for an empty preimage. INFO panics for a window that is not within the value. None of
them writes up to the very end of the address space, where `WriteMemory` sees a wrapped
range (`Fits`).
-/

import JamDuna.Pvm.Started
import JamDuna.Pvm.Window

namespace JamDuna.Pvm

open JamDuna.Types JamDuna.Basis Accumulation List Option HostVM Nat

section

/-- A value and the registers of the window. -/
structure Copy where
  value : Bytes
  destination : UInt64
  offset : UInt64
  length : UInt64

variable (c : Copy)

/-- `min(f, |v|)`. -/
def Copy.start : ℕ := min c.offset.toNat c.value.length

/-- `min(l, |v| - min(f, |v|))`. -/
def Copy.size : ℕ := min c.length.toNat (c.value.length - c.start)

/-- The bytes of the window. -/
def Copy.bytes : Bytes := (c.value.drop c.start).take c.size

/-- The destination is within the memory, and writable. -/
def Copy.WritableAt (ram : Ram) : Prop :=
  c.size = 0 ∨ (c.destination.toNat + c.size ≤ 2 ^ 32 ∧ ram.Writable c.destination.toNat c.size)

/-- The account that READ asks. -/
def HostVM.readAccount (env : StorageEnv) (vm : HostVM) : Option ServiceAccount :=
  let s := if vm.reg 7 = maxUint64 then vm.x.serviceIndex.toUInt64 else vm.reg 7
  if s = vm.x.serviceIndex.toUInt64 then vm.serviceAccount else (vm.getXUDS env s).join

/-- The value that a call copies, when there is one, and its window. -/
def HostVM.copySource (env : StorageEnv) (vm : HostVM) : HostFn → Option Copy
  | .read =>
    if vm.mode ≠ .accumulate then none
    else (vm.ram.readRAMBytes (vm.reg 8).toUInt32 (vm.reg 9).toUInt32).bind fun muK =>
      (vm.readAccount env).bind fun a =>
        (a.readStorage env muK).map fun v => ⟨v, vm.reg 10, vm.reg 11, vm.reg 12⟩
  | .fetch =>
    if vm.mode = .isAuthorized ∨ fetchAllowed vm.mode (vm.reg 10) = false then none
    else (fetchValue vm.data (vm.reg 10) (vm.reg 11) (vm.reg 12)).join.map fun v =>
      ⟨v, vm.reg 7, vm.reg 8, vm.reg 9⟩
  | .historicalLookup =>
    if vm.mode ≠ .refine then none
    else (env.getService
        (if vm.reg 7 = Code.none then vm.x.serviceIndex else (vm.reg 7).toUInt32)).bind fun a =>
      (vm.ram.readRAMBytes (vm.reg 8).toUInt32 32).bind fun h =>
        (historicalLookup env a vm.timeslot (Hash.ofBytes h)).map fun v =>
          ⟨v, vm.reg 9, vm.reg 10, vm.reg 11⟩
  | .lookup =>
    if vm.mode ≠ .accumulate then none
    else (vm.lookupAccount env (vm.reg 7)).bind fun found =>
      (vm.ram.readRAMBytes (vm.reg 8).toUInt32 32).bind fun k =>
        (found.2.preimageBlob env.toHostEnv (Hash.ofBytes k)).map fun v =>
          ⟨v, vm.reg 9, vm.reg 10, vm.reg 11⟩
  | .info =>
    if vm.mode ≠ .accumulate then none
    else (vm.getXUDS env
        (if vm.reg 7 = Code.none then vm.x.serviceIndex.toUInt64 else vm.reg 7)).join.map fun t =>
      ⟨infoValue t, vm.reg 8, vm.reg 9, vm.reg 10⟩
  | _ => none

/-- The call returns, the window is in memory at the destination, everything else in memory
is as before, and register 7 has the length of the value. -/
def CopyLaw (vm : HostVM) (out : Option HostVM) : Prop :=
  ∃ vm', out = some vm' ∧ vm'.panicked = false ∧
    vm'.reg = Function.update vm.reg 7 (UInt64.ofNat c.value.length) ∧
    vm'.ram = vm.ram.patch c.destination.toNat c.bytes

/-- The last bytes of the window, as many as the offset says, are in memory already. -/
def Copy.TailInPlace (ram : Ram) : Prop :=
  ∀ i < c.start, ram.pages.cell (c.destination.toNat + (c.size - c.start) + i) =
    c.value[c.size + i]?

/-- When a call keeps the law. -/
def CopyCondition (vm : HostVM) : HostFn → Prop
  | .lookup =>
    ((c.start = 0 ∧ Fits vm.ram c.destination.toNat c.bytes) ∨
      (0 < c.start ∧ c.start ≤ c.size ∧ c.TailInPlace vm.ram)) ∧
      (c.value = [] → vm.reg 7 = 0)
  | .info =>
    c.offset.toNat ≤ c.value.length ∧ (c.offset + c.length).toNat ≤ c.value.length ∧
      Fits vm.ram c.destination.toNat c.bytes
  | _ => Fits vm.ram c.destination.toNat c.bytes

end

section

variable {c : Copy} {vm : HostVM}

theorem Copy.start_add_size_le (c : Copy) : c.start + c.size ≤ c.value.length := by
  unfold Copy.size Copy.start
  omega

theorem Copy.length_bytes (c : Copy) : c.bytes.length = c.size := by
  have := c.start_add_size_le
  rw [Copy.bytes, length_take, length_drop]
  omega

section

variable (hlen : c.value.length < 2 ^ 63)
include hlen

theorem Copy.toNat_offset : (clampedOffset c.value c.offset).toNat = c.start := by
  rw [toNat_clampedOffset, mod_eq_of_lt (by omega)]
  rfl

theorem Copy.toNat_length : (clampedLength c.value c.offset c.length).toNat = c.size := by
  rw [toNat_clampedLength, Copy.toNat_offset hlen, mod_eq_of_lt (by omega)]
  rfl

theorem Copy.window_eq_bytes : window c.value c.offset c.length = some c.bytes := by
  rw [window_eq, Copy.toNat_offset hlen, Copy.toNat_length hlen, Copy.bytes, drop_take,
    Nat.add_sub_cancel_left]

end

/-- Data for a writable destination in a register is written exactly when it fits. -/
theorem writeRAMBytes_toUInt32_iff {ram : Ram} {o : UInt64} {data : Bytes}
    (hdest : data = [] ∨ (o.toNat + data.length ≤ 2 ^ 32 ∧ ram.Writable o.toNat data.length)) :
    ram.writeRAMBytes o.toUInt32 data = some (ram.patch o.toNat data) ↔ Fits ram o.toNat data := by
  by_cases hnil : data = []
  · subst hnil
    rw [patch_nil]
    exact iff_of_true rfl (.inl rfl)
  · obtain ⟨hend, hwritable⟩ := hdest.resolve_left hnil
    have hpos : 0 < data.length := length_pos_iff.mpr hnil
    have ho : o.toUInt32.toNat = o.toNat := by
      rw [UInt64.toNat_toUInt32]
      omega
    rw [← ho] at hend hwritable ⊢
    exact writeRAMBytes_eq_patch_iff hend hwritable

theorem Copy.WritableAt.dest {ram : Ram} (h : c.WritableAt ram) :
    c.bytes = [] ∨ (c.destination.toNat + c.bytes.length ≤ 2 ^ 32 ∧
      ram.Writable c.destination.toNat c.bytes.length) := by
  rw [Copy.length_bytes]
  refine h.imp_left fun hzero => length_eq_zero_iff.mp ?_
  rw [Copy.length_bytes, hzero]

/-- The registers and the memory are those of `vm`, and so is whether it has panicked. -/
structure SameMachine (vm₁ vm : HostVM) : Prop where
  reg : vm₁.reg = vm.reg
  ram : vm₁.ram = vm.ram
  panicked : vm₁.panicked = vm.panicked

variable {vm₁ : HostVM}

/-- The law for the calls that end with the copy of a window. -/
theorem copyLaw_copyOut (h : SameMachine vm₁ vm) (hrun : vm.panicked = false)
    (hlen : c.value.length < 2 ^ 63) (hdest : c.WritableAt vm.ram) :
    CopyLaw c vm (vm₁.copyOut c.value c.destination c.offset c.length) ↔
      Fits vm.ram c.destination.toNat c.bytes := by
  rw [← writeRAMBytes_toUInt32_iff hdest.dest]
  unfold copyOut CopyLaw
  rw [Copy.window_eq_bytes hlen, h.ram]
  dsimp only
  cases vm.ram.writeRAMBytes c.destination.toUInt32 c.bytes with
  | none =>
    simp only [reduceCtorEq, iff_false]
    rintro ⟨vm', hout, hrun, -⟩
    cases hout
    exact absurd hrun (by simp [HostVM.panic])
  | some ram =>
    constructor
    · rintro ⟨vm', hout, -, -, hpatch⟩
      cases hout
      exact congrArg some hpatch
    · intro hpatch
      refine ⟨_, rfl, h.panicked.trans hrun, ?_, some.inj hpatch⟩
      show Function.update vm₁.reg 7 _ = _
      rw [h.reg]

/-- The check of LOOKUP lets every writable destination through. -/
theorem canWrite_of_writableAt (hlen : c.value.length < 2 ^ 63) (hdest : c.WritableAt vm.ram) :
    vm.ram.canWrite c.destination.toUInt32
      (clampedLength c.value c.offset c.length).toUInt32 = true := by
  have hsize := Copy.toNat_length hlen
  have hword : (clampedLength c.value c.offset c.length).toUInt32.toNat = c.size % 2 ^ 32 := by
    rw [UInt64.toNat_toUInt32, hsize]
  unfold Ram.canWrite
  rw [beq_iff_eq]
  by_cases hzero : (clampedLength c.value c.offset c.length).toUInt32 = 0
  · rw [hzero]
    rfl
  · have hne : c.size % 2 ^ 32 ≠ 0 := fun h => hzero (UInt32.toNat_inj.mp (hword.trans h))
    obtain ⟨hend, hwritable⟩ := hdest.resolve_left (by omega)
    have hlt : c.size < 2 ^ 32 := by omega
    have ho : c.destination.toUInt32.toNat = c.destination.toNat := by
      rw [UInt64.toNat_toUInt32]
      omega
    rw [mod_eq_of_lt hlt] at hword
    rw [(getMemAccess_iff vm.ram hzero (by omega)).2, ho, hword]
    exact hwritable

/-- The bytes that LOOKUP writes, and those of the window behind them. -/
theorem Copy.bytes_eq_append (hle : c.start ≤ c.size) :
    c.bytes = (c.value.take c.size).drop c.start ++ (c.value.drop c.size).take c.start := by
  obtain ⟨k, hk⟩ := Nat.exists_eq_add_of_le hle
  rw [Copy.bytes, drop_take, hk, Nat.add_sub_cancel_left]
  conv_lhs => rw [add_comm, take_add, drop_drop]

/-- **What LOOKUP leaves out is right when it is in memory already.** -/
theorem patch_head_eq_iff (hle : c.start ≤ c.size) (hdest : c.WritableAt vm.ram) :
    vm.ram.patch c.destination.toNat ((c.value.take c.size).drop c.start) =
        vm.ram.patch c.destination.toNat c.bytes ↔ c.TailInPlace vm.ram := by
  set head := (c.value.take c.size).drop c.start with hset
  have hbound := c.start_add_size_le
  have hhead : head.length = c.size - c.start := by
    rw [length_drop, length_take]
    omega
  have htail : ((c.value.drop c.size).take c.start).length = c.start := by
    rw [length_take, length_drop]
    omega
  have hpages : vm.ram.patch c.destination.toNat head =
        vm.ram.patch c.destination.toNat c.bytes ↔
      vm.ram.pages.patch c.destination.toNat c.bytes =
        vm.ram.pages.patch c.destination.toNat head := by
    constructor
    · intro h
      exact (congrArg Ram.pages h).symm
    · intro h
      rw [Ram.patch, Ram.patch, h]
  rw [hpages, Copy.bytes_eq_append hle, ← Pages.patch_patch, Pages.patch_eq_self_iff, htail, hhead]
  refine forall₂_congr fun i hi => ?_
  -- behind the bytes that were written the memory is as before, and its pages are there
  obtain ⟨-, hwritable⟩ := hdest.resolve_left (by omega)
  have hpage := hwritable.readable.isSome (i := c.size - c.start + i) (by omega)
  rw [← add_assoc] at hpage
  have hcell : (vm.ram.pages.patch c.destination.toNat
      head).cell (c.destination.toNat + (c.size - c.start) + i) =
        vm.ram.pages.cell (c.destination.toNat + (c.size - c.start) + i) := by
    rw [Pages.cell_patch, Pages.overlay_eq_none (by omega)]
    simp
  have hbyte : ((c.value.drop c.size).take c.start)[i]? = c.value[c.size + i]? := by
    rw [getElem?_take_of_lt hi, getElem?_drop]
  obtain ⟨page, hp⟩ := isSome_iff_exists.mp hpage
  rw [hcell, hbyte, Pages.cell, hp, map_some]
  constructor
  · intro h
    exact (h _ rfl).symm
  · intro h x hx
    rw [← h]
    exact hx

/-- Register 7 has the length of the value, unless that is zero and the register was not. -/
theorem register_of_preimage (vm : HostVM) (v : Bytes) :
    (if v.length ≠ 0 then Function.update vm.reg 7 (UInt64.ofNat v.length) else vm.reg) =
      Function.update vm.reg 7 (UInt64.ofNat v.length) ↔ (v = [] → vm.reg 7 = 0) := by
  by_cases hnil : v = []
  · subst hnil
    have hzero : UInt64.ofNat ([] : Bytes).length = 0 := rfl
    have hlength : ¬ ([] : Bytes).length ≠ 0 := not_not.mpr rfl
    rw [if_neg hlength, hzero, eq_comm, Function.update_eq_self_iff]
    exact ⟨fun h _ => h.symm, fun h => (h rfl).symm⟩
  · rw [if_pos fun h => hnil (length_eq_zero_iff.mp h)]
    exact ⟨fun _ h => absurd h hnil, fun _ => rfl⟩

/-- The law for LOOKUP is a matter of what was written and of register 7. -/
theorem copyLaw_storePreimage (h : SameMachine vm₁ vm) (hrun : vm.panicked = false)
    (ho : c.destination = vm.reg 9) (w : Bytes) :
    CopyLaw c vm (some (vm₁.storePreimage c.value w)) ↔
      vm.ram.writeRAMBytes c.destination.toUInt32 w =
          some (vm.ram.patch c.destination.toNat c.bytes) ∧
        (c.value = [] → vm.reg 7 = 0) := by
  rw [← register_of_preimage]
  unfold storePreimage
  rw [h.reg, h.ram, ← ho]
  cases vm.ram.writeRAMBytes c.destination.toUInt32 w with
  | none =>
    simp only [reduceCtorEq, false_and, iff_false]
    rintro ⟨vm', hout, hrun, -⟩
    cases hout
    exact absurd hrun (by simp [HostVM.panic])
  | some ram =>
    constructor
    · rintro ⟨vm', hout, -, hreg', hpatch⟩
      cases hout
      split_ifs at hreg' hpatch ⊢
      · exact ⟨congrArg some hpatch, rfl⟩
      · exact ⟨congrArg some hpatch, hreg'⟩
    · rintro ⟨hpatch, hreg'⟩
      refine ⟨_, rfl, ?_, ?_, ?_⟩
      · split_ifs <;> exact h.panicked.trans hrun
      · rw [← hreg']
        split_ifs <;> rfl
      · split_ifs <;> exact some.inj hpatch

/-- What LOOKUP writes is right: all of the window, or its head when the tail is there. -/
theorem writeRAMBytes_head_iff (hle : c.start ≤ c.size) (hdest : c.WritableAt vm.ram) :
    vm.ram.writeRAMBytes c.destination.toUInt32 ((c.value.take c.size).drop c.start) =
        some (vm.ram.patch c.destination.toNat c.bytes) ↔
      (c.start = 0 ∧ Fits vm.ram c.destination.toNat c.bytes) ∨
        (0 < c.start ∧ c.start ≤ c.size ∧ c.TailInPlace vm.ram) := by
  rcases Nat.eq_zero_or_pos c.start with hzero | hpos
  · have hall : (c.value.take c.size).drop c.start = c.bytes := by
      rw [Copy.bytes, hzero, drop_zero, drop_zero]
    rw [hall, writeRAMBytes_toUInt32_iff hdest.dest]
    simp [hzero]
  · obtain ⟨hend, hwritable⟩ := hdest.resolve_left (by omega)
    have hbound := c.start_add_size_le
    have hhead : ((c.value.take c.size).drop c.start).length = c.size - c.start := by
      rw [length_drop, length_take]
      omega
    have hfits : Fits vm.ram c.destination.toNat ((c.value.take c.size).drop c.start) :=
      .inr (.inl (by omega))
    rw [(writeRAMBytes_toUInt32_iff (.inr ⟨by omega, fun i hi => hwritable i (by omega)⟩)).mpr
      hfits, some.injEq, patch_head_eq_iff hle hdest]
    have hne : c.start ≠ 0 := by omega
    simp [hne, hpos, hle]

/-- The law for LOOKUP. -/
theorem copyLaw_copyPreimage (h : SameMachine vm₁ vm) (hrun : vm.panicked = false)
    (ho : c.destination = vm.reg 9) (hf : c.offset = vm.reg 10) (hl : c.length = vm.reg 11)
    (hlen : c.value.length < 2 ^ 63) (hdest : c.WritableAt vm.ram) :
    CopyLaw c vm (vm₁.copyPreimage (some c.value)) ↔ CopyCondition c vm .lookup := by
  have hwrite := canWrite_of_writableAt hlen hdest
  have hbound := c.start_add_size_le
  unfold copyPreimage
  dsimp only [getD_some]
  rw [h.reg, h.ram, ← ho, ← hf, ← hl, Copy.toNat_offset hlen, Copy.toNat_length hlen, hwrite,
    if_neg (by decide)]
  by_cases hle : c.start ≤ c.size
  · rw [goSlice, if_pos ⟨hle, by omega⟩, map_some,
      copyLaw_storePreimage h hrun ho, writeRAMBytes_head_iff hle hdest]
    rfl
  · rw [goSlice, if_neg fun h => hle h.1]
    constructor
    · rintro ⟨vm', hout, -⟩
      cases hout
    · rintro ⟨⟨hzero, -⟩ | ⟨-, hle', -⟩, -⟩
      · omega
      · exact absurd hle' hle

variable {env : StorageEnv}

/-- What READ does once the key is read, for a service that has an account: it finds the account
that `readAccount` says, after loading it, or none. -/
theorem hostRead_of_key (env : StorageEnv) {muK : Bytes} (hmode : vm.mode = .accumulate)
    (hk : vm.ram.readRAMBytes (vm.reg 8).toUInt32 (vm.reg 9).toUInt32 = some muK) :
    (vm.readAccount env = none ∧ (vm.serviceAccount.isSome →
      vm.hostRead env = some (vm.writeRegister 7 Code.none))) ∨
    ∃ a vm₁, vm.readAccount env = some a ∧ vm.hostRead env = vm₁.readValue env a muK ∧
      (vm₁ = vm ∨ ∃ s, vm.getXUDS env s = some (some a) ∧ vm₁ = vm.setAccount s.toUInt32 a) := by
  have hmarker : (if vm.reg 7 = maxUint64 then vm.x.serviceIndex.toUInt64 else vm.reg 7) ≠
      maxUint64 := by
    split_ifs with h
    · exact toUInt64_ne_max _
    · exact h
  dsimp only [hostRead, readAccount]
  rw [if_neg (not_not.mpr hmode), hk]
  generalize (if vm.reg 7 = maxUint64 then vm.x.serviceIndex.toUInt64 else vm.reg 7) = s
    at hmarker ⊢
  dsimp only
  by_cases hs : s = vm.x.serviceIndex.toUInt64
  · rw [if_pos hs, if_pos hs]
    cases vm.serviceAccount with
    | none => exact .inl ⟨rfl, nofun⟩
    | some a => exact .inr ⟨a, vm, rfl, rfl, .inl rfl⟩
  · rw [if_neg hs, if_neg hs]
    match hx : vm.getXUDS env s with
    | none => exact .inl ⟨rfl, fun _ => rfl⟩
    | some none =>
      exact .inl ⟨rfl, fun hown => absurd ((getXUDS_eq_nil_iff env hown s).mp hx).1 hmarker⟩
    | some (some a) => exact .inr ⟨a, _, rfl, rfl, .inr ⟨s, hx, rfl⟩⟩

/-- A value of READ is copied from the account that is asked. -/
theorem hostRead_of_source (h : vm.copySource env .read = some c) :
    ∃ vm₁, SameMachine vm₁ vm ∧
      vm.hostFunction env .read = vm₁.copyOut c.value c.destination c.offset c.length := by
  dsimp only [copySource] at h
  split_ifs at h with hmode
  rw [not_not] at hmode
  obtain ⟨muK, hk, h⟩ := bind_eq_some_iff.mp h
  obtain ⟨a, ha, h⟩ := bind_eq_some_iff.mp h
  obtain ⟨v, hv, rfl⟩ := map_eq_some_iff.mp h
  dsimp only [hostFunction]
  rw [if_pos hmode]
  rcases hostRead_of_key env hmode hk with ⟨hnone, -⟩ | ⟨b, vm₁, hb, hcall, hload⟩
  · cases ha.symm.trans hnone
  · cases ha.symm.trans hb
    rw [hcall, readValue, hv]
    obtain rfl | ⟨s, -, rfl⟩ := hload
    · exact ⟨_, ⟨rfl, rfl, rfl⟩, rfl⟩
    · exact ⟨vm.setAccount _ _, ⟨rfl, rfl, rfl⟩, rfl⟩

theorem hostFetch_of_source (h : vm.copySource env .fetch = some c) :
    vm.hostFunction env .fetch = vm.copyOut c.value c.destination c.offset c.length := by
  dsimp only [copySource] at h
  split_ifs at h with hmode
  obtain ⟨v, hv, rfl⟩ := map_eq_some_iff.mp h
  have hallowed : fetchAllowed vm.mode (vm.reg 10) = true := by
    cases hb : fetchAllowed vm.mode (vm.reg 10) with
    | false => exact absurd (.inr hb) hmode
    | true => rfl
  dsimp only [hostFunction, hostFetch]
  rw [if_neg fun hauth => hmode (.inl hauth), if_pos hallowed, join_eq_some_iff.mp hv]

theorem hostHistoricalLookup_of_source (h : vm.copySource env .historicalLookup = some c) :
    vm.hostFunction env .historicalLookup = vm.copyOut c.value c.destination c.offset c.length := by
  dsimp only [copySource] at h
  split_ifs at h with hmode
  all_goals
    obtain ⟨a, ha, h⟩ := bind_eq_some_iff.mp h
    obtain ⟨k, hk, h⟩ := bind_eq_some_iff.mp h
    obtain ⟨v, hv, rfl⟩ := map_eq_some_iff.mp h
    have hmode' : vm.mode = .refine := not_not.mp hmode
    dsimp only [hostFunction, hostHistoricalLookup]
    rw [if_pos hmode', if_neg hmode]
    simp_all

theorem hostLookup_of_source (h : vm.copySource env .lookup = some c) :
    ∃ vm₁, SameMachine vm₁ vm ∧
      c.destination = vm.reg 9 ∧ c.offset = vm.reg 10 ∧ c.length = vm.reg 11 ∧
      vm.hostFunction env .lookup = vm₁.copyPreimage (some c.value) := by
  dsimp only [copySource] at h
  split_ifs at h with hmode
  obtain ⟨⟨s, a⟩, ha, h⟩ := bind_eq_some_iff.mp h
  obtain ⟨k, hk, h⟩ := bind_eq_some_iff.mp h
  obtain ⟨v, hv, rfl⟩ := map_eq_some_iff.mp h
  have hmode' : vm.mode = .accumulate := not_not.mp hmode
  refine ⟨vm.setAccount s (a.cachePreimage env.toHostEnv (Hash.ofBytes k)), ⟨rfl, rfl, rfl⟩,
    rfl, rfl, rfl, ?_⟩
  dsimp only [hostFunction, hostLookup]
  rw [if_pos hmode', if_neg hmode, ha, hk]
  dsimp only at hv ⊢
  rw [hv]

theorem hostInfo_of_source (h : vm.copySource env .info = some c) :
    ∃ vm₁, SameMachine vm₁ vm ∧
      vm.hostFunction env .info = if UInt64.ofNat c.value.length < c.offset ∨
            UInt64.ofNat c.value.length < c.offset + c.length then some vm₁.panic
        else vm₁.copyOut c.value c.destination c.offset c.length := by
  dsimp only [copySource] at h
  by_cases hmode : vm.mode ≠ .accumulate
  · rw [if_pos hmode] at h
    cases h
  · rw [if_neg hmode] at h
    obtain ⟨t, ht, rfl⟩ := map_eq_some_iff.mp h
    have hx := join_eq_some_iff.mp ht
    dsimp only [hostFunction, hostInfo]
    rw [if_pos (not_not.mp hmode)]
    generalize (if vm.reg 7 = Code.none then vm.x.serviceIndex.toUInt64 else vm.reg 7) = i at hx ⊢
    refine ⟨vm.setAccount i.toUInt32 t, ⟨rfl, rfl, rfl⟩, ?_⟩
    rw [hx]
    rfl

end

/-- **When a host call keeps the windowed copy law**: for every value that a call copies, every
offset and length, and every writable destination. READ, FETCH and HISTORICAL_LOOKUP keep it
where the memory takes the window, INFO when the window is within the value as well, and
LOOKUP without an offset, or when the bytes it leaves out are in memory already; for an empty
preimage register 7 has to be zero before. -/
theorem copyLaw_iff (env : StorageEnv) (vm : HostVM) (fn : HostFn) (c : Copy)
    (hrun : vm.panicked = false) (hsource : vm.copySource env fn = some c)
    (hlen : c.value.length < 2 ^ 63) (hdest : c.WritableAt vm.ram) :
    CopyLaw c vm (vm.hostFunction env fn) ↔ CopyCondition c vm fn := by
  cases fn with
  | read =>
    obtain ⟨vm₁, hsame, hcall⟩ := hostRead_of_source hsource
    rw [hcall]
    exact copyLaw_copyOut hsame hrun hlen hdest
  | fetch =>
    rw [hostFetch_of_source hsource]
    exact copyLaw_copyOut ⟨rfl, rfl, rfl⟩ hrun hlen hdest
  | historicalLookup =>
    rw [hostHistoricalLookup_of_source hsource]
    exact copyLaw_copyOut ⟨rfl, rfl, rfl⟩ hrun hlen hdest
  | lookup =>
    obtain ⟨vm₁, hsame, ho, hf, hl, hcall⟩ := hostLookup_of_source hsource
    rw [hcall]
    exact copyLaw_copyPreimage hsame hrun ho hf hl hlen hdest
  | info =>
    obtain ⟨vm₁, hsame, hcall⟩ := hostInfo_of_source hsource
    have hword : (UInt64.ofNat c.value.length).toNat = c.value.length := by
      rw [UInt64.toNat_ofNat']
      omega
    have hlaw := copyLaw_copyOut hsame hrun hlen hdest
    rw [hcall]
    split_ifs with hout
    all_goals rw [UInt64.lt_iff_toNat_lt, UInt64.lt_iff_toNat_lt, hword] at hout
    · constructor
      · rintro ⟨vm', hsome, hpanic, -⟩
        cases hsome
        exact absurd hpanic (by simp [HostVM.panic])
      · rintro ⟨hoffset, hend, -⟩
        omega
    · rw [hlaw]
      constructor
      · intro hfits
        exact ⟨by omega, by omega, hfits⟩
      · rintro ⟨-, -, hfits⟩
        exact hfits
  | write | transfer | eject | solicit | forget => cases hsource

/-- A machine of service 1, which has the preimage `1, 2, 3, 4, 5` of the hash zero and the
storage entry `9, 8, 7` under the key zero. -/
def copierVM (registers : List UInt64) : HostVM :=
  machineOf .accumulate
    { serviceIndex := 1
      preimage := fun h => if h = 0 then some ⟨false, false, [1, 2, 3, 4, 5]⟩ else none
      storage := fun k => if k = [0] then some ⟨false, false, [9, 8, 7]⟩ else none } registers

/-- READ of two bytes of `9, 8, 7` from the second on. -/
theorem copyLaw_read :
    CopyLaw ⟨[9, 8, 7], 4096, 1, 8⟩ (copierVM [1, 0, 1, 4096, 1, 8])
      ((copierVM [1, 0, 1, 4096, 1, 8]).hostFunction emptyTrie .read) := by
  have hsource : (copierVM [1, 0, 1, 4096, 1, 8]).copySource emptyTrie .read =
      some ⟨[9, 8, 7], 4096, 1, 8⟩ := by
    have hread : (copierVM [1, 0, 1, 4096, 1, 8]).ram.readRAMBytes 0 1 = some [0] := by decide +kernel
    dsimp only [copySource]
    rw [if_neg (by decide)]
    exact bind_eq_some_iff.mpr ⟨[0], hread, rfl⟩
  have hdest : Copy.WritableAt ⟨[9, 8, 7], 4096, 1, 8⟩ (copierVM [1, 0, 1, 4096, 1, 8]).ram :=
    .inr ⟨by decide, by decide⟩
  exact (copyLaw_iff emptyTrie _ .read _ rfl hsource (by decide) hdest).mpr
    (.inr (.inl (by decide)))

/-- LOOKUP of `1, 2, 3, 4, 5` from the second byte on, with length 3, writes two bytes and
not three; INFO of the first 200 bytes panics. -/
theorem copyLaw_fails :
    (∃ c, (copierVM [1, 0, 4096, 1, 3]).copySource emptyTrie .lookup = some c ∧
        c.value.length < 2 ^ 63 ∧ c.WritableAt (copierVM [1, 0, 4096, 1, 3]).ram ∧
        ¬ CopyLaw c (copierVM [1, 0, 4096, 1, 3])
          ((copierVM [1, 0, 4096, 1, 3]).hostFunction emptyTrie .lookup)) ∧
      ∃ c, (copierVM [1, 4096, 0, 200]).copySource emptyTrie .info = some c ∧
        c.value.length < 2 ^ 63 ∧ c.WritableAt (copierVM [1, 4096, 0, 200]).ram ∧
        ¬ CopyLaw c (copierVM [1, 4096, 0, 200])
          ((copierVM [1, 4096, 0, 200]).hostFunction emptyTrie .info) := by
  constructor
  · refine ⟨⟨[1, 2, 3, 4, 5], 4096, 1, 3⟩, ?_, by decide, .inr ⟨by decide, by decide⟩, ?_⟩
    · have hread :
          ((copierVM [1, 0, 4096, 1, 3]).ram.readRAMBytes 0 32).map Hash.ofBytes = some 0 := by
        decide +kernel
      obtain ⟨k, hk, hzero⟩ := map_eq_some_iff.mp hread
      dsimp only [copySource]
      rw [if_neg (by decide)]
      refine bind_eq_some_iff.mpr ⟨_, rfl, bind_eq_some_iff.mpr ⟨k, hk, ?_⟩⟩
      rw [hzero]
      rfl
    · rintro ⟨vm', hout, -, -, hram⟩
      have hcell : ((copierVM [1, 0, 4096, 1, 3]).hostFunction emptyTrie .lookup).map
          (fun vm => vm.ram.pages.cell 4098) = some (some 0) := by decide +kernel
      rw [hout, map_some, hram] at hcell
      exact absurd hcell (by decide +kernel)
  · refine ⟨⟨infoValue (((copierVM [1, 4096, 0, 200]).serviceAccount).getD { serviceIndex := 1 }),
      4096, 0, 200⟩, rfl, by decide +kernel, .inr ⟨by decide +kernel, by decide +kernel⟩, ?_⟩
    rintro ⟨vm', hout, hpanicked, -⟩
    have hpanic : ((copierVM [1, 4096, 0, 200]).hostFunction emptyTrie .info).map
        (·.panicked) = some true := by decide +kernel
    rw [hout, map_some, hpanicked] at hpanic
    exact absurd hpanic (by decide)

end JamDuna.Pvm
