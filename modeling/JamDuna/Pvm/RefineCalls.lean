/-
# Host calls of a refinement

EXPORT, MACHINE and EXPUNGE of `statedb/pvm_hostfunctions.go`, with which a refinement hands out
segments and keeps inner machines.

| call | 7 | 8 | 9 |
| --- | --- | --- | --- |
| `EXPORT` | segment | its length | |
| `MACHINE` | program | its length | program counter |
| `EXPUNGE` | machine | | |

MACHINE looks for a free index among the first sixteen, and takes index 16 if there is none, free
or not; EXPUNGE takes the lower half of its register. `innerCalls_iff` says for which sequences of
calls the table of machines is nevertheless kept as it should. The new machine slices the operands
of its instructions at once (`PreDecodeInstructions`).

EXPORT compares the number of segments with `MaxExports` in the wrong way, so that one too many is
exported, and an empty segment is not padded at all; `exports_iff` says when neither happens.

The first test of each call, for the mode of a refinement, is passed here. The counts of entries,
the frame server and the logs are left out.
-/

import JamDuna.Basis.Runs
import JamDuna.Pvm.Handlers
import JamDuna.Pvm.ProgramBlob
import JamDuna.Pvm.Window

namespace JamDuna.Pvm

open JamDuna.Basis List Function Option UInt64

section

/-- An inner machine: its program, memory and program counter. -/
structure InnerVM where
  program : CorePart
  ram : Ram
  pc : UInt64

/-- `VM` in a refinement. -/
structure RefineVM where
  reg : Fin 13 → UInt64
  ram : Ram
  panicked : Bool
  totalExported : UInt64
  exports : List Bytes
  vms : UInt32 → Option InnerVM

/-- The registers and the memory with which a call is made. -/
structure RefineCall where
  reg : Fin 13 → UInt64
  ram : Ram

variable (vm : RefineVM)

/-- `WriteRegister`. -/
def RefineVM.writeRegister (i : Fin 13) (value : UInt64) : RefineVM :=
  { vm with reg := update vm.reg i value }

@[simp] theorem RefineVM.writeRegister_reg_self (i : Fin 13) (value : UInt64) :
    (vm.writeRegister i value).reg i = value :=
  update_self ..

/-- `Panic`. -/
def RefineVM.panic : RefineVM := { vm with panicked := true }

/-- The machine when a call is made. -/
def RefineVM.at (c : RefineCall) : RefineVM := { vm with reg := c.reg, ram := c.ram }

/-- `SegmentSize`. -/
abbrev segmentSize : ℕ := 4104

/-- `MaxExports`. -/
abbrev maxExports : ℕ := 3072

/-- `PadToMultipleOfN`. -/
def padToMultipleOfN (input : Bytes) (n : ℕ) : Bytes :=
  input ++ replicate ((n - input.length % n) % n) 0

/-- The bytes that EXPORT reads. -/
def RefineVM.exported : Option Bytes :=
  vm.ram.readRAMBytes (vm.reg 7).toUInt32 (goMin (vm.reg 8) (ofNat segmentSize)).toUInt32

/-- `hostExport`. -/
def RefineVM.hostExport : RefineVM :=
  match vm.exported with
  | none => vm.panic
  | some x =>
    let total := vm.totalExported + ofNat vm.exports.length
    if ofNat maxExports < total then vm.writeRegister 7 Code.full
    else { vm with exports := vm.exports ++ [padToMultipleOfN x segmentSize] }.writeRegister 7 total

/-- A call of EXPORT. -/
def RefineVM.callExport (c : RefineCall) : Option RefineVM := some (vm.at c).hostExport

/-- The loop of `hostMachine`: the first free index below 16, or 16. -/
def freeIndex (vms : UInt32 → Option InnerVM) : UInt32 :=
  UInt32.ofNat (((range 16).find? fun n => (vms (UInt32.ofNat n)).isNone).getD 16)

/-- A memory without pages. -/
def emptyRam : Ram := ⟨fun _ => none, fun _ => none⟩

/-- `hostMachine`; `none` is a run-time error. -/
def RefineVM.hostMachine : Option RefineVM :=
  match vm.ram.readRAMBytes (vm.reg 7).toUInt32 (vm.reg 8).toUInt32 with
  | none => some vm.panic
  | some p =>
    match decodeCorePart p with
    | none => none
    | some (.error _) => some vm.panic
    | some (.ok program) =>
      if Program.predecodes ⟨program.code, program.K⟩
          (p.length - (program.codeAt + program.code.length)) then
        some ({ vm with
          vms := update vm.vms (freeIndex vm.vms)
            (some ⟨program, emptyRam, vm.reg 9⟩) }.writeRegister 7 (freeIndex vm.vms).toUInt64)
      else none

/-- `hostExpunge`. -/
def RefineVM.hostExpunge : RefineVM :=
  match vm.vms (vm.reg 7).toUInt32 with
  | none => vm.writeRegister 7 Code.who
  | some m =>
    { vm with vms := update vm.vms (vm.reg 7).toUInt32 none }.writeRegister 7 m.pc

/-- The calls that change the table of inner machines. -/
inductive InnerFn where
  | machine
  | expunge

/-- A call of MACHINE or EXPUNGE. -/
def RefineVM.callInner (c : InnerFn × RefineCall) : Option RefineVM :=
  match c.1 with
  | .machine => (vm.at c.2).hostMachine
  | .expunge => some (vm.at c.2).hostExpunge

variable (c : InnerFn × RefineCall)

/-- MACHINE returns the smallest index that is not in use and puts a machine there; EXPUNGE
removes the machine that its register names, and no other. -/
def InnerSound : Prop :=
  match c.1 with
  | .machine => ∀ vm', vm.callInner c = some vm' → vm'.panicked = false →
      ∃ n m, vm'.reg 7 = n.toUInt64 ∧ vm.vms n = none ∧ (∀ k < n, (vm.vms k).isSome) ∧
        vm'.vms = update vm.vms n (some m)
  | .expunge => ∀ vm', vm.callInner c = some vm' →
      vm'.vms = fun k => if k.toUInt64 = c.2.reg 7 then none else vm.vms k

/-- One of the first seventeen indices is free when a machine is made, and the lower half of the
register of EXPUNGE names no machine that the register does not. -/
def InnerCondition : Prop :=
  match c.1 with
  | .machine => ∀ vm', vm.callInner c = some vm' → vm'.panicked = false → ∃ n ≤ 16, vm.vms n = none
  | .expunge => (c.2.reg 7).toNat < 2 ^ 32 ∨ vm.vms (c.2.reg 7).toUInt32 = none

variable {vm c}

/-- What the loop finds. -/
theorem freeIndex_spec (vms : UInt32 → Option InnerVM) :
    (∀ k < freeIndex vms, (vms k).isSome) ∧ freeIndex vms ≤ 16 ∧
      (vms (freeIndex vms) = none ∨ freeIndex vms = 16) := by
  unfold freeIndex
  cases hfind : (range 16).find? fun n => (vms (UInt32.ofNat n)).isNone with
  | none =>
    refine ⟨fun k hk => ?_, UInt32.le_refl _, .inr rfl⟩
    have hused := find?_eq_none.mp hfind k.toNat (mem_range.mpr hk)
    rwa [UInt32.ofNat_toNat, isNone_iff_eq_none, ← ne_eq, ← isSome_iff_ne_none] at hused
  | some n =>
    obtain ⟨hfree, hmem, hbefore⟩ := find?_range_eq_some.mp hfind
    have hlt := mem_range.mp hmem
    have hn : (UInt32.ofNat n).toNat = n := by
      rw [UInt32.toNat_ofNat']
      omega
    refine ⟨fun k hk => ?_, ?_, .inl (isNone_iff_eq_none.mp hfree)⟩
    · rw [getD_some, UInt32.lt_iff_toNat_lt, hn] at hk
      have hused := hbefore k.toNat hk
      rwa [UInt32.ofNat_toNat, not_isNone] at hused
    · rw [getD_some, UInt32.le_iff_toNat_le, hn]
      exact hlt.le

/-- **When the index is free**: when there is a free one up to 16. -/
theorem freeIndex_free_iff (vms : UInt32 → Option InnerVM) :
    vms (freeIndex vms) = none ↔ ∃ n ≤ 16, vms n = none := by
  obtain ⟨hbefore, hle, hend⟩ := freeIndex_spec vms
  constructor
  · exact fun h => ⟨_, hle, h⟩
  · rintro ⟨n, hn, hnone⟩
    rcases hend with hfree | hlast
    · exact hfree
    · rw [hlast] at hbefore ⊢
      rcases UInt32.le_iff_lt_or_eq.mp hn with hlt | rfl
      · exact absurd (hbefore n hlt) (by simp [hnone])
      · exact hnone

theorem callMachine_cases {call : RefineCall} {vm' : RefineVM}
    (hout : vm.callInner (.machine, call) = some vm') :
    vm'.panicked = true ∨ ∃ m, vm'.reg 7 = (freeIndex vm.vms).toUInt64 ∧
      vm'.vms = update vm.vms (freeIndex vm.vms) (some m) := by
  dsimp only [RefineVM.callInner, RefineVM.hostMachine] at hout
  split at hout
  · cases hout
    exact .inl rfl
  · split at hout
    · cases hout
    · cases hout
      exact .inl rfl
    · split_ifs at hout
      cases hout
      exact .inr ⟨_, RefineVM.writeRegister_reg_self .., rfl⟩

theorem callExpunge_vms (call : RefineCall) : (vm.at call).hostExpunge.vms =
    update vm.vms (call.reg 7).toUInt32 none := by
  unfold RefineVM.hostExpunge
  split
  · next hnone => exact (update_eq_self_iff.mpr hnone.symm).symm
  · rfl

/-- Two tables from which a machine is removed. -/
theorem update_none_eq_iff (vms : UInt32 → Option InnerVM) (n : UInt64) :
    (Function.update vms n.toUInt32 none = fun k => if k.toUInt64 = n then none else vms k) ↔
      n.toNat < 2 ^ 32 ∨ vms n.toUInt32 = none := by
  by_cases hsmall : n.toNat < 2 ^ 32
  · refine iff_of_true ?_ (.inl hsmall)
    have hn : n.toUInt32.toUInt64 = n := by
      rw [← UInt64.toNat_inj, UInt32.toNat_toUInt64, UInt64.toNat_toUInt32]
      exact Nat.mod_eq_of_lt hsmall
    funext k
    rw [update_apply]
    refine if_congr ?_ rfl rfl
    rw [← UInt32.toUInt64_inj, hn]
  · have hne : ∀ k : UInt32, k.toUInt64 ≠ n := by
      rintro k rfl
      have := k.toNat_lt
      rw [UInt32.toNat_toUInt64] at hsmall
      omega
    simp only [hne, if_false, hsmall, false_or]
    exact update_eq_self_iff.trans eq_comm

theorem innerSound_iff : InnerSound vm c ↔ InnerCondition vm c := by
  obtain ⟨fn, call⟩ := c
  cases fn with
  | machine =>
    refine forall_congr' fun vm' => imp_congr_right fun hout => imp_congr_right fun hrun => ?_
    rw [← freeIndex_free_iff]
    obtain hpanic | ⟨m, hreg, hvms⟩ := callMachine_cases hout
    · exact nomatch hpanic.symm.trans hrun
    · constructor
      · rintro ⟨n, -, hn, hfree, -⟩
        rwa [UInt32.toUInt64_inj.mp (hreg.symm.trans hn)]
      · intro hfree
        exact ⟨_, m, hreg, hfree, (freeIndex_spec _).1, hvms⟩
  | expunge =>
    refine Iff.trans ?_ (update_none_eq_iff vm.vms (call.reg 7))
    rw [← callExpunge_vms]
    exact ⟨fun h => h _ rfl, fun h vm' hout => some.inj hout ▸ h⟩

/-- **When the table of inner machines is kept**, over every sequence of calls: when at every
MACHINE one of the indices up to 16 is free, and at every EXPUNGE the register is an index or its
lower half names no machine. -/
theorem innerCalls_iff (vm : RefineVM) (calls : List (InnerFn × RefineCall)) :
    Along RefineVM.callInner InnerSound vm calls ↔
      Along RefineVM.callInner InnerCondition vm calls :=
  along_congr (I := fun _ => True) (fun _ _ _ => innerSound_iff) (fun _ _ _ _ _ _ => trivial)
    trivial

/-- Three zero bytes on page 16 are a program without code. -/
def machineCall : InnerFn × RefineCall :=
  (.machine, ⟨fun i => if i = 7 then 65536 else if i = 8 then 3 else 0,
    fun i => if i = 16 then some fun _ => 0 else none,
    fun i => if i = 16 then some .mutable else none⟩)

/-- A refinement before any call. -/
def newRefineVM (totalExported : UInt64) : RefineVM :=
  ⟨fun _ => 0, emptyRam, false, totalExported, [], fun _ => none⟩

/-- The refinement after `n` machines were made. -/
def afterMachines (n : ℕ) : Option RefineVM :=
  (replicate n machineCall).foldlM RefineVM.callInner (newRefineVM 0)

/-- **The eighteenth machine replaces the seventeenth.** -/
theorem eighteenth_replaces : ((afterMachines 17).bind (·.vms 16)).isSome ∧
      ((afterMachines 17).bind (·.callInner machineCall)).map (fun vm => (vm.panicked, vm.reg 7)) =
        some (false, 16) ∧
      ¬ Along RefineVM.callInner InnerSound (newRefineVM 0)
        (replicate 17 machineCall ++ [machineCall]) := by
  have hused : ((afterMachines 17).bind (·.vms 16)).isSome := by decide +kernel
  have hout : ((afterMachines 17).bind (·.callInner machineCall)).map
      (fun vm => (vm.panicked, vm.reg 7)) = some (false, 16) := by decide +kernel
  refine ⟨hused, hout, fun hsound => ?_⟩
  obtain ⟨vm', hvm', hresult⟩ := map_eq_some_iff.mp hout
  obtain ⟨vm, hvm, hcall⟩ := bind_eq_some_iff.mp hvm'
  obtain ⟨hrun, hindex⟩ := Prod.mk.inj hresult
  obtain ⟨n, -, hn, hfree, -⟩ := hsound.last hvm vm' hcall hrun
  obtain rfl : 16 = n := UInt32.toUInt64_inj.mp (hindex.symm.trans hn)
  rw [hvm, bind_some, hfree] at hused
  cases hused

end

/-- An EXPORT that succeeds stays within `MaxExports`, returns the number of the segments before
it, and exports what it has read, filled up with zeros. -/
def ExportSound (k : ℕ) (vm : RefineVM) (c : RefineCall) : Prop :=
  ∀ vm', vm.callExport c = some vm' → vm'.exports ≠ vm.exports →
    k + vm'.exports.length ≤ maxExports ∧ vm'.reg 7 = ofNat (k + vm.exports.length) ∧
      ∃ x, (vm.at c).exported = some x ∧
        vm'.exports = vm.exports ++ [x ++ replicate (segmentSize - x.length) 0]

/-- There is room for one more segment, and the segment is not empty. -/
def ExportCondition (k : ℕ) (vm : RefineVM) (c : RefineCall) : Prop :=
  (vm.at c).exported.isSome → k + vm.exports.length < maxExports ∧ c.reg 8 ≠ 0

/-- The segments so far. -/
def Exported (k : ℕ) (vm : RefineVM) : Prop :=
  vm.totalExported = ofNat k ∧ k + vm.exports.length ≤ maxExports

variable {k : ℕ} {vm vm' : RefineVM} {c : RefineCall}

/-- The length of what EXPORT reads. -/
theorem length_of_exported {x : Bytes} (hx : vm.exported = some x) :
    x.length = min (vm.reg 8).toNat segmentSize := by
  have hsize : (ofNat segmentSize).toNat = segmentSize := rfl
  rw [length_of_readRAMBytes _ hx, toNat_toUInt32, toNat_goMin, hsize]
  exact Nat.mod_eq_of_lt ((min_le_right _ _).trans_lt (by decide))

/-- A segment is padded to its size, unless it is empty. -/
theorem padToMultipleOfN_eq_iff {x : Bytes} (hlen : x.length ≤ segmentSize) :
    padToMultipleOfN x segmentSize = x ++ replicate (segmentSize - x.length) 0 ↔ x.length ≠ 0 := by
  rw [padToMultipleOfN, append_cancel_left_eq, replicate_inj, and_iff_left (.inr rfl)]
  unfold segmentSize at hlen ⊢
  omega

theorem hostExport_of_some (h : Exported k vm) {x : Bytes} (hx : (vm.at c).exported = some x) :
    (vm.at c).hostExport.exports = vm.exports ++ [padToMultipleOfN x segmentSize] ∧
      (vm.at c).hostExport.totalExported = vm.totalExported ∧
      (vm.at c).hostExport.reg 7 = ofNat (k + vm.exports.length) := by
  have htotal : (vm.at c).totalExported + ofNat (vm.at c).exports.length =
      ofNat (k + vm.exports.length) := by
    rw [ofNat_add, ← h.1]
    rfl
  have hroom : ¬ ofNat maxExports < ofNat (k + vm.exports.length) := by
    have hle := h.2
    unfold maxExports at hle ⊢
    rw [lt_iff_toNat_lt, toNat_ofNat', toNat_ofNat']
    omega
  unfold RefineVM.hostExport
  rw [hx]
  dsimp only
  rw [htotal, if_neg hroom]
  exact ⟨rfl, rfl, RefineVM.writeRegister_reg_self ..⟩

theorem hostExport_of_none (hx : vm.exported = none) : vm.hostExport = vm.panic := by
  unfold RefineVM.hostExport
  rw [hx]

theorem exportSound_iff (h : Exported k vm) : ExportSound k vm c ↔ ExportCondition k vm c := by
  unfold ExportSound ExportCondition RefineVM.callExport
  simp only [some.injEq, forall_eq']
  cases hx : (vm.at c).exported with
  | none =>
    refine iff_of_true (fun hne => absurd ?_ hne) nofun
    rw [hostExport_of_none hx]
    rfl
  | some x =>
    have hlen : x.length = min (c.reg 8).toNat segmentSize := length_of_exported hx
    have hpad := padToMultipleOfN_eq_iff (hlen.trans_le (min_le_right _ _))
    have hempty : x.length ≠ 0 ↔ c.reg 8 ≠ 0 := by
      rw [hlen, ne_eq, ne_eq, ← UInt64.toNat_inj, UInt64.toNat_zero, segmentSize]
      omega
    obtain ⟨hexports, -, hreg⟩ := hostExport_of_some h hx
    rw [hexports, length_append, length_singleton, ← hempty, ← hpad]
    constructor
    · intro hsound _
      obtain ⟨hbound, -, x', hx', hsegment⟩ := hsound (by simp)
      cases hx'
      exact ⟨hbound, singleton_inj.mp (append_cancel_left hsegment)⟩
    · intro hcond _
      obtain ⟨hroom, hsegment⟩ := hcond rfl
      exact ⟨hroom, hreg, x, rfl, by rw [hsegment]⟩

theorem Exported.callExport (h : Exported k vm) (hsound : ExportSound k vm c)
    (hout : vm.callExport c = some vm') : Exported k vm' := by
  have hbound := hsound vm' hout
  cases hout
  cases hx : (vm.at c).exported with
  | none =>
    rw [hostExport_of_none hx]
    exact h
  | some x =>
    obtain ⟨hexports, htotal, -⟩ := hostExport_of_some h hx
    exact ⟨htotal.trans h.1, (hbound (by simp [hexports])).1⟩

/-- **When the bounds on exports are kept**, over every sequence of calls that starts with `k`
segments: when at every EXPORT that can read its segment fewer than `MaxExports` segments have been
exported, and the length is not zero. -/
theorem exports_iff (hk : k ≤ maxExports) (htotal : vm.totalExported = ofNat k)
    (hnone : vm.exports = []) (calls : List RefineCall) :
    Along RefineVM.callExport (ExportSound k) vm calls ↔
      Along RefineVM.callExport (ExportCondition k) vm calls := by
  refine along_congr (fun _ _ => exportSound_iff) (fun _ _ _ => Exported.callExport) ⟨htotal, ?_⟩
  rw [hnone]
  exact hk

/-- An EXPORT of length 0. -/
def emptyExport : RefineCall := ⟨fun _ => 0, emptyRam⟩

/-- The three bytes on page 16 are exported when nothing was before. -/
theorem exports_iff_new : ((newRefineVM 0).at machineCall.2).hostExport.exports.length = 1 ∧
      Along RefineVM.callExport (ExportSound 0) (newRefineVM 0) [machineCall.2] :=
  ⟨by decide +kernel, (exports_iff (Nat.zero_le _) rfl rfl _).mpr
    ⟨fun _ => by decide, fun _ _ => trivial⟩⟩

/-- **One segment too many, and an empty one.** -/
theorem empty_exported : ((newRefineVM 3072).at emptyExport).hostExport.exports = [[]] ∧
      ¬ Along RefineVM.callExport (ExportSound 3072) (newRefineVM 3072) [emptyExport] := by
  have hout : ((newRefineVM 3072).at emptyExport).hostExport.exports = [[]] := by decide +kernel
  refine ⟨hout, fun hsound => ?_⟩
  obtain ⟨hbound, -⟩ := hsound.1 _ rfl (by rw [hout]; decide)
  rw [hout] at hbound
  exact absurd hbound (by decide)

end JamDuna.Pvm
