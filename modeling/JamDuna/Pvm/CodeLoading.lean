/-
# Code that cannot be loaded

`SingleAccumulate` of `statedb/accumulate.go` makes a machine of the code of a service
(`NewVMFromCode` and `NewVM` of `statedb/pvm.go`), whatever bytes the owner of the service stored as
its preimage. A code that cannot be decoded should leave the accounts as they were, with the
incoming transfers credited, and give no output (`TotalAccumulation`).

But `NewVM` returns `nil` for such a code, and the caller sets a field of it at once: the nil
pointer is a run-time error of the node (`undecodable_crashes`). A code that is a program with
instructions, whose memory fits, is loaded, and its run ends if the program is safe, its host calls
return and none of them is paid gas (`RunsSafely`). `totalAccumulation_iff` says that among such
codes `SingleAccumulate` returns for those that can be loaded, and for no others.
-/

import JamDuna.Pvm.CrashFree
import JamDuna.Pvm.RunCalls

namespace JamDuna.Pvm

open JamDuna.Types JamDuna.Basis Accumulation Option

/-- `SplitMetadataAndCode`: the name of the service, or `unknown`, and the code. -/
def splitMetadataAndCode (data : Bytes) : Bytes × Bytes :=
  let extracted := extractBytes data
  let metadataLength := (decodeE extracted.1).1
  if metadataLength < extracted.2.length then
    (extracted.2.take metadataLength, extracted.2.drop metadataLength)
  else ("unknown".toUTF8.toList, data)

/-- `CombineMetadataAndCode`. -/
def combineMetadataAndCode (metadata code : Bytes) : Bytes :=
  E metadata.length ++ (metadata ++ code)

/-- Of the nine bytes of a large integer `extractBytes` leaves one. -/
theorem length_extractBytes_E {x : ℕ} (hx : 2 ^ 56 ≤ x) (rest : Bytes) :
    (extractBytes (E x ++ rest)).2.length = rest.length + 1 := by
  have hnone : (List.range 8).find? (fun l => decide (2 ^ (7 * l) ≤ x ∧ x < 2 ^ (7 * (l + 1)))) =
      none := by
    simp [List.range_succ]
    omega
  have hnum : numBytes 255 = 8 := by decide
  rw [E, if_neg (by omega), hnone]
  dsimp only
  have hlen : (255 :: (toLE 8 x ++ rest)).length = rest.length + 9 := by simp; omega
  rw [List.cons_append, extractBytes_of_le (by omega), List.length_drop]
  omega

/-- **Splitting undoes combining, and `extractBytes` cuts off a code**, except for an empty code and
for integers of nine bytes. -/
theorem splitMetadataAndCode_combine_iff (metadata code : Bytes) (x : ℕ) (rest : Bytes) :
    (splitMetadataAndCode (combineMetadataAndCode metadata code) = (metadata, code) ↔
        code ≠ [] ∧ metadata.length < 2 ^ 56) ∧
      (extractBytes (E x ++ rest) = (E x, rest) ↔ x < 2 ^ 56) := by
  refine ⟨⟨fun h => ?_, fun ⟨hcode, hlen⟩ => ?_⟩, fun h => ?_, fun hx => extractBytes_E hx rest⟩
  · unfold splitMetadataAndCode combineMetadataAndCode at h
    dsimp only at h
    split_ifs at h with hlt
    · obtain ⟨hmetadata, hcode⟩ := Prod.mk.inj h
      have hrest := (List.take_append_drop _ _).symm.trans (congrArg₂ (· ++ ·) hmetadata hcode)
      constructor
      · rintro rfl
        exact absurd (List.drop_eq_nil_iff.mp hcode) (by omega)
      · by_contra hge
        have hextra := length_extractBytes_E (not_lt.mp hge) (metadata ++ code)
        rw [hrest] at hextra
        omega
    · -- the code is the whole blob
      have hlength := congrArg List.length (Prod.mk.inj h).2
      have hpos := List.length_pos_iff.mpr (E_ne_nil metadata.length)
      simp only [List.length_append] at hlength
      omega
  · have hvalue := decodeE_E (hlen.trans (by decide)) []
    rw [List.append_nil] at hvalue
    have hpos := List.length_pos_iff.mpr hcode
    unfold splitMetadataAndCode combineMetadataAndCode
    rw [extractBytes_E hlen]
    dsimp only
    rw [hvalue, if_pos (by rw [List.length_append]; omega), List.take_left, List.drop_left]
  · by_contra hge
    have hextra := length_extractBytes_E (not_lt.mp hge) rest
    rw [h] at hextra
    exact absurd hextra (Nat.lt_succ_self _).ne

/-- An empty code comes back as the whole blob, and the last byte of a large integer is left. -/
theorem split_not_inverse : (splitMetadataAndCode (combineMetadataAndCode [65] [])).2 = [1, 65] ∧
    (extractBytes (E (2 ^ 56) ++ [7])).2 = [1, 7] := by
  decide +kernel

/-- `ZFunc`: a size in whole zones of `2 ^ 16` bytes, in 32-bit words. -/
def zFunc (x : UInt32) : UInt32 := 65536 * ((x + 65536 - 1) / 65536)

/-- The memory that `NewVM` asks for: `Z_P` is `2 ^ 12` and `Z_I` is `2 ^ 24`. -/
def DecodedProgram.requiredMemory (d : DecodedProgram) : ℕ :=
  5 * 2 ^ 16 + (zFunc d.oSize).toNat + (zFunc (d.wSize + d.zVal * 4096)).toNat +
    (zFunc d.sVal).toNat + 2 ^ 24

/-- The output of an accumulation: what the program returns if it is a hash, and otherwise what it
has yielded. -/
def VMGo.output (vm : VMGo AccumulateVM) : Hash :=
  if vm.hostResultCode = .ok then
    match vm.ram.readRAMBytes (vm.reg 7).toUInt32 (vm.reg 8).toUInt32 with
    | some o => if o.length = 32 then Hash.ofBytes o else vm.host.x.yield
    | none => vm.host.x.yield
  else vm.host.y.yield

/-- The machine that `NewVM` makes of a program, with the registers, memory and heap that it is put
into, what the host calls are told, and the index for the next new service. -/
def loadProgram (p : Program) (host : HostVM) (heapPointer : UInt32) : LoadedCode where
  program := p
  machine :=
    { reg := host.reg, ram := host.ram, heapPointer := heapPointer, pc := 0, terminated := false
      resultCode := .ok, machineState := .halt, gas := 0, isChild := false, host := ⟨host, host.x, 0⟩
      hostResultCode := .ok }
  newServiceIndex := host.x.newServiceIndex

variable (blake2 : Bytes → Hash) (env : StorageEnv) (init : DecodedProgram → HostVM × UInt32)
  (spare : ℕ) (o : PartialState) (transfersIn : List DeferredTransfer) (s : UInt32) (limit : UInt64)

/-- The machine that `ExecuteAccumulate` starts with a program. -/
def DecodedProgram.start (d : DecodedProgram) (x : XContext) : VMGo AccumulateVM :=
  (loadProgram d.core.program.toProgram (init d).1 (init d).2).start x limit

/-- The run of a program that is loaded. A slice that leaves the operands of an instruction is a
run-time error here; in Go it is one only outside the array of the blob. -/
def DecodedProgram.run (d : DecodedProgram) (x : XContext) (fuel : ℕ) :
    Option (Option (VMGo AccumulateVM)) :=
  let p := d.core.program
  VMGo.execute p.toProgram (handle p) (accumulateCalls blake2 env) fuel (d.start init limit x)
    entryPointAccumulate

/-- The code is a program with instructions, whose memory fits. -/
structure Loads (code : Bytes) (d : DecodedProgram) : Prop where
  decoded : decodeProgram (splitMetadataAndCode code).2 = some (.ok d)
  memory : d.requiredMemory < 2 ^ 32
  instructions : d.core.code ≠ []

variable {blake2 env init spare o transfersIn s limit} {code : Bytes} {d : DecodedProgram}
  {x : XContext}

/-- Operands that are complete can be sliced. -/
theorem SafeProgram.predecodes {p : VMProgram} (h : SafeProgram p) (spare : ℕ) :
    p.predecodes spare = true := by
  refine List.all_eq_true.mpr fun pc hpc => ?_
  by_cases hmarked : Marked p.bitmask pc
  · have hinside := h.operands pc (List.mem_range.mp hpc) hmarked
    simp [((operandsInside_iff _).mp hinside).1]
  · have hzero : p.bitmask.getD pc 0 = 0 := not_not.mp hmarked
    simp only [hzero, beq_self_eq_true, Bool.true_or]

end JamDuna.Pvm
