/-
# Control-flow integrity

A jump of the interpreter should land on the start of a basic block, or end the run: with `PANIC`,
or regularly at the halt address (`ControlFlowIntegrity`). `branch` of `pvm/interpreter/vmgo.go`
asks for the mark of a block. `djump` does not: it takes any entry of the jump table inside the
code, and `DecodeCorePart` takes any table. An entry at a byte that starts no instruction is caught
by the next step, which panics; one at an instruction in the middle of a block is executed from
there (`jump_intoBlock`).

So the jumps of a program are safe exactly if it has no indirect jump, or every entry of its table
that an address can select is the start of a block or of no instruction
(`controlFlowIntegrity_iff`).
-/

import JamDuna.Pvm.BlockMarks
import JamDuna.Pvm.HandlerOutcomes

namespace JamDuna.Pvm

open JamDuna.Basis Option Prod VMGo Format

section

variable {σ : Type}

/-- Where a jump may leave the machine. -/
inductive SafeLanding (p : VMProgram) (calls : HostCalls σ) (inst : Instruction)
    (vm vm' : VMGo σ) : Prop where
  | block (h : p.isBlockStart vm'.pc.toNat = true)
  | panicked (h : vm'.toGuest.Stopped)
  | halted (haddr : inst.indirectAddress vm.toGuest = some haltAddress)
      (hend : vm'.terminated = true) (hok : vm'.resultCode = .ok)
  /-- the next step ends the run with `PANIC` -/
  | refused (h : vm'.step p.toProgram (handle p) calls =
      some ({ vm' with toGuest := vm'.toGuest.trap }, some .notInstruction))

/-- Every jump of every run lands safely. -/
def ControlFlowIntegrity (p : VMProgram) : Prop :=
  ∀ (σ : Type) (calls : HostCalls σ) (start vm vm' : VMGo σ) (inst : Instruction),
    Reached (executeRound p.toProgram (handle p) calls) start vm → vm.terminated = false →
    p.fetch vm.pc.toNat = some (some inst) → inst.jumps vm.toGuest = true →
    vm.step p.toProgram (handle p) calls = some (vm', none) →
    SafeLanding p calls inst vm vm'

/-- An indirect jump that a program counter can reach. -/
def VMProgram.IndirectAt (p : VMProgram) (pc : UInt64) (inst : Instruction) : Prop :=
  pc.toNat < p.code.length ∧ p.fetch pc.toNat = some (some inst) ∧
    (inst.opcode = 50 ∨ inst.opcode = 180)

/-- The entries that an address selects are starts of blocks, or of no instruction. Addresses
have 32 bits, and one of them halts. -/
def VMProgram.TableAtBlocks (p : VMProgram) : Prop :=
  ∀ k < p.J.length, 2 * (k + 1) < 2 ^ 32 → 2 * (k + 1) ≠ haltAddress.toNat →
    (p.J.getD k 0).toNat < p.code.length →
    p.isBlockStart (p.J.getD k 0).toNat = true ∨ p.bitmask[(p.J.getD k 0).toNat]? = some 0

variable {p : Program} {exec : Instruction → Guest → Option Guest} {calls : HostCalls σ}
  {vm vm' : VMGo σ} {inst : Instruction}

theorem ne_of_setsPc {n : UInt8} (h : setsPc n = true) : n ≠ 0 ∧ n ≠ 1 ∧ n ≠ 10 := by
  refine ⟨?_, ?_, ?_⟩ <;> rintro rfl <;> exact absurd h (by decide)

theorem setsPc_of_jumps {g : Guest} (h : inst.jumps g = true) : setsPc inst.opcode = true := by
  have htable : ∀ n : UInt8, (ofOpcode n = .oneOffset ∨ ofOpcode n = .twoRegsTwoImms ∨
      ofOpcode n = .oneRegOneImmOneOffset ∨ ofOpcode n = .twoRegsOneOffset) →
      setsPc n = true :=
    forall_opcode (by decide +kernel)
  unfold Instruction.jumps at h
  cases hf : ofOpcode inst.opcode <;> rw [hf] at h <;> dsimp only at h
  case oneOffset => exact htable _ (.inl hf)
  case twoRegsTwoImms => exact htable _ (.inr (.inl hf))
  case oneRegOneImmOneOffset => exact htable _ (.inr (.inr (.inl hf)))
  case twoRegsOneOffset => exact htable _ (.inr (.inr (.inr hf)))
  case oneRegOneImm =>
    rw [eq_of_beq h]
    rfl
  all_goals exact nomatch h

/-- A step of an instruction that sets the program counter itself, once it is paid for. -/
theorem step_of_setsPc (hpc : vm.pc.toNat < p.code.length)
    (hfetch : p.fetch vm.pc.toNat = some (some inst)) (hgas : ¬(vm.charge 1).gas < 0)
    (hsets : setsPc inst.opcode = true) :
    vm.step p exec calls =
      (exec inst vm.toGuest).map fun g => ({ vm.charge 1 with toGuest := g }, none) := by
  obtain ⟨h0, h1, h10⟩ := ne_of_setsPc hsets
  unfold step
  rw [if_neg (by omega), hfetch]
  dsimp only
  rw [if_neg hgas, if_neg h10]
  unfold Guest.execute
  rw [if_neg h0, if_neg h1, if_pos hsets]

/-- What a step without an error did, if its instruction sets the program counter itself. -/
theorem exec_of_step (hfetch : p.fetch vm.pc.toNat = some (some inst))
    (hsets : setsPc inst.opcode = true) (h : vm.step p exec calls = some (vm', none)) :
    exec inst vm.toGuest = some vm'.toGuest := by
  by_cases hpc : vm.pc.toNat < p.code.length
  · by_cases hgas : (vm.charge 1).gas < 0
    · unfold step at h
      rw [if_neg (by omega), hfetch] at h
      dsimp only at h
      rw [if_pos hgas] at h
      exact nomatch (mk.inj (some.inj h)).2
    · rw [step_of_setsPc hpc hfetch hgas hsets] at h
      obtain ⟨g, hg, hout⟩ := map_eq_some_iff.mp h
      cases hout
      exact hg
  · unfold step at h
    rw [if_pos (by omega)] at h
    exact nomatch (mk.inj (some.inj h)).2

/-- A step from a byte of the code that starts no instruction. -/
theorem step_of_unmarked (hpc : vm.pc.toNat < p.code.length)
    (hmark : p.bitmask[vm.pc.toNat]? = some 0) :
    vm.step p exec calls = some ({ vm with toGuest := vm.toGuest.trap }, some .notInstruction) := by
  have hfetch : p.fetch vm.pc.toNat = some none := by
    unfold Program.fetch
    rw [hmark]
    rfl
  unfold step
  rw [if_neg (by omega), hfetch]

theorem ecalli_error {e : StepError} (h : vm.ecalli calls inst = some (vm', some e)) :
    e = .childHostCall := by
  unfold ecalli at h
  dsimp only at h
  split_ifs at h
  · exact (some.inj (mk.inj (some.inj h)).2).symm
  · exact nomatch (mk.inj (some.inj h)).2
  · obtain ⟨after, -, hout⟩ := map_eq_some_iff.mp h
    exact nomatch (mk.inj hout).2

/-- Only a byte that starts no instruction is refused as one. -/
theorem unmarked_of_step (hpc : vm.pc.toNat < p.code.length)
    (h : vm.step p exec calls = some (vm', some .notInstruction)) :
    p.bitmask[vm.pc.toNat]? = some 0 := by
  unfold step at h
  rw [if_neg (by omega)] at h
  unfold Program.fetch at h
  cases hmark : p.bitmask[vm.pc.toNat]? with
  | none =>
    rw [hmark] at h
    cases h
  | some mark =>
    rw [hmark] at h
    dsimp only at h
    by_cases hzero : mark = 0
    · rw [hzero]
    · rw [if_neg hzero] at h
      dsimp only at h
      split_ifs at h
      · exact nomatch (mk.inj (some.inj h)).2
      · exact nomatch ecalli_error h
      · obtain ⟨after, -, hout⟩ := map_eq_some_iff.mp h
        exact nomatch (mk.inj hout).2

end

variable {p : VMProgram} {inst : Instruction} {a : UInt64} {k : ℕ}

/-- An indirect jump is `djump` from a machine with the same status. -/
theorem handle_indirect {g : Guest} (haddr : inst.indirectAddress g = some a) :
    inst.jumps g = true ∧ ∃ g₁, g.SameStatus g₁ ∧ handle p inst g = some (g₁.djump p a) := by
  unfold Instruction.indirectAddress at haddr
  split_ifs at haddr with h50 h180
  · cases haddr
    have hf : ofOpcode inst.opcode = .oneRegOneImm := by rw [h50]; decide
    refine ⟨?_, g, ⟨rfl, rfl⟩, ?_⟩
    · unfold Instruction.jumps
      rw [hf, h50]
      rfl
    · unfold handle handleOneRegOneImm
      rw [hf]
      rw [if_pos h50]
  · cases haddr
    have hf : ofOpcode inst.opcode = .twoRegsTwoImms := by rw [h180]; decide
    refine ⟨?_, g.write (extractTwoRegsAndTwoImmediates inst.args).1
      (extractTwoRegsAndTwoImmediates inst.args).2.2.1, g.sameStatus_write _ _, ?_⟩
    · unfold Instruction.jumps
      rw [hf]
    · unfold handle handleTwoRegsTwoImms
      rw [hf]

/-- An address that selects an entry inside the code. -/
theorem djump_table (g : Guest) (hk : k < p.J.length) (ha : a.toNat = 2 * (k + 1))
    (hhalt : a ≠ haltAddress) (hin : (p.J.getD k 0).toNat < p.code.length) :
    g.djump p a = { g with pc := (p.J.getD k 0).toUInt64 } := by
  have hindex : a.toNat / zA - 1 = k := by
    unfold zA
    omega
  unfold Guest.djump
  dsimp only
  rw [hindex, UInt32.toNat_toUInt64, if_neg hhalt, if_neg, if_neg (by omega)]
  unfold zA
  omega

theorem and_mask {a : UInt64} (h : a.toNat < 2 ^ 32) : a &&& 0xFFFFFFFF = a := by
  refine UInt64.toNat_inj.mp ?_
  rw [UInt64.toNat_and]
  exact (Nat.and_two_pow_sub_one_eq_mod a.toNat 32).trans (Nat.mod_eq_of_lt h)

/-- A machine with one value in all registers, and gas to go on. -/
def jumper (pc value : UInt64) : VMGo Unit where
  reg := fun _ => value
  ram := ⟨fun _ => none, fun _ => none⟩
  heapPointer := 0
  pc := pc
  terminated := false
  resultCode := .ok
  machineState := .halt
  gas := 100
  isChild := false
  host := ()
  hostResultCode := .ok

/-- A host whose calls change nothing. -/
def idleHost : HostCalls Unit := fun _ _ reg ram host => some ⟨reg, ram, host, false⟩

/-- The registers can take an indirect jump to any address of 32 bits. -/
theorem exists_register (hop : inst.opcode = 50 ∨ inst.opcode = 180) (ha : a.toNat < 2 ^ 32)
    (pc : UInt64) : ∃ value, inst.indirectAddress (jumper pc value).toGuest = some a := by
  rcases hop with h50 | h180
  · refine ⟨a - (extractOneRegOneImm inst.args).2, (indirectAddress_of_50 h50).trans ?_⟩
    show some ((a - _ + _) &&& 0xFFFFFFFF) = some a
    rw [UInt64.sub_add_cancel, and_mask ha]
  · refine ⟨a - (extractTwoRegsAndTwoImmediates inst.args).2.2.2,
      (indirectAddress_of_180 h180).trans ?_⟩
    show some ((a - _ + _) &&& 0xFFFFFFFF) = some a
    rw [UInt64.sub_add_cancel, and_mask ha]

/-- **What integrity asks of an entry** that an indirect jump of the program can select. -/
theorem ControlFlowIntegrity.entry (h : ControlFlowIntegrity p) {pc : UInt64}
    (hjump : p.IndirectAt pc inst) (hk : k < p.J.length) (hsmall : 2 * (k + 1) < 2 ^ 32)
    (hhalt : 2 * (k + 1) ≠ haltAddress.toNat) (hin : (p.J.getD k 0).toNat < p.code.length) :
    p.isBlockStart (p.J.getD k 0).toNat = true ∨ p.bitmask[(p.J.getD k 0).toNat]? = some 0 := by
  obtain ⟨hpc, hfetch, hop⟩ := hjump
  have ha : (UInt64.ofNat (2 * (k + 1))).toNat = 2 * (k + 1) :=
    UInt64.toNat_ofNat_of_lt' (hsmall.trans (by decide))
  have hne : UInt64.ofNat (2 * (k + 1)) ≠ haltAddress := fun heq => hhalt (ha ▸ congrArg _ heq)
  obtain ⟨value, haddr⟩ := exists_register hop (ha ▸ hsmall) pc
  obtain ⟨hjumps, g₁, hsame, hhandle⟩ := handle_indirect (p := p) haddr
  rw [djump_table g₁ hk ha hne hin] at hhandle
  have hgas : ¬((jumper pc value).charge 1).gas < 0 := show ¬(100 - 1 : Int64) < 0 by decide
  -- the machine lands on the entry, still running
  have hrunning : g₁.terminated = false := hsame.terminated
  have hstep : (jumper pc value).step p.toProgram (handle p) idleHost =
      some ({ (jumper pc value).charge 1 with
        toGuest := { g₁ with pc := (p.J.getD k 0).toUInt64 } }, none) := by
    rw [step_of_setsPc hpc hfetch hgas (setsPc_of_jumps hjumps), hhandle]
    rfl
  have htarget : (p.J.getD k 0).toUInt64.toNat = (p.J.getD k 0).toNat := UInt32.toNat_toUInt64 _
  rcases h Unit idleHost _ _ _ inst .refl rfl hfetch hjumps hstep with
    hblock | hstop | ⟨-, hend, -⟩ | hrefused
  · exact .inl (htarget ▸ hblock)
  · exact absurd (hrunning.symm.trans hstop.terminated) (by decide)
  · exact absurd (hrunning.symm.trans hend) (by decide)
  · exact .inr (htarget ▸ unmarked_of_step (htarget.trans_lt hin) hrefused)

theorem indirectAt_of_address {inst : Instruction} {pc a : UInt64} {g : Guest}
    (hpc : pc.toNat < p.code.length) (hfetch : p.fetch pc.toNat = some (some inst))
    (haddr : inst.indirectAddress g = some a) : p.IndirectAt pc inst := by
  refine ⟨hpc, hfetch, ?_⟩
  unfold Instruction.indirectAddress at haddr
  split_ifs at haddr with h50 h180
  · exact .inl h50
  · exact .inr h180

/-- A step without an error starts inside the code. -/
theorem pc_lt_of_step {σ : Type} {calls : HostCalls σ} {vm vm' : VMGo σ}
    (h : vm.step p.toProgram (handle p) calls = some (vm', none)) :
    vm.pc.toNat < p.code.length := by
  by_contra hout
  unfold step at h
  rw [if_pos (not_lt.mp hout)] at h
  exact nomatch (mk.inj (some.inj h)).2

theorem indirectAddress_lt {inst : Instruction} {g : Guest} {a : UInt64}
    (haddr : inst.indirectAddress g = some a) : a.toNat < 2 ^ 32 := by
  have hand : ∀ b : UInt64, (b &&& 0xFFFFFFFF).toNat < 2 ^ 32 := fun b => by
    rw [UInt64.toNat_and]
    exact (Nat.and_le_right).trans_lt (by decide)
  unfold Instruction.indirectAddress at haddr
  split_ifs at haddr with h50 h180
  all_goals
    cases haddr
    exact hand _

/-- **Control-flow integrity** holds of the programs without an indirect jump, and of those whose
jump table selects nothing but starts of blocks and bytes that start no instruction. -/
theorem controlFlowIntegrity_iff (p : VMProgram) :
    ControlFlowIntegrity p ↔ ((∃ pc inst, p.IndirectAt pc inst) → p.TableAtBlocks) := by
  constructor
  · rintro h ⟨pc, inst, hjump⟩ k hk hsmall hhalt hin
    exact h.entry hjump hk hsmall hhalt hin
  · intro htable σ calls start vm vm' inst _ _ hfetch hjump hstep
    have hhandle := exec_of_step hfetch (setsPc_of_jumps hjump) hstep
    rcases handle_landing hhandle hjump with
      hblock | hstop | ⟨haddr, hend, hok⟩ | ⟨a, k, haddr, hk, ha, hhalt, hin, hpc⟩
    · exact .block hblock
    · exact .panicked hstop
    · exact .halted haddr hend hok
    · have hindirect := indirectAt_of_address (pc_lt_of_step hstep) hfetch haddr
      have hsmall : 2 * (k + 1) < 2 ^ 32 := ha ▸ indirectAddress_lt haddr
      have hne : 2 * (k + 1) ≠ haltAddress.toNat :=
        fun heq => hhalt (UInt64.toNat_inj.mp (ha.trans heq))
      have htarget : vm'.pc.toNat = (p.J.getD k 0).toNat := by
        rw [hpc, UInt32.toNat_toUInt64]
      rcases htable ⟨_, _, hindirect⟩ k hk hsmall hne hin with hblock | hmark
      · exact .block (htarget ▸ hblock)
      · exact .refused (step_of_unmarked (htarget ▸ hin) (htarget ▸ hmark))

/-- A program with an indirect jump at 0 and a block of two loads at 2, in a frame without
segments. Its jump table has one entry, the second load at 4. -/
def intoBlock : Bytes :=
  [0, 0, 0, 0, 0, 0, 0, 0, 0, 0, 0, 11, 0, 0, 0, 1, 1, 6, 4, 50, 0, 51, 0, 51, 0, 21]

/-- What its core part is decoded to. -/
def intoBlockPart : CorePart where
  jSize := 1
  z := 1
  J := [4]
  code := [50, 0, 51, 0, 51, 0]
  K := [3, 0, 3, 0, 1, 0]
  tableAt := 3
  codeAt := 4

/-- It is accepted, and a jump can go into the middle of the block. -/
theorem jump_intoBlock : ∃ d, decodeProgram intoBlock = some (.ok d) ∧ d.core = intoBlockPart ∧
      ¬ControlFlowIntegrity d.core.program := by
  obtain ⟨d, hd, hcore⟩ : ∃ d, decodeProgram intoBlock = some (.ok d) ∧ d.core = intoBlockPart :=
    ⟨_, rfl, by decide +kernel⟩
  refine ⟨d, hd, hcore, fun h => ?_⟩
  rw [hcore] at h
  have hjump : intoBlockPart.program.IndirectAt 0 ⟨50, [0]⟩ := ⟨by decide, rfl, .inl rfl⟩
  have hentry : intoBlockPart.program.isBlockStart 4 = true ∨
      intoBlockPart.program.bitmask[4]? = some 0 :=
    h.entry (k := 0) hjump (by decide) (by decide) (by decide) (by decide)
  exact absurd hentry (by decide)

end JamDuna.Pvm
