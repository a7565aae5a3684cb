/-
# How an instruction can end

The handlers of `pvm/interpreter/vmgo.go` change the status of a machine in three ways only: they
leave it, they stop the machine with `PANIC` (a trap, a refused access, a bad jump), or an
indirect jump to the halt address ends it with `OK` (`handle_outcome`). They fail to return in
one case (`handle_eq_none_iff`). A jump that is taken goes to the start of a basic block, or to
an entry of the jump table, or it ends the run (`handle_landing`).
-/

import JamDuna.Pvm.Handlers

namespace JamDuna.Pvm

open Option

section

/-- What holds for the 256 opcodes holds for every opcode. -/
theorem forall_opcode {P : UInt8 → Prop} (h : ∀ i : Fin 256, P (UInt8.ofNat i)) (n : UInt8) :
    P n := by
  have hn := h ⟨n.toNat, n.toNat_lt⟩
  rwa [UInt8.ofNat_toNat] at hn

variable (inst : Instruction) (g : Guest)

/-- The address of an indirect jump. -/
def Instruction.indirectAddress : Option UInt64 :=
  if inst.opcode = 50 then
    let v := extractOneRegOneImm inst.args
    some ((g.reg v.1 + v.2) &&& 0xFFFFFFFF)
  else if inst.opcode = 180 then
    let v := extractTwoRegsAndTwoImmediates inst.args
    some ((g.reg v.2.1 + v.2.2.2) &&& 0xFFFFFFFF)
  else none

/-- The instruction is a jump, an indirect jump or a branch that is taken. -/
def Instruction.jumps : Bool :=
  match Format.ofOpcode inst.opcode with
  | .oneOffset | .twoRegsTwoImms => true
  | .oneRegOneImm => inst.opcode == 50
  | .oneRegOneImmOneOffset =>
    let v := extractOneRegOneImmOneOffset inst.args
    inst.opcode == 80 || (Condition.ofImmOpcode inst.opcode).any fun c => c.taken (g.reg v.1) v.2.1
  | .twoRegsOneOffset =>
    let v := extractTwoRegsOneOffset inst.args
    (Condition.ofOpcode inst.opcode).any fun c => c.taken (g.reg v.1) (g.reg v.2.1)
  | _ => false

end

variable {p : VMProgram} {g g' : Guest}

/-- The status of the machine is as before. -/
structure Guest.SameStatus (g g' : Guest) : Prop where
  terminated : g'.terminated = g.terminated
  resultCode : g'.resultCode = g.resultCode

/-- The machine has stopped with `PANIC`. -/
structure Guest.Stopped (g : Guest) : Prop where
  terminated : g.terminated = true
  resultCode : g.resultCode = .panic

/-- How a handler leaves the machine. -/
inductive Outcome (inst : Instruction) (g g' : Guest) : Prop where
  | kept (h : g.SameStatus g')
  | stopped (h : g'.Stopped)
  | halted (haddr : inst.indirectAddress g = some haltAddress) (hend : g'.terminated = true)
      (hok : g'.resultCode = .ok)

theorem Guest.SameStatus.trans {g₁ g₂ g₃ : Guest} (h : g₁.SameStatus g₂) (h' : g₂.SameStatus g₃) :
    g₁.SameStatus g₃ :=
  ⟨h'.terminated.trans h.terminated, h'.resultCode.trans h.resultCode⟩

theorem Guest.stopped_trap (g : Guest) : g.trap.Stopped := ⟨rfl, rfl⟩

theorem Guest.stopped_fault (g : Guest) : g.fault.Stopped := ⟨rfl, rfl⟩

theorem Guest.sameStatus_write (g : Guest) (d : Fin 13) (v : UInt64) :
    g.SameStatus (g.write d v) := ⟨rfl, rfl⟩

theorem Guest.store_cases (g : Guest) (addr : UInt32) (data : Bytes) :
    g.SameStatus (g.store addr data) ∨ (g.store addr data).Stopped := by
  unfold Guest.store
  split
  · exact .inl ⟨rfl, rfl⟩
  · exact .inr g.stopped_fault

theorem Guest.load_cases (g : Guest) (addr length : UInt32) (value : Bytes → UInt64) (d : Fin 13) :
    g.SameStatus (g.load addr length value d) ∨ (g.load addr length value d).Stopped := by
  unfold Guest.load
  split
  · exact .inl (g.sameStatus_write d _)
  · exact .inr g.stopped_fault

/-- A branch that is taken goes to the start of a block, or the machine stops. -/
theorem Guest.branch_taken (p : VMProgram) (g : Guest) (vx : UInt64) (n : ℕ) :
    (p.isBlockStart vx.toNat = true ∧ g.branch p vx true n = { g with pc := vx }) ∨
      g.branch p vx true n = g.trap := by
  unfold Guest.branch
  cases h : p.isBlockStart vx.toNat with
  | true => exact .inl ⟨rfl, rfl⟩
  | false => exact .inr rfl

theorem Guest.branch_cases (p : VMProgram) (g : Guest) (vx : UInt64) (taken : Bool) (n : ℕ) :
    g.SameStatus (g.branch p vx taken n) ∨ (g.branch p vx taken n).Stopped := by
  cases taken with
  | true =>
    rcases g.branch_taken p vx n with ⟨-, h⟩ | h
    · rw [h]
      exact .inl ⟨rfl, rfl⟩
    · rw [h]
      exact .inr g.stopped_trap
  | false => exact .inl ⟨rfl, rfl⟩

/-- **An indirect jump** halts, stops the machine, or goes to an entry of the jump table inside the
code. -/
theorem Guest.djump_cases (p : VMProgram) (g : Guest) (a : UInt64) :
    (a = haltAddress ∧ g.djump p a = { g with terminated := true, resultCode := .ok }) ∨
      g.djump p a = g.trap ∨
      ∃ k, k < p.J.length ∧ a.toNat = 2 * (k + 1) ∧ a ≠ haltAddress ∧
        (p.J.getD k 0).toNat < p.code.length ∧
        g.djump p a = { g with pc := (p.J.getD k 0).toUInt64 } := by
  unfold Guest.djump
  dsimp only
  split_ifs with hhalt hbad hout
  · exact .inl ⟨hhalt, rfl⟩
  · exact .inr (.inl rfl)
  · exact .inr (.inl rfl)
  · unfold zA at hbad hout ⊢
    rw [UInt32.toNat_toUInt64] at hout
    exact .inr (.inr ⟨a.toNat / 2 - 1, by omega, by omega, hhalt, by omega, rfl⟩)

theorem Guest.sbrk_cases (g : Guest) (d : Fin 13) (v : UInt64) : g.SameStatus (g.sbrk d v) := by
  unfold Guest.sbrk
  split_ifs
  · exact g.sameStatus_write d _
  · exact ⟨rfl, rfl⟩

variable {inst : Instruction}

/-- **The one way to crash**: a store of an immediate without operand bytes. -/
theorem handle_eq_none_iff :
    handle p inst g = none ↔ Format.ofOpcode inst.opcode = .twoImms ∧ inst.args = [] := by
  unfold handle
  cases Format.ofOpcode inst.opcode with
  | twoImms =>
    cases hargs : inst.args with
    | nil => exact ⟨fun _ => ⟨rfl, rfl⟩, fun _ => rfl⟩
    | cons a l => exact ⟨fun h => (nomatch h), fun h => (nomatch h.2)⟩
  | _ => exact ⟨fun h => (nomatch h), fun h => (nomatch h.1)⟩

variable {g₁ : Guest} {a : UInt64}

/-- An indirect jump from a machine with the same status. -/
theorem djump_outcome (haddr : inst.indirectAddress g = some a)
    (hsame : g.SameStatus g₁) : Outcome inst g (g₁.djump p a) := by
  rcases g₁.djump_cases p a with ⟨rfl, h⟩ | h | ⟨k, -, -, -, -, h⟩
  · rw [h]
    exact .halted haddr rfl rfl
  · rw [h]
    exact .stopped g₁.stopped_trap
  · rw [h]
    exact .kept ⟨hsame.terminated, hsame.resultCode⟩

theorem outcome_of_or (h : g.SameStatus g' ∨ g'.Stopped) : Outcome inst g g' := by
  rcases h with h | h
  · exact .kept h
  · exact .stopped h

/-- `LOAD_IMM_JUMP_IND` is the one opcode of its format. -/
theorem opcode_of_twoRegsTwoImms {n : UInt8} (h : Format.ofOpcode n = .twoRegsTwoImms) :
    n = 180 := by
  revert h
  exact forall_opcode (P := fun n => Format.ofOpcode n = .twoRegsTwoImms → n = 180)
    (by decide +kernel) n

theorem indirectAddress_of_50 (h : inst.opcode = 50) :
    inst.indirectAddress g = some ((g.reg (extractOneRegOneImm inst.args).1 +
      (extractOneRegOneImm inst.args).2) &&& 0xFFFFFFFF) := if_pos h

theorem indirectAddress_of_180 (h : inst.opcode = 180) :
    inst.indirectAddress g = some ((g.reg (extractTwoRegsAndTwoImmediates inst.args).2.1 +
      (extractTwoRegsAndTwoImmediates inst.args).2.2.2) &&& 0xFFFFFFFF) := by
  have hne : inst.opcode ≠ 50 := fun h' => absurd (h.symm.trans h') (by decide)
  exact (if_neg hne).trans (if_pos h)

/-- **How an instruction can end.** -/
theorem handle_outcome (h : handle p inst g = some g') : Outcome inst g g' := by
  have hwrite d v : Outcome inst g (g.write d v) := .kept (g.sameStatus_write d v)
  unfold handle at h
  cases hf : Format.ofOpcode inst.opcode <;> rw [hf] at h <;> dsimp only at h
  case noArgs | oneImm =>
    cases h
    exact .kept ⟨rfl, rfl⟩
  case oneRegOneEWImm =>
    cases h
    exact hwrite _ _
  case twoImms =>
    unfold handleTwoImms at h
    split at h
    · cases h
    · cases h
      exact outcome_of_or (g.store_cases _ _)
  case oneOffset =>
    cases h
    exact outcome_of_or (g.branch_cases p _ _ _)
  case oneRegOneImm =>
    cases h
    unfold handleOneRegOneImm
    split_ifs with hjump
    · exact djump_outcome (indirectAddress_of_50 hjump) ⟨rfl, rfl⟩
    · exact hwrite _ _
    · exact outcome_of_or (g.load_cases _ _ _ _)
    · exact outcome_of_or (g.store_cases _ _)
  case oneRegTwoImm =>
    cases h
    exact outcome_of_or (g.store_cases _ _)
  case oneRegOneImmOneOffset =>
    cases h
    unfold handleOneRegOneImmOneOffset
    split_ifs
    · exact outcome_of_or (((g.write _ _).branch_cases p _ _ _).imp_left
        (g.sameStatus_write _ _).trans)
    · split
      · exact outcome_of_or (g.branch_cases p _ _ _)
      · exact .kept ⟨rfl, rfl⟩
  case twoRegs =>
    cases h
    unfold handleTwoRegs
    split_ifs
    · exact .kept (g.sbrk_cases _ _)
    · split
      · exact hwrite _ _
      · exact .stopped ⟨rfl, rfl⟩
  case twoRegsOneImm =>
    cases h
    unfold handleTwoRegsOneImm
    split_ifs
    · exact outcome_of_or (g.store_cases _ _)
    · exact outcome_of_or (g.load_cases _ _ _ _)
    · split
      · exact hwrite _ _
      · exact hwrite _ _
  case twoRegsOneOffset =>
    obtain rfl := some.inj h
    unfold handleTwoRegsOneOffset
    split
    · exact outcome_of_or (g.branch_cases p _ _ _)
    · exact .stopped g.stopped_trap
  case twoRegsTwoImms =>
    cases h
    exact djump_outcome (indirectAddress_of_180 (opcode_of_twoRegsTwoImms hf))
      (g.sameStatus_write _ _)
  case threeRegs =>
    cases h
    unfold handleThreeRegs
    dsimp only
    split
    · split
      · exact hwrite _ _
      · exact .kept ⟨rfl, rfl⟩
    · exact hwrite _ _

/-- Where a jump of the machine `g` left it: at the start of a block, at an entry of the jump
table inside the code, or at its end. -/
inductive Landing (p : VMProgram) (inst : Instruction) (g g' : Guest) : Prop where
  | block (h : p.isBlockStart g'.pc.toNat = true)
  | stopped (h : g'.Stopped)
  | halted (haddr : inst.indirectAddress g = some haltAddress) (hend : g'.terminated = true)
      (hok : g'.resultCode = .ok)
  | table (a : UInt64) (k : ℕ) (haddr : inst.indirectAddress g = some a) (hk : k < p.J.length)
      (ha : a.toNat = 2 * (k + 1)) (hhalt : a ≠ haltAddress)
      (hin : (p.J.getD k 0).toNat < p.code.length) (hpc : g'.pc = (p.J.getD k 0).toUInt64)

theorem branch_landing {vx : UInt64} {n : ℕ} : Landing p inst g (g₁.branch p vx true n) := by
  rcases g₁.branch_taken p vx n with ⟨hstart, h⟩ | h
  · rw [h]
    exact .block hstart
  · rw [h]
    exact .stopped g₁.stopped_trap

theorem djump_landing (haddr : inst.indirectAddress g = some a) :
    Landing p inst g (g₁.djump p a) := by
  rcases g₁.djump_cases p a with ⟨rfl, h⟩ | h | ⟨k, hk, ha, hhalt, hin, h⟩
  · rw [h]
    exact .halted haddr rfl rfl
  · rw [h]
    exact .stopped g₁.stopped_trap
  · rw [h]
    exact .table a k haddr hk ha hhalt hin rfl

/-- **Where a jump goes.** -/
theorem handle_landing (h : handle p inst g = some g') (hjump : inst.jumps g = true) :
    Landing p inst g g' := by
  unfold handle at h
  unfold Instruction.jumps at hjump
  cases hf : Format.ofOpcode inst.opcode <;> rw [hf] at h hjump <;> dsimp only at h hjump
  case oneOffset =>
    cases h
    exact branch_landing
  case oneRegOneImm =>
    cases h
    have hop : inst.opcode = 50 := eq_of_beq hjump
    unfold handleOneRegOneImm
    rw [if_pos hop]
    exact djump_landing (indirectAddress_of_50 hop)
  case oneRegOneImmOneOffset =>
    cases h
    unfold handleOneRegOneImmOneOffset
    split_ifs with hop
    · exact branch_landing
    · rw [beq_false_of_ne hop, Bool.false_or] at hjump
      obtain ⟨c, hc, htaken⟩ := (any_eq_true _ _).mp hjump
      rw [hc]
      dsimp only
      rw [htaken]
      exact branch_landing
  case twoRegsOneOffset =>
    obtain rfl := some.inj h
    unfold handleTwoRegsOneOffset
    obtain ⟨c, hc, htaken⟩ := (any_eq_true _ _).mp hjump
    rw [hc]
    dsimp only
    rw [htaken]
    exact branch_landing
  case twoRegsTwoImms =>
    cases h
    exact djump_landing (indirectAddress_of_180 (opcode_of_twoRegsTwoImms hf))
  all_goals exact nomatch hjump

end JamDuna.Pvm
