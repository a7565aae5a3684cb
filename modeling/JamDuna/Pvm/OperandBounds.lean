/-
# Slices of the operand bytes

An instruction has 0 to 24 operand bytes. `PreDecodeInstructions` slices them when a machine is
built (`decode`), and the `Extract*` functions of `program/operands.go` slice a copy of them in
every step. Some formats take the length of the first immediate from a byte of the operands and
slice without comparing it with how many there are. In Go the slice then reaches behind the
operands: into the bytes of the code that follow them, or into what was allocated for the copy.

`ExtractInside` has the bounds of the slices of a step, and `OperandsInside` says for which operands
all slices, of `decode` and of a step, stay inside (`operandsInside_iff`).
-/

import JamDuna.Pvm.HandlerOutcomes

namespace JamDuna.Pvm

/-- Two slices of a copy with `n` bytes, of `lx` bytes from `start` and of at most four bytes behind
them. If none is left for the second, a zero is appended to the copy first. -/
def PartsInside (start lx n : ℕ) : Prop :=
  let ly := min 4 (n - lx - start)
  if ly = 0 then start + lx + 1 ≤ n + 1 else start + lx + ly ≤ n

/-- The slice of at most four bytes from the second on, with the same provision. -/
def RestInside (n : ℕ) : Prop :=
  let lx := min 4 (n - 1)
  if lx = 0 then 1 + 1 ≤ n + 1 else 1 + lx ≤ n

/-- The slices of the `Extract*` functions, and of `HandleTwoImms`, are inside the copy. But for
`HandleTwoImms` and the format of two registers and two immediates, which is filled up to two
bytes, they return at once if there are no operands. -/
def Instruction.ExtractInside (inst : Instruction) : Prop :=
  let n := inst.args.length
  match Format.ofOpcode inst.opcode with
  | .twoImms => PartsInside 1 (min 4 (operand inst.args 0 % 8)) n
  | .oneRegOneImm | .twoRegsOneOffset => n = 0 ∨ RestInside n
  | .oneRegTwoImm | .oneRegOneImmOneOffset =>
    n = 0 ∨ PartsInside 1 (min 4 (operand inst.args 0 / 16 % 8)) n
  | .twoRegsOneImm => n = 0 ∨ 1 + min 4 (n - 1) ≤ n
  | .twoRegsTwoImms => PartsInside 2 (min 4 (operand inst.args 1 % 8)) (max 2 n)
  | _ => True

/-- The operands that no slice leaves. -/
def Instruction.OperandsInside (inst : Instruction) : Prop :=
  let n := inst.args.length
  match Format.ofOpcode inst.opcode with
  | .twoImms => 1 + min 4 (operand inst.args 0 % 8) ≤ n
  | .oneRegOneImm => n ≤ 1 ∨ 1 + min 4 (operand inst.args 0 / 16 % 8) ≤ n
  | .oneRegTwoImm | .oneRegOneImmOneOffset =>
    n = 0 ∨ 1 + min 4 (operand inst.args 0 / 16 % 8) ≤ n
  | .twoRegsTwoImms => n < 2 ∨ 2 + min 4 (operand inst.args 1 % 8) ≤ n
  | _ => True

variable {start lx n : ℕ} {args : Bytes}

theorem partsInside_iff : PartsInside start lx n ↔ start + lx ≤ n := by
  unfold PartsInside
  dsimp only
  split_ifs with hnone <;> omega

theorem restInside_of_pos (h : n ≠ 0) : RestInside n := by
  unfold RestInside
  dsimp only
  split_ifs with hnone <;> omega

theorem isSome_sliceOf : (sliceOf args start lx).isSome ↔ start + lx ≤ args.length := by
  unfold sliceOf
  split_ifs with h
  · exact iff_of_true rfl h
  · exact iff_of_false Bool.false_ne_true h

theorem isSome_sliceImm :
    (sliceImm args start lx).isSome ↔ args.length ≤ start ∨ start + lx ≤ args.length := by
  unfold sliceImm
  split_ifs with h
  · rw [Option.isSome_map, isSome_sliceOf]
    omega
  · refine iff_of_true rfl ?_
    omega

theorem isSome_sliceOffset :
    (sliceOffset args start lx).isSome ↔ args.length ≤ start ∨ start + lx ≤ args.length := by
  unfold sliceOffset
  split_ifs with h
  · rw [Option.isSome_map, isSome_sliceOf]
    omega
  · refine iff_of_true rfl ?_
    omega

/-- The slice of what is left is inside. -/
theorem isSome_sliceImm_rest (m : ℕ) :
    (sliceImm args (start + lx) (min m (args.length - lx - start))).isSome := by
  rw [isSome_sliceImm]
  omega

theorem isSome_sliceOffset_rest (m : ℕ) :
    (sliceOffset args (start + lx) (min m (args.length - lx - start))).isSome := by
  rw [isSome_sliceOffset]
  omega

variable {opcode : UInt8}

/-- A slice, and a record of it. -/
theorem isSome_bind_iff {α γ : Type} {a : Option α} {f : α → Option γ}
    (hf : ∀ x, (f x).isSome) : (a.bind f).isSome ↔ a.isSome := by
  cases a with
  | none => exact Iff.rfl
  | some x => exact iff_of_true (hf x) rfl

/-- Two slices, the second of them inside, and a record of them. -/
theorem isSome_bind_of_isSome {α β γ : Type} {a : Option α} {b : Option β}
    {f : α → β → Option γ} (hb : b.isSome) (hf : ∀ x y, (f x y).isSome) :
    (a.bind fun x => b.bind fun y => f x y).isSome ↔ a.isSome := by
  obtain ⟨y, rfl⟩ := Option.isSome_iff_exists.mp hb
  exact isSome_bind_iff fun x => hf x y

theorem isSome_ite_iff {α : Type} {c p : Prop} [Decidable c] {a b : Option α} (ha : a.isSome)
    (hc : c → p) (hb : b.isSome ↔ p) : (if c then a else b).isSome ↔ p := by
  split_ifs with h
  · exact iff_of_true ha (hc h)
  · exact hb

theorem isSome_decodeTwoImms : (decodeTwoImms args).isSome ↔
    args.length ≤ 1 ∨ 1 + min 4 (operand args 0 % 8) ≤ args.length := by
  unfold decodeTwoImms
  refine isSome_ite_iff rfl (by omega) ?_
  exact (isSome_bind_of_isSome (isSome_sliceImm_rest 4) fun _ _ => rfl).trans isSome_sliceImm

theorem isSome_decodeOneRegOneImm : (decodeOneRegOneImm opcode args).isSome ↔
    args.length ≤ 1 ∨ 1 + min 4 (operand args 0 / 16 % 8) ≤ args.length := by
  unfold decodeOneRegOneImm
  refine isSome_ite_iff rfl (by omega) ((isSome_bind_iff fun _ => ?_).trans isSome_sliceImm)
  split_ifs <;> rfl

theorem isSome_decodeOneRegTwoImm : (decodeOneRegTwoImm args).isSome ↔
    args.length ≤ 1 ∨ 1 + min 4 (operand args 0 / 16 % 8) ≤ args.length := by
  unfold decodeOneRegTwoImm
  refine isSome_ite_iff rfl (by omega) ?_
  exact (isSome_bind_of_isSome (isSome_sliceImm_rest 4) fun _ _ => rfl).trans isSome_sliceImm

theorem isSome_decodeOneRegOneImmOneOffset : (decodeOneRegOneImmOneOffset opcode args).isSome ↔
    args.length ≤ 1 ∨ 1 + min 4 (operand args 0 / 16 % 8) ≤ args.length := by
  unfold decodeOneRegOneImmOneOffset
  refine isSome_ite_iff rfl (by omega) ?_
  refine (isSome_bind_of_isSome (isSome_sliceOffset_rest 3) fun _ _ => ?_).trans isSome_sliceImm
  split_ifs <;> rfl

theorem isSome_decodeTwoRegsOneImm : (decodeTwoRegsOneImm opcode args).isSome := by
  unfold decodeTwoRegsOneImm
  by_cases hzero : args.length = 0
  · rw [if_pos hzero]
    rfl
  · rw [if_neg hzero]
    refine (isSome_bind_iff fun _ => ?_).mpr (isSome_sliceImm.mpr (.inr (by omega)))
    split_ifs <;> rfl

theorem isSome_decodeTwoRegsOneOffset : (decodeTwoRegsOneOffset args).isSome := by
  unfold decodeTwoRegsOneOffset
  by_cases hzero : args.length = 0
  · rw [if_pos hzero]
    rfl
  · rw [if_neg hzero]
    exact (isSome_bind_iff fun _ => rfl).mpr (isSome_sliceOffset.mpr (.inr (by omega)))

theorem isSome_decodeTwoRegsTwoImms : (decodeTwoRegsTwoImms args).isSome ↔
    args.length ≤ 2 ∨ 2 + min 4 (operand args 1 % 8) ≤ args.length := by
  unfold decodeTwoRegsTwoImms
  refine isSome_ite_iff rfl (by omega) ?_
  exact (isSome_bind_of_isSome (isSome_sliceImm_rest 4) fun _ _ => rfl).trans isSome_sliceImm

theorem operand_of_length_le {i : ℕ} (h : args.length ≤ i) : operand args i = 0 := by
  unfold operand
  rw [List.getD_eq_getElem?_getD, List.getElem?_eq_none h]
  rfl

/-- **The operands that no slice leaves**, neither when the machine is built nor in a step. -/
theorem operandsInside_iff (inst : Instruction) :
    inst.OperandsInside ↔ (decode inst.opcode inst.args).isSome ∧ inst.ExtractInside := by
  unfold Instruction.OperandsInside Instruction.ExtractInside decode
  cases Format.ofOpcode inst.opcode <;> dsimp only
  case twoImms =>
    rw [isSome_decodeTwoImms, partsInside_iff]
    omega
  case oneRegOneImm =>
    rw [isSome_decodeOneRegOneImm]
    refine ⟨fun h => ⟨h, ?_⟩, And.left⟩
    by_cases hzero : inst.args.length = 0
    · exact .inl hzero
    · exact .inr (restInside_of_pos hzero)
  case oneRegTwoImm =>
    rw [isSome_decodeOneRegTwoImm, partsInside_iff]
    omega
  case oneRegOneImmOneOffset =>
    rw [isSome_decodeOneRegOneImmOneOffset, partsInside_iff]
    omega
  case twoRegsOneImm =>
    refine iff_of_true trivial ⟨isSome_decodeTwoRegsOneImm, ?_⟩
    omega
  case twoRegsOneOffset =>
    refine iff_of_true trivial ⟨isSome_decodeTwoRegsOneOffset, ?_⟩
    by_cases hzero : inst.args.length = 0
    · exact .inl hzero
    · exact .inr (restInside_of_pos hzero)
  case twoRegsTwoImms =>
    rw [isSome_decodeTwoRegsTwoImms, partsInside_iff]
    by_cases hshort : inst.args.length < 2
    · -- the copy is filled up with zeros, and the length is one of them
      rw [operand_of_length_le (show inst.args.length ≤ 1 by omega)]
      omega
    · omega
  all_goals exact iff_of_true trivial ⟨rfl, trivial⟩

/-- Operands inside rule out the one crash of a handler. -/
theorem Instruction.OperandsInside.handle_ne_none {inst : Instruction} (h : inst.OperandsInside)
    (p : VMProgram) (g : Guest) : handle p inst g ≠ none := by
  intro hnone
  obtain ⟨hf, hargs⟩ := handle_eq_none_iff.mp hnone
  unfold Instruction.OperandsInside at h
  rw [hf, hargs] at h
  dsimp only [List.length_nil] at h
  omega

end JamDuna.Pvm
