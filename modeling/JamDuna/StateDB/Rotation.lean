/-
# The assignment of guarantors to cores

`statedb/shuffle.go` and `statedb/rotation.go`: the validators are spread over the
cores by a Fisher-Yates shuffle whose numbers are drawn from the entropy, and the
cores rotate every `ValidatorCoreRotationPeriod` slots.

A shuffle permutes its sequence (`fisherYatesShuffle_perm`), so in every rotation
each core has the same number of guarantors (`count_permute`). The validators of an
assignment, in their order, are those of one validator set; `calculateAssignments_spec`
says which one for the current and for the previous rotation.
-/

import JamDuna.Basis.LittleEndian
import JamDuna.StateDB.Guarantees

namespace JamDuna.StateDB

open JamDuna.Types JamDuna.Basis List UInt32

/-- `FisherYatesShuffle`. It is called with as many numbers as there are elements;
with fewer of them the source panics where the recursion ends here. -/
def fisherYatesShuffle (s : List UInt32) : List UInt32 → List UInt32
  | [] => []
  | r :: rs =>
    if s.length = 0 then []
    else
      let index := r.toNat % s.length
      let sPost := s.set index (s.getD (s.length - 1) 0)
      s.getD index 0 :: fisherYatesShuffle (sPost.take (s.length - 1)) rs

/-- One round takes an element out and closes the gap with the last one. -/
theorem round_perm {s : List UInt32} {i : ℕ} (h : i < s.length) :
    (s.getD i 0 :: (s.set i (s.getD (s.length - 1) 0)).take (s.length - 1)).Perm s := by
  obtain ⟨init, last, rfl⟩ : ∃ init last, s = init ++ [last] :=
    ⟨s.dropLast, s.getLast (by rintro rfl; simp at h), (dropLast_append_getLast _).symm⟩
  have hlen : (init ++ [last]).length - 1 = init.length := by simp
  have hlast : (init ++ [last]).getD init.length 0 = last := by simp [getD]
  rw [hlen, hlast]
  rcases Nat.lt_or_ge i init.length with hi | hi
  · have hget : (init ++ [last]).getD i 0 = init[i] := by
      simp [getD, getElem?_append_left hi, hi]
    rw [hget, set_append_left _ _ hi, take_left' (by simp)]
    refine ((set_perm_cons_eraseIdx hi last).cons _).trans ?_
    refine (Perm.swap _ _ _).trans ?_
    refine ((getElem_cons_eraseIdx_perm hi).cons _).trans ?_
    exact (perm_append_singleton last init).symm
  · obtain rfl : i = init.length := by
      omega
    have hset : ((init ++ [last]).set init.length last).take init.length = init := by simp
    rw [hlast, hset]
    exact (perm_append_singleton last init).symm

/-- **A shuffle permutes its sequence.** -/
theorem fisherYatesShuffle_perm {s r : List UInt32} (h : r.length = s.length) :
    (fisherYatesShuffle s r).Perm s := by
  induction r generalizing s with
  | nil =>
    obtain rfl := length_eq_zero_iff.mp h.symm
    exact Perm.refl _
  | cons r rs ih =>
    have hpos : 0 < s.length := by
      rw [← h]
      exact Nat.succ_pos _
    rw [fisherYatesShuffle, if_neg hpos.ne']
    refine Perm.trans (Perm.cons _ (ih ?_)) (round_perm (Nat.mod_lt _ hpos))
    simp only [length_cons] at h
    simp only [length_take, length_set]
    omega

variable (blake2 : Bytes → Hash)

/-- `NumericSequenceFromHash`. -/
def numericSequenceFromHash (h : Hash) (l : ℕ) : List UInt32 :=
  (range l).map fun i =>
    let offset := 4 * i % 32
    let hash := (blake2 (h.bytes ++ toLE 4 (i / 8))).bytes
    ofNat (ofLE ((hash.drop offset).take 4))

/-- `ShuffleFromHash`. -/
def shuffleFromHash (sequence : List UInt32) (hash : Hash) : List UInt32 :=
  fisherYatesShuffle sequence (numericSequenceFromHash blake2 hash sequence.length)

/-- `Rotation`. -/
def rotation (c : List UInt32) (n : UInt32) : List UInt32 :=
  c.map fun x => (x + n) % ofNat totalCores

/-- The cores of the validators before the shuffle. -/
def initialCores : List UInt32 :=
  (range totalValidators).map fun i => ofNat (totalCores * i / totalValidators)

/-- `Permute`. -/
def permute (e : Hash) (t : UInt32) : List UInt32 :=
  rotation (shuffleFromHash blake2 initialCores e)
    (t % ofNat epochLength / ofNat validatorCoreRotationPeriod)

/-- The cores of a rotation are the initial ones in another order, rotated. -/
theorem permute_perm (e : Hash) (t : UInt32) : (permute blake2 e t).Perm (rotation initialCores
      (t % ofNat epochLength / ofNat validatorCoreRotationPeriod)) := by
  refine Perm.map _ (fisherYatesShuffle_perm ?_)
  simp [numericSequenceFromHash]

/-- An epoch has three rotations. -/
theorem permute_perm_rotation (e : Hash) (t : UInt32) :
    ∃ n < 3, (permute blake2 e t).Perm (rotation initialCores (ofNat n)) := by
  have hn : (t % 12 / 4).toNat < 3 := by
    have hmod : (t % 12).toNat = t.toNat % 12 := UInt32.toNat_mod _ _
    have hdiv : (t % 12 / 4).toNat = (t % 12).toNat / 4 := UInt32.toNat_div _ _
    omega
  refine ⟨_, hn, ?_⟩
  rw [UInt32.ofNat_toNat]
  exact permute_perm blake2 e t

/-- **Every core has the same number of guarantors**, in every rotation. -/
theorem count_permute (e : Hash) (t : UInt32) (c : Fin totalCores) :
    (permute blake2 e t).count (UInt32.ofNat c) = totalValidators / totalCores := by
  obtain ⟨n, hn, hperm⟩ := permute_perm_rotation blake2 e t
  rw [hperm.count_eq]
  clear hperm
  revert n c
  decide

variable (entropy : Entropy) (sf : SafroleState)

/-- The loops that pair the validators with their cores; `none` is the panic at the
first validator without a core. -/
def assign (cores : List UInt32) (validators : List Validator) :
    Option (List GuarantorAssignment) :=
  if validators.length ≤ cores.length then
    some ((cores.zip validators).map fun p => ⟨p.1.toUInt16, p.2⟩)
  else none

/-- `prev_slot`: one rotation back, or the first slot. -/
def prevSlot (slot : UInt32) : UInt32 :=
  if ofNat validatorCoreRotationPeriod ≤ slot then
    slot - ofNat validatorCoreRotationPeriod
  else 0

/-- The second part of `CalculateAssignments`: the previous rotation. -/
def previousAssignments (slot : UInt32) : Option (List GuarantorAssignment) :=
  if prevSlot slot / ofNat epochLength = slot / ofNat epochLength then
    assign (permute blake2 entropy.eta2 (prevSlot slot)) sf.currValidators
  else if sf.prevValidators.length = 0 then
    assign (permute blake2 entropy.eta3 (prevSlot slot)) sf.currValidators
  else assign (permute blake2 entropy.eta3 (prevSlot slot)) sf.prevValidators

/-- `CalculateAssignments`: the assignments of the previous and of the current
rotation. -/
def calculateAssignments (slot : UInt32) :
    Option (List GuarantorAssignment × List GuarantorAssignment) := do
  let assignments ← assign (permute blake2 entropy.eta2 slot) sf.currValidators
  let prevAssignments ← previousAssignments blake2 entropy sf slot
  return (prevAssignments, assignments)

/-- `RotateGuarantors`: what it stores as the previous and as the current assignments.
It selects them anew, with a second copy `t` of the earlier slot for the shuffle. -/
def rotateGuarantors : Option (List GuarantorAssignment × List GuarantorAssignment) := do
  let assignments ← assign (permute blake2 entropy.eta2 sf.timeslot) sf.currValidators
  let t :=
    if ofNat validatorCoreRotationPeriod ≤ sf.timeslot then
      sf.timeslot - ofNat validatorCoreRotationPeriod
    else 0
  let prevAssignments ←
    (if prevSlot sf.timeslot / ofNat epochLength = sf.timeslot / ofNat epochLength then
      assign (permute blake2 entropy.eta2 t) sf.currValidators
    else
      let cores := permute blake2 entropy.eta3 t
      if sf.prevValidators.length = 0 then assign cores sf.currValidators
      else assign cores sf.prevValidators)
  return (prevAssignments, assignments)

variable {blake2 entropy sf}

theorem assign_eq_some {cores : List UInt32} {validators : List Validator}
    {l : List GuarantorAssignment} (h : assign cores validators = some l) :
    l.map (·.validator) = validators := by
  unfold assign at h
  split_ifs at h with hlen
  cases h
  rw [map_map]
  exact map_snd_zip hlen

theorem toNat_prevSlot (slot : UInt32) :
    (prevSlot slot).toNat = slot.toNat - validatorCoreRotationPeriod := by
  unfold prevSlot
  split_ifs with h
  · exact UInt32.toNat_sub_of_le _ _ h
  · have hlt : slot.toNat < 4 := Nat.lt_of_not_le fun hle => h (le_iff_toNat_le.mpr hle)
    show 0 = slot.toNat - 4
    omega

/-- **The validators of the assignments.** The current rotation has the current
set; the previous one the current set within an epoch, and the previous set across
its start, unless that is empty. -/
theorem calculateAssignments_spec {slot : UInt32} {prev curr : List GuarantorAssignment}
    (h : calculateAssignments blake2 entropy sf slot = some (prev, curr)) :
    curr.map (·.validator) = sf.currValidators ∧ prev.map (·.validator) =
        if (slot.toNat - validatorCoreRotationPeriod) / epochLength = slot.toNat / epochLength ∨
            sf.prevValidators.length = 0 then sf.currValidators
        else sf.prevValidators := by
  obtain ⟨curr', hcurr, h⟩ := Option.bind_eq_some_iff.mp h
  obtain ⟨prev', hprev, h⟩ := Option.bind_eq_some_iff.mp h
  cases h
  refine ⟨assign_eq_some hcurr, ?_⟩
  have hepoch : prevSlot slot / ofNat epochLength = slot / ofNat epochLength ↔
      (slot.toNat - validatorCoreRotationPeriod) / epochLength = slot.toNat / epochLength := by
    rw [← UInt32.toNat_inj, UInt32.toNat_div, UInt32.toNat_div, toNat_prevSlot]
    rfl
  unfold previousAssignments at hprev
  split_ifs at hprev with hsame hempty
  · rw [if_pos (.inl (hepoch.mp hsame))]
    exact assign_eq_some hprev
  · rw [if_pos (.inr hempty)]
    exact assign_eq_some hprev
  · rw [if_neg (not_or.mpr ⟨fun h => hsame (hepoch.mpr h), hempty⟩)]
    exact assign_eq_some hprev

/-- The validators on each core, when every validator of a full set has one. -/
theorem assign_balanced (blake2 : Bytes → Hash) (e : Hash) (t : UInt32)
    {validators : List Validator} (h : validators.length = totalValidators) :
    ∃ l, assign (permute blake2 e t) validators = some l ∧ ∀ c : Fin totalCores,
      (l.map (·.coreIndex)).count (UInt16.ofNat c) = totalValidators / totalCores := by
  obtain ⟨n, hn, hperm⟩ := permute_perm_rotation blake2 e t
  have hlen : (permute blake2 e t).length = validators.length := by
    rw [hperm.length_eq, h]
    simp [rotation, initialCores]
  refine ⟨_, if_pos hlen.ge, fun c => ?_⟩
  have hcores : (((permute blake2 e t).zip validators).map fun p =>
      (⟨p.1.toUInt16, p.2⟩ : GuarantorAssignment)).map (·.coreIndex) =
        (permute blake2 e t).map (·.toUInt16) := by
    rw [map_map, ← map_fst_zip hlen.le, map_map]
    exact congrArg _ (by rw [map_fst_zip hlen.le])
  rw [hcores, (hperm.map _).count_eq]
  clear hperm hlen hcores
  revert n c
  decide

/-- **Balanced and consistent assignments.** A shuffle and a rotation leave every core
with `V / C` of the validators, for every entropy and slot; full validator sets are
assigned so in the current and in the previous rotation; and `RotateGuarantors` stores
what `CalculateAssignments` returns for the slot of the state. -/
theorem rotateGuarantors_balanced (blake2 : Bytes → Hash) (entropy : Entropy) (sf : SafroleState) :
    (∀ e t, ∀ c : Fin totalCores,
      (permute blake2 e t).count (UInt32.ofNat c) = totalValidators / totalCores) ∧
    (∀ slot, sf.currValidators.length = totalValidators →
      sf.prevValidators.length = 0 ∨ sf.prevValidators.length = totalValidators →
      ∃ prev curr, calculateAssignments blake2 entropy sf slot = some (prev, curr) ∧
        ∀ l ∈ [prev, curr], ∀ c : Fin totalCores,
          (l.map (·.coreIndex)).count (UInt16.ofNat c) = totalValidators / totalCores) ∧
    rotateGuarantors blake2 entropy sf = calculateAssignments blake2 entropy sf sf.timeslot := by
  refine ⟨count_permute blake2, fun slot hcurr hprev => ?_, ?_⟩
  · obtain ⟨curr, hc, hcount⟩ := assign_balanced blake2 entropy.eta2 slot hcurr
    obtain ⟨prev, hp, hcount'⟩ : ∃ l, previousAssignments blake2 entropy sf slot = some l ∧
        ∀ c : Fin totalCores,
          (l.map (·.coreIndex)).count (UInt16.ofNat c) = totalValidators / totalCores := by
      unfold previousAssignments
      split_ifs with hsame hempty
      · exact assign_balanced _ _ _ hcurr
      · exact assign_balanced _ _ _ hcurr
      · exact assign_balanced _ _ _ (hprev.resolve_left hempty)
    refine ⟨prev, curr, by simp [calculateAssignments, hc, hp], ?_⟩
    intro l hl
    rcases mem_pair.mp hl with rfl | rfl
    · exact hcount'
    · exact hcount
  · -- the copy `t` of the earlier slot is `prev_slot`
    rfl

/-- With six validators in both sets every core has three of them. -/
theorem rotateGuarantors_balanced_six : ∃ prev curr, rotateGuarantors (fun _ => 0) ⟨0, 1, 2, 3⟩
      ⟨0, 12, replicate 6 ⟨1⟩, replicate 6 ⟨2⟩⟩ = some (prev, curr) ∧
    ∀ l ∈ [prev, curr], ∀ c : Fin totalCores, (l.map (·.coreIndex)).count (UInt16.ofNat c) = 3 := by
  obtain ⟨-, hbalanced, hstored⟩ := rotateGuarantors_balanced (fun _ => 0) ⟨0, 1, 2, 3⟩
    ⟨0, 12, replicate 6 ⟨1⟩, replicate 6 ⟨2⟩⟩
  rw [hstored]
  exact hbalanced 12 rfl (.inr rfl)

end JamDuna.StateDB
