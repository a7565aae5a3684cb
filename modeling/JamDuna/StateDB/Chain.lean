/-
# Chains of blocks

A chain is a run of `ApplyStateTransitionFromBlock` (`statedb/applystatetransition.go`)
on accepted blocks. Beside the state it carries two lists that the code does not
keep: the packages reported so far and the packages accumulated so far.

The recent history masks a package while its report is on a core: a report leaves
its core after at most five slots, and the last eight blocks are kept
(`Remembered`). So a guarantee for a package that is pending on a core is refused
in every state of every chain (`pending_not_guaranteed`).
-/

import JamDuna.StateDB.BlockStages

namespace JamDuna.StateDB

open JamDuna.Types List

/-- The state of a chain, with the packages reported and accumulated on the way. -/
structure Chain where
  jam : JamState
  reported : List Hash
  accumulated : List Hash

/-- A chain that has not taken a block. -/
def Chain.start (j : JamState) : Chain := ⟨j, [], []⟩

/-- The chain after a block, if the block is accepted. -/
def Chain.extend (x : External) (c : Chain) (a : BlockOutcome × Block) : Option Chain :=
  match c.jam.applyStateTransitionFromBlock x a.1 a.2 with
  | .ok (jam, acc) =>
    some ⟨jam, c.reported ++ packages a.2.guarantees, c.accumulated ++ mapping acc⟩
  | .error _ => none

/-- The chain `c` accepts a block and becomes `c'`. -/
def ChainStep (x : External) (c : Chain) (a : BlockOutcome × Block) (c' : Chain) : Prop :=
  c.extend x a = some c'

/-- The packages of the reports on the cores. -/
def JamState.pendingPackages (j : JamState) : List Hash :=
  (finRange totalCores).filterMap fun c => (j.core c).map CoreState.package

variable {j j' : JamState} {blk : Block} {acc available : List WorkReport}

theorem mem_pendingPackages {p : Hash} :
    p ∈ j.pendingPackages ↔ ∃ c a, j.core c = some a ∧ a.package = p := by
  simp [JamState.pendingPackages]

/-- A state from which chains start: no report is on a core or in the queue, and
the recent history has its size. -/
structure Genesis (j : JamState) : Prop where
  cores : ∀ c, j.core c = none
  queue : j.readyQueue = []
  recent : j.recentBlocks.length ≤ recentHistorySize

theorem genesis_freshState : Genesis freshState where
  cores := by decide
  queue := by decide
  recent := by decide

variable {x : External} {c c' : Chain} {a : BlockOutcome × Block}

/-- **What a step of a chain does.** -/
theorem ChainStep.effect (h : ChainStep x c a c') :
    ∃ available acc, BlockEffect c.jam a.2 available c'.jam acc ∧
      c'.reported = c.reported ++ packages a.2.guarantees ∧
      c'.accumulated = c.accumulated ++ mapping acc := by
  unfold ChainStep Chain.extend at h
  split at h
  · rename_i jam acc hok
    cases h
    obtain ⟨available, heffect⟩ := blockEffect_of_ok hok
    exact ⟨available, acc, heffect, rfl, rfl⟩
  · cases h

/-- The recent blocks hold the package of every report on a core, and not deeper
than the age of the report. -/
structure Remembered (j : JamState) : Prop where
  length_le : j.reportedPackages.length ≤ recentHistorySize
  timeslot_le : ∀ c a, j.core c = some a → a.timeslot ≤ j.safroleState.timeslot
  mem_recent : ∀ c a, j.core c = some a → a.package ∈ (j.reportedPackages.reverse.take
      (j.safroleState.timeslot.toNat - a.timeslot.toNat + 1)).flatten

theorem Genesis.remembered (h : Genesis j) : Remembered j where
  length_le := by simpa [JamState.reportedPackages] using h.recent
  timeslot_le c a ha := by simp [h.cores] at ha
  mem_recent c a ha := by simp [h.cores] at ha

theorem Remembered.mem_flatten (h : Remembered j)
    (hp : p ∈ j.pendingPackages) : p ∈ j.reportedPackages.flatten := by
  obtain ⟨c, a, ha, rfl⟩ := mem_pendingPackages.mp hp
  obtain ⟨l, hl, hmem⟩ := List.mem_flatten.mp (h.mem_recent c a ha)
  exact List.mem_flatten.mpr ⟨l, mem_reverse.mp (mem_of_mem_take hl), hmem⟩

/-- **A valid block keeps pending packages in the recent history.** A report that
stays on its core is at most four slots old, so it is one of the last five blocks
that reported it. -/
theorem BlockEffect.remembered
    (e : BlockEffect j blk available j' acc) (h : Remembered j) : Remembered j' := by
  have hrecent := e.recent_spec h.length_le
  refine ⟨?_, fun c a ha => ?_, fun c a ha => ?_⟩
  · rw [← length_reverse, hrecent]
    exact length_take_le _ _
  · rw [e.timeslot_eq]
    rcases e.core_cases c a ha with ⟨hold, -, -⟩ | ⟨g, -, -, rfl⟩
    · exact UInt32.le_trans (h.timeslot_le c a hold) (UInt32.le_of_lt e.slot_lt)
    · exact UInt32.le_refl _
  · rw [hrecent, e.timeslot_eq]
    rcases e.core_cases c a ha with ⟨hold, -, hin⟩ | ⟨g, hg, -, rfl⟩
    · have hage := timeslot_lt_of_not_timedOut hin
      have hle := UInt32.le_iff_toNat_le.mp (h.timeslot_le c a hold)
      have hlt := UInt32.lt_iff_toNat_lt.mp e.slot_lt
      have hkeep : blk.slot.toNat - a.timeslot.toNat + 1 ≤ 8 := by
        change _ < _ + 5 at hage
        omega
      rw [take_take, Nat.min_eq_left hkeep, take_succ_cons, flatten_cons]
      refine mem_append_right _ ?_
      obtain ⟨l, hl, hmem⟩ := mem_flatten.mp (h.mem_recent c a hold)
      exact mem_flatten.mpr ⟨l, take_subset_take_left _ (by omega) hl, hmem⟩
    · rw [Nat.sub_self, take_take]
      change _ ∈ flatten [_]
      rw [flatten_singleton, mem_reportedItems]
      exact mem_map_of_mem hg

theorem ChainStep.remembered (h : ChainStep x c a c') (hc : Remembered c.jam) :
    Remembered c'.jam := by
  obtain ⟨available, acc, e, -, -⟩ := h.effect
  exact e.remembered hc

/-- No accepted block guarantees a package whose report is on a core. -/
theorem BlockEffect.pending_not_guaranteed (e : BlockEffect j blk available j' acc)
    (h : Remembered j) (hp : p ∈ packages blk.guarantees) : p ∉ j.pendingPackages :=
  fun hpending => e.not_recent p hp (h.mem_flatten hpending)

end JamDuna.StateDB
