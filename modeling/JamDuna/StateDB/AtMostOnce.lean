/-
# At-most-once accumulation

`checkAnyPrereq` of `statedb/guarantees.go` is to refuse a report whose package is
recent, pending on a core or waiting in the ready queue. The recent history does
its part and covers the cores with it, but of the ready queue the check reads only
the reports that the block is about to release (`GetReadyQueue`), so a package
that waits for another one can be reported again.

`Live` is the invariant that carries the result: the packages on the cores, in the
queue and in the list of accumulated packages are distinct and all reported. It
is kept by a block that guarantees no package of the queue (`CheckedStep`), and
then nothing is accumulated twice. `requeued` is a chain where a package of the
queue is guaranteed again, and accumulated twice.
-/

import JamDuna.StateDB.Chain

namespace JamDuna.StateDB

open JamDuna.Types JamDuna.Basis

/-- A package that a block reports again is in the recent history, pending on a
core or waiting in the ready queue. -/
def Chain.Windowed (c : Chain) (blk : Block) : Prop :=
  ∀ p ∈ packages blk.guarantees, p ∈ c.reported →
    p ∈ c.jam.reportedPackages.flatten ∨ p ∈ c.jam.pendingPackages ∨
      p ∈ queueHashes c.jam.readyQueue

/-- No guarantee of a block is for a package of the ready queue. -/
def Chain.QueueFree (c : Chain) (blk : Block) : Prop :=
  ∀ p ∈ packages blk.guarantees, p ∉ queueHashes c.jam.readyQueue

/-- A step of a chain by a block that reports a package again only within the
window. -/
def WindowedStep (x : External) (c : Chain) (a : BlockOutcome × Block) (c' : Chain) : Prop :=
  ChainStep x c a c' ∧ c.Windowed a.2

/-- A step by a block that, in addition, guarantees no package of the ready
queue. -/
def CheckedStep (x : External) (c : Chain) (a : BlockOutcome × Block) (c' : Chain) : Prop :=
  WindowedStep x c a c' ∧ c.QueueFree a.2

theorem Chain.windowed_iff (c : Chain) (blk : Block) :
    ((packages blk.guarantees).all fun p => decide (p ∈ c.reported →
      p ∈ c.jam.reportedPackages.flatten ∨ p ∈ c.jam.pendingPackages ∨
        p ∈ queueHashes c.jam.readyQueue)) = true ↔ c.Windowed blk := by
  rw [List.all_eq_true]
  exact forall₂_congr fun p _ => decide_eq_true_iff

instance Chain.decidableWindowed (c : Chain) (blk : Block) : Decidable (c.Windowed blk) :=
  decidable_of_iff _ (c.windowed_iff blk)

theorem Chain.queueFree_iff (c : Chain) (blk : Block) :
    ((packages blk.guarantees).all fun p => decide (p ∉ queueHashes c.jam.readyQueue)) = true ↔
      c.QueueFree blk := by
  rw [List.all_eq_true]
  exact forall₂_congr fun p _ => decide_eq_true_iff

instance Chain.decidableQueueFree (c : Chain) (blk : Block) : Decidable (c.QueueFree blk) :=
  decidable_of_iff _ (c.queueFree_iff blk)

section

open List

/-- The packages on the cores, in the ready queue and accumulated are distinct,
and all of them have been reported. -/
structure Live (c : Chain) : Prop where
  remembered : Remembered c.jam
  /-- Until the first block there is nothing in the queue. -/
  queue_zero : c.jam.safroleState.timeslot = 0 → c.jam.readyQueue = []
  pending_inj : ∀ i i' a a', c.jam.core i = some a → c.jam.core i' = some a' →
    a.package = a'.package → i = i'
  pending_fresh : ∀ p ∈ c.jam.pendingPackages, p ∉ queueHashes c.jam.readyQueue ∧ p ∉ c.accumulated
  queue_nodup : (queueHashes c.jam.readyQueue).Nodup
  queue_fresh : ∀ p ∈ queueHashes c.jam.readyQueue, p ∉ c.accumulated
  accumulated_nodup : c.accumulated.Nodup
  pending_reported : ∀ p ∈ c.jam.pendingPackages, p ∈ c.reported
  queue_reported : ∀ p ∈ queueHashes c.jam.readyQueue, p ∈ c.reported
  accumulated_reported : ∀ p ∈ c.accumulated, p ∈ c.reported

theorem Genesis.live {j : JamState} (h : Genesis j) : Live (.start j) := by
  have hpending : j.pendingPackages = [] := by
    refine eq_nil_iff_forall_not_mem.mpr fun p hp => ?_
    obtain ⟨i, a, ha, -⟩ := mem_pendingPackages.mp hp
    simp [h.cores] at ha
  refine ⟨h.remembered, fun _ => h.queue, fun i i' a a' ha => ?_, ?_, ?_, ?_, nodup_nil, ?_,
    ?_, ?_⟩
  · simp [Chain.start, h.cores] at ha
  all_goals simp [Chain.start, hpending, h.queue, queueHashes]

variable {c : Chain} {blk : Block} {available acc : List WorkReport} {j' : JamState}

/-- In a windowed block that guarantees no package of the queue, every package is
new. -/
theorem Live.guaranteed_new (h : Live c) (e : BlockEffect c.jam blk available j' acc)
    (hw : c.Windowed blk) (hq : c.QueueFree blk) {p : Hash} (hp : p ∈ packages blk.guarantees) :
    p ∉ c.reported := by
  intro hr
  rcases hw p hp hr with hrecent | hpending | hqueue
  · exact e.not_recent p hp hrecent
  · exact e.pending_not_guaranteed h.remembered hp hpending
  · exact hq p hp hqueue

theorem BlockEffect.available_pending (e : BlockEffect c.jam blk available j' acc) {p : Hash}
    (hp : p ∈ mapping available) : p ∈ c.jam.pendingPackages := by
  obtain ⟨w, hw, rfl⟩ := mem_map.mp hp
  obtain ⟨i, a, -, ha, rfl⟩ := e.available_mem w hw
  exact mem_pendingPackages.mpr ⟨i, a, ha, rfl⟩

section

variable (h : Live c) (e : BlockEffect c.jam blk available j' acc)
include h e

theorem Live.sources_nodup : (queueHashes c.jam.readyQueue ++ mapping available).Nodup :=
  nodup_append'.mpr ⟨h.queue_nodup, e.available_nodup h.pending_inj, fun p hp hav =>
    (h.pending_fresh p (e.available_pending hav)).1 hp⟩

/-- What is accumulated or queued by a block was reported and not accumulated
before. -/
theorem Live.source_fresh {p : Hash} (hp : p ∈ mapping available ∨ p ∈ queueHashes c.jam.readyQueue) :
    p ∈ c.reported ∧ p ∉ c.accumulated := by
  rcases hp with hp | hp
  · exact ⟨h.pending_reported p (e.available_pending hp),
      (h.pending_fresh p (e.available_pending hp)).2⟩
  · exact ⟨h.queue_reported p hp, h.queue_fresh p hp⟩

/-- A report that stays on its core is not among the sources of the block. -/
theorem Live.kept_not_source {i : Fin totalCores} {a : CoreState} (ha : c.jam.core i = some a)
    (ht : isThresholdReached blk.assurances i = false) :
    ¬(a.package ∈ mapping available ∨ a.package ∈ queueHashes c.jam.readyQueue) := by
  rintro (hp | hp)
  · obtain ⟨w, hw, hwa⟩ := mem_map.mp hp
    obtain ⟨i', a', ht', ha', rfl⟩ := e.available_mem w hw
    obtain rfl := h.pending_inj i' i a' a ha' ha hwa
    simp [ht] at ht'
  · exact (h.pending_fresh _ (mem_pendingPackages.mpr ⟨i, a, ha, rfl⟩)).1 hp

/-- The queue after a block has no package twice and only packages of the sources
that were not accumulated. -/
theorem Live.queue_after : (queueHashes j'.readyQueue).Nodup ∧ ∀ p ∈ queueHashes j'.readyQueue,
      p ∉ mapping acc ∧ (p ∈ mapping available ∨ p ∈ queueHashes c.jam.readyQueue) := by
  by_cases hzero : c.jam.safroleState.timeslot = 0
  · rw [e.queue_zero hzero, h.queue_zero hzero]
    exact ⟨nodup_nil, fun p hp => by simp [queueHashes] at hp⟩
  · exact e.queue_spec hzero (h.sources_nodup e)

/-- A package on a core after a block was there before and is not among the
sources, or is guaranteed by the block. -/
theorem Live.pending_after {p : Hash} (hp : p ∈ j'.pendingPackages) : (p ∈ c.jam.pendingPackages ∧
      ¬(p ∈ mapping available ∨ p ∈ queueHashes c.jam.readyQueue)) ∨
    p ∈ packages blk.guarantees := by
  obtain ⟨i, a, ha, rfl⟩ := mem_pendingPackages.mp hp
  rcases e.core_cases i a ha with ⟨hold, ht, -⟩ | ⟨g, hg, -, rfl⟩
  · exact .inl ⟨mem_pendingPackages.mpr ⟨i, a, hold, rfl⟩, h.kept_not_source e hold ht⟩
  · exact .inr (mem_map_of_mem hg)

/-- Two reports on cores after a block have the same package only on the same
core. -/
theorem Live.pending_inj_after (hnew : ∀ p ∈ packages blk.guarantees, p ∉ c.reported)
    {i i' : Fin totalCores} {a a' : CoreState} (ha : j'.core i = some a)
    (ha' : j'.core i' = some a') (hp : a.package = a'.package) : i = i' := by
  have hold_reported : ∀ i a, c.jam.core i = some a → a.package ∈ c.reported := fun i a ha =>
    h.pending_reported _ (mem_pendingPackages.mpr ⟨i, a, ha, rfl⟩)
  rcases e.core_cases i a ha with ⟨hold, -, -⟩ | ⟨g, hg, hi, rfl⟩ <;>
    rcases e.core_cases i' a' ha' with ⟨hold', -, -⟩ | ⟨g', hg', hi', rfl⟩
  · exact h.pending_inj i i' a a' hold hold' hp
  · have hmem := hold_reported i a hold
    rw [hp] at hmem
    exact absurd hmem (hnew _ (mem_map_of_mem hg'))
  · have hmem := hold_reported i' a' hold'
    rw [← hp] at hmem
    exact absurd hmem (hnew _ (mem_map_of_mem hg))
  · obtain rfl : g = g' := inj_on_of_nodup_map e.packages_nodup hg hg' hp
    exact Fin.ext (hi.trans hi'.symm)

end

end

variable {x : External}

/-- **A checked step keeps the packages distinct.** -/
theorem CheckedStep.live {c c' : Chain} {a : BlockOutcome × Block}
    (hs : CheckedStep x c a c') (h : Live c) : Live c' := by
  obtain ⟨⟨hstep, hw⟩, hq⟩ := hs
  obtain ⟨available, acc, e, hrep, hacc⟩ := hstep.effect
  have hnew : ∀ p ∈ packages a.2.guarantees, p ∉ c.reported :=
    fun p hp => h.guaranteed_new e hw hq hp
  have hafter := h.queue_after e
  obtain ⟨hacc_nodup, hacc_source⟩ := e.acc_spec (h.sources_nodup e)
  -- a package on a core afterwards is neither a source of the block nor accumulated before
  have hpending : ∀ p ∈ c'.jam.pendingPackages,
      ¬(p ∈ mapping available ∨ p ∈ queueHashes c.jam.readyQueue) ∧ p ∉ c.accumulated ∧
        p ∈ c'.reported := by
    intro p hp
    rw [hrep]
    rcases h.pending_after e hp with ⟨hold, hsource⟩ | hguaranteed
    · exact ⟨hsource, (h.pending_fresh p hold).2,
        List.mem_append_left _ (h.pending_reported p hold)⟩
    · refine ⟨fun hs => hnew p hguaranteed (h.source_fresh e hs).1, fun hacc => ?_,
        List.mem_append_right _ hguaranteed⟩
      exact hnew p hguaranteed (h.accumulated_reported p hacc)
  refine ⟨hstep.remembered h.remembered, fun hzero => ?_,
    fun i i' b b' hb hb' hp => h.pending_inj_after e hnew hb hb' hp, fun p hp => ?_, hafter.1,
    fun p hp => ?_, ?_, fun p hp => (hpending p hp).2.2, fun p hp => ?_, fun p hp => ?_⟩
  · rw [e.timeslot_eq] at hzero
    exact absurd (hzero ▸ e.slot_lt) (by simp)
  · obtain ⟨hsource, hfresh, -⟩ := hpending p hp
    refine ⟨fun hqueue => hsource (hafter.2 p hqueue).2, ?_⟩
    rw [hacc, List.mem_append, not_or]
    exact ⟨hfresh, fun hm => hsource (hacc_source p hm)⟩
  · rw [hacc, List.mem_append, not_or]
    exact ⟨(h.source_fresh e (hafter.2 p hp).2).2, (hafter.2 p hp).1⟩
  · rw [hacc, List.nodup_append']
    exact ⟨h.accumulated_nodup, hacc_nodup, fun p hold hm =>
      (h.source_fresh e (hacc_source p hm)).2 hold⟩
  · rw [hrep]
    exact List.mem_append_left _ (h.source_fresh e (hafter.2 p hp).2).1
  · rw [hrep]
    rw [hacc, List.mem_append] at hp
    rcases hp with hp | hp
    · exact List.mem_append_left _ (h.accumulated_reported p hp)
    · exact List.mem_append_left _ (h.source_fresh e (hacc_source p hp)).1

/-- **At most once, when the queue is respected.** In every chain a block that
guarantees a package pending on a core is refused. In a chain whose blocks report
a package again only within the window, and never one of the ready queue, no
package is accumulated twice. -/
theorem accumulation_atMostOnce (x : External) {j : JamState} (hj : Genesis j) :
    (∀ as c, Run (ChainStep x) (.start j) as c → ∀ o blk r,
      c.jam.applyStateTransitionFromBlock x o blk = .ok r →
        ∀ g ∈ blk.guarantees, g.report.workPackageHash ∉ c.jam.pendingPackages) ∧
      ∀ as c, Run (CheckedStep x) (.start j) as c → c.accumulated.Nodup := by
  constructor
  · intro as c hrun o blk r hok g hg
    have hremembered : Remembered c.jam :=
      hrun.preserves (P := fun c => Remembered c.jam) (fun _ _ _ hs h => hs.remembered h)
        hj.remembered
    obtain ⟨available, e⟩ := blockEffect_of_ok hok
    exact e.pending_not_guaranteed hremembered (List.mem_map_of_mem hg)
  · intro as c hrun
    exact (hrun.preserves (P := Live) (fun _ _ _ hs h => hs.live h) hj.live).accumulated_nodup

/-- Signatures that always verify, and the package of a report as its hash. -/
def trusting : External := ⟨fun _ _ _ => true, fun _ => 0, WorkReport.workPackageHash⟩

/-- The validators 0 to 2 guarantee for core 0, the others for core 1. -/
def splitAssignment : List GuarantorAssignment :=
  (List.range totalValidators).map fun k => ⟨if k < 3 then 0 else 1, ⟨Fin.ofNat _ k⟩⟩

/-- What the rest of the transition contributes to the blocks of the examples: one
authorizer for each core and enough gas for ten reports. -/
def plainOutcome : BlockOutcome where
  getService := fun _ => .ok none
  prevAssignments := splitAssignment
  assignments := splitAssignment
  currValidators := freshState.safroleState.currValidators
  prevValidators := freshState.safroleState.prevValidators
  numAccumulations := 10
  superPeak := 0
  authorizationsPool := Vector.replicate _ [0]

/-- A guarantee by two validators of the report's core, anchored in the block
before. -/
def plainGuarantee (slot : UInt32) (w : WorkReport) : Guarantee where
  report := { w with
    refineContext := { w.refineContext with anchor := Fin.ofNat _ (slot.toNat - 1) } }
  slot := slot
  signatures := [⟨3 * w.coreIndex.toUInt16, zeroSignature⟩,
    ⟨3 * w.coreIndex.toUInt16 + 1, zeroSignature⟩]

/-- The block of a slot, in a chain with a block in every slot: five validators
assure the cores in `cores`, and the reports `ws` are guaranteed. -/
def plainBlock (slot : UInt32) (cores : UInt8) (ws : List WorkReport) : BlockOutcome × Block :=
  (plainOutcome,
    { slot := slot
      headerHash := Fin.ofNat _ slot.toNat
      parentHeaderHash := Fin.ofNat _ (slot.toNat - 1)
      parentStateRoot := 0
      offendersMark := none
      disputes := ⟨[], [], []⟩
      assurances := if cores = 0 then [] else (List.range validatorsSuperMajority).map fun v =>
        ⟨Fin.ofNat _ (slot.toNat - 1), #v[cores], UInt16.ofNat v, zeroSignature⟩
      guarantees := ws.map (plainGuarantee slot) })

/-- A step of a chain when the block is windowed. -/
def Chain.extendWindowed (x : External) (c : Chain) (a : BlockOutcome × Block) : Option Chain :=
  if c.Windowed a.2 then c.extend x a else none

theorem windowedStep_of_extendWindowed (c : Chain) (a : BlockOutcome × Block)
    (c' : Chain) (h : c.extendWindowed x a = some c') : WindowedStep x c a c' := by
  unfold Chain.extendWindowed at h
  split_ifs at h with hw
  exact ⟨h, hw⟩

/-- A step of a chain when the block is windowed and keeps off the queue. -/
def Chain.extendChecked (x : External) (c : Chain) (a : BlockOutcome × Block) : Option Chain :=
  if c.QueueFree a.2 then c.extendWindowed x a else none

theorem checkedStep_of_extendChecked (c : Chain) (a : BlockOutcome × Block)
    (c' : Chain) (h : c.extendChecked x a = some c') : CheckedStep x c a c' := by
  unfold Chain.extendChecked at h
  split_ifs at h with hq
  exact ⟨windowedStep_of_extendWindowed c a c' h, hq⟩

/-- Package 1 is reported and assured, and so is package 2, which depends on it. -/
def orderly : List (BlockOutcome × Block) :=
  [plainBlock 1 0 [], plainBlock 2 0 [plainReport 1 0 [], plainReport 2 1 [1]],
    plainBlock 3 2 [], plainBlock 4 1 []]

theorem accumulation_atMostOnce_orderly :
    ∃ c, Run (CheckedStep trusting) (.start freshState) orderly c ∧ c.accumulated = [1, 2] ∧
      c.accumulated.Nodup := by
  obtain ⟨c, hc, hacc⟩ :
      ∃ c, orderly.foldlM (Chain.extendChecked trusting) (.start freshState) = some c ∧
        c.accumulated = [1, 2] := by decide +kernel
  have hrun := Run.of_foldlM checkedStep_of_extendChecked hc
  exact ⟨c, hrun, hacc, (accumulation_atMostOnce trusting genesis_freshState).2 _ c hrun⟩

/-- The packages 1 and 2 depend on each other and wait in the ready queue from
slot 3 on. In slot 11 their first reports have left the recent history and they
are reported again, 1 without its dependency. When 2 and then 1 are assured, the
end of the wait for 1 releases both reports of 2. -/
def requeued : List (BlockOutcome × Block) :=
  [plainBlock 1 0 [], plainBlock 2 0 [plainReport 1 0 [2], plainReport 2 1 [1]],
    plainBlock 3 3 [], plainBlock 4 0 [], plainBlock 5 0 [], plainBlock 6 0 [],
    plainBlock 7 0 [], plainBlock 8 0 [], plainBlock 9 0 [], plainBlock 10 0 [],
    plainBlock 11 0 [plainReport 1 0 [], plainReport 2 1 [1]],
    plainBlock 12 2 [], plainBlock 13 1 []]

theorem requeued_accumulatedTwice :
    Genesis freshState ∧ ∃ c, Run (WindowedStep trusting) (.start freshState) requeued c ∧
      c.accumulated = [1, 2, 2] ∧ ¬ c.accumulated.Nodup := by
  obtain ⟨c, hc, hacc⟩ :
      ∃ c, requeued.foldlM (Chain.extendWindowed trusting) (.start freshState) = some c ∧
        c.accumulated = [1, 2, 2] := by decide +kernel
  have hrun := Run.of_foldlM windowedStep_of_extendWindowed hc
  exact ⟨genesis_freshState, c, hrun, hacc, by rw [hacc]; decide⟩

end JamDuna.StateDB
