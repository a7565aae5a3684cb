/-
# What a valid block does to cores, queue and history

One lemma for each part of `ApplyStateTransitionFromBlock`, about the components
that decide what is accumulated: the reports on the cores, the ready queue and
the recent blocks. `BlockEffect` puts them together; `blockEffect_of_ok` is the
inversion of the whole transition, and the results about chains use it and do
not open the transition again.
-/

import JamDuna.StateDB.Block
import JamDuna.StateDB.DisputeRuns
import JamDuna.StateDB.ReadyQueue

namespace JamDuna.StateDB

open JamDuna.Types JamDuna.Basis Option JamState List

/-- The package of the report on a core. -/
def CoreState.package (a : CoreState) : Hash := a.workReport.workPackageHash

/-- The packages reported by the guarantees of a block. -/
def packages (gs : List Guarantee) : List Hash := gs.map (·.report.workPackageHash)

theorem clearCore_eq (reportHash : WorkReport → Hash) (results : List VerdictResult)
    (core : Option CoreState) :
    clearCore reportHash results core = core ∨ clearCore reportHash results core = none := by
  cases core with
  | none => exact .inl rfl
  | some a =>
    have hfold := foldl_ite_const (fun h : VerdictResult =>
      reportHash a.workReport = h.workReportHash ∧ h.positveCount < totalValidators * 2 / 3)
      none (some a) results
    rw [clearCore, hfold]
    split_ifs
    · exact .inr rfl
    · exact .inl rfl

/-- Everything but the cores stays. -/
structure CoresOnly (j j' : JamState) : Prop where
  safroleState : j'.safroleState = j.safroleState
  recentBlocks : j'.recentBlocks = j.recentBlocks
  accumulationQueue : j'.accumulationQueue = j.accumulationQueue
  accumulationHistory : j'.accumulationHistory = j.accumulationHistory

/-- The disputes of a block only take reports from cores. -/
theorem applyDisputes_spec {x : External} {j d : JamState} {blk : Block}
    (h : j.applyDisputes x blk = .ok d) :
    CoresOnly j d ∧ ∀ c a, d.core c = some a → j.core c = some a := by
  unfold applyDisputes at h
  split_ifs at h
  · obtain ⟨r, -, rfl⟩ := applyStateTransitionDispute_accepts (mapError_eq_ok.mp h)
    refine ⟨⟨rfl, rfl, rfl, rfl⟩, fun c a ha => ?_⟩
    have hcore : (j.processDispute x.reportHash r blk.disputes.culprit blk.disputes.fault).core c =
        clearCore x.reportHash r (j.core c) := by
      simp [core_eq, processDispute, clearReportAvailabilityAssignments, updateOffender, sortSet]
    rw [hcore] at ha
    rcases clearCore_eq x.reportHash r (j.core c) with heq | heq
    · rw [← heq, ha]
    · rw [heq] at ha
      cases ha
  · cases h
    exact ⟨⟨rfl, rfl, rfl, rfl⟩, fun c a ha => ha⟩

section

variable {assurances : List Assurance}

variable {t : UInt32} {a : CoreState}

/-- With distinct packages on the cores, the available packages are distinct. -/
theorem mapping_availableReports_nodup {j : JamState}
    (hinj : ∀ c c' a a', j.core c = some a → j.core c' = some a' →
      a.package = a'.package → c = c') : (mapping (j.availableReports assurances)).Nodup := by
  rw [mapping, availableReports, map_filterMap]
  refine List.Nodup.filterMap (fun c c' p hc hc' => ?_) (nodup_finRange _)
  have hcore : ∀ c, p ∈ Option.map (fun w : WorkReport => w.workPackageHash)
      (if isThresholdReached assurances c = true then
        Option.map (fun a : CoreState => a.workReport) (j.core c) else none) →
      ∃ a, j.core c = some a ∧ a.package = p := by
    intro c hp
    rw [mem_def] at hp
    split_ifs at hp
    · obtain ⟨w, hw, rfl⟩ := map_eq_some_iff.mp hp
      obtain ⟨a, ha, rfl⟩ := Option.map_eq_some_iff.mp hw
      exact ⟨a, ha, rfl⟩
    · cases hp
  obtain ⟨a, ha, hap⟩ := hcore c hc
  obtain ⟨a', ha', hap'⟩ := hcore c' hc'
  exact hinj c c' a a' ha ha' (hap.trans hap'.symm)

/-- A report that has not timed out is less than `U` slots old. -/
theorem timeslot_lt_of_not_timedOut (h : isTimedOut t a = false) :
    t.toNat < a.timeslot.toNat + unavailableWorkReplacementPeriod := by
  have hlt : t.toNat < (a.timeslot + 5).toNat := by
    have hnot : ¬ (a.timeslot + UInt32.ofNat unavailableWorkReplacementPeriod ≤ t) := by
      simpa [isTimedOut] using h
    exact Nat.not_le.mp fun hc => hnot (UInt32.le_iff_toNat_le.mpr hc)
  have hmod : (a.timeslot + 5).toNat = (a.timeslot.toNat + 5) % 2 ^ 32 := UInt32.toNat_add _ _
  rw [hmod] at hlt
  exact lt_of_lt_of_le hlt (Nat.mod_le _ _)

end

section

variable {ed25519Verify : Ed25519Key → Bytes → Ed25519Signature → Bool}
  {reportHash : WorkReport → Hash} {ctx : GuaranteeContext} {j : JamState}

/-- The packages reported in the recent blocks, block by block. -/
def JamState.reportedPackages (j : JamState) : List (List Hash) :=
  j.recentBlocks.map fun b => b.reported.map (·.workPackageHash)

theorem recentReported_packages (j : JamState) :
    j.recentReported.map (·.workPackageHash) = j.reportedPackages.flatten := by
  simp [recentReported, reportedPackages, List.flatMap, map_flatten, Function.comp_def]

/-- A verified guarantee is not about a package of the recent blocks. -/
theorem verifyGuarantee_not_recent {g : Guarantee}
    (h : j.verifyGuarantee ed25519Verify reportHash ctx g = .ok ()) :
    g.report.workPackageHash ∉ j.reportedPackages.flatten := by
  obtain ⟨-, h⟩ := check_bind_eq_ok.mp h
  obtain ⟨-, h⟩ := check_bind_eq_ok.mp h
  split_ifs at h with hcore
  obtain ⟨-, h⟩ := check_bind_eq_ok.mp h
  obtain ⟨hblock, -⟩ := check_bind_eq_ok.mp h
  obtain ⟨-, hblock⟩ := check_bind_eq_ok.mp hblock
  obtain ⟨-, hblock⟩ := check_bind_eq_ok.mp hblock
  obtain ⟨hprereq, -⟩ := check_bind_eq_ok.mp hblock
  obtain ⟨-, hprereq⟩ := check_bind_eq_ok.mp hprereq
  obtain ⟨hrecent, -⟩ := check_bind_eq_ok.mp hprereq
  rw [← recentReported_packages]
  rw [failIf_eq_ok] at hrecent
  simpa using hrecent

variable {gs : List Guarantee}

theorem checkLength_eq_ok : checkLength gs = .ok () ↔ (packages gs).Nodup := by
  induction gs with
  | nil => simp [checkLength, packages]
  | cons g gs ih =>
    have hcons : packages (g :: gs) = g.report.workPackageHash :: packages gs := rfl
    rw [checkLength, check_bind_eq_ok, ih, hcons, nodup_cons, failIf_eq_ok]
    exact and_congr (by simp [packages]) Iff.rfl

theorem core_assignReport (j : JamState) (g : Guarantee) (c : Fin totalCores) :
    (j.assignReport g).core c = if c.val = g.report.coreIndex.toNat ∧ j.core c = none then
        some ⟨g.report, j.safroleState.timeslot⟩ else j.core c := by
  rw [core_eq, assignReport]
  by_cases h : c.val = g.report.coreIndex.toNat ∧ j.core c = none
  · rw [if_pos h]
    simpa using fun hne => absurd h.2 (hne h.1)
  · rw [if_neg h]
    simpa using fun hc hnone => absurd ⟨hc, hnone⟩ h

variable {j' : JamState} {keys : List Ed25519Key}

/-- Processing guarantees only adds reports to free cores. -/
theorem processGuarantees_spec {prev : List GuarantorAssignment}
    (h : j.processGuarantees prev gs = .ok (j', keys)) :
    CoresOnly j j' ∧ ∀ c a, j'.core c = some a → j.core c = some a ∨
      ∃ g ∈ gs, c.val = g.report.coreIndex.toNat ∧ a = ⟨g.report, j.safroleState.timeslot⟩ := by
  induction gs generalizing j keys with
  | nil =>
    cases h
    exact ⟨⟨rfl, rfl, rfl, rfl⟩, fun c a ha => .inl ha⟩
  | cons g gs ih =>
    obtain ⟨keys', -, h⟩ := bind_eq_ok.mp h
    obtain ⟨⟨i, reports⟩, hi, h⟩ := bind_eq_ok.mp h
    cases h
    obtain ⟨⟨hs, hb, hq, hh⟩, hcore⟩ := ih hi
    refine ⟨⟨hs, hb, hq, hh⟩, fun c a ha => ?_⟩
    rcases hcore c a ha with hold | ⟨g', hg', hc, rfl⟩
    · rw [core_assignReport] at hold
      split_ifs at hold with hfree
      · exact .inr ⟨g, .head _, hfree.1, (some.inj hold).symm⟩
      · exact .inl hold
    · exact .inr ⟨g', mem_cons_of_mem g hg', hc, rfl⟩

/-- **What the guarantees of a valid block do.** Their packages are distinct and
not in the recent blocks, and the cores only gain reports of the block. -/
theorem applyGuarantees_spec
    (h : j.applyGuarantees ed25519Verify reportHash ctx gs = .ok (j', keys)) :
    (∀ p ∈ packages gs, p ∉ j.reportedPackages.flatten) ∧ (packages gs).Nodup ∧
      CoresOnly j j' ∧ ∀ c a, j'.core c = some a → j.core c = some a ∨
        ∃ g ∈ gs, c.val = g.report.coreIndex.toNat ∧ a = ⟨g.report, j.safroleState.timeslot⟩ := by
  obtain ⟨hverify, h⟩ := check_bind_eq_ok.mp h
  obtain ⟨-, h⟩ := check_bind_eq_ok.mp h
  obtain ⟨hlength, h⟩ := check_bind_eq_ok.mp h
  obtain ⟨-, h⟩ := check_bind_eq_ok.mp h
  refine ⟨fun p hp => ?_, checkLength_eq_ok.mp hlength, processGuarantees_spec h⟩
  obtain ⟨g, hg, rfl⟩ := mem_map.mp hp
  exact verifyGuarantee_not_recent (forM_eq_ok.mp hverify g hg)

end

theorem reportedPackages_dagga (j : JamState) (root : Hash) :
    (j.applyStateRecentHistoryDagga root).reportedPackages = j.reportedPackages := by
  unfold reportedPackages applyStateRecentHistoryDagga
  refine ext_getElem? fun i => ?_
  simp only [getElem?_map, getElem?_modify]
  split_ifs <;> cases j.recentBlocks[i]? <;> rfl

theorem mem_reportedItems {gs : List Guarantee} {p : Hash} :
    p ∈ (reportedItems gs).map (·.workPackageHash) ↔ p ∈ packages gs := by
  simp only [reportedItems, packages, List.mem_map, mem_insertionSort]
  constructor
  · rintro ⟨item, ⟨g, hg, rfl⟩, rfl⟩
    exact ⟨g, hg, rfl⟩
  · rintro ⟨g, hg, rfl⟩
    exact ⟨_, ⟨g, hg, rfl⟩, rfl⟩

/-- The recent blocks, newest first: the new block goes on top and at most eight
are kept. -/
theorem reportedPackages_applyStateRecentHistory {j : JamState} {blk : Block} {superPeak : Hash}
    (h : j.reportedPackages.length ≤ recentHistorySize) :
    (j.applyStateRecentHistory blk superPeak).reportedPackages.reverse =
      ((reportedItems blk.guarantees).map (·.workPackageHash) ::
        j.reportedPackages.reverse).take recentHistorySize := by
  have hlen : j.recentBlocks.length ≤ 8 := by
    simpa [reportedPackages] using h
  unfold applyStateRecentHistory reportedPackages
  simp only [length_append, length_singleton]
  split_ifs with hfull
  · have height : j.recentBlocks.length = 8 := by
      have : 8 < j.recentBlocks.length + 1 := hfull
      omega
    rw [take_of_length_le (by simp [height]), map_drop, map_append, reverse_drop]
    simp [height]
  · have hroom : j.recentBlocks.length + 1 ≤ 8 := not_lt.mp hfull
    rw [take_of_length_le (by simpa using hroom)]
    simp

section

variable {g : JamState} {o : BlockOutcome} {blk : Block} {available : List WorkReport}
  {oldTimeslot : UInt32}

theorem queueHashes_queuedExecution_sublist (j : JamState) (ws : List WorkReport) :
    (queueHashes (j.queuedExecution ws)).Sublist (mapping ws) := by
  refine (queueEditing_hashes_sublist _ _).trans ?_
  rw [queueHashes, List.map_map]
  exact filter_sublist.map _

/-- The packages accumulated in a block come from the available reports and the
ready queue, and are distinct when those are. -/
theorem accumulated_finishBlock (h : (queueHashes g.readyQueue ++ mapping available).Nodup) :
    (mapping (g.finishBlock o blk available oldTimeslot).2).Nodup ∧
      ∀ p ∈ mapping (g.finishBlock o blk available oldTimeslot).2,
        p ∈ mapping available ∨ p ∈ queueHashes g.readyQueue := by
  have hsub : (mapping (g.finishBlock o blk available oldTimeslot).2).Sublist
      (mapping (g.accumulatableSequence blk.slot available)) := (take_sublist _ _).map _
  refine ⟨(sequence_nodup (sequence_hashes_nodup blk.slot h)).sublist hsub, fun p hp => ?_⟩
  obtain ⟨w, hw, rfl⟩ := mem_map.mp (hsub.subset hp)
  rcases mem_accumulatableSequence hw with hw | ⟨e, he, rfl⟩
  · exact .inl (mem_map_of_mem hw)
  · exact .inr (mem_map_of_mem he)

/-- The ready queue after a block, when the previous slot was not 0. -/
theorem readyQueue_finishBlock (hslot : oldTimeslot ≠ 0)
    (hle : oldTimeslot ≤ g.safroleState.timeslot)
    (h : (queueHashes g.readyQueue ++ mapping available).Nodup) :
    (queueHashes (g.finishBlock o blk available oldTimeslot).1.readyQueue).Nodup ∧
      ∀ p ∈ queueHashes (g.finishBlock o blk available oldTimeslot).1.readyQueue,
        p ∉ mapping (g.finishBlock o blk available oldTimeslot).2 ∧
          (p ∈ mapping available ∨ p ∈ queueHashes g.readyQueue) := by
  have hnew := queueHashes_queuedExecution_sublist g available
  have hnodup : (queueHashes (g.queuedExecution available) ++ queueHashes g.readyQueue).Nodup :=
    (perm_append_comm.nodup_iff.mp h).sublist (hnew.append (List.Sublist.refl _))
  set wStar := g.accumulatableSequence blk.slot available with hwStar
  have hspec := readyQueue_updateReadyQueuedReport
    (j := g.updateLatestHistory wStar (min o.numAccumulations wStar.length)) hslot hle hnodup
  refine ⟨hspec.1, fun p hp => ?_⟩
  obtain ⟨hout, hfrom⟩ := hspec.2 p hp
  rw [mem_back_updateLatestHistory, take_eq_take_min] at hout
  refine ⟨?_, hfrom.imp_left fun hm => hnew.subset hm⟩
  have hacc : (g.finishBlock o blk available oldTimeslot).2 = wStar.take o.numAccumulations := rfl
  rw [hacc, take_eq_take_min]
  simpa using hout

/-- When the previous slot was 0 the queue is left alone. -/
theorem readyQueue_finishBlock_zero :
    (g.finishBlock o blk available 0).1.readyQueue = g.readyQueue := by
  simp [finishBlock, applyStateTransitionAccumulation,
    updateReadyQueuedReport, applyStateRecentHistory, readyQueue,
    updateLatestHistory]

/-- The cores and the Safrole state are those after the guarantees. -/
theorem finishBlock_frame (g : JamState) (o : BlockOutcome) (blk : Block)
    (available : List WorkReport) (oldTimeslot : UInt32) :
    (g.finishBlock o blk available oldTimeslot).1.availabilityAssignments =
        g.availabilityAssignments ∧
      (g.finishBlock o blk available oldTimeslot).1.safroleState = g.safroleState ∧
      (g.finishBlock o blk available oldTimeslot).1.reportedPackages =
        (g.applyStateRecentHistory blk o.superPeak).reportedPackages := by
  unfold finishBlock applyStateTransitionAccumulation
  simp only
  rw [updateReadyQueuedReport_frame]
  exact ⟨rfl, rfl, rfl⟩

end

/-- What a valid block does to the components that decide what is accumulated:
`available` are the reports taken from the cores, `acc` the ones accumulated. -/
structure BlockEffect (j : JamState) (blk : Block) (available : List WorkReport) (j' : JamState)
    (acc : List WorkReport) : Prop where
  slot_lt : j.safroleState.timeslot < blk.slot
  timeslot_eq : j'.safroleState.timeslot = blk.slot
  not_recent : ∀ p ∈ packages blk.guarantees, p ∉ j.reportedPackages.flatten
  packages_nodup : (packages blk.guarantees).Nodup
  available_mem : ∀ w ∈ available, ∃ c a, isThresholdReached blk.assurances c = true ∧
    j.core c = some a ∧ a.workReport = w
  available_nodup : (∀ c c' a a', j.core c = some a → j.core c' = some a' →
    a.package = a'.package → c = c') → (mapping available).Nodup
  core_cases : ∀ c a, j'.core c = some a →
    (j.core c = some a ∧ isThresholdReached blk.assurances c = false ∧
      isTimedOut blk.slot a = false) ∨
    ∃ g ∈ blk.guarantees, c.val = g.report.coreIndex.toNat ∧ a = ⟨g.report, blk.slot⟩
  acc_spec : (queueHashes j.readyQueue ++ mapping available).Nodup → (mapping acc).Nodup ∧
      ∀ p ∈ mapping acc, p ∈ mapping available ∨ p ∈ queueHashes j.readyQueue
  queue_zero : j.safroleState.timeslot = 0 → j'.readyQueue = j.readyQueue
  queue_spec : j.safroleState.timeslot ≠ 0 → (queueHashes j.readyQueue ++ mapping available).Nodup →
    (queueHashes j'.readyQueue).Nodup ∧ ∀ p ∈ queueHashes j'.readyQueue, p ∉ mapping acc ∧
        (p ∈ mapping available ∨ p ∈ queueHashes j.readyQueue)
  recent_spec : j.reportedPackages.length ≤ recentHistorySize → j'.reportedPackages.reverse =
      ((reportedItems blk.guarantees).map (·.workPackageHash) ::
        j.reportedPackages.reverse).take recentHistorySize

/-- **The inversion of the block transition.** -/
theorem blockEffect_of_ok {x : External} {j j' : JamState} {o : BlockOutcome} {blk : Block}
    {acc : List WorkReport} (h : j.applyStateTransitionFromBlock x o blk = .ok (j', acc)) :
    ∃ available, BlockEffect j blk available j' acc := by
  obtain ⟨-, h⟩ := check_bind_eq_ok.mp h
  obtain ⟨d, hd, h⟩ := bind_eq_ok.mp h
  obtain ⟨-, h⟩ := check_bind_eq_ok.mp h
  obtain ⟨hslot, h⟩ := check_bind_eq_ok.mp h
  obtain ⟨⟨g, keys⟩, hg, h⟩ := bind_eq_ok.mp h
  set available := d.availableReports blk.assurances
  have hfinish : g.finishBlock o blk available j.safroleState.timeslot = (j', acc) :=
    Except.ok.inj h
  obtain ⟨⟨hsd, hbd, hqd, hhd⟩, hcd⟩ := applyDisputes_spec hd
  obtain ⟨hnot, hnodup, ⟨hsg, hbg, hqg, hhg⟩, hcg⟩ := applyGuarantees_spec (mapError_eq_ok.mp hg)
  have hlt : j.safroleState.timeslot < blk.slot := by
    have hslot' : decide (blk.slot ≤ d.safroleState.timeslot) = false := failIf_eq_ok.mp hslot
    rw [hsd] at hslot'
    exact UInt32.not_le.mp (of_decide_eq_false hslot')
  have hj' : j' = (g.finishBlock o blk available j.safroleState.timeslot).1 := by rw [hfinish]
  have hacc : acc = (g.finishBlock o blk available j.safroleState.timeslot).2 := by rw [hfinish]
  obtain ⟨hcores, hsafrole, hrecent⟩ := finishBlock_frame g o blk available j.safroleState.timeslot
  rw [← hj'] at hcores hsafrole hrecent
  have hqueue : g.readyQueue = j.readyQueue := by
    unfold readyQueue
    rw [hqg]
    exact congrArg (fun q => q.toList.flatten) hqd
  have hreported : ((d.computeAvailabilityAssignments blk.assurances blk.slot).withSafrole o
      blk.slot).reportedPackages = j.reportedPackages := by
    rw [← reportedPackages_dagga j blk.parentStateRoot]
    exact congrArg (List.map fun b : HistoryState => b.reported.map (·.workPackageHash)) hbd
  have htime : g.safroleState.timeslot = blk.slot := by rw [hsg]; rfl
  refine ⟨available, hlt, by rw [hsafrole, htime], ?_, hnodup, ?_, ?_, ?_, ?_, ?_, ?_, ?_⟩
  · rw [← hreported]
    exact hnot
  · intro w hw
    obtain ⟨c, a, ht, ha, hw⟩ := mem_availableReports.mp hw
    exact ⟨c, a, ht, hcd c a ha, hw⟩
  · intro hinj
    exact mapping_availableReports_nodup fun c c' a a' ha ha' hp =>
      hinj c c' a a' (hcd c a ha) (hcd c' a' ha') hp
  · intro c a ha
    have hga : g.core c = some a := by
      rw [← ha]
      exact congrArg (·.get c) hcores.symm
    rcases hcg c a hga with hold | ⟨gu, hgu, hc, rfl⟩
    · obtain ⟨hdc, ht, hto⟩ := core_computeAvailabilityAssignments_eq_some.mp hold
      exact .inl ⟨hcd c a hdc, ht, hto⟩
    · exact .inr ⟨gu, hgu, hc, rfl⟩
  · intro hn
    rw [← hqueue] at hn ⊢
    rw [hacc]
    exact accumulated_finishBlock hn
  · intro hzero
    rw [hj', hzero, readyQueue_finishBlock_zero, hqueue]
  · intro hne hn
    rw [← hqueue] at hn ⊢
    rw [hj', hacc]
    refine readyQueue_finishBlock hne ?_ hn
    rw [htime]
    exact UInt32.le_of_lt hlt
  · intro hlen
    have hg : g.reportedPackages = j.reportedPackages := by
      rw [← hreported]
      exact congrArg (List.map fun b : HistoryState => b.reported.map (·.workPackageHash)) hbg
    rw [hrecent, ← hg]
    exact reportedPackages_applyStateRecentHistory (hg ▸ hlen)

end JamDuna.StateDB
