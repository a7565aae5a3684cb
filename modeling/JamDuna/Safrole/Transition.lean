/-
# The epoch transition, for authors and for verifiers

`statedb/safrole.go`: `SimulatePostiorEntropy` computes the state that a block of a
later slot is sealed and authored with, `ValidateTicketTransition` the state after
such a block. The two are written separately. On the advance of the validator sets
and of the entropy they agree, although `Copy` forgets the offenders
(`advance_congr`); the slot-sealer series they choose under different conditions.

`simulate_agrees_iff` says when the two agree: always, except that with a full
accumulator the author seals with the tickets also when the last slot was before the
end of the submission period, or an epoch has been skipped.
-/

import JamDuna.Safrole.State

namespace JamDuna.Safrole

open JamDuna.Types JamDuna.Basis

namespace SafroleState

section

variable (P : Primitives) (s : SafroleState)

/-- `Copy`, which leaves the offenders out. -/
def copy : SafroleState := { s with offenderState := [] }

/-- The slot-sealer series in `SimulatePostiorEntropy`. -/
def simulatedSeries : Check TicketsOrKeys :=
  if s.nextEpochTicketsAccumulator.length = epochLength then
    (mapError ("GenerateWinningMarker Failed: " ++ ·) s.generateWinningMarker).map fun w =>
      ⟨some w, none⟩
  else
    (mapError ("ChooseFallBackValidator " ++ ·) (s.chooseFallBackValidator P)).map fun keys =>
      ⟨none, some keys⟩

/-- `SimulatePostiorEntropy`: the state and whether the epoch has advanced. -/
def simulatePostiorEntropy (targetJCE : UInt32) : Check (SafroleState × Bool) :=
  let s2 := s.copy
  if s.epochChanged targetJCE then
    let s2 := advanceEntropyAndValidator s2 s 0
    (s2.simulatedSeries P).map fun series =>
      ({ s2 with ticketsOrKeys := series, nextEpochTicketsAccumulator := [] }, true)
  else .ok (s2, false)

/-- The condition under which `ValidateTicketTransition` seals the new epoch with
tickets, besides the full accumulator. -/
def ticketEpoch (targetJCE : UInt32) : Bool :=
  decide (ticketSubmissionEndSlot ≤ (s.epochAndPhase s.timeslot).2 ∧
    (s.epochAndPhase s.timeslot).1 + 1 = (s.epochAndPhase targetJCE).1)

/-- The slot-sealer series in `ValidateTicketTransition`. The marker is compared
with itself. -/
def transitionSeries (s2 : SafroleState) (ticketEpoch : Bool) : Check TicketsOrKeys :=
  if s2.nextEpochTicketsAccumulator.length = epochLength ∧ ticketEpoch then do
    let winning ← mapError ("GenerateWinningMarker Failed: " ++ ·) s2.generateWinningMarker
    let expected := computeTicketSlotBinding s2.nextEpochTicketsAccumulator
    failIf (!verifyWinningMarker winning expected) "VerifyWinningMarker Failed:%!s(<nil>)"
    return ⟨some winning, none⟩
  else
    (mapError ("ChooseFallBackValidator " ++ ·) (s2.chooseFallBackValidator P)).map fun keys =>
      ⟨none, some keys⟩

/-- `ValidateTicketTransition`; `cloneSafroleState` copies every field. -/
def validateTicketTransition (targetJCE : UInt32) (freshRandomness : Hash) :
    Check (SafroleState × Bool) :=
  let newEntropy0 := s.computeCurrRandomness P freshRandomness
  if s.isNewEpoch targetJCE then
    let s2 := advanceEntropyAndValidator s s newEntropy0
    (transitionSeries P s2 (s.ticketEpoch targetJCE)).map fun series =>
      ({ s2 with ticketsOrKeys := series, nextEpochTicketsAccumulator := [] }, true)
  else .ok (stableEntropy s s newEntropy0, false)

variable {P s}

/-- What the two transitions are to agree on. -/
structure SealingView where
  series : TicketsOrKeys
  currValidators : List Validator
  prevValidators : List Validator
  eta1 : Hash
  eta2 : Hash
  eta3 : Hash
  deriving DecidableEq, Repr

/-- The view of a result. -/
def sealingView (r : SafroleState × Bool) : SealingView :=
  ⟨r.1.ticketsOrKeys, r.1.currValidators, r.1.prevValidators, r.1.entropy.eta1, r.1.entropy.eta2,
    r.1.entropy.eta3⟩

/-- The fields of two states that the choice of the series and the view depend on are
the same. -/
structure SameSealing (a b : SafroleState) : Prop where
  curr : a.currValidators = b.currValidators
  prev : a.prevValidators = b.prevValidators
  eta1 : a.entropy.eta1 = b.entropy.eta1
  eta2 : a.entropy.eta2 = b.entropy.eta2
  eta3 : a.entropy.eta3 = b.entropy.eta3
  accumulator : a.nextEpochTicketsAccumulator = b.nextEpochTicketsAccumulator

/-- Neither the offenders nor the new entropy matter for the rest of the advance. -/
theorem advance_congr (s : SafroleState) (e e' : Hash) :
    SameSealing (advanceEntropyAndValidator s.copy s e) (advanceEntropyAndValidator s s e') := by
  unfold advanceEntropyAndValidator copy
  dsimp only
  split_ifs <;> exact ⟨rfl, rfl, rfl, rfl, rfl, rfl⟩

theorem accumulator_advance (s : SafroleState) (e : Hash) :
    (advanceEntropyAndValidator s s e).nextEpochTicketsAccumulator =
      s.nextEpochTicketsAccumulator := by
  unfold advanceEntropyAndValidator
  dsimp only
  split_ifs <;> rfl

variable {a b : SafroleState}

theorem chooseFallBackValidator_congr (h : SameSealing a b) :
    a.chooseFallBackValidator P = b.chooseFallBackValidator P := by
  unfold chooseFallBackValidator
  rw [h.curr, h.eta2]

section

variable (h : s.nextEpochTicketsAccumulator.length = epochLength)
include h

/-- With a full accumulator both series functions, when they take the tickets, give the
outside-in order of it. -/
theorem generateWinningMarker_of_full :
    s.generateWinningMarker = .ok (computeTicketSlotBinding s.nextEpochTicketsAccumulator) :=
  if_neg (not_not.mpr h)

theorem simulatedSeries_of_full : s.simulatedSeries P =
      .ok ⟨some (computeTicketSlotBinding s.nextEpochTicketsAccumulator), none⟩ := by
  rw [simulatedSeries, if_pos h, generateWinningMarker_of_full h]
  rfl

theorem transitionSeries_of_full : transitionSeries P s true =
      .ok ⟨some (computeTicketSlotBinding s.nextEpochTicketsAccumulator), none⟩ := by
  rw [transitionSeries, if_pos ⟨h, rfl⟩, generateWinningMarker_of_full h]
  simp [mapError, verifyWinningMarker, failIf, bind, Except.bind, pure, Except.pure]

end

/-- The ticket of a phase: from both ends in turn. -/
def outsideIn (phase : ℕ) : ℕ :=
  if phase % 2 = 0 then phase / 2 else epochLength - 1 - phase / 2

/-- `GetPrimaryWinningTicket`; without such a ticket it is a run-time error. -/
def getPrimaryWinningTicket (s : SafroleState) (slotIndex : UInt32) : Option TicketBody :=
  (s.ticketsOrKeys.tickets.getD [])[(s.epochAndPhase slotIndex).2]?

theorem getElem?_computeTicketSlotBinding {l : List TicketBody} (h : l.length = epochLength)
    {phase : ℕ} (hp : phase < epochLength) :
    (computeTicketSlotBinding l)[phase]? = l[outsideIn phase]? := by
  have hlt : outsideIn phase < l.length := by
    simp only [outsideIn, h, epochLength] at hp ⊢
    split_ifs <;> omega
  have hget : l[outsideIn phase]? = some (l.getD (outsideIn phase) .zero) := by
    simp [hlt]
  unfold computeTicketSlotBinding
  rw [h, hget]
  simp only [epochLength] at hp
  interval_cases phase <;> rfl

/-- A change of the epoch that takes the tickets binds them in the outside-in order. -/
theorem tickets_of_transition (h : s.nextEpochTicketsAccumulator.length = epochLength)
    {targetJCE : UInt32} (hnew : s.isNewEpoch targetJCE = true)
    (hticket : s.ticketEpoch targetJCE = true) (freshRandomness : Hash) :
    ∃ s', s.validateTicketTransition P targetJCE freshRandomness = .ok (s', true) ∧
      s'.ticketsOrKeys.tickets = some (computeTicketSlotBinding s.nextEpochTicketsAccumulator) := by
  have hacc := accumulator_advance s (s.computeCurrRandomness P freshRandomness)
  have hvalid : s.validateTicketTransition P targetJCE freshRandomness = _ := if_pos hnew
  rw [hticket, transitionSeries_of_full (hacc.symm ▸ h), hacc] at hvalid
  exact ⟨_, hvalid, rfl⟩

/-- **The outside-in order binds every ticket to one slot**, and the marker of the header has, phase
by phase, the tickets that the state after the epoch change binds to the slots. -/
theorem winningMarker_binds (P : Primitives) (state : SafroleState)
    (tickets : Vector TicketBody epochLength) :
    ((List.range epochLength).map outsideIn).Perm (List.range epochLength) ∧ ∃ marker,
      { state with nextEpochTicketsAccumulator := tickets.toList }.generateWinningMarker =
        .ok marker ∧ marker.length = epochLength ∧
      (∀ phase < epochLength, marker[phase]? = tickets.toList[outsideIn phase]?) ∧
      ∀ targetJCE freshRandomness, state.isNewEpoch targetJCE = true →
        state.ticketEpoch targetJCE = true → ∃ s',
          { state with nextEpochTicketsAccumulator := tickets.toList }.validateTicketTransition P
            targetJCE freshRandomness = .ok (s', true) ∧
          ∀ slot, s'.getPrimaryWinningTicket slot = marker[(s'.epochAndPhase slot).2]? := by
  have hfull : tickets.toList.length = epochLength := Vector.length_toList
  refine ⟨by decide, _, generateWinningMarker_of_full hfull, length_computeTicketSlotBinding hfull,
    fun phase hp => getElem?_computeTicketSlotBinding hfull hp, fun target fresh hnew hticket => ?_⟩
  obtain ⟨s', hvalid, htickets⟩ := tickets_of_transition (P := P)
    (s := { state with nextEpochTicketsAccumulator := tickets.toList }) hfull hnew hticket fresh
  refine ⟨s', hvalid, fun slot => ?_⟩
  rw [getPrimaryWinningTicket, htickets]
  rfl

/-- At the end of an epoch with twelve tickets the new state binds those of the marker. -/
theorem winningMarker_binds_lastSlot : ∃ (marker : List TicketBody) (s' : SafroleState),
    marker.length = epochLength ∧
    (sampleState 11 fullAccumulator).validateTicketTransition samplePrimitives 12 0 =
      .ok (s', true) ∧
    ∀ slot, s'.getPrimaryWinningTicket slot = marker[(s'.epochAndPhase slot).2]? := by
  obtain ⟨-, marker, -, hlength, -, hbinds⟩ := winningMarker_binds samplePrimitives
    (sampleState 11 fullAccumulator) ⟨fullAccumulator.toArray, rfl⟩
  obtain ⟨s', hvalid, hslots⟩ := hbinds 12 0 (by decide) (by decide)
  exact ⟨marker, s', hlength, hvalid, hslots⟩

/-- The series of a fallback epoch. -/
theorem transitionSeries_fallback {full : Bool}
    (h : ¬ (s.nextEpochTicketsAccumulator.length = epochLength ∧ full = true)) :
    transitionSeries P s full =
      (mapError ("ChooseFallBackValidator " ++ ·) (s.chooseFallBackValidator P)).map fun keys =>
        ⟨none, some keys⟩ :=
  if_neg h

/-- The view of a state that got the series of the epoch. -/
theorem sealingView_congr (h : SameSealing a b) (series : TicketsOrKeys) :
    sealingView ({ a with ticketsOrKeys := series, nextEpochTicketsAccumulator := [] }, true) =
      sealingView ({ b with ticketsOrKeys := series, nextEpochTicketsAccumulator := [] }, true) := by
  simp [sealingView, h.curr, h.prev, h.eta1, h.eta2, h.eta3]

/-- What the simulation shows of a new epoch, in terms of the state after the
advance. -/
theorem simulate_newEpoch (h : SameSealing a b) : ((a.simulatedSeries P).map fun series =>
      ({ a with ticketsOrKeys := series, nextEpochTicketsAccumulator := [] }, true)).map
        sealingView =
      (b.simulatedSeries P).map fun series =>
        sealingView
          ({ b with ticketsOrKeys := series, nextEpochTicketsAccumulator := [] }, true) := by
  have hseries : a.simulatedSeries P = b.simulatedSeries P := by
    unfold simulatedSeries generateWinningMarker
    rw [h.accumulator, chooseFallBackValidator_congr h]
  rw [hseries]
  cases b.simulatedSeries P with
  | error e => rfl
  | ok series => exact congrArg Except.ok (sealingView_congr h series)

/-- **Author and verifier of a block.** For every state and every later slot the two
transitions show the same series, validators and entropy, precisely unless the epoch
changes with a full accumulator and the verifier does not take the tickets: the last
slot was in the submission period, or an epoch is skipped. -/
theorem simulate_agrees_iff (P : Primitives) (s : SafroleState) {targetJCE : UInt32}
    (freshRandomness : Hash) (h : s.timeslot < targetJCE) :
    (s.simulatePostiorEntropy P targetJCE).map sealingView =
        (s.validateTicketTransition P targetJCE freshRandomness).map sealingView ↔
      (s.isNewEpoch targetJCE = true → s.nextEpochTicketsAccumulator.length = epochLength →
        ticketSubmissionEndSlot ≤ (s.epochAndPhase s.timeslot).2 ∧
          (s.epochAndPhase s.timeslot).1 + 1 = (s.epochAndPhase targetJCE).1) := by
  unfold simulatePostiorEntropy validateTicketTransition
  rw [s.epochChanged_eq_isNewEpoch h]
  by_cases hnew : s.isNewEpoch targetJCE = true
  · rw [if_pos hnew, if_pos hnew]
    simp only [hnew, true_implies]
    set η := s.computeCurrRandomness P freshRandomness
    have hsame := advance_congr s 0 η
    have hacc := accumulator_advance s η
    generalize advanceEntropyAndValidator s s η = b at hsame hacc ⊢
    rw [simulate_newEpoch hsame]
    by_cases hfull : s.nextEpochTicketsAccumulator.length = epochLength
    · rw [simulatedSeries_of_full (by rw [hacc, hfull])]
      simp only [hfull, true_implies]
      by_cases hticket : s.ticketEpoch targetJCE = true
      · rw [hticket, transitionSeries_of_full (by rw [hacc, hfull])]
        exact iff_of_true rfl (of_decide_eq_true hticket)
      · -- the author has tickets, the verifier keys or a panic
        refine iff_of_false ?_ (fun hc => hticket (decide_eq_true hc))
        rw [transitionSeries_fallback fun hc => hticket hc.2]
        cases b.chooseFallBackValidator P with
        | error e => cases e <;> simp [mapError, Except.map]
        | ok keys => simp [mapError, Except.map, sealingView]
    · have hb : b.nextEpochTicketsAccumulator.length ≠ epochLength := by rwa [hacc]
      refine iff_of_true ?_ fun hc => absurd hc hfull
      rw [transitionSeries_fallback fun hc => hb hc.1, simulatedSeries, if_neg hb]
      cases b.chooseFallBackValidator P with
      | error e => cases e <;> rfl
      | ok keys => rfl
  · rw [if_neg hnew, if_neg hnew]
    exact iff_of_true rfl fun hc => absurd hc hnew

/-- At the end of an epoch whose accumulator is full both take the tickets. -/
theorem simulate_agrees_lastSlot :
    (((sampleState 11 fullAccumulator).simulatePostiorEntropy samplePrimitives 12).map
        fun r => r.1.ticketsOrKeys.tickets.isSome).toOption = some true ∧
      ((sampleState 11 fullAccumulator).simulatePostiorEntropy samplePrimitives 12).map
          sealingView =
        ((sampleState 11 fullAccumulator).validateTicketTransition samplePrimitives 12 0).map
          sealingView :=
  ⟨by decide +kernel, (simulate_agrees_iff samplePrimitives (sampleState 11 fullAccumulator) 0
    (by decide)).mpr fun _ _ => by decide⟩

/-- With a full accumulator and the last slot in the submission period, or an epoch
skipped, the author has tickets and the verifier keys. -/
theorem author_tickets_verifier_keys :
    ((((sampleState 5 fullAccumulator).simulatePostiorEntropy samplePrimitives 12).map
          fun r => r.1.ticketsOrKeys.tickets.isSome).toOption = some true ∧
        (((sampleState 5 fullAccumulator).validateTicketTransition samplePrimitives 12 0).map
          fun r => r.1.ticketsOrKeys.tickets.isSome).toOption = some false) ∧
      (((sampleState 11 fullAccumulator).simulatePostiorEntropy samplePrimitives 24).map
          fun r => r.1.ticketsOrKeys.tickets.isSome).toOption = some true ∧
        (((sampleState 11 fullAccumulator).validateTicketTransition samplePrimitives 24 0).map
          fun r => r.1.ticketsOrKeys.tickets.isSome).toOption = some false := by
  decide +kernel

end

end SafroleState

end JamDuna.Safrole
