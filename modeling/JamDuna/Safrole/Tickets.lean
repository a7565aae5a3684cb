/-
# The tickets of a block

`statedb/safrole.go`: `ValidateSaforle` checks the tickets of a block and its winning
marker, `ApplyStateTransitionTickets` then makes the epoch transition and puts the
tickets into the accumulator, which `SortAndTrimTickets` cuts to an epoch's length.
The texts of the errors are those of `jamerrors`.

`valid_tickets` maps the hash of a ticket to its identifier; the node passes what its
pool knows already. An entry records besides the identifier what the proof was
verified for, which the source does not keep and no function here reads. Tickets are
validated one after another (`useSerializedValidation`), and the context of the call is
never cancelled.

`validateSaforle_spec` and `applyStateTransitionTickets_spec` say what an accepted
block went through; the results about tickets use nothing else of the functions.
-/

import JamDuna.Basis.KeepLeast
import JamDuna.Safrole.Transition

namespace JamDuna.Safrole

open JamDuna.Types JamDuna.Basis Function

def errTBadTicketAttemptNumber : String :=
  "T1|BadTicketAttemptNumber: Submit an extrinsic with a bad ticket attempt number."

def errTTicketAlreadyInState : String :=
  "T2|TicketAlreadyInState: Submit one ticket already recorded in the state."

def errTTicketsBadOrder : String := "T3|TicketsBadOrder: Submit tickets in bad order."

def errTBadRingProof : String := "T4|BadRingProof: Submit tickets with a bad ring proof."

def errTEpochLotteryOver : String :=
  "T5|EpochLotteryOver: Submit tickets when the epoch's lottery is over."

def errTTimeslotNotMonotonic : String :=
  "T6|TimeslotNotMonotonic: Progress from slot X to slot X. Timeslot must be strictly monotonic."

/-- The fields of `types.BlockHeader` that are read here. -/
structure Header where
  ticketsMark : Option (List TicketBody)
  entropySource : Vector UInt8 96
  deriving DecidableEq, Repr

/-- An entry of `valid_tickets`: an identifier, and the ticket, the ring and the
randomness for which a proof was found to give it. -/
structure Entry where
  id : Hash
  ticket : Ticket
  ring : List Hash
  randomness : Hash
  deriving DecidableEq, Repr

/-- `valid_tickets`. -/
abbrev ValidTickets := Hash → Option Entry

/-- `Ticket.Hash`, of the encoded ticket. -/
def Ticket.hash (P : Primitives) (t : Ticket) : Hash := P.blake2 (t.attempt :: t.signature.toList)

/-- `ticketSealVRFInput`: `X_T`, the randomness and the attempt. -/
def ticketSealVRFInput (targetEpochRandomness : Hash) (attempt : UInt8) : Bytes :=
  "jam_ticket_seal".toUTF8.toList ++ targetEpochRandomness.bytes ++ [attempt &&& 0xF]

/-- `RingVrfVerifyWithCache`, which refuses an empty ring. -/
def Primitives.ringVrfVerifyWithCache (P : Primitives) (ring : List Hash)
    (signature : Vector UInt8 784) (vrfInput : Bytes) : Option Hash :=
  if ring.isEmpty then none else P.ringVrfVerify ring signature vrfInput

namespace SafroleState

section

variable (P : Primitives) (s : SafroleState)

/-- The randomness that tickets are verified with. -/
def ticketRandomness (shifted isTicketSubmissionClosed : Bool) : Hash :=
  if isTicketSubmissionClosed || shifted then s.entropy.eta1 else s.entropy.eta2

/-- `validateTicketWithRing`. -/
def validateTicketWithRing (t : Ticket) (shifted isTicketSubmissionClosed : Bool)
    (ring : List Hash) : Check Entry :=
  if ticketEntriesPerValidator ≤ t.attempt.toNat then .error (.err errTBadTicketAttemptNumber)
  else
    let randomness := s.ticketRandomness shifted isTicketSubmissionClosed
    match P.ringVrfVerifyWithCache ring t.signature (ticketSealVRFInput randomness t.attempt) with
    | some id => .ok ⟨id, t, ring, randomness⟩
    | none => .error (.err errTBadRingProof)

/-- The entry of a ticket, which is verified when there is none, and the entries
afterwards. -/
def lookupTicket (shifted isTicketSubmissionClosed : Bool) (ring : List Hash)
    (validTickets : ValidTickets) (t : Ticket) : Check (Entry × ValidTickets) :=
  match validTickets (t.hash P) with
  | some entry => .ok (entry, validTickets)
  | none =>
    (withError errTBadRingProof
      (s.validateTicketWithRing P t shifted isTicketSubmissionClosed ring)).map fun entry =>
        (entry, update validTickets (t.hash P) (some entry))

/-- The body of the loop of `validateTicketsSerialized`. -/
def validateTicketSerialized (shifted isTicketSubmissionClosed : Bool) (ring : List Hash)
    (accMap : List Hash) (validTickets : ValidTickets) (t : Ticket) : Check ValidTickets := do
  failIf (decide (ticketEntriesPerValidator ≤ t.attempt.toNat)) errTBadTicketAttemptNumber
  let found ← s.lookupTicket P shifted isTicketSubmissionClosed ring validTickets t
  failIf (accMap.contains found.1.id) errTTicketAlreadyInState
  return found.2

/-- `validateTicketsSerialized`; `accMap` holds the identifiers in the accumulator. -/
def validateTicketsSerialized (tickets : List Ticket) (shifted isTicketSubmissionClosed : Bool)
    (ring accMap : List Hash) (validTickets : ValidTickets) : Check ValidTickets :=
  tickets.foldlM
    (s.validateTicketSerialized P shifted isTicketSubmissionClosed ring accMap) validTickets

/-- Length and attempts of a winning marker. -/
def checkMarkEntries (marks : List TicketBody) : Check Unit := do
  failIf (decide (marks.length ≠ epochLength)) "TicketsMark length mismatch"
  forM marks fun t =>
    failIf (decide (ticketEntriesPerValidator ≤ t.attempt.toNat))
      "TicketsMark attempt exceeds maximum allowed: 3"

/-- The check of the winning marker in `ValidateSaforle`. -/
def checkTicketsMark (targetJCE : UInt32) (header : Header) : Check Unit :=
  if (s.epochAndPhase s.timeslot).1 = (s.epochAndPhase targetJCE).1 ∧
      ((s.epochAndPhase s.timeslot).2 < ticketSubmissionEndSlot ∧
        ticketSubmissionEndSlot ≤ (s.epochAndPhase targetJCE).2) ∧
      s.nextEpochTicketsAccumulator.length = epochLength then
    match header.ticketsMark with
    | none => .error (.err "TicketsMark missing in header")
    | some marks => do
      checkMarkEntries marks
      failIf (!verifyWinningMarker marks (computeTicketSlotBinding s.nextEpochTicketsAccumulator))
        "VerifyWinningMarker Failed:%!s(<nil>)"
  else failIf header.ticketsMark.isSome "TicketsMark should be nil in header"

/-- The body of a ticket, with the identifier found for it. -/
def ticketBody (validTickets : ValidTickets) (t : Ticket) : Check TicketBody :=
  match validTickets (t.hash P) with
  | some entry => .ok ⟨entry.id, t.attempt⟩
  | none => .error (.err "ticket not found in valid_tickets")

/-- The check that the bodies are in order, which lets equal neighbours pass. -/
def checkOrder (bodies : List TicketBody) : Check Unit :=
  forM (bodies.zip bodies.tail) fun p => failIf (decide (p.2.id < p.1.id)) errTTicketsBadOrder

/-- The state on which `ValidateSaforle` validates the tickets: only within an epoch
the entropy is set. -/
def validationState (targetJCE : UInt32) : SafroleState :=
  if s.isNewEpoch targetJCE then s else stableEntropy s s 0

/-- `ValidateSaforle`: the bodies of the tickets, and the entries afterwards. -/
def validateSaforle (tickets : List Ticket) (targetJCE : UInt32) (header : Header)
    (validTickets : ValidTickets) : Check (List TicketBody × ValidTickets) := do
  let closed := decide (ticketSubmissionEndSlot ≤ (s.epochAndPhase targetJCE).2)
  s.checkTicketsMark targetJCE header
  failIf (closed && !tickets.isEmpty) errTEpochLotteryOver
  failIf (decide (targetJCE ≤ s.timeslot)) errTTimeslotNotMonotonic
  let s2 := s.validationState targetJCE
  let validTickets ← s2.validateTicketsSerialized P tickets (s.isNewEpoch targetJCE) closed
    (ringSet P s2.nextValidators) (s2.nextEpochTicketsAccumulator.map (·.id)) validTickets
  let bodies ← tickets.mapM (ticketBody P validTickets)
  checkOrder bodies
  return (bodies, validTickets)

/-- `GetFreshRandomness`. -/
def getFreshRandomness (vrfSig : Vector UInt8 96) : Check Hash :=
  match P.vrfSignedOutput vrfSig with
  | some output => .ok output
  | none => .error (.err "GetFreshRandomness ")

/-- `PutTicketInAccumulator`. -/
def putTicketInAccumulator (newa : TicketBody) : SafroleState :=
  { s with nextEpochTicketsAccumulator := s.nextEpochTicketsAccumulator ++ [newa] }

/-- `SortAndTrimTickets`. -/
def sortAndTrimTickets : SafroleState :=
  { s with
    nextEpochTicketsAccumulator :=
      keepLeast TicketBody.id epochLength s.nextEpochTicketsAccumulator }

/-- `ApplyStateTransitionTickets`. -/
def applyStateTransitionTickets (tickets : List Ticket) (targetJCE : UInt32) (header : Header)
    (validTickets : ValidTickets) : Check SafroleState := do
  let validated ← s.validateSaforle P tickets targetJCE header validTickets
  let freshRandomness ← getFreshRandomness P header.entropySource
  let next ← mapError ("error applying state transition safrole in MakeBlock: " ++ ·)
    (s.validateTicketTransition P targetJCE freshRandomness)
  let s2 := validated.1.foldl putTicketInAccumulator next.1
  forM header.ticketsMark.toList checkMarkEntries
  return { s2.sortAndTrimTickets with timeslot := targetJCE }

variable {P s} {shifted closed : Bool} {ring accMap : List Hash}

variable {t : Ticket} {pool v : ValidTickets} {tickets : List Ticket} {bodies : List TicketBody}
  {targetJCE : UInt32}

/-- The entry that the verification of a ticket makes. -/
theorem validateTicketWithRing_eq_ok {e : Entry}
    (h : s.validateTicketWithRing P t shifted closed ring = .ok e) :
    P.ringVrfVerifyWithCache ring t.signature
        (ticketSealVRFInput (s.ticketRandomness shifted closed) t.attempt) = some e.id ∧
      e = ⟨e.id, t, ring, s.ticketRandomness shifted closed⟩ := by
  unfold validateTicketWithRing at h
  split_ifs at h
  dsimp only at h
  split at h
  case h_1 id hid =>
    cases h
    exact ⟨hid, rfl⟩
  case h_2 => cases h

/-- What a ticket of the loop does: the entry is there already, or it is verified and
added; it is not in the accumulator. -/
theorem validateTicketSerialized_eq_ok {v' : ValidTickets}
    (h : s.validateTicketSerialized P shifted closed ring accMap v t = .ok v') :
    ∃ e, e.id ∉ accMap ∧ (v (t.hash P) = some e ∧ v' = v ∨
        v (t.hash P) = none ∧ s.validateTicketWithRing P t shifted closed ring = .ok e ∧
          v' = update v (t.hash P) (some e)) := by
  obtain ⟨-, h⟩ := check_bind_eq_ok.mp h
  obtain ⟨found, hfound, h⟩ := bind_eq_ok.mp h
  obtain ⟨hacc, h⟩ := check_bind_eq_ok.mp h
  cases h
  refine ⟨found.1, by simpa using hacc, ?_⟩
  unfold lookupTicket at hfound
  split at hfound
  case h_1 e he =>
    cases hfound
    exact .inl ⟨he, rfl⟩
  case h_2 hnone =>
    cases hw : withError errTBadRingProof (s.validateTicketWithRing P t shifted closed ring) with
    | error x =>
      rw [hw] at hfound
      cases hfound
    | ok e =>
      rw [hw] at hfound
      cases hfound
      exact .inr ⟨hnone, withError_eq_ok.mp hw, rfl⟩

/-- **The entries after the validation.** Entries that were there stay; a ticket
without one has the entry of the first ticket with its hash, which was verified; no
identifier of a ticket is in the accumulator. -/
theorem validateTicketsSerialized_spec {v' : ValidTickets}
    (h : s.validateTicketsSerialized P tickets shifted closed ring accMap v = .ok v') :
    (∀ k e, v k = some e → v' k = some e) ∧
      ∀ t ∈ tickets, ∃ e, v' (t.hash P) = some e ∧ e.id ∉ accMap ∧
        (v (t.hash P) = some e ∨ v (t.hash P) = none ∧ ∃ first ∈ tickets, first.hash P = t.hash P ∧
            s.validateTicketWithRing P first shifted closed ring = .ok e) := by
  induction tickets generalizing v with
  | nil =>
    cases h
    exact ⟨fun _ _ hk => hk, by simp⟩
  | cons t tickets ih =>
    unfold validateTicketsSerialized at h
    rw [List.foldlM_cons] at h
    obtain ⟨v₁, ht, h⟩ := bind_eq_ok.mp h
    obtain ⟨hkeep, hrest⟩ := ih h
    obtain ⟨e, hacc, ⟨he, rfl⟩ | ⟨hnone, hw, rfl⟩⟩ := validateTicketSerialized_eq_ok ht
    · refine ⟨hkeep, List.forall_mem_cons.mpr ⟨⟨e, hkeep _ _ he, hacc, .inl he⟩, ?_⟩⟩
      intro t' ht'
      obtain ⟨e', he', hacc', hv | ⟨hv, first, hf, hfirst⟩⟩ := hrest t' ht'
      · exact ⟨e', he', hacc', .inl hv⟩
      · exact ⟨e', he', hacc', .inr ⟨hv, first, .tail _ hf, hfirst⟩⟩
    · have hself := hkeep (t.hash P) e (update_self ..)
      refine ⟨fun k e' hk => hkeep k e' ?_, List.forall_mem_cons.mpr ⟨?_, fun t' ht' => ?_⟩⟩
      · rw [update_of_ne]
        · exact hk
        · rintro rfl
          rw [hnone] at hk
          cases hk
      · exact ⟨e, hself, hacc, .inr ⟨hnone, t, .head _, rfl, hw⟩⟩
      · by_cases heq : t'.hash P = t.hash P
        · rw [heq]
          exact ⟨e, hself, hacc, .inr ⟨hnone, t, .head _, rfl, hw⟩⟩
        · obtain ⟨e', he', hacc', hv⟩ := hrest t' ht'
          rw [update_of_ne heq] at hv
          refine ⟨e', he', hacc', hv.imp id fun ⟨hn, first, hf, hfirst⟩ => ?_⟩
          exact ⟨hn, first, .tail _ hf, hfirst⟩

theorem ticketBody_eq_ok {b : TicketBody} :
    ticketBody P v t = .ok b ↔ ∃ e, v (t.hash P) = some e ∧ b = ⟨e.id, t.attempt⟩ := by
  unfold ticketBody
  cases v (t.hash P) with
  | none => simp
  | some e => simp [eq_comm]

/-- Bodies that pass the check are in order. -/
theorem checkOrder_eq_ok (h : checkOrder bodies = .ok ()) :
    bodies.Pairwise fun a b => a.id ≤ b.id := by
  refine pairwise_of_adjacent (fun _ _ _ => le_trans) fun p hp => ?_
  have := forM_eq_ok.mp h p hp
  simpa using this

/-- What an accepted block's tickets went through. -/
structure Validated (P : Primitives) (s : SafroleState) (tickets : List Ticket)
    (targetJCE : UInt32) (pool : ValidTickets) (bodies : List TicketBody) (valid : ValidTickets) :
    Prop where
  later : s.timeslot < targetJCE
  open_of_tickets : tickets ≠ [] → (s.epochAndPhase targetJCE).2 < ticketSubmissionEndSlot
  entries : (s.validationState targetJCE).validateTicketsSerialized P tickets
    (s.isNewEpoch targetJCE)
    (decide (ticketSubmissionEndSlot ≤ (s.epochAndPhase targetJCE).2))
    (ringSet P s.nextValidators) (s.nextEpochTicketsAccumulator.map (·.id)) pool = .ok valid
  bodies_eq : tickets.mapM (ticketBody P valid) = .ok bodies
  ordered : bodies.Pairwise fun a b => a.id ≤ b.id

@[simp] theorem nextValidators_validationState (s : SafroleState) (targetJCE : UInt32) :
    (s.validationState targetJCE).nextValidators = s.nextValidators := by
  unfold validationState
  split <;> rfl

@[simp] theorem accumulator_validationState (s : SafroleState) (targetJCE : UInt32) :
    (s.validationState targetJCE).nextEpochTicketsAccumulator = s.nextEpochTicketsAccumulator := by
  unfold validationState
  split <;> rfl

theorem validateSaforle_spec {header : Header} {valid : ValidTickets}
    (h : s.validateSaforle P tickets targetJCE header pool = .ok (bodies, valid)) :
    Validated P s tickets targetJCE pool bodies valid := by
  obtain ⟨-, h⟩ := check_bind_eq_ok.mp h
  obtain ⟨hopen, h⟩ := check_bind_eq_ok.mp h
  obtain ⟨hlater, h⟩ := check_bind_eq_ok.mp h
  obtain ⟨valid', hvalid, h⟩ := bind_eq_ok.mp h
  obtain ⟨bodies', hbodies, h⟩ := bind_eq_ok.mp h
  obtain ⟨horder, h⟩ := check_bind_eq_ok.mp h
  cases h
  simp only [nextValidators_validationState, accumulator_validationState] at hvalid
  refine ⟨?_, fun hne => ?_, hvalid, hbodies, checkOrder_eq_ok horder⟩
  · simpa using hlater
  · simpa [hne] using hopen

/-- The identifiers of the bodies are not in the accumulator of the state. -/
theorem Validated.fresh {valid : ValidTickets}
    (h : Validated P s tickets targetJCE pool bodies valid) :
    ∀ b ∈ bodies, b.id ∉ s.nextEpochTicketsAccumulator.map (·.id) := by
  intro b hb
  obtain ⟨t, ht, hbody⟩ := exists_of_mapM_eq_ok h.bodies_eq b hb
  obtain ⟨e, he, rfl⟩ := ticketBody_eq_ok.mp hbody
  obtain ⟨e', he', hacc, -⟩ := (validateTicketsSerialized_spec h.entries).2 t ht
  obtain rfl : e = e' := Option.some.inj (he.symm.trans he')
  exact hacc

/-- The transition to a block's slot: a new epoch with its series, or only the
entropy. -/
theorem validateTicketTransition_spec {fresh : Hash} {s2 : SafroleState}
    {advanced : Bool} (h : s.validateTicketTransition P targetJCE fresh = .ok (s2, advanced)) :
    (s.isNewEpoch targetJCE = true ∧ ∃ series,
        transitionSeries P (advanceEntropyAndValidator s s (s.computeCurrRandomness P fresh))
          (s.ticketEpoch targetJCE) = .ok series ∧
        s2 = { advanceEntropyAndValidator s s (s.computeCurrRandomness P fresh) with
          ticketsOrKeys := series, nextEpochTicketsAccumulator := [] }) ∨
      (s.isNewEpoch targetJCE = false ∧
        s2 = stableEntropy s s (s.computeCurrRandomness P fresh)) := by
  unfold validateTicketTransition at h
  dsimp only at h
  split_ifs at h with hnew
  · refine .inl ⟨hnew, ?_⟩
    cases hseries : transitionSeries P
        (advanceEntropyAndValidator s s (s.computeCurrRandomness P fresh))
        (s.ticketEpoch targetJCE) with
    | error e =>
      rw [hseries] at h
      cases h
    | ok series =>
      rw [hseries] at h
      exact ⟨series, rfl, (congrArg Prod.fst (Except.ok.inj h)).symm⟩
  · exact .inr ⟨by simpa using hnew, (congrArg Prod.fst (Except.ok.inj h)).symm⟩

/-- The accumulator that the tickets of a block are put into. -/
def openAccumulator (s : SafroleState) (targetJCE : UInt32) : List TicketBody :=
  if s.isNewEpoch targetJCE then [] else s.nextEpochTicketsAccumulator

theorem accumulator_validateTicketTransition {fresh : Hash} {s2 : SafroleState} {advanced : Bool}
    (h : s.validateTicketTransition P targetJCE fresh = .ok (s2, advanced)) :
    s2.nextEpochTicketsAccumulator = s.openAccumulator targetJCE := by
  unfold openAccumulator
  obtain ⟨hnew, series, -, rfl⟩ | ⟨hnew, rfl⟩ := validateTicketTransition_spec h
  · rw [if_pos hnew]
  · rw [if_neg (by simp [hnew])]
    rfl

theorem foldl_putTicketInAccumulator (s : SafroleState) (bodies : List TicketBody) :
    bodies.foldl putTicketInAccumulator s =
      { s with nextEpochTicketsAccumulator := s.nextEpochTicketsAccumulator ++ bodies } := by
  induction bodies generalizing s with
  | nil => simp
  | cons b bodies ih => simp [List.foldl_cons, ih, putTicketInAccumulator]

/-- **An accepted block.** Its tickets are validated, the transition is made, and the
accumulator holds the least of what was there and the bodies. -/
theorem applyStateTransitionTickets_spec {header : Header} {s' : SafroleState}
    (h : s.applyStateTransitionTickets P tickets targetJCE header pool = .ok s') :
    ∃ bodies valid fresh s2 advanced,
      s.validateSaforle P tickets targetJCE header pool = .ok (bodies, valid) ∧
      s.validateTicketTransition P targetJCE fresh = .ok (s2, advanced) ∧
      s' = { s2 with
        nextEpochTicketsAccumulator :=
          keepLeast TicketBody.id epochLength (s.openAccumulator targetJCE ++ bodies)
        timeslot := targetJCE } := by
  obtain ⟨⟨bodies, valid⟩, hvalid, h⟩ := bind_eq_ok.mp h
  obtain ⟨fresh, -, h⟩ := bind_eq_ok.mp h
  obtain ⟨⟨s2, advanced⟩, hnext, h⟩ := bind_eq_ok.mp h
  obtain ⟨-, h⟩ := check_bind_eq_ok.mp h
  rw [mapError_eq_ok] at hnext
  refine ⟨bodies, valid, fresh, s2, advanced, hvalid, hnext, ?_⟩
  rw [← accumulator_validateTicketTransition hnext, ← Except.ok.inj h, foldl_putTicketInAccumulator]
  rfl

end

end SafroleState

end JamDuna.Safrole
