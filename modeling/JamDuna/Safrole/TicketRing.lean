/-
# The ring that tickets are verified against

`ValidateSaforle` verifies the tickets of a block before the transition is made, with
the ring of the next validators it finds and, in the first block of an epoch, with
`η₁`, which the rotation then moves to `η₂`. The next validators are replaced by the
rotation as well, but the ring is not: in such a block the proofs are verified against
the ring of the validators that become the current ones. A ticket that is in
`valid_tickets` already is not verified again, whatever the pool verified it against.

`tickets_posterior_ring_iff` says when every ticket of an accepted block is verified
against the ring and the entropy of the posterior state.
-/

import JamDuna.Safrole.AccumulatorRuns

namespace JamDuna.Safrole

open JamDuna.Basis SafroleState

/-- The entry comes from a proof of the ticket that the verifier accepts for the given
ring and randomness. -/
def Entry.VerifiedFor (P : Primitives) (e : Entry) (t : Ticket) (ring : List Hash)
    (randomness : Hash) : Prop :=
  e.ticket = t ∧ e.ring = ring ∧ e.randomness = randomness ∧
    P.ringVrfVerifyWithCache ring t.signature (ticketSealVRFInput randomness t.attempt) = some e.id

/-- The entries of `valid_tickets` after the tickets of a block were validated. -/
def TicketBlock.entries (P : Primitives) (b : TicketBlock) (s : SafroleState) : ValidTickets :=
  match (b.prepare s).validateSaforle P b.tickets b.targetJCE b.header b.pool with
  | .ok validated => validated.2
  | .error _ => fun _ => none

namespace SafroleState

variable {P : Primitives} {s s' : SafroleState} {targetJCE : UInt32}

/-- A proof is accepted only for a ring with keys. -/
theorem nextValidators_ne_nil {signature : Vector UInt8 784} {input : Bytes} {id : Hash}
    (h : P.ringVrfVerifyWithCache (ringSet P s.nextValidators) signature input = some id) :
    s.nextValidators ≠ [] := by
  intro hnil
  rw [hnil] at h
  cases h

theorem length_ringSet (validators : List Validator) :
    (ringSet P validators).length = validators.length := by
  simp [ringSet]

/-- With next validators the rotation takes the designated ones without the
offenders. -/
theorem nextValidators_advance (h : s.nextValidators ≠ []) (e : Hash) :
    (advanceEntropyAndValidator s s e).nextValidators =
      s.cleanValidators s.designatedValidators := by
  unfold advanceEntropyAndValidator
  dsimp only
  rw [if_neg (by simpa using h)]
  split_ifs <;> rfl

/-- With next and designated validators the rotation moves the entropy. -/
theorem entropy_advance (h : s.nextValidators ≠ []) (hd : s.designatedValidators ≠ []) (e : Hash) :
    (advanceEntropyAndValidator s s e).entropy =
      ⟨e, s.entropy.eta0, s.entropy.eta1, s.entropy.eta2⟩ := by
  unfold advanceEntropyAndValidator
  rw [if_neg (by simpa using h), if_neg (by simpa using hd)]

variable {tickets : List Ticket} {header : Header} {pool : ValidTickets}

/-- The posterior state of an accepted block, as far as tickets are verified with it. -/
theorem posterior_of_accepted
    (h : s.applyStateTransitionTickets P tickets targetJCE header pool = .ok s') :
    (s.isNewEpoch targetJCE = true ∧ ∃ e,
        s'.nextValidators = (advanceEntropyAndValidator s s e).nextValidators ∧
          s'.entropy = (advanceEntropyAndValidator s s e).entropy) ∨
      (s.isNewEpoch targetJCE = false ∧ s'.nextValidators = s.nextValidators ∧
        s'.entropy.eta2 = s.entropy.eta2) := by
  obtain ⟨bodies, valid, fresh, s2, advanced, -, hnext, rfl⟩ := applyStateTransitionTickets_spec h
  obtain ⟨hnew, series, -, rfl⟩ | ⟨hnew, rfl⟩ := validateTicketTransition_spec hnext
  · exact .inl ⟨hnew, _, rfl, rfl⟩
  · exact .inr ⟨hnew, rfl, rfl⟩

/-- While tickets are accepted they are verified with `η₁` in a new epoch and with `η₂`
otherwise. -/
theorem ticketRandomness_open (s : SafroleState) (targetJCE : UInt32) :
    (s.validationState targetJCE).ticketRandomness (s.isNewEpoch targetJCE) false =
      if s.isNewEpoch targetJCE then s.entropy.eta1 else s.entropy.eta2 := by
  unfold validationState ticketRandomness
  cases s.isNewEpoch targetJCE <;> rfl

/-- **The two rings.** A ticket that the block's validation verified was verified for
the posterior ring and entropy precisely if the rotation, where there is one, keeps the
ring. -/
theorem verified_posterior_iff
    {t : Ticket} {e : Entry}
    (h : s.applyStateTransitionTickets P tickets targetJCE header pool = .ok s')
    (he : (s.validationState targetJCE).validateTicketWithRing P t (s.isNewEpoch targetJCE) false
      (ringSet P s.nextValidators) = .ok e) :
    e.VerifiedFor P t (ringSet P s'.nextValidators) s'.entropy.eta2 ↔
      (s.isNewEpoch targetJCE = true →
        ringSet P (s.cleanValidators s.designatedValidators) = ringSet P s.nextValidators) := by
  obtain ⟨hverify, heq⟩ := validateTicketWithRing_eq_ok he
  have hne := nextValidators_ne_nil hverify
  rw [ticketRandomness_open] at hverify heq
  -- what is left to compare is what the entry records
  have hrecord : e.VerifiedFor P t (ringSet P s'.nextValidators) s'.entropy.eta2 ↔
      ringSet P s.nextValidators = ringSet P s'.nextValidators ∧
        (if s.isNewEpoch targetJCE then s.entropy.eta1 else s.entropy.eta2) = s'.entropy.eta2 := by
    rw [heq]
    constructor
    · rintro ⟨-, hring, hrandomness, -⟩
      exact ⟨hring, hrandomness⟩
    · rintro ⟨hring, hrandomness⟩
      exact ⟨rfl, hring, hrandomness, by rw [← hring, ← hrandomness, hverify]⟩
  rw [hrecord]
  obtain ⟨hnew, x, hnext, hentropy⟩ | ⟨hnew, hnext, hentropy⟩ := posterior_of_accepted h
  · rw [hnext, hentropy, nextValidators_advance hne]
    simp only [hnew, true_implies, if_true]
    constructor
    · rintro ⟨hring, -⟩
      exact hring.symm
    · intro hring
      have hlength := congrArg List.length hring
      simp only [length_ringSet, length_cleanValidators] at hlength
      have hd : s.designatedValidators ≠ [] := by
        rintro hd
        rw [hd, List.length_nil, eq_comm, List.length_eq_zero_iff] at hlength
        exact hne hlength
      rw [entropy_advance hne hd]
      exact ⟨hring.symm, rfl⟩
  · rw [hnext, hentropy]
    simp [hnew]

end SafroleState

namespace TicketBlock

variable {P : Primitives} {b : TicketBlock} {s s' : SafroleState}

/-- The entry of a ticket of an accepted block: the pool's, or that of the first ticket
with its hash, which was verified. -/
theorem entries_spec (h : Accepts P s b s') {t : Ticket} (ht : t ∈ b.tickets) :
    ∃ e, b.entries P s (t.hash P) = some e ∧
      (b.pool (t.hash P) = some e ∨ b.pool (t.hash P) = none ∧ ∃ first ∈ b.tickets,
        first.hash P = t.hash P ∧
          ((b.prepare s).validationState b.targetJCE).validateTicketWithRing P first
            (s.isNewEpoch b.targetJCE) false (ringSet P s.nextValidators) = .ok e) := by
  obtain ⟨bodies, valid, fresh, s2, advanced, hvalid, -, -⟩ :=
    applyStateTransitionTickets_spec h
  have hentries : b.entries P s = valid := by
    unfold TicketBlock.entries
    rw [hvalid]
  have hspec := validateSaforle_spec hvalid
  have hclosed : decide (ticketSubmissionEndSlot ≤
      ((b.prepare s).epochAndPhase b.targetJCE).2) = false := by
    have := hspec.open_of_tickets (List.ne_nil_of_mem ht)
    rw [decide_eq_false_iff_not]
    omega
  have hall := hspec.entries
  rw [hclosed] at hall
  obtain ⟨e, he, -, hfrom⟩ := (validateTicketsSerialized_spec hall).2 t ht
  rw [hentries]
  exact ⟨e, he, hfrom⟩

/-- **Tickets and the posterior ring.** Every ticket of an accepted block was verified
against the ring of the posterior next validators and the posterior `η₂`, precisely if
for each ticket: what the pool knows of it was verified so; or the pool does not know
it, no other ticket of the block has its hash, and in a new epoch the designated
validators without the offenders have the same ring as the next ones before. -/
theorem tickets_posterior_ring_iff (P : Primitives) (b : TicketBlock) (s s' : SafroleState)
    (h : Accepts P s b s') :
    (∀ t ∈ b.tickets, ∃ e, b.entries P s (t.hash P) = some e ∧
        e.VerifiedFor P t (ringSet P s'.nextValidators) s'.entropy.eta2) ↔
      ∀ t ∈ b.tickets, (∀ e, b.pool (t.hash P) = some e →
          e.VerifiedFor P t (ringSet P s'.nextValidators) s'.entropy.eta2) ∧
        (b.pool (t.hash P) = none → (∀ t' ∈ b.tickets, t'.hash P = t.hash P → t' = t) ∧
          (s.isNewEpoch b.targetJCE = true →
            ringSet P ((b.prepare s).cleanValidators b.designated) =
              ringSet P s.nextValidators)) := by
  constructor
  · intro hall t ht
    obtain ⟨e, he, hverified⟩ := hall t ht
    obtain ⟨e', he', hfrom⟩ := entries_spec h ht
    obtain rfl : e = e' := Option.some.inj (he.symm.trans he')
    refine ⟨fun e₁ hpool => ?_, fun hpool => ?_⟩
    · rcases hfrom with hfrom | ⟨hnone, -⟩
      · obtain rfl : e = e₁ := Option.some.inj (hfrom.symm.trans hpool)
        exact hverified
      · rw [hnone] at hpool
        cases hpool
    · have hsame : ∀ t' ∈ b.tickets, t'.hash P = t.hash P → t' = t := by
        intro t' ht' hhash
        obtain ⟨e₁, he₁, hverified₁⟩ := hall t' ht'
        rw [hhash, he] at he₁
        cases he₁
        rw [← hverified₁.1, hverified.1]
      refine ⟨hsame, ?_⟩
      rcases hfrom with hfrom | ⟨-, first, hfirst, hhash, hw⟩
      · rw [hpool] at hfrom
        cases hfrom
      · obtain rfl := hsame first hfirst hhash
        exact (verified_posterior_iff h hw).mp hverified
  · intro hcond t ht
    obtain ⟨e, he, hfrom⟩ := entries_spec h ht
    refine ⟨e, he, ?_⟩
    rcases hfrom with hpool | ⟨hnone, first, hfirst, hhash, hw⟩
    · exact (hcond t ht).1 e hpool
    · obtain ⟨hsame, hring⟩ := (hcond t ht).2 hnone
      obtain rfl := hsame first hfirst hhash
      exact (verified_posterior_iff h hw).mpr hring

end TicketBlock

/-- Primitives whose ring proof is the key of a member, the first byte of the
signature. -/
def memberPrimitives : Primitives :=
  { samplePrimitives with
    ringVrfVerify := fun ring signature _ =>
      let key := Fin.ofNat _ (signature.toList.headD 0).toNat
      if ring.contains key then some key else none }

/-- The first block of an epoch whose designated validators are the next ones, with
a ticket of one of them. -/
def sameSetBlock : TicketBlock := { sampleBlock 12 [31] with designated := sixValidators 30 }

namespace TicketBlock

/-- Where the rotation keeps the ring, the ticket is verified against the posterior
one. -/
theorem tickets_posterior_ring_sameSet :
    ∃ s', Accepts memberPrimitives (sampleState 11 []) sameSetBlock s' ∧
      ∀ t ∈ sameSetBlock.tickets, ∃ e,
        sameSetBlock.entries memberPrimitives (sampleState 11 []) (t.hash memberPrimitives) =
            some e ∧
          e.VerifiedFor memberPrimitives t
            (ringSet memberPrimitives s'.nextValidators) s'.entropy.eta2 := by
  obtain ⟨s', hs'⟩ := Option.isSome_iff_exists.mp (show
    (sameSetBlock.transition memberPrimitives (sampleState 11 [])).toOption.isSome by
      decide +kernel)
  have haccepts : Accepts memberPrimitives (sampleState 11 []) sameSetBlock s' := ok_of_toOption hs'
  have hone : ∀ t ∈ sameSetBlock.tickets, t = sampleTicket 31 := fun t => List.mem_singleton.mp
  have hring : ringSet memberPrimitives
      ((sameSetBlock.prepare (sampleState 11 [])).cleanValidators sameSetBlock.designated) =
        ringSet memberPrimitives (sampleState 11 []).nextValidators := by
    decide +kernel
  refine ⟨s', haccepts, (tickets_posterior_ring_iff memberPrimitives sameSetBlock
    (sampleState 11 []) s' haccepts).mpr fun t ht => ⟨fun e he => ?_, fun _ => ?_⟩⟩
  · cases he
  · exact ⟨fun t' ht' _ => (hone t' ht').trans (hone t ht).symm, fun _ => hring⟩

/-- In the first block of an epoch a ticket of a member of the old ring is accepted,
which the verifier refuses for the posterior ring, and one of a member of the posterior
ring is refused. -/
theorem ticket_of_old_ring_accepted :
    (∃ s' ∈ ((sampleBlock 12 [31]).transition memberPrimitives (sampleState 11 [])).toOption,
        memberPrimitives.ringVrfVerifyWithCache
          (ringSet memberPrimitives s'.nextValidators) (sampleTicket 31).signature
          (ticketSealVRFInput s'.entropy.eta2 0) = none) ∧
      ((sampleBlock 12 [41]).transition memberPrimitives (sampleState 11 [])).toOption = none := by
  decide +kernel

end TicketBlock

end JamDuna.Safrole
