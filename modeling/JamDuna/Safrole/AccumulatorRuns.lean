/-
# The ticket accumulator along a chain

Blocks change the Safrole state one after another through
`SafroleState.ApplyStateTransitionTickets`; before each of them
`ApplyStateTransitionFromBlock` sets the offenders, and the designated validators are
what the accumulation of the block before left.

`ApplyStateTransitionTickets` keeps the twelve least identifiers. It does not compare
the number of tickets with `MaxTicketsPerExtrinsic`, it accepts equal identifiers next
to each other, and it drops a ticket that is not among the least without an error.
`accumulator_run_iff` says that this is all: along every run from an empty accumulator
each block keeps the accumulator strictly increasing and all its tickets in it,
precisely if each has few, distinct and useful tickets (`Orderly`).
-/

import JamDuna.Basis.Runs
import JamDuna.Safrole.Tickets

namespace JamDuna.Safrole

open JamDuna.Types JamDuna.Basis SafroleState

/-- A block, with what the node brings to its transition: the validated tickets of the
pool, the offenders and the designated validators. -/
structure TicketBlock where
  tickets : List Ticket
  targetJCE : UInt32
  header : Header
  pool : ValidTickets
  offenders : List Ed25519Key
  designated : List Validator

namespace TicketBlock

variable (P : Primitives) (b : TicketBlock) (s : SafroleState)

/-- The state before the transition. -/
def prepare : SafroleState :=
  { s with offenderState := b.offenders, designatedValidators := b.designated }

/-- The transition of a block. -/
def transition : Check SafroleState :=
  (b.prepare s).applyStateTransitionTickets P b.tickets b.targetJCE b.header b.pool

/-- The bodies that are found for the tickets of a block. -/
def bodies : List TicketBody :=
  match (b.prepare s).validateSaforle P b.tickets b.targetJCE b.header b.pool with
  | .ok validated => validated.1
  | .error _ => []

/-- The block is accepted. -/
def Accepts (s : SafroleState) (b : TicketBlock) (s' : SafroleState) : Prop :=
  b.transition P s = .ok s'

/-- What an accepted block is to keep. -/
structure Keeps (s : SafroleState) (b : TicketBlock) (s' : SafroleState) : Prop where
  increasing : s'.nextEpochTicketsAccumulator.Pairwise fun x y => x.id < y.id
  bounded : s'.nextEpochTicketsAccumulator.length ≤ epochLength
  few : b.tickets.length ≤ maxTicketsPerExtrinsic
  ordered : (b.bodies P s).Pairwise fun x y => x.id < y.id
  retained : ∀ body ∈ b.bodies P s, body ∈ s'.nextEpochTicketsAccumulator

/-- The block has few tickets, with different identifiers, each among the least of the
accumulator and the block. -/
def Orderly (s : SafroleState) (b : TicketBlock) : Prop :=
  b.tickets.length ≤ maxTicketsPerExtrinsic ∧ ((b.bodies P s).map TicketBody.id).Nodup ∧
    ∀ body ∈ b.bodies P s,
      (s.openAccumulator b.targetJCE ++ b.bodies P s).countP (fun x => decide (x.id < body.id)) <
        epochLength

instance Orderly.decidable : Decidable (Orderly P s b) :=
  inferInstanceAs (Decidable (_ ∧ _ ∧ ∀ body ∈ b.bodies P s, _))

end TicketBlock

namespace TicketBlock

variable {P : Primitives} {b : TicketBlock} {s s' : SafroleState}

/-- An accepted block's bodies are in order and new to the accumulator, and what is
kept are the least of the accumulator and the bodies. -/
theorem accepts_spec (h : Accepts P s b s') : s'.nextEpochTicketsAccumulator =
        keepLeast TicketBody.id epochLength (s.openAccumulator b.targetJCE ++ b.bodies P s) ∧
      (b.bodies P s).Pairwise (fun x y => x.id ≤ y.id) ∧
      ∀ body ∈ b.bodies P s, body.id ∉ s.nextEpochTicketsAccumulator.map TicketBody.id := by
  obtain ⟨bodies, valid, fresh, s2, advanced, hvalid, -, rfl⟩ :=
    applyStateTransitionTickets_spec h
  have hbodies : b.bodies P s = bodies := by
    unfold TicketBlock.bodies
    rw [hvalid]
  have hspec := validateSaforle_spec hvalid
  rw [hbodies]
  exact ⟨rfl, hspec.ordered, hspec.fresh⟩

/-- What a block's tickets are put into is strictly increasing when the accumulator
is. -/
theorem openAccumulator_increasing (targetJCE : UInt32)
    (h : s.nextEpochTicketsAccumulator.Pairwise fun x y => x.id < y.id) :
    (s.openAccumulator targetJCE).Pairwise fun x y => x.id < y.id := by
  unfold openAccumulator
  split
  · exact .nil
  · exact h

theorem mem_of_mem_openAccumulator {targetJCE : UInt32} {x : TicketBody}
    (h : x ∈ s.openAccumulator targetJCE) : x ∈ s.nextEpochTicketsAccumulator := by
  unfold openAccumulator at h
  split at h
  · cases h
  · exact h

section

variable (h : Accepts P s b s') (hs : s.nextEpochTicketsAccumulator.Pairwise fun x y => x.id < y.id)
include h hs

/-- The identifiers of an accumulator that increases and of different bodies are all
different. -/
theorem ids_nodup (hdistinct : ((b.bodies P s).map TicketBody.id).Nodup) :
    ((s.openAccumulator b.targetJCE ++ b.bodies P s).map TicketBody.id).Nodup := by
  have hopen : ((s.openAccumulator b.targetJCE).map TicketBody.id).Nodup :=
    List.pairwise_map.mpr ((openAccumulator_increasing b.targetJCE hs).imp fun hlt => hlt.ne)
  rw [List.map_append]
  refine hopen.append hdistinct fun id hid hid' => ?_
  obtain ⟨x, hx, rfl⟩ := List.mem_map.mp hid
  obtain ⟨body, hbody, heq⟩ := List.mem_map.mp hid'
  refine (accepts_spec h).2.2 body hbody ?_
  rw [heq]
  exact List.mem_map_of_mem (mem_of_mem_openAccumulator hx)

/-- **One block.** From an increasing accumulator an accepted block keeps what it is to
keep precisely if it is orderly. -/
theorem keeps_iff_orderly : Keeps P s b s' ↔ Orderly P s b := by
  obtain ⟨hacc, hordered, -⟩ := accepts_spec h
  -- with different identifiers, staying is having few smaller ones
  have hstay (hdistinct : ((b.bodies P s).map TicketBody.id).Nodup) (body : TicketBody)
      (hbody : body ∈ b.bodies P s) :=
    mem_keepLeast_iff (ids_nodup h hs hdistinct) (List.mem_append_right _ hbody) epochLength
  constructor
  · intro hkeeps
    have hdistinct : ((b.bodies P s).map TicketBody.id).Nodup :=
      List.pairwise_map.mpr (hkeeps.ordered.imp fun hlt => hlt.ne)
    refine ⟨hkeeps.few, hdistinct, fun body hbody => ?_⟩
    rw [← hstay hdistinct body hbody, ← hacc]
    exact hkeeps.retained body hbody
  · rintro ⟨hfew, hdistinct, huseful⟩
    refine ⟨?_, ?_, hfew, pairwise_lt_of_nodup hordered hdistinct, fun body hbody => ?_⟩
    · rw [hacc]
      exact keepLeast_pairwise (ids_nodup h hs hdistinct) epochLength
    · rw [hacc]
      exact length_keepLeast_le epochLength
    · rw [hacc, hstay hdistinct body hbody]
      exact huseful body hbody

end

/-- **The accumulator along a chain.** From an empty accumulator the runs of accepted
blocks that all keep the accumulator strictly increasing and bounded, bring at most
`MaxTicketsPerExtrinsic` tickets in strictly increasing order and have them all
retained, are the runs of accepted blocks that are all orderly. -/
theorem accumulator_run_iff (P : Primitives) {s₀ : SafroleState}
    (h₀ : s₀.nextEpochTicketsAccumulator = []) (bs : List TicketBlock) (s : SafroleState) :
    Run (fun s b s' => Accepts P s b s' ∧ Keeps P s b s') s₀ bs s ↔
      Run (fun s b s' => Accepts P s b s' ∧ Orderly P s b) s₀ bs s := by
  refine Run.congr
    (I := fun s => s.nextEpochTicketsAccumulator.Pairwise fun x y => x.id < y.id) ?_ ?_ ?_
  · rw [h₀]
    exact .nil
  · intro t b u _ hstep
    exact hstep.2.increasing
  · intro t b u hinc
    exact and_congr_right fun h => keeps_iff_orderly h hinc

end TicketBlock

/-- A ticket with the given identifier, under the sample primitives. -/
def sampleTicket (id : UInt8) : Ticket := ⟨0, Vector.replicate _ id⟩

/-- A block of the given slot with the given tickets; the pool is empty. -/
def sampleBlock (slot : UInt32) (ids : List UInt8) : TicketBlock :=
  ⟨ids.map sampleTicket, slot, ⟨none, Vector.replicate _ 0⟩, fun _ => none, [], sixValidators 40⟩

namespace TicketBlock

/-- Two blocks with two tickets each, the second in the middle of the first. -/
theorem accumulator_run_twoBlocks :
    ∃ s, s.nextEpochTicketsAccumulator.map TicketBody.id = [3, 4, 5, 7] ∧
      Run (fun s b s' => Accepts samplePrimitives s b s' ∧ Keeps samplePrimitives s b s')
        (sampleState 0 []) [sampleBlock 1 [3, 7], sampleBlock 2 [4, 5]] s := by
  obtain ⟨s, hs, hids⟩ := Option.map_eq_some_iff.mp (show
    ([sampleBlock 1 [3, 7], sampleBlock 2 [4, 5]].foldlM
      (fun s (b : TicketBlock) => (b.transition samplePrimitives s).toOption.filter
        fun _ => decide (Orderly samplePrimitives s b)) (sampleState 0 [])).map
          (fun s => s.nextEpochTicketsAccumulator.map TicketBody.id) = some [3, 4, 5, 7] by
    decide +kernel)
  refine ⟨s, hids, (accumulator_run_iff samplePrimitives rfl _ s).mpr (Run.of_foldlM ?_ hs)⟩
  intro t b u h
  obtain ⟨hu, hord⟩ := Option.filter_eq_some_iff.mp h
  exact ⟨ok_of_toOption hu, of_decide_eq_true hord⟩

/-- A block that repeats a ticket is accepted, and so is one with thirteen tickets, of
which one is dropped. -/
theorem repeated_and_dropped_tickets :
    ((sampleBlock 1 [5, 5]).transition samplePrimitives (sampleState 0 [])).toOption.map
        (fun s => s.nextEpochTicketsAccumulator.map TicketBody.id) = some [5, 5] ∧
      ((sampleBlock 1 [1, 2, 3, 4, 5, 6, 7, 8, 9, 10, 11, 12, 13]).transition samplePrimitives
          (sampleState 0 [])).toOption.map
        (fun s => s.nextEpochTicketsAccumulator.map TicketBody.id) =
          some [1, 2, 3, 4, 5, 6, 7, 8, 9, 10, 11, 12] := by
  decide +kernel

end TicketBlock

end JamDuna.Safrole
