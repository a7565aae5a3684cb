/-
# The Safrole state in the trie

The part `C4` of the state: `GetSafroleBasicState` of `statedb/safrole.go`, the
encodings of `statedb/state_encode.go` and the decodings of
`statedb/state_decode.go`.

The slot-sealer series is stored in a fixed form of an epoch's length, and read back
up to its first zero ticket or zero key. A fallback series holds keys of the current
validators, among them the zero key of a validator that was replaced as an offender
before its epoch began.

`decoded_basicState` computes what is read back of the bytes of a well-formed state;
`persist_iff` says when that is the state itself. Every state reached by accepted
blocks from a well-formed one is well-formed (`WellFormed.of_accepts`).
-/

import JamDuna.Safrole.AccumulatorRuns
import JamDuna.Types.Header
import Mathlib.Data.List.TakeWhile

namespace JamDuna.Safrole

open JamDuna.Types JamDuna.Basis TicketsOrKeys

variable {α β : Type}

/-- `statedb.CTicketsOrKeys`. -/
structure CTicketsOrKeys where
  tickets : Option (Vector TicketBody epochLength)
  keys : Option (Vector Hash epochLength)

/-- `statedb.SafroleBasicState`. -/
structure SafroleBasicState where
  nextValidators : List Validator
  ringCommitment : Bytes
  slotSealerSeries : TicketsOrKeys
  ticketAccumulator : List TicketBody
  deriving DecidableEq, Repr

/-- The bytes of a hash as an array. -/
def hashArray (h : Hash) : Hash32 := ⟨h.bytes.toArray, Hash.length_bytes h⟩

theorem ofBytes_hashArray (h : Hash) : Hash.ofBytes (hashArray h).toList = h := Hash.ofBytes_bytes h

/-- `common.Hash`, and the keys of the same width. -/
def keyWire : Wire Hash := hashWire.via (fun v => Hash.ofBytes v.toList) hashArray ofBytes_hashArray

def ticketWire : Wire TicketBody :=
  ticketBodyWire.via (fun v => ⟨Hash.ofBytes v.1.toList, v.2.1⟩)
    (fun t => (hashArray t.id, t.attempt, ()))
    fun t => congrArg (TicketBody.mk · t.attempt) (ofBytes_hashArray t.id)

def validatorWire : Wire Validator :=
  (structWire "Validator" (consField ⟨"Bandersnatch", "bandersnatch"⟩ keyWire
    (consField ⟨"Ed25519", "ed25519"⟩ keyWire (consField ⟨"Bls", "bls"⟩ (byteArrayWire 144)
      (consField ⟨"Metadata", "metadata"⟩ (byteArrayWire 128) endFields))))).via
    (fun v => ⟨v.1, v.2.1, v.2.2.1, v.2.2.2.1⟩)
    (fun v => (v.bandersnatch, v.ed25519, v.bls, v.metadata, ())) fun _ => rfl

/-- `T2CT`. -/
def TicketsOrKeys.t2ct (T : TicketsOrKeys) : CTicketsOrKeys :=
  ⟨T.tickets.map (copyToArray epochLength .zero), T.keys.map (copyToArray epochLength 0)⟩

/-- `CT2T`: both loops stop at the first zero. -/
def CTicketsOrKeys.ct2t (C : CTicketsOrKeys) : TicketsOrKeys :=
  ⟨C.tickets.map fun t => t.toList.takeWhile (· != .zero),
    C.keys.map fun k => k.toList.takeWhile (· != 0)⟩

/-- `CTicketsOrKeys.Encode`, without the discriminator byte of `TicketsMark`. -/
def CTicketsOrKeys.encode : CTicketsOrKeys → Bytes
  | ⟨some tickets, none⟩ => 0 :: (arrayWire epochLength ticketWire).encode tickets
  | ⟨none, some keys⟩ => 1 :: (arrayWire epochLength keyWire).encode keys
  | _ => []

/-- `CTicketsOrKeys.Decode`. -/
def CTicketsOrKeys.decode (data : Bytes) : Option CTicketsOrKeys × UInt32 :=
  match data with
  | [] => (none, 0)
  | typeIdentifier :: encodedData =>
    if typeIdentifier = 0 then
      match (arrayWire epochLength ticketWire).elem encodedData with
      | .ok (tickets, length) => (some ⟨some tickets, none⟩, length + 1)
      | .error _ => (none, 0)
    else if typeIdentifier = 1 then
      match (arrayWire epochLength keyWire).elem encodedData with
      | .ok (keys, length) => (some ⟨none, some keys⟩, length + 1)
      | .error _ => (none, 0)
    else (none, 0)

/-- `TicketsOrKeys.Decode`. -/
def TicketsOrKeys.decode (data : Bytes) : TicketsOrKeys × UInt32 :=
  match CTicketsOrKeys.decode data with
  | (some decoded, length) =>
    if data.length < length.toNat then (⟨none, none⟩, 0) else (decoded.ct2t, length)
  | (none, _) => (⟨none, none⟩, 0)

/-- A type whose `Decode` method returns a value in every case, so that its kind is not asked. -/
def methodWire (name : String) (zero : α) (eq : DecidableEq α) (encode : α → Bytes)
    (decode : Bytes → α × UInt32) : Wire α :=
  customWire ⟨name, zero, eq, fun v => bytesKey (encode v), encode, fun _ => .error .panic⟩ encode
    fun data => some (some (decode data).1, (decode data).2)

/-- `TicketsOrKeys`, with its own `Encode` and `Decode`. -/
def ticketsOrKeysWire : Wire TicketsOrKeys :=
  methodWire "TicketsOrKeys" ⟨none, none⟩ inferInstance (fun T => T.t2ct.encode) decode

/-- A slice that is stored as an array; it is read back with the length of the array, and as an
empty one after an error. -/
def storedWire (name : String) {n : ℕ} (zero : α) (eq : DecidableEq α) (c : Wire (Vector α n)) :
    Wire (List α) :=
  methodWire name [] inferInstance (fun l => c.encode (copyToArray n zero l)) fun data =>
    match c.elem data with
    | .ok (v, length) => (v.toList, length)
    | .error _ => ([], 0)

/-- `RingCommitment`, with its own `Encode` and `Decode`. -/
def ringCommitmentWire : Wire Bytes :=
  storedWire "RingCommitment" 0 inferInstance (byteArrayWire 144)

/-- `NextValidators`, with its own `Encode` and `Decode`. -/
def nextValidatorsWire : Wire (List Validator) :=
  storedWire "NextValidators" .zero inferInstance (arrayWire totalValidators validatorWire)

/-- The struct `SafroleBasicState`. -/
def safroleBasicStateWire : Wire SafroleBasicState :=
  (structWire "SafroleBasicState" (consField ⟨"NextValidators", "gamma_k"⟩ nextValidatorsWire
    (consField ⟨"RingCommitment", "gamma_z"⟩ ringCommitmentWire
      (consField ⟨"SlotSealerSeries", "gamma_s"⟩ ticketsOrKeysWire
        (consField ⟨"TicketAccumulator", "gamma_a"⟩ (sliceWire ticketWire) endFields))))).via
    (fun v => ⟨v.1, v.2.1, v.2.2.1, v.2.2.2.1⟩)
    (fun s => (s.nextValidators, s.ringCommitment, s.slotSealerSeries, s.ticketAccumulator, ()))
    fun _ => rfl

/-- `GetSafroleStateBytes`. -/
def SafroleBasicState.getSafroleStateBytes (s : SafroleBasicState) : Bytes :=
  safroleBasicStateWire.encode s

/-- `SetSafroleState`, on the value that the state has. -/
def setSafroleState (old : SafroleBasicState) (safroleStateByte : Bytes) : SafroleBasicState :=
  if safroleStateByte.length = 0 then old
  else match safroleBasicStateWire.elem safroleStateByte with
    | .ok (safroleState, _) => safroleState
    | .error _ => old

namespace SafroleState

variable (P : Primitives) (s : SafroleState)

/-- `GetNextRingCommitment`. -/
def getNextRingCommitment : Option (Vector UInt8 144) :=
  if (ringSet P s.nextValidators).isEmpty then none
  else P.ringCommitment (ringSet P s.nextValidators)

/-- `GetSafroleBasicState`; without a commitment the field is empty. -/
def getSafroleBasicState : SafroleBasicState where
  nextValidators := s.nextValidators
  ringCommitment := (s.getNextRingCommitment P).elim [] (·.toList)
  slotSealerSeries := s.ticketsOrKeys
  ticketAccumulator := s.nextEpochTicketsAccumulator

end SafroleState

/-- What a `Decode` method reads. -/
theorem methodWire_reads {name : String} {zero v u : α} {eq : DecidableEq α} {encode : α → Bytes}
    {decode : Bytes → α × UInt32} (h : (encode v).length < 2 ^ 32 → ∀ rest,
      decode (encode v ++ rest) = (u, UInt32.ofNat (encode v).length)) :
    (methodWire name zero eq encode decode).Reads v u False :=
  customWire_reads fun hlen rest => by rw [h hlen rest]

/-- A slice is read back as the array it is stored as. -/
theorem storedWire_reads {name : String} {n : ℕ} {zero : α} {eq : DecidableEq α}
    {c : Wire (Vector α n)} (h : ∀ v, c.Reads v v False) (l : List α) :
    (storedWire name zero eq c).Reads l (copyToArray n zero l).toList False := by
  refine methodWire_reads fun hlen rest => ?_
  rw [(h _).elem.step_append hlen rest fun _ hf => hf]

theorem keyWire_reads (h : Hash) : keyWire.Reads h h False := (hashWire_reads (hashArray h)).via _

theorem length_keyWire (h : Hash) : (keyWire.encode h).length = 32 := Hash.length_bytes h

theorem keyWire_ne_nil (h : Hash) : keyWire.encode h ≠ [] := hashWire_ne_nil _

theorem ticketWire_reads (t : TicketBody) : ticketWire.Reads t t False :=
  (ticketBodyWire_reads _).via _

theorem ticketWire_ne_nil (t : TicketBody) : ticketWire.encode t ≠ [] :=
  List.append_ne_nil_of_left_ne_nil (hashWire_ne_nil _) _

theorem length_ticketWire (t : TicketBody) : (ticketWire.encode t).length = 33 := by
  show (keyWire.encode t.id ++ (toLE 1 _ ++ [])).length = 33
  rw [List.append_nil, List.length_append, length_keyWire, length_toLE]

theorem validatorWire_reads (v : Validator) : validatorWire.Reads v v False :=
  Wire.Reads.via (structWire_reads (consField_reads_of_ne_nil (keyWire_reads v.bandersnatch).elem
    (keyWire_ne_nil _) (consField_reads_of_ne_nil (keyWire_reads v.ed25519).elem (keyWire_ne_nil _)
      (consField_reads_of_ne_nil (byteArrayWire_reads v.bls).elem (toList_ne_nil (by decide) _)
        (consField_reads_of_ne_nil (byteArrayWire_reads v.metadata).elem
          (toList_ne_nil (by decide) _) (endFields_reads _)))))) _

theorem length_validatorWire (v : Validator) : (validatorWire.encode v).length = 336 := by
  show (keyWire.encode v.bandersnatch ++ (keyWire.encode v.ed25519 ++
    (v.bls.toList ++ (v.metadata.toList ++ [])))).length = 336
  simp only [List.append_nil, List.length_append, length_keyWire, Vector.length_toList]

/-- Six validators are read back. -/
theorem nextValidatorsWire_reads {K : List Validator} (h : K.length = totalValidators) :
    nextValidatorsWire.Reads K K False := by
  have hread : nextValidatorsWire.Reads K (copyToArray totalValidators .zero K).toList False :=
    storedWire_reads (arrayWire_reads_same validatorWire_reads
      fun v => List.append_ne_nil_of_left_ne_nil (keyWire_ne_nil _) _) K
  rwa [toList_copyToArray h] at hread

/-- A series of an epoch's length: tickets or keys. -/
inductive FullSeries : TicketsOrKeys → Prop
  | tickets {t : List TicketBody} : t.length = epochLength → FullSeries ⟨some t, none⟩
  | keys {k : List Hash} : k.length = epochLength → FullSeries ⟨none, some k⟩

/-- A series up to its first zero ticket or key. -/
def TicketsOrKeys.beforeZero (T : TicketsOrKeys) : TicketsOrKeys :=
  ⟨T.tickets.map fun t => t.takeWhile (· != .zero), T.keys.map fun k => k.takeWhile (· != 0)⟩

theorem ticketArray_reads (t : Vector TicketBody epochLength) :
    (arrayWire epochLength ticketWire).Reads t t False :=
  arrayWire_reads_same ticketWire_reads ticketWire_ne_nil t

theorem keyArray_reads (k : Vector Hash epochLength) :
    (arrayWire epochLength keyWire).Reads k k False :=
  arrayWire_reads_same keyWire_reads keyWire_ne_nil k

/-- **A series of an epoch's length is read back up to its first zero.** -/
theorem ticketsOrKeysWire_reads {T : TicketsOrKeys} (h : FullSeries T) :
    ticketsOrKeysWire.Reads T T.beforeZero False := by
  refine methodWire_reads fun hlen rest => ?_
  -- the array behind the first byte is read, and its length is one less
  have hbehind : ∀ (b : UInt8) (data : Bytes), (b :: data).length < 2 ^ 32 →
      data.length < 2 ^ 32 ∧ UInt32.ofNat data.length + 1 = UInt32.ofNat (b :: data).length ∧
        ¬ (b :: (data ++ rest)).length < (UInt32.ofNat (b :: data).length).toNat := by
    intro b data hdata
    rw [toNat_ofNat_of_lt hdata]
    simp only [List.length_cons, List.length_append] at hdata ⊢
    exact ⟨by omega, (UInt32.ofNat_add _ 1).symm, by omega⟩
  cases h with
  | @tickets t hfull =>
    obtain ⟨hshort, hnext, hin⟩ := hbehind 0
      ((arrayWire epochLength ticketWire).encode (copyToArray epochLength .zero t)) hlen
    have hread := (ticketArray_reads _).elem.step_append hshort rest fun _ hf => hf
    show decode (0 :: ((arrayWire epochLength ticketWire).encode _ ++ rest)) = _
    simp only [decode, CTicketsOrKeys.decode, if_pos, hread, hnext, if_neg hin]
    simp [t2ct, CTicketsOrKeys.encode, CTicketsOrKeys.ct2t, beforeZero, toList_copyToArray hfull]
  | @keys k hfull =>
    obtain ⟨hshort, hnext, hin⟩ := hbehind 1
      ((arrayWire epochLength keyWire).encode (copyToArray epochLength 0 k)) hlen
    have hread := (keyArray_reads _).elem.step_append hshort rest fun _ hf => hf
    show decode (1 :: ((arrayWire epochLength keyWire).encode _ ++ rest)) = _
    simp only [decode, CTicketsOrKeys.decode, if_neg (by decide : ¬ (1 : UInt8) = 0), if_pos, hread,
      hnext, if_neg hin]
    simp [t2ct, CTicketsOrKeys.encode, CTicketsOrKeys.ct2t, beforeZero, toList_copyToArray hfull]

/-- The length of a sequence whose elements have the same number of bytes. -/
theorem length_flatMap_encode {c : Wire α} {k : ℕ} (h : ∀ a, (c.encode a).length = k)
    (as : List α) : (as.flatMap c.encode).length = as.length * k := by
  simp [List.length_flatMap, h]

theorem length_nextValidatorsWire (K : List Validator) :
    (nextValidatorsWire.encode K).length = totalValidators * 336 :=
  (length_flatMap_encode length_validatorWire _).trans (by rw [Vector.length_toList])

theorem length_ringCommitmentWire (Z : Bytes) : (ringCommitmentWire.encode Z).length = 144 :=
  Vector.length_toList

/-- A full series has at least one byte, and at most those of the tickets of an epoch. -/
theorem length_ticketsOrKeysWire {T : TicketsOrKeys} (h : FullSeries T) :
    0 < (ticketsOrKeysWire.encode T).length ∧
      (ticketsOrKeysWire.encode T).length ≤ 1 + epochLength * 33 := by
  cases h with
  | @tickets t _ =>
    have hlen : (ticketsOrKeysWire.encode ⟨some t, none⟩).length = epochLength * 33 + 1 :=
      congrArg Nat.succ ((length_flatMap_encode length_ticketWire _).trans
        (by rw [Vector.length_toList]))
    omega
  | @keys k _ =>
    have hlen : (ticketsOrKeysWire.encode ⟨none, some k⟩).length = epochLength * 32 + 1 :=
      congrArg Nat.succ ((length_flatMap_encode length_keyWire _).trans
        (by rw [Vector.length_toList]))
    omega

/-- What the bytes of a state are read back to. -/
theorem safroleBasicStateWire_reads {s : SafroleBasicState}
    (hnext : s.nextValidators.length = totalValidators)
    (hseries : FullSeries s.slotSealerSeries) :
    safroleBasicStateWire.Reads s ⟨s.nextValidators, (copyToArray 144 0 s.ringCommitment).toList,
        s.slotSealerSeries.beforeZero, s.ticketAccumulator⟩ False := by
  have hslice := sliceWire_reads_same ticketWire_reads ticketWire_ne_nil s.ticketAccumulator
  refine Wire.Reads.via (structWire_reads (consField_reads_of_ne_nil
    (nextValidatorsWire_reads hnext).elem (List.ne_nil_of_length_pos ?_)
    (consField_reads_of_ne_nil (storedWire_reads byteArrayWire_reads _).elem
      (List.ne_nil_of_length_pos ?_)
      (consField_reads_of_ne_nil (ticketsOrKeysWire_reads hseries).elem
        (List.ne_nil_of_length_pos (length_ticketsOrKeysWire hseries).1)
        (consField_reads_of_ne_nil (v := (s.ticketAccumulator, ()))
          (u := (s.ticketAccumulator, ())) hslice.elem (sliceWire_ne_nil _ _)
          (endFields_reads _)))))) _
  · rw [length_nextValidatorsWire]
    decide
  · rw [length_ringCommitmentWire]
    decide

/-- A state has less than 4 GiB. -/
theorem length_getSafroleStateBytes {s : SafroleBasicState}
    (hseries : FullSeries s.slotSealerSeries) (hacc : s.ticketAccumulator.length ≤ epochLength) :
    0 < s.getSafroleStateBytes.length ∧ s.getSafroleStateBytes.length < 2 ^ 32 := by
  have hbytes : s.getSafroleStateBytes = nextValidatorsWire.encode s.nextValidators ++
      (ringCommitmentWire.encode s.ringCommitment ++ (ticketsOrKeysWire.encode s.slotSealerSeries ++
        ((E s.ticketAccumulator.length ++ s.ticketAccumulator.flatMap ticketWire.encode) ++ []))) :=
    rfl
  have hcode := E_length_le s.ticketAccumulator.length
  have hsealers := (length_ticketsOrKeysWire hseries).2
  simp only [hbytes, List.length_append, length_nextValidatorsWire, length_ringCommitmentWire,
    length_flatMap_encode length_ticketWire, totalValidators, List.length_nil] at *
  simp only [epochLength] at hacc hsealers
  omega

/-- **What is read back.** The bytes of a state with a full series set every part but
the commitment, which is filled up, and the series, which ends before its first
zero. -/
theorem decoded_basicState {s : SafroleBasicState}
    (hnext : s.nextValidators.length = totalValidators) (hseries : FullSeries s.slotSealerSeries)
    (hacc : s.ticketAccumulator.length ≤ epochLength) (old : SafroleBasicState) :
    setSafroleState old s.getSafroleStateBytes =
      ⟨s.nextValidators, (copyToArray 144 0 s.ringCommitment).toList,
        s.slotSealerSeries.beforeZero, s.ticketAccumulator⟩ := by
  obtain ⟨hpos, hlen⟩ := length_getSafroleStateBytes hseries hacc
  have hread := (safroleBasicStateWire_reads hnext hseries).elem.step_append hlen [] fun _ hf => hf
  rw [List.append_nil] at hread
  unfold setSafroleState
  rw [if_neg (by omega)]
  exact hread ▸ rfl

namespace SafroleState

/-- The shape of the parts that are stored. -/
structure WellFormed (s : SafroleState) : Prop where
  next : s.nextValidators.length = totalValidators
  series : FullSeries s.ticketsOrKeys
  accumulator : s.nextEpochTicketsAccumulator.length ≤ epochLength

variable {P : Primitives} {s s' : SafroleState}

theorem length_chooseFallBackValidator {keys : List Hash}
    (h : s.chooseFallBackValidator P = .ok keys) : keys.length = epochLength := by
  unfold chooseFallBackValidator at h
  split_ifs at h
  cases h
  simp

/-- The series that an epoch gets is full. -/
theorem fullSeries_of_transitionSeries {ticketEpoch : Bool} {series : TicketsOrKeys}
    (h : transitionSeries P s ticketEpoch = .ok series) : FullSeries series := by
  by_cases hfull : s.nextEpochTicketsAccumulator.length = epochLength ∧ ticketEpoch = true
  · rw [hfull.2, transitionSeries_of_full hfull.1] at h
    cases h
    exact .tickets (length_computeTicketSlotBinding hfull.1)
  · rw [transitionSeries_fallback hfull] at h
    cases hkeys : s.chooseFallBackValidator P with
    | error e =>
      rw [hkeys] at h
      cases e <;> cases h
    | ok keys =>
      rw [hkeys] at h
      cases h
      exact .keys (length_chooseFallBackValidator hkeys)

/-- The rotation of the validator sets keeps their number. -/
theorem length_nextValidators_advance (hnext : s.nextValidators.length = totalValidators)
    (hdesignated : s.designatedValidators.length = totalValidators) (e : Hash) :
    (advanceEntropyAndValidator s s e).nextValidators.length = totalValidators := by
  unfold advanceEntropyAndValidator
  dsimp only
  split_ifs
  · exact hnext
  all_goals rw [length_cleanValidators, hdesignated]

/-- **An accepted block leaves a well-formed state.** -/
theorem WellFormed.of_accepts {b : TicketBlock} (hs : s.WellFormed)
    (hdesignated : b.designated.length = totalValidators) (h : b.Accepts P s s') :
    s'.WellFormed := by
  obtain ⟨bodies, valid, fresh, s2, advanced, -, hnext, rfl⟩ := applyStateTransitionTickets_spec h
  obtain ⟨-, series, hseries, rfl⟩ | ⟨-, rfl⟩ := validateTicketTransition_spec hnext
  · exact ⟨length_nextValidators_advance (s := b.prepare s) hs.next hdesignated _,
      fullSeries_of_transitionSeries hseries, length_keepLeast_le epochLength⟩
  · exact ⟨hs.next, hs.series, length_keepLeast_le epochLength⟩

/-- The states that accepted blocks lead to from a well-formed one, the designated
validators being as many as there are validators. -/
def Reachable (P : Primitives) (s : SafroleState) : Prop :=
  ∃ s₀ bs, WellFormed s₀ ∧ Run (fun s (b : TicketBlock) s' =>
      b.designated.length = totalValidators ∧ b.Accepts P s s') s₀ bs s

theorem Reachable.wellFormed (h : Reachable P s) : s.WellFormed := by
  obtain ⟨s₀, bs, h₀, hrun⟩ := h
  exact hrun.preserves (fun _ _ _ hstep ht => ht.of_accepts hstep.1 hstep.2) h₀

end SafroleState

/-- No ticket and no key of a series is zero. -/
def TicketsOrKeys.NoZero (T : TicketsOrKeys) : Prop :=
  (∀ tickets ∈ T.tickets, ∀ t ∈ tickets, t ≠ .zero) ∧ ∀ keys ∈ T.keys, ∀ k ∈ keys, k ≠ 0

theorem map_takeWhile_eq_self_iff {α : Type} [DecidableEq α] {o : Option (List α)} {zero : α} :
    (o.map fun l => l.takeWhile (· != zero)) = o ↔ ∀ l ∈ o, ∀ a ∈ l, a ≠ zero := by
  cases o with
  | none => simp
  | some l => simp [List.takeWhile_eq_self_iff]

theorem TicketsOrKeys.beforeZero_eq_self_iff {T : TicketsOrKeys} : T.beforeZero = T ↔ T.NoZero := by
  rw [beforeZero, NoZero, ← map_takeWhile_eq_self_iff, ← map_takeWhile_eq_self_iff, mk.injEq]

instance TicketsOrKeys.decidableNoZero (T : TicketsOrKeys) : Decidable T.NoZero :=
  decidable_of_iff (T.beforeZero = T) beforeZero_eq_self_iff

/-- A commitment that could not be computed is stored as zeros. -/
theorem commitment_eq_iff {Z : Option (Vector UInt8 144)} :
    (copyToArray 144 0 (Z.elim [] (·.toList))).toList = Z.elim [] (·.toList) ↔ Z.isSome := by
  cases Z with
  | none =>
    refine iff_of_false (fun h => ?_) (by simp)
    have hlen := congrArg List.length h
    rw [Vector.length_toList] at hlen
    cases hlen
  | some Z =>
    refine iff_of_true (toList_copyToArray ?_) rfl
    exact Vector.length_toList

namespace SafroleState

/-- **The Safrole state in the trie.** For every reachable state the bytes are read
back to the same next validators, commitment, series and accumulator, and encoded again
to the same bytes, precisely if the series has no zero ticket and no zero key and the
ring commitment could be computed. -/
theorem persist_iff (P : Primitives) (s : SafroleState) (h : Reachable P s) :
    (∀ old, setSafroleState old (s.getSafroleBasicState P).getSafroleStateBytes =
          s.getSafroleBasicState P ∧
        (setSafroleState old (s.getSafroleBasicState P).getSafroleStateBytes).getSafroleStateBytes =
            (s.getSafroleBasicState P).getSafroleStateBytes) ↔
      s.ticketsOrKeys.NoZero ∧ (s.getNextRingCommitment P).isSome = true := by
  have hwf := h.wellFormed
  have hdecoded := decoded_basicState (s := s.getSafroleBasicState P) hwf.next hwf.series
    hwf.accumulator
  rw [← beforeZero_eq_self_iff, ← commitment_eq_iff]
  constructor
  · intro hall
    have heq := (hall ⟨[], [], ⟨none, none⟩, []⟩).1
    rw [hdecoded] at heq
    exact ⟨congrArg SafroleBasicState.slotSealerSeries heq,
      congrArg SafroleBasicState.ringCommitment heq⟩
  · rintro ⟨hseries, hcommitment⟩ old
    have heq : setSafroleState old (s.getSafroleBasicState P).getSafroleStateBytes =
        s.getSafroleBasicState P := by
      rw [hdecoded]
      exact congrArg₂ (fun Z T => SafroleBasicState.mk s.nextValidators Z T
        s.nextEpochTicketsAccumulator) hcommitment hseries
    exact ⟨heq, congrArg _ heq⟩

end SafroleState

/-- Primitives that give slot `i` of a fallback epoch to validator `i` modulo their
number. -/
def indexPrimitives : Primitives :=
  { samplePrimitives with
    blake2 := fun data => Fin.ofNat _ ((data.getD 32 0).toNat * 256 ^ 31) }

/-- The state after the blocks, from the sample state of slot 0. -/
def afterBlocks (bs : List TicketBlock) : Option SafroleState :=
  bs.foldlM (fun s (b : TicketBlock) =>
    if b.designated.length = totalValidators then (b.transition indexPrimitives s).toOption
    else none) (sampleState 0 [])

theorem reachable_of_afterBlocks {bs : List TicketBlock} {s : SafroleState}
    (h : afterBlocks bs = some s) : s.Reachable indexPrimitives := by
  refine ⟨sampleState 0 [], bs, ⟨rfl, .keys rfl, Nat.zero_le _⟩, Run.of_foldlM ?_ h⟩
  intro t b u hstep
  split_ifs at hstep with hdesignated
  exact ⟨hdesignated, ok_of_toOption hstep⟩

namespace SafroleState

/-- The fallback series of an epoch without offenders is read back. -/
theorem persist_fallback_keys : ∃ s : SafroleState, s.Reachable indexPrimitives ∧
      ∀ old, setSafroleState old (s.getSafroleBasicState indexPrimitives).getSafroleStateBytes =
          s.getSafroleBasicState indexPrimitives ∧
        (setSafroleState old
          (s.getSafroleBasicState indexPrimitives).getSafroleStateBytes).getSafroleStateBytes =
            (s.getSafroleBasicState indexPrimitives).getSafroleStateBytes := by
  obtain ⟨s, hs, hcond⟩ : ∃ s, afterBlocks [sampleBlock 12 []] = some s ∧
      s.ticketsOrKeys.NoZero ∧ (s.getNextRingCommitment indexPrimitives).isSome := by
    decide +kernel
  have hreach := reachable_of_afterBlocks hs
  exact ⟨s, hreach, (persist_iff indexPrimitives s hreach).mpr hcond⟩

/-- When an offender is among the current validators the series of twelve keys is read
back empty, and encoded again to other bytes. -/
theorem series_with_zero_key_lost : ∃ s : SafroleState, s.Reachable indexPrimitives ∧
      s.ticketsOrKeys.keys = some [0, 41, 42, 43, 44, 45, 0, 41, 42, 43, 44, 45] ∧
      (setSafroleState ⟨[], [], ⟨none, none⟩, []⟩
        (s.getSafroleBasicState indexPrimitives).getSafroleStateBytes).slotSealerSeries.keys =
          some [] ∧
      (setSafroleState ⟨[], [], ⟨none, none⟩, []⟩
        (s.getSafroleBasicState indexPrimitives).getSafroleStateBytes).getSafroleStateBytes ≠
          (s.getSafroleBasicState indexPrimitives).getSafroleStateBytes := by
  obtain ⟨s, hs, hkeys, hseries, hbytes⟩ : ∃ s,
      afterBlocks [{ sampleBlock 12 [] with offenders := [40] }, sampleBlock 24 []] = some s ∧
      s.ticketsOrKeys.keys = some [0, 41, 42, 43, 44, 45, 0, 41, 42, 43, 44, 45] ∧
      let stored := s.getSafroleBasicState indexPrimitives
      stored.slotSealerSeries.beforeZero.keys = some [] ∧
        SafroleBasicState.getSafroleStateBytes ⟨stored.nextValidators,
          (copyToArray 144 0 stored.ringCommitment).toList, stored.slotSealerSeries.beforeZero,
          stored.ticketAccumulator⟩ ≠ stored.getSafroleStateBytes := by decide +kernel
  have hreach := reachable_of_afterBlocks hs
  have hwf := hreach.wellFormed
  have hread := decoded_basicState (s := s.getSafroleBasicState indexPrimitives) hwf.next hwf.series
    hwf.accumulator
  refine ⟨s, hreach, hkeys, ?_, ?_⟩
  all_goals rw [hread]
  · exact hseries
  · exact hbytes

end SafroleState

end JamDuna.Safrole
