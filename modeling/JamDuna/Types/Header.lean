/-
# Block headers and work results

The types with `Encode` and `Decode` methods of their own that are looked at here:
`BlockHeader` (`types/header.go`), with the pointers `*EpochMark` and `*TicketsMark` inside
it (`types/epochmark.go`, `types/ticketbody.go`), and `Result` (`types/workresult.go`).

Such a `Decode` method has no error to return. Where one of its calls of the codec fails
it returns nil, with the number of bytes read so far; where it indexes past the end of the
data it panics, and `CheckCustomDecode` recovers.
-/

import JamDuna.Types.StructLaws

namespace JamDuna.Types

open JamDuna.Basis

variable {α β : Type}

/-- A declared type. -/
def Wire.named (name : String) (c : Wire α) : Wire α := { c with name := name }

/-- The same type with other values for it. -/
def Wire.via (c : Wire α) (out : α → β) (back : β → α) (h : Function.LeftInverse out back) :
    Wire β where
  name := c.name
  zero := out c.zero
  eq := haveI := c.eq; h.injective.decidableEq
  sortKey v := c.sortKey (back v)
  encode v := c.encode (back v)
  decode data := do
    let (a, l) ← c.decode data
    pure (a.map out, l)

/-- `reflect.Ptr`. A pointer that is not nil is encoded as what it points to. -/
def ptrWire (c : Wire α) : Wire (Option α) where
  name := ""
  zero := none
  eq := haveI := c.eq; inferInstance
  sortKey v := bytesKey (v.elim [0] c.encode)
  encode v := v.elim [0] c.encode
  decode
    | [] => .error (.err "data length insufficient for pointer indicator")
    | b :: data =>
      if b = 0 then .ok (some none, 1)
      else do
        let (a, length) ← decodeNext c.elem "data length insufficient for pointer content"
          (b :: data) 0
        pure (some (some a), length)

/-- A call of `Decode` in a `Decode` method: after an error the method returns nil and the
length so far. -/
def orNil (c : Wire α) (data : Bytes) (length : UInt32) : Except (Stop UInt32) (α × UInt32) := do
  let (a, l) ← withError length (c.decode (data.drop length.toNat))
  pure (a.getD c.zero, length + l)

/-- What a `Decode` method returns. -/
def returned : Except (Stop UInt32) (α × UInt32) → Option (Option α × UInt32)
  | .ok (a, length) => some (some a, length)
  | .error (.err length) => some (none, length)
  | .error .panic => none

/-- `common.Hash`. -/
abbrev Hash32 : Type := Vector UInt8 32

def hashWire : Wire Hash32 := (byteArrayWire 32).named "Hash"

/-- `ValidatorKeyTuple`: the Bandersnatch and the Ed25519 key. -/
abbrev ValidatorKeyTuple : Type := Hash32 × Hash32 × Unit

def validatorKeyTupleWire : Wire ValidatorKeyTuple :=
  structWire "ValidatorKeyTuple" (consField ⟨"BandersnatchKey", "bandersnatch"⟩ hashWire
    (consField ⟨"Ed25519Key", "ed25519"⟩ hashWire endFields))

/-- `EpochMark`: the entropy, the tickets' entropy and the keys of the validators. -/
abbrev EpochMark : Type := Hash32 × Hash32 × Vector ValidatorKeyTuple totalValidators × Unit

def epochMarkKind : Wire EpochMark :=
  structWire "EpochMark" (consField ⟨"Entropy", "entropy"⟩ hashWire
    (consField ⟨"TicketsEntropy", "tickets_entropy"⟩ hashWire
      (consField ⟨"Validators", "validators"⟩ (arrayWire totalValidators validatorKeyTupleWire)
        endFields)))

/-- `(*EpochMark).Encode`. -/
def epochMarkEncode : Option EpochMark → Bytes
  | none => [0]
  | some e => 1 :: epochMarkKind.encode e

/-- `(*EpochMark).Decode`. -/
def epochMarkDecode : Bytes → Option (Option (Option EpochMark) × UInt32)
  | [] => none
  | b :: rest =>
    if b = 0 then some (none, 1)
    else returned do
      let (entropy, length) ← orNil hashWire (b :: rest) 1
      let (ticketsEntropy, length) ← orNil hashWire (b :: rest) length
      let (validators, length) ← orNil (arrayWire totalValidators validatorKeyTupleWire)
        (b :: rest) length
      pure (some (entropy, ticketsEntropy, validators, ()), length)

def epochMarkWire : Wire (Option EpochMark) :=
  customWire (ptrWire epochMarkKind) epochMarkEncode epochMarkDecode

/-- `TicketBody`: the identifier and the attempt. -/
abbrev TicketBodyFields : Type := Hash32 × UInt8 × Unit

def ticketBodyWire : Wire TicketBodyFields :=
  structWire "TicketBody" (consField ⟨"Id", "id"⟩ hashWire
    (consField ⟨"Attempt", "attempt"⟩ uint8Wire endFields))

abbrev TicketsMark : Type := Vector TicketBodyFields epochLength

/-- `(*TicketsMark).Encode`. -/
def ticketsMarkEncode : Option TicketsMark → Bytes
  | none => [0]
  | some t => 1 :: t.toList.flatMap ticketBodyWire.encode

/-- The loop of `(*TicketsMark).Decode`. -/
def ticketsMarkLoop (data : Bytes) :
    ℕ → UInt32 → Except (Stop UInt32) (List TicketBodyFields × UInt32)
  | 0, length => pure ([], length)
  | n + 1, length => do
    let (t, length₁) ← orNil ticketBodyWire data length
    let (ts, length₂) ← ticketsMarkLoop data n length₁
    pure (t :: ts, length₂)

/-- `(*TicketsMark).Decode`. -/
def ticketsMarkDecode : Bytes → Option (Option (Option TicketsMark) × UInt32)
  | [] => none
  | b :: rest =>
    if b = 0 then some (none, 1)
    else returned do
      let (ts, length) ← ticketsMarkLoop (b :: rest) epochLength 1
      pure (some (copyToArray epochLength ticketBodyWire.zero ts), length)

def ticketsMarkWire : Wire (Option TicketsMark) :=
  customWire (ptrWire ((arrayWire epochLength ticketBodyWire).named "TicketsMark"))
    ticketsMarkEncode ticketsMarkDecode

/-- `BandersnatchVrfSignature`. -/
abbrev VrfSignature : Type := Vector UInt8 96

def vrfSignatureWire : Wire VrfSignature := (byteArrayWire 96).named "BandersnatchVrfSignature"

def ed25519KeyWire : Wire Hash32 := (byteArrayWire 32).named "Ed25519Key"

/-- `BlockHeader`. The tickets are pointers. -/
structure BlockHeader where
  parentHeaderHash : Hash32
  parentStateRoot : Hash32
  extrinsicHash : Hash32
  slot : UInt32
  epochMark : Option EpochMark
  ticketsMark : List (Option TicketBodyFields)
  offendersMark : List Hash32
  authorIndex : UInt16
  entropySource : VrfSignature
  headerSeal : VrfSignature

/-- `CBlockHeader`, the form of a header that is encoded, field by field. -/
abbrev CBlockHeader : Type :=
  Hash32 × Hash32 × Hash32 × UInt32 × Option EpochMark × Option TicketsMark × UInt16 ×
    VrfSignature × List Hash32 × VrfSignature × Unit

def cBlockHeaderWire : Wire CBlockHeader :=
  structWire "CBlockHeader" (consField ⟨"ParentHeaderHash", "parent"⟩ hashWire
    (consField ⟨"ParentStateRoot", "parent_state_root"⟩ hashWire
    (consField ⟨"ExtrinsicHash", "extrinsic_hash"⟩ hashWire
    (consField ⟨"Slot", "slot"⟩ uint32Wire
    (consField ⟨"EpochMark", "epoch_mark,omitempty"⟩ epochMarkWire
    (consField ⟨"TicketsMark", "tickets_mark"⟩ ticketsMarkWire
    (consField ⟨"AuthorIndex", "author_index"⟩ uint16Wire
    (consField ⟨"EntropySource", "entropy_source"⟩ vrfSignatureWire
    (consField ⟨"OffendersMark", "offenders_mark"⟩ (sliceWire ed25519KeyWire)
    (consField ⟨"Seal", "seal"⟩ vrfSignatureWire endFields))))))))))

/-- `ConvertTicketsMark`: a mark must have a ticket for every slot of an epoch. -/
def convertTicketsMark (ts : List (Option TicketBodyFields)) : Option TicketsMark :=
  if ts.length = epochLength ∧ ts.all Option.isSome then
    some (copyToArray epochLength ticketBodyWire.zero (ts.map fun t => t.getD ticketBodyWire.zero))
  else none

def BlockHeader.toCBlockHeader (b : BlockHeader) : CBlockHeader :=
  (b.parentHeaderHash, b.parentStateRoot, b.extrinsicHash, b.slot, b.epochMark,
    convertTicketsMark b.ticketsMark, b.authorIndex, b.entropySource, b.offendersMark,
    b.headerSeal, ())

def BlockHeader.fromCBlockHeader : CBlockHeader → BlockHeader
  | (parent, stateRoot, extrinsic, slot, epoch, tickets, author, entropy, offenders, sealed, _) =>
    { parentHeaderHash := parent, parentStateRoot := stateRoot, extrinsicHash := extrinsic,
      slot := slot, epochMark := epoch,
      ticketsMark := tickets.elim [] fun t => t.toList.map some,
      offendersMark := offenders, authorIndex := author, entropySource := entropy,
      headerSeal := sealed }

/-- `BlockHeader.Decode`. -/
def BlockHeader.decode (data : Bytes) : Option (Option BlockHeader × UInt32) :=
  match cBlockHeaderWire.decode data with
  | .ok (cbh, dataLen) =>
    some (some (.fromCBlockHeader (cbh.getD cBlockHeaderWire.zero)), dataLen)
  | .error (.err _) => some (none, 0)
  | .error .panic => none

/-- A `BlockHeader` field by field, as `Decode` would read it without the method. -/
def blockHeaderKind : Wire BlockHeader :=
  (structWire "BlockHeader" (consField ⟨"ParentHeaderHash", "parent"⟩ hashWire
    (consField ⟨"ParentStateRoot", "parent_state_root"⟩ hashWire
    (consField ⟨"ExtrinsicHash", "extrinsic_hash"⟩ hashWire
    (consField ⟨"Slot", "slot"⟩ uint32Wire
    (consField ⟨"EpochMark", "epoch_mark,omitempty"⟩ epochMarkWire
    (consField ⟨"TicketsMark", "tickets_mark,omitempty"⟩ (sliceWire (ptrWire ticketBodyWire))
    (consField ⟨"OffendersMark", "offenders_mark"⟩ (sliceWire ed25519KeyWire)
    (consField ⟨"AuthorIndex", "author_index"⟩ uint16Wire
    (consField ⟨"EntropySource", "entropy_source"⟩ vrfSignatureWire
    (consField ⟨"Seal", "seal"⟩ vrfSignatureWire endFields))))))))))).via
    (fun (p, r, x, t, e, w, o, i, v, s, _) => ⟨p, r, x, t, e, w, o, i, v, s⟩)
    (fun b => (b.parentHeaderHash, b.parentStateRoot, b.extrinsicHash, b.slot, b.epochMark,
      b.ticketsMark, b.offendersMark, b.authorIndex, b.entropySource, b.headerSeal, ()))
    fun _ => rfl

def blockHeaderWire : Wire BlockHeader :=
  customWire blockHeaderKind (fun b => cBlockHeaderWire.encode b.toCBlockHeader) BlockHeader.decode

/-- `Result.Encode`; the code of every error is its own byte. -/
def Result.encode (R : Result) : Bytes :=
  if R.err = 0 then 0 :: byteSliceWire.encode R.ok else [R.err]

/-- `Result.Decode`. -/
def Result.decode : Bytes → Option (Option Result × UInt32)
  | [] => none
  | b :: rest =>
    if b = 0 then returned do
      let (ok, length) ← orNil byteSliceWire (b :: rest) 1
      pure (⟨ok, 0⟩, length)
    else some (some ⟨[], b⟩, 1)

/-- A `Result` field by field. -/
def resultKind : Wire Result :=
  (structWire "Result" (consField ⟨"Ok", "ok,omitempty"⟩ byteSliceWire
    (consField ⟨"Err", "err,omitempty"⟩ uint8Wire endFields))).via
    (fun (ok, err, _) => ⟨ok, err⟩) (fun R => (R.ok, R.err, ())) fun _ => rfl

def resultWire : Wire Result := customWire resultKind Result.encode Result.decode

theorem Wire.Reads.named {c : Wire α} {v u : α} {p : Prop} (h : c.Reads v u p) (name : String) :
    (c.named name).Reads v u p :=
  ⟨h.decode_append, h.decode_hungry⟩

theorem Wire.Reads.via {c : Wire α} {out : α → β} {back : β → α} {v u : β} {p : Prop}
    (h : c.Reads (back v) (back u) p) (hinv : Function.LeftInverse out back) :
    (c.via out back hinv).Reads v u p := by
  refine ⟨fun hlen rest hrest => ?_, fun hlen hp => ?_⟩
  · simp only [Wire.via, h.decode_append hlen rest hrest, ok_bind, Option.map_some, hinv u]
    rfl
  · obtain ⟨e, he⟩ := h.decode_hungry hlen hp
    exact ⟨e, by simp only [Wire.via, he, error_bind]⟩

theorem toList_ne_nil {n : ℕ} (hn : 0 < n) (v : Vector α n) : v.toList ≠ [] :=
  List.ne_nil_of_length_pos (by simpa using hn)

/-- A field that is not hungry and has an encoding, in front of fields that are not. -/
theorem consField_reads_of_ne_nil {info : FieldInfo} {c : Wire α} {fs : FieldsWire β}
    {v u : α × β} (ha : StepReads c.elem (c.encode v.1) u.1 False) (hne : c.encode v.1 ≠ [])
    (hb : fs.Reads v.2 u.2 False) : (consField info c fs).Reads v u False := by
  have h : (consField info c fs).Reads v u (fieldHungry c fs v False False) := consField_reads ha hb
  have hnot : fieldHungry c fs v False False ↔ False := by simp [fieldHungry, hne]
  rwa [propext hnot] at h

theorem hashWire_reads (h : Hash32) : hashWire.Reads h h False := (byteArrayWire_reads h).named _

theorem hashWire_ne_nil (h : Hash32) : hashWire.encode h ≠ [] := toList_ne_nil (by decide) h

theorem validatorKeyTupleWire_reads (v : ValidatorKeyTuple) :
    validatorKeyTupleWire.Reads v v False :=
  structWire_reads (consField_reads_of_ne_nil (hashWire_reads v.1).elem (hashWire_ne_nil _)
    (consField_reads_of_ne_nil (hashWire_reads v.2.1).elem (hashWire_ne_nil _) (endFields_reads _)))

theorem validatorKeyTupleWire_ne_nil (v : ValidatorKeyTuple) :
    validatorKeyTupleWire.encode v ≠ [] :=
  List.append_ne_nil_of_left_ne_nil (hashWire_ne_nil _) _

theorem ticketBodyWire_reads (t : TicketBodyFields) : ticketBodyWire.Reads t t False :=
  structWire_reads (consField_reads_of_ne_nil (hashWire_reads t.1).elem (hashWire_ne_nil _)
    (consField_reads_of_ne_nil (uint8Wire_reads t.2.1).elem (List.cons_ne_nil _ _)
      (endFields_reads _)))

/-- A call of `Decode` in a method reads what stands behind `pre`. -/
theorem orNil_append {c : Wire α} {v u : α} (h : c.Reads v u False) (pre rest : Bytes)
    (hlen : (pre ++ c.encode v).length < 2 ^ 32) :
    orNil c (pre ++ (c.encode v ++ rest)) (UInt32.ofNat pre.length) =
      .ok (u, UInt32.ofNat (pre ++ c.encode v).length) := by
  rw [List.length_append] at hlen
  have hread := h.decode_append (by omega) rest fun _ hf => hf
  simp only [orNil, toNat_ofNat_of_lt (by omega : pre.length < 2 ^ 32), List.drop_left, hread,
    List.length_append, UInt32.ofNat_add]
  rfl

theorem lastHungry_false {vs : List α} : lastHungry (fun _ => False) vs ↔ False := by
  simp [lastHungry]

theorem arrayWire_reads_same {n : ℕ} {c : Wire α} (h : ∀ a, c.Reads a a False)
    (hne : ∀ a, c.encode a ≠ []) (v : Vector α n) : (arrayWire n c).Reads v v False := by
  have hread : (arrayWire n c).Reads v (v.map id) (lastHungry (fun _ => False) v.toList) :=
    arrayWire_reads (fun a _ => h a) fun a _ => hne a
  simpa using hread.congr lastHungry_false

theorem sliceWire_reads_same {c : Wire α} (h : ∀ a, c.Reads a a False)
    (hne : ∀ a, c.encode a ≠ []) (vs : List α) : (sliceWire c).Reads vs vs False := by
  have hread : (sliceWire c).Reads vs (vs.map id) (lastHungry (fun _ => False) vs) :=
    sliceWire_reads (fun a _ => h a) fun a _ => hne a
  simpa using hread.congr lastHungry_false

/-- A type with its own methods as an element or a field: nil stands for the zero value. -/
theorem customWire_elem {kind : Wire α} {encode : α → Bytes}
    {decode : Bytes → Option (Option α × UInt32)} {v : α} (u : α) (w : Option α)
    (hw : w.getD kind.zero = u) (h : (encode v).length < 2 ^ 32 → ∀ rest,
      decode (encode v ++ rest) = some (w, UInt32.ofNat (encode v).length)) :
    StepReads (customWire kind encode decode).elem (encode v) u False := by
  refine ⟨fun hlen rest _ => ?_, fun _ hf => hf.elim⟩
  have hin : ¬ (encode v ++ rest).length < (UInt32.ofNat (encode v).length).toNat := by
    rw [toNat_ofNat_of_lt hlen, List.length_append]
    omega
  simp only [Wire.elem, customWire, h hlen rest, if_neg hin, ok_bind, hw]
  rfl

theorem epochMarkWire_elem (e : Option EpochMark) :
    StepReads epochMarkWire.elem (epochMarkWire.encode e) e False := by
  cases e with
  | none =>
    exact @customWire_elem _ (ptrWire epochMarkKind) epochMarkEncode epochMarkDecode none none none
      rfl fun _ _ => rfl
  | some e =>
    refine @customWire_elem _ (ptrWire epochMarkKind) epochMarkEncode epochMarkDecode (some e)
      (some e) (some (some e)) rfl fun hlen rest => ?_
    obtain ⟨entropy, ticketsEntropy, validators, ⟨⟩⟩ := e
    have hvalidators := arrayWire_reads_same validatorKeyTupleWire_reads
      validatorKeyTupleWire_ne_nil validators
    have hshape : epochMarkEncode (some (entropy, ticketsEntropy, validators, ())) =
        ([1] ++ hashWire.encode entropy ++ hashWire.encode ticketsEntropy) ++
          (arrayWire totalValidators validatorKeyTupleWire).encode validators := by
      simp [epochMarkEncode, epochMarkKind, structWire, consField, endFields]
    rw [hshape] at hlen ⊢
    have hlen₂ : ([1] ++ hashWire.encode entropy ++ hashWire.encode ticketsEntropy).length <
        2 ^ 32 := by
      rw [List.length_append] at hlen
      omega
    have hlen₁ : ([1] ++ hashWire.encode entropy).length < 2 ^ 32 := by
      rw [List.length_append] at hlen₂
      omega
    have h₁ := orNil_append (hashWire_reads entropy) [1] (hashWire.encode ticketsEntropy ++
      ((arrayWire totalValidators validatorKeyTupleWire).encode validators ++ rest)) hlen₁
    have h₂ := orNil_append (hashWire_reads ticketsEntropy) _
      ((arrayWire totalValidators validatorKeyTupleWire).encode validators ++ rest) hlen₂
    have h₃ := orNil_append hvalidators _ rest hlen
    simp only [List.append_assoc, List.cons_append, List.nil_append, List.length_singleton]
      at h₁ h₂ h₃ ⊢
    rw [epochMarkDecode, if_neg (by decide)]
    simp only [show (1 : UInt32) = UInt32.ofNat 1 from rfl, h₁, h₂, h₃, ok_bind]
    rfl

theorem ticketsMarkLoop_append (ts : List TicketBodyFields) (pre rest : Bytes)
    (hlen : (pre ++ ts.flatMap ticketBodyWire.encode).length < 2 ^ 32) :
    ticketsMarkLoop (pre ++ (ts.flatMap ticketBodyWire.encode ++ rest)) ts.length
        (UInt32.ofNat pre.length) =
      .ok (ts, UInt32.ofNat (pre ++ ts.flatMap ticketBodyWire.encode).length) := by
  induction ts generalizing pre with
  | nil => simp [ticketsMarkLoop, pure, Except.pure]
  | cons t ts ih =>
    have hdata : pre ++ (t :: ts).flatMap ticketBodyWire.encode =
        (pre ++ ticketBodyWire.encode t) ++ ts.flatMap ticketBodyWire.encode := by simp
    rw [hdata] at hlen ⊢
    have hpre : (pre ++ ticketBodyWire.encode t).length < 2 ^ 32 := by
      rw [List.length_append] at hlen
      omega
    have hfirst := orNil_append (ticketBodyWire_reads t) pre
      (ts.flatMap ticketBodyWire.encode ++ rest) hpre
    have htail := ih (pre ++ ticketBodyWire.encode t) hlen
    rw [List.append_assoc pre] at htail
    rw [List.length_cons, ticketsMarkLoop, List.flatMap_cons, List.append_assoc]
    simp only [hfirst, htail, ok_bind]
    rfl

theorem ticketsMarkWire_elem (t : Option TicketsMark) :
    StepReads ticketsMarkWire.elem (ticketsMarkWire.encode t) t False := by
  cases t with
  | none =>
    exact @customWire_elem _ (ptrWire _) ticketsMarkEncode ticketsMarkDecode none none none
      rfl fun _ _ => rfl
  | some t =>
    refine @customWire_elem _ (ptrWire _) ticketsMarkEncode ticketsMarkDecode (some t) (some t)
      (some (some t)) rfl fun hlen rest => ?_
    have hcopy : copyToArray epochLength ticketBodyWire.zero t.toList = t := by
      apply Vector.toList_inj.mp
      rw [toList_copyToArray (by simp)]
    have hloop := ticketsMarkLoop_append t.toList [1] rest hlen
    rw [Vector.length_toList] at hloop
    simp only [List.cons_append, List.nil_append, List.length_singleton] at hloop
    rw [ticketsMarkEncode, List.cons_append, ticketsMarkDecode, if_neg (by decide)]
    simp only [show (1 : UInt32) = UInt32.ofNat 1 from rfl, hloop, ok_bind, hcopy]
    rfl

theorem vrfSignatureWire_reads (s : VrfSignature) : vrfSignatureWire.Reads s s False :=
  (byteArrayWire_reads s).named _

theorem epochMarkEncode_ne_nil (e : Option EpochMark) : epochMarkEncode e ≠ [] := by
  cases e <;> exact List.cons_ne_nil _ _

theorem ticketsMarkEncode_ne_nil (t : Option TicketsMark) : ticketsMarkEncode t ≠ [] := by
  cases t <;> exact List.cons_ne_nil _ _

theorem toLE_ne_nil {n : ℕ} (hn : 0 < n) (x : ℕ) : toLE n x ≠ [] :=
  List.ne_nil_of_length_pos (by rw [length_toLE]; exact hn)

theorem sliceWire_ne_nil (c : Wire α) (vs : List α) : (sliceWire c).encode vs ≠ [] :=
  List.append_ne_nil_of_left_ne_nil (E_ne_nil _) _

/-- The encoded form of a header is read back. -/
theorem cBlockHeaderWire_reads (c : CBlockHeader) : cBlockHeaderWire.Reads c c False := by
  obtain ⟨parent, stateRoot, extrinsic, slot, epoch, tickets, author, entropy, offenders, sealed,
    ⟨⟩⟩ := c
  have hoffenders := sliceWire_reads_same (c := ed25519KeyWire)
    (fun k => (byteArrayWire_reads k).named _) (toList_ne_nil (by decide)) offenders
  exact structWire_reads (consField_reads_of_ne_nil (hashWire_reads parent).elem (hashWire_ne_nil _)
    (consField_reads_of_ne_nil (hashWire_reads stateRoot).elem (hashWire_ne_nil _)
    (consField_reads_of_ne_nil (hashWire_reads extrinsic).elem (hashWire_ne_nil _)
    (consField_reads_of_ne_nil (uint32Wire_reads slot).elem (toLE_ne_nil (by decide) _)
    (consField_reads_of_ne_nil (epochMarkWire_elem epoch) (epochMarkEncode_ne_nil _)
    (consField_reads_of_ne_nil (ticketsMarkWire_elem tickets) (ticketsMarkEncode_ne_nil _)
    (consField_reads_of_ne_nil (uint16Wire_reads author).elem (toLE_ne_nil (by decide) _)
    (consField_reads_of_ne_nil (vrfSignatureWire_reads entropy).elem
      (toList_ne_nil (by decide) entropy)
    (consField_reads_of_ne_nil hoffenders.elem (sliceWire_ne_nil _ _)
    (consField_reads_of_ne_nil (vrfSignatureWire_reads sealed).elem
      (toList_ne_nil (by decide) sealed) (endFields_reads ())))))))))))

/-- A header is read back with the tickets mark that was encoded. -/
theorem blockHeaderWire_reads (b : BlockHeader) :
    blockHeaderWire.Reads b (.fromCBlockHeader b.toCBlockHeader) False := by
  refine customWire_reads fun hlen rest => ?_
  rw [BlockHeader.decode,
    (cBlockHeaderWire_reads b.toCBlockHeader).decode_append hlen rest fun _ hf => hf]
  rfl

/-- What a work result is read back as: an error keeps no output. -/
def Result.readBack (R : Result) : Result := if R.err = 0 then R else ⟨[], R.err⟩

theorem resultWire_reads (R : Result) : resultWire.Reads R R.readBack False := by
  refine customWire_reads fun hlen rest => ?_
  by_cases herr : R.err = 0
  · have hencode : R.encode = 0 :: byteSliceWire.encode R.ok := if_pos herr
    rw [hencode] at hlen ⊢
    have hok := orNil_append (byteSliceWire_reads R.ok) [0] rest hlen
    simp only [List.cons_append, List.nil_append, List.length_singleton] at hok
    rw [List.cons_append, Result.decode, if_pos rfl]
    simp only [show (1 : UInt32) = UInt32.ofNat 1 from rfl, hok, ok_bind, Result.readBack,
      if_pos herr]
    rw [← herr]
    rfl
  · have hencode : R.encode = [R.err] := if_neg herr
    rw [hencode, List.singleton_append, Result.decode, if_neg herr, Result.readBack, if_neg herr]
    rfl

end JamDuna.Types
