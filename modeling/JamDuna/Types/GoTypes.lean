/-
# The types that are encoded

`GoType` are the Go types that `Encode` and `Decode` of `types/codec.go` handle by
reflection, without pointers, and two types with methods of their own. A `GoType` has its
values (`GoType.Val`) and its `Wire`. Strings hold valid UTF-8; a slice or map that is nil
is the empty one.

**What is encoded is decoded again, in front of any bytes**, as long as the encoding has
less than `2 ^ 32` bytes: `Decode` counts in a `uint32`. A `[]byte` of `2 ^ 32` bytes is
decoded to as many zeros, with length 5. The other exception are structs that end in a
field without bytes, such as a `struct{}`, when nothing follows them (`GoType.Hungry`).
-/

import JamDuna.Types.Header

namespace JamDuna.Types

open JamDuna.Basis

section

mutual

/-- A Go type. -/
inductive GoType where
  | bool
  | uint
  | uint8
  | uint16
  | uint32
  | uint64
  | string
  | array (n : ℕ) (t : GoType)
  | slice (t : GoType)
  | struct (fields : GoFields)
  | map (k v : GoType)
  | blockHeader
  | workResult

/-- The fields of a struct. -/
inductive GoFields where
  | nil
  | cons (info : FieldInfo) (t : GoType) (fields : GoFields)

end

mutual

/-- The values of a type. -/
def GoType.Val : GoType → Type
  | .bool => Bool
  | .uint => UInt64
  | .uint8 => UInt8
  | .uint16 => UInt16
  | .uint32 => UInt32
  | .uint64 => UInt64
  | .string => String
  | .array n t => Vector t.Val n
  | .slice t => List t.Val
  | .struct fields => fields.Val
  | .map k v => Finmap fun _ : k.Val => v.Val
  | .blockHeader => BlockHeader
  | .workResult => Result

/-- The values of the fields of a struct. -/
def GoFields.Val : GoFields → Type
  | .nil => Unit
  | .cons _ t fields => t.Val × fields.Val

end

mutual

/-- `Encode` and `Decode` at a type. -/
def GoType.wire : (t : GoType) → Wire t.Val
  | .bool => boolWire
  | .uint => uintWire
  | .uint8 => uint8Wire
  | .uint16 => uint16Wire
  | .uint32 => uint32Wire
  | .uint64 => uint64Wire
  | .string => stringWire
  | .array n .uint8 => byteArrayWire n
  | .array n t => arrayWire n t.wire
  | .slice .uint8 => byteSliceWire
  | .slice t => sliceWire t.wire
  | .struct fields => structWire "" fields.wire
  | .map k v => mapWire k.wire v.wire
  | .blockHeader => blockHeaderWire
  | .workResult => resultWire

/-- The loop over the fields of a struct. -/
def GoFields.wire : (fields : GoFields) → FieldsWire fields.Val
  | .nil => endFields
  | .cons info t fields => consField info t.wire fields.wire

end

/-- `Encode`. -/
def GoType.encode (t : GoType) (v : t.Val) : Bytes := t.wire.encode v

/-- `Decode`. -/
def GoType.decode (t : GoType) (data : Bytes) : Except (Stop String) (Option t.Val × UInt32) :=
  t.wire.decode data

theorem GoType.wire_array {n : ℕ} {t : GoType} (h : t ≠ .uint8) :
    (GoType.array n t).wire = arrayWire n t.wire := by
  cases t <;> first | rfl | exact absurd rfl h

theorem GoType.wire_slice {t : GoType} (h : t ≠ .uint8) :
    (GoType.slice t).wire = sliceWire t.wire := by
  cases t <;> first | rfl | exact absurd rfl h

end

section

mutual

/-- No type in it has methods of its own. -/
def GoType.Plain : GoType → Prop
  | .array _ t => t.Plain
  | .slice t => t.Plain
  | .struct fields => fields.Plain
  | .map k v => k.Plain ∧ v.Plain
  | .blockHeader => False
  | .workResult => False
  | _ => True

def GoFields.Plain : GoFields → Prop
  | .nil => True
  | .cons _ t fields => t.Plain ∧ fields.Plain

end

mutual

/-- Values of the type have no bytes. -/
def GoType.ZeroWidth : GoType → Prop
  | .array n t => n = 0 ∨ t.ZeroWidth
  | .struct fields => fields.ZeroWidth
  | _ => False

def GoFields.ZeroWidth : GoFields → Prop
  | .nil => True
  | .cons _ t fields => t.ZeroWidth ∧ fields.ZeroWidth

end

mutual

/-- The elements of arrays, slices and maps have bytes. -/
def GoType.SizedElems : GoType → Prop
  | .array _ t => ¬ t.ZeroWidth ∧ t.SizedElems
  | .slice t => ¬ t.ZeroWidth ∧ t.SizedElems
  | .struct fields => fields.SizedElems
  | .map k v => k.SizedElems ∧ ¬ v.ZeroWidth ∧ v.SizedElems
  | _ => True

def GoFields.SizedElems : GoFields → Prop
  | .nil => True
  | .cons _ t fields => t.SizedElems ∧ fields.SizedElems

end

mutual

/-- The fields of structs have bytes. -/
def GoType.SizedFields : GoType → Prop
  | .array _ t => t.SizedFields
  | .slice t => t.SizedFields
  | .struct fields => fields.SizedFields
  | .map k v => k.SizedFields ∧ v.SizedFields
  | _ => True

def GoFields.SizedFields : GoFields → Prop
  | .nil => True
  | .cons _ t fields => (¬ t.ZeroWidth ∧ t.SizedFields) ∧ fields.SizedFields

end

mutual

/-- `Decode` wants a byte behind the encoding: a struct ends in a field without bytes, at
the end of the value. -/
def GoType.Hungry : (t : GoType) → t.Val → Prop
  | .array _ t, v => lastHungry t.Hungry (Vector.toList v)
  | .slice t, vs => lastHungry t.Hungry vs
  | .struct fields, v => fields.Hungry v
  | .map k v, m => mapHungry k.wire v.wire v.Hungry m
  | _, _ => False

def GoFields.Hungry : (fields : GoFields) → fields.Val → Prop
  | .nil, _ => False
  | .cons _ t fields, v =>
    fieldHungry t.wire fields.wire v (t.Hungry v.1) (fields.Hungry v.2)

end

end

theorem blockHeaderWire_ne_nil (b : BlockHeader) : blockHeaderWire.encode b ≠ [] :=
  List.append_ne_nil_of_left_ne_nil (hashWire_ne_nil _) _

theorem resultWire_ne_nil (R : Result) : resultWire.encode R ≠ [] := by
  show R.encode ≠ []
  unfold Result.encode
  split_ifs <;> exact List.cons_ne_nil _ _

mutual

/-- A value of a type that is not zero-width has bytes. -/
theorem GoType.encode_ne_nil : (t : GoType) → ¬ t.ZeroWidth → t.SizedElems → (v : t.Val) →
    t.wire.encode v ≠ []
  | .bool, _, _, _ => List.cons_ne_nil _ _
  | .uint, _, _, v => E_ne_nil _
  | .uint8, _, _, v => toLE_ne_nil (by decide) _
  | .uint16, _, _, v => toLE_ne_nil (by decide) _
  | .uint32, _, _, v => toLE_ne_nil (by decide) _
  | .uint64, _, _, v => toLE_ne_nil (by decide) _
  | .string, _, _, v => List.append_ne_nil_of_left_ne_nil (E_ne_nil _) _
  | .array n t, hwidth, hsized, v => by
    have hn : 0 < n := Nat.pos_of_ne_zero fun h => hwidth (.inl h)
    by_cases ht : t = .uint8
    · subst ht
      exact toList_ne_nil hn v
    · rw [GoType.wire_array ht]
      intro hnil
      obtain ⟨a, ha⟩ := List.exists_mem_of_ne_nil _ (toList_ne_nil hn v)
      exact t.encode_ne_nil hsized.1 hsized.2 a (List.flatMap_eq_nil_iff.mp hnil a ha)
  | .slice t, _, _, v => by
    by_cases ht : t = .uint8
    · subst ht
      exact List.append_ne_nil_of_left_ne_nil (E_ne_nil _) _
    · rw [GoType.wire_slice ht]
      exact sliceWire_ne_nil _ _
  | .struct fields, hwidth, hsized, v => fields.encode_ne_nil hwidth hsized v
  | .map _ _, _, _, _ => List.append_ne_nil_of_left_ne_nil (E_ne_nil _) _
  | .blockHeader, _, _, b => blockHeaderWire_ne_nil b
  | .workResult, _, _, R => resultWire_ne_nil R

theorem GoFields.encode_ne_nil : (fields : GoFields) → ¬ fields.ZeroWidth → fields.SizedElems →
    (v : fields.Val) → fields.wire.encode v ≠ []
  | .nil, hwidth, _, _ => absurd trivial hwidth
  | .cons _ t fields, hwidth, hsized, v => by
    by_cases ht : t.ZeroWidth
    · have hfields : ¬ fields.ZeroWidth := fun h => hwidth ⟨ht, h⟩
      exact List.append_ne_nil_of_right_ne_nil _ (fields.encode_ne_nil hfields hsized.2 v.2)
    · exact List.append_ne_nil_of_left_ne_nil (t.encode_ne_nil ht hsized.1 v.1) _

end

mutual

/-- Only a field without bytes makes a value hungry. -/
theorem GoType.not_hungry : (t : GoType) → t.SizedElems → t.SizedFields → (v : t.Val) → ¬ t.Hungry v
  | .array _ t, hsized, hfields, _ => fun ⟨a, _, ha⟩ => t.not_hungry hsized.2 hfields a ha
  | .slice t, hsized, hfields, _ => fun ⟨a, _, ha⟩ => t.not_hungry hsized.2 hfields a ha
  | .struct fields, hsized, hfields, v => fields.not_hungry hsized hfields v
  | .map _ v, hsized, hfields, _ => fun ⟨_, _, _, e, _, he⟩ =>
    v.not_hungry hsized.2.2 hfields.2 e.2.1 he
  | .bool, _, _, _ | .uint, _, _, _ | .uint8, _, _, _ | .uint16, _, _, _ | .uint32, _, _, _
  | .uint64, _, _, _ | .string, _, _, _ | .blockHeader, _, _, _ | .workResult, _, _, _ => id

theorem GoFields.not_hungry : (fields : GoFields) → fields.SizedElems → fields.SizedFields →
    (v : fields.Val) → ¬ fields.Hungry v
  | .nil, _, _, _ => id
  | .cons _ t fields, hsized, hfields, v => by
    rintro (hothers | ⟨-, hfirst | hnil⟩)
    · exact fields.not_hungry hsized.2 hfields.2 v.2 hothers
    · exact t.not_hungry hsized.1 hfields.1.2 v.1 hfirst
    · exact t.encode_ne_nil hfields.1.1 hsized.1 v.1 hnil

end

mutual

/-- **The encoding of a value is read**, and as the value itself where no type has methods
of its own. -/
theorem GoType.reads : (t : GoType) → t.SizedElems → (v : t.Val) →
    ∃ u, t.wire.Reads v u (t.Hungry v) ∧ (t.Plain → u = v)
  | .bool, _, v => ⟨v, boolWire_reads v, fun _ => rfl⟩
  | .uint, _, v => ⟨v, uintWire_reads v, fun _ => rfl⟩
  | .uint8, _, v => ⟨v, uint8Wire_reads v, fun _ => rfl⟩
  | .uint16, _, v => ⟨v, uint16Wire_reads v, fun _ => rfl⟩
  | .uint32, _, v => ⟨v, uint32Wire_reads v, fun _ => rfl⟩
  | .uint64, _, v => ⟨v, uint64Wire_reads v, fun _ => rfl⟩
  | .string, _, v => ⟨v, stringWire_reads v, fun _ => rfl⟩
  | .array n t, hsized, v => by
    by_cases ht : t = .uint8
    · subst ht
      exact ⟨v, (byteArrayWire_reads v).congr lastHungry_false.symm, fun _ => rfl⟩
    · choose back hback hplain using t.reads hsized.2
      rw [GoType.wire_array ht]
      refine ⟨Vector.map back v, arrayWire_reads (fun a _ => hback a)
        (fun a _ => t.encode_ne_nil hsized.1 hsized.2 a), fun h => ?_⟩
      have hid : back = id := funext fun a => hplain a h
      rw [hid]
      exact Vector.map_id v
  | .slice t, hsized, v => by
    by_cases ht : t = .uint8
    · subst ht
      exact ⟨v, (byteSliceWire_reads v).congr lastHungry_false.symm, fun _ => rfl⟩
    · choose back hback hplain using t.reads hsized.2
      rw [GoType.wire_slice ht]
      refine ⟨List.map back v, sliceWire_reads (fun a _ => hback a)
        (fun a _ => t.encode_ne_nil hsized.1 hsized.2 a), fun h => ?_⟩
      have hid : back = id := funext fun a => hplain a h
      rw [hid]
      exact List.map_id v
  | .struct fields, hsized, v => by
    obtain ⟨u, hu, hplain⟩ := fields.reads hsized v
    exact ⟨u, structWire_reads hu, hplain⟩
  | .map k v, hsized, m => by
    choose backK hbackK hplainK using k.reads hsized.1
    choose backV hbackV hplainV using v.reads hsized.2.2
    obtain ⟨u, hu, hsame⟩ := mapWire_reads hbackK hbackV (v.encode_ne_nil hsized.2.1 hsized.2.2) m
    exact ⟨u, hu, fun h => hsame (fun a => hplainK a h.1) fun a => hplainV a h.2⟩
  | .blockHeader, _, b => ⟨_, blockHeaderWire_reads b, fun h => h.elim⟩
  | .workResult, _, R => ⟨_, resultWire_reads R, fun h => h.elim⟩

theorem GoFields.reads : (fields : GoFields) → fields.SizedElems → (v : fields.Val) →
    ∃ u, fields.wire.Reads v u (fields.Hungry v) ∧ (fields.Plain → u = v)
  | .nil, _, v => ⟨v, endFields_reads v, fun _ => rfl⟩
  | .cons info t fields, hsized, v => by
    obtain ⟨a, ha, hplain⟩ := t.reads hsized.1 v.1
    obtain ⟨b, hb, hplain'⟩ := fields.reads hsized.2 v.2
    refine ⟨(a, b), consField_reads ha.elem hb, fun h => ?_⟩
    rw [hplain h.1, hplain' h.2]
    rfl

end

/-- `Decode` reads `v` from its encoding in front of any bytes, and uses exactly the bytes
of the encoding. -/
def GoType.RoundTrips (t : GoType) (v : t.Val) : Prop :=
  ∀ rest, ∃ length : UInt32, t.decode (t.encode v ++ rest) = .ok (some v, length) ∧
    length.toNat = (t.encode v).length

/-- **A value is decoded from its encoding exactly when the encoding has less than `2 ^ 32`
bytes**, and no struct at its end ends in a field without bytes. -/
theorem GoType.roundTrips_iff (t : GoType) (hplain : t.Plain) (hsized : t.SizedElems)
    (v : t.Val) : t.RoundTrips v ↔ (t.encode v).length < 2 ^ 32 ∧ ¬ t.Hungry v := by
  obtain ⟨u, hreads, hsame⟩ := t.reads hsized v
  obtain rfl := hsame hplain
  constructor
  · intro h
    obtain ⟨length, hdecode, hlength⟩ := h []
    have hshort : (t.encode u).length < 2 ^ 32 := by
      rw [← hlength]
      exact length.toNat_lt
    refine ⟨hshort, fun hhungry => ?_⟩
    obtain ⟨e, he⟩ := hreads.decode_hungry hshort hhungry
    rw [List.append_nil] at hdecode
    exact absurd (hdecode.symm.trans he) (by simp)
  · rintro ⟨hshort, hnot⟩ rest
    exact ⟨_, hreads.decode_append hshort rest fun _ => hnot, toNat_ofNat_of_lt hshort⟩

/-- A struct with a string and a map of two entries in it. -/
theorem struct_roundTrips :
    (GoType.struct (.cons ⟨"Slot", "slot"⟩ .uint (.cons ⟨"Names", "names"⟩ (.slice .string)
      (.cons ⟨"Votes", "votes"⟩ (.map .uint16 .bool) .nil)))).RoundTrips
      ((300 : UInt64), ["ab"], (setMapIndices uint16Wire [(1, true, ()), (2, false, ())] :
          Finmap fun _ : UInt16 => Bool), ()) := by
  refine (GoType.roundTrips_iff _ ?_ ?_ _).mpr ⟨?_, ?_⟩
  · simp [GoType.Plain, GoFields.Plain]
  · simp [GoType.SizedElems, GoFields.SizedElems, GoType.ZeroWidth]
  · decide +kernel
  · refine GoType.not_hungry _ ?_ ?_ _ <;>
      simp [GoType.SizedElems, GoFields.SizedElems, GoType.SizedFields, GoFields.SizedFields,
        GoType.ZeroWidth]

/-- A `[]byte` of `2 ^ 32` bytes: `uint32(item_len)` is 0, so that nothing is copied and the
length stays at the five bytes of the prefix. -/
theorem byteSliceWire_decode_wraps {b : Bytes} (hb : b.length = 2 ^ 32) :
    byteSliceWire.decode (byteSliceWire.encode b) = .ok (some (List.replicate (2 ^ 32) 0), 5) := by
  have hprefix : (E (2 ^ 32)).length = 5 := by decide +kernel
  have hlength : sliceLength (E (2 ^ 32) ++ b) = .ok (2 ^ 32, 5) := by
    exact sliceLength_append b (by decide) hb.ge
  have hin : ¬ (E (2 ^ 32) ++ b).length < 5 + 2 ^ 32 := by
    rw [List.length_append, hprefix, hb]
    omega
  have hstop : UInt32.ofNat 5 + UInt32.ofNat (2 ^ 32) = 5 := by decide +kernel
  have hnone : (5 : UInt32).toNat - 5 = 0 := rfl
  have hforward : ¬ (5 : UInt32).toNat < 5 := by decide
  simp only [byteSliceWire, hb, hlength, ok_bind, failIf_decide_of_not hin, hstop,
    if_neg hforward, hnone, List.take_zero, List.length_nil, Nat.sub_zero, List.nil_append]
  rfl

/-- `2 ^ 32` ones are decoded to as many zeros, and five bytes are counted. -/
theorem byteSlice_not_roundTrips :
    (GoType.slice .uint8).decode
        ((GoType.slice .uint8).encode (List.replicate (2 ^ 32) (1 : UInt8)) ++ []) =
      .ok (some (List.replicate (2 ^ 32) (0 : UInt8)), 5) ∧
    ¬ (GoType.slice .uint8).RoundTrips (List.replicate (2 ^ 32) (1 : UInt8)) := by
  have hcount : (List.replicate (2 ^ 32) (1 : UInt8)).length = 2 ^ 32 := List.length_replicate
  constructor
  · rw [List.append_nil]
    exact byteSliceWire_decode_wraps hcount
  · intro h
    obtain ⟨length, -, hlength⟩ := h []
    have hlong : 2 ^ 32 ≤ ((GoType.slice .uint8).encode
        (List.replicate (2 ^ 32) (1 : UInt8))).length := by
      show 2 ^ 32 ≤ (E _ ++ List.replicate (2 ^ 32) (1 : UInt8)).length
      rw [List.length_append, hcount]
      omega
    have := length.toNat_lt
    omega

end JamDuna.Types
