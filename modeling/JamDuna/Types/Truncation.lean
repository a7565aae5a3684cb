/-
# Truncated data

Does `Decode` (`types/codec.go`) return an error on every strict prefix of an encoding?
Not in general. `DecodeE` answers `(0, 0)` when bytes are missing, so that a `uint` whose
code is cut is read as 0, and a slice, string or map whose length is cut as an empty one,
each without using any byte. A `Decode` method has no error to return: `BlockHeader.Decode`
answers nil and length 0, `Result.Decode` nil and length 1, and `Decode` takes that for a
success.

A code of one byte cannot be cut in the middle. So where the numbers and lengths in a value
are below 128, and no method hides a failure (`GoType.Short`), whatever is left of the bytes
of a part is rejected (`GoType.cut_rejected`), and truncation is noticed unless the type
itself starts with a code, for then no data at all is accepted (`GoType.strict_iff`).
-/

import JamDuna.Types.GoTypes

namespace JamDuna.Types

open JamDuna.Basis GoType
open UInt32 (ofNat)

variable {α β : Type}

/-- `Decode` returns an error on every strict prefix of the encoding. -/
def GoType.Strict (t : GoType) (v : t.Val) : Prop :=
  ∀ p, StrictPrefix p (t.encode v) → Rejected (t.decode p)

mutual

/-- The numbers and the lengths in the value have codes of one byte, and no method hides a
failure in it: there is no block header and no work result but error codes. Maps are left
out. -/
def GoType.Short : (t : GoType) → t.Val → Prop
  | .uint, x => UInt64.toNat x < 128
  | .string, s => (String.toList s).length < 128 ∧ ∀ c ∈ String.toList s, c.toNat < 128
  | .array _ t, v => ∀ a ∈ Vector.toList v, t.Short a
  | .slice t, vs => List.length vs < 128 ∧ List.Forall t.Short vs
  | .struct fields, v => fields.Short v
  | .map _ _, _ => False
  | .blockHeader, _ => False
  | .workResult, R => Result.err R ≠ 0
  | _, _ => True

def GoFields.Short : (fields : GoFields) → fields.Val → Prop
  | .nil, _ => True
  | .cons _ t fields, v => t.Short v.1 ∧ fields.Short v.2

end

/-- The encoding starts with a code for a number. -/
def GoType.Coded : GoType → Prop
  | .uint => True
  | .string => True
  | .slice _ => True
  | .map _ _ => True
  | _ => False

theorem E_of_lt {x : ℕ} (hx : x < 128) : E x = [UInt8.ofNat x] := by
  unfold E
  split_ifs with h0
  · rw [h0]
    rfl
  · rw [find?_eq_some_of_unique (a := 0) (by simp) (by simp; omega)]
    · simp [toLE]
    · intro l hl hfound
      have hrange := List.mem_range.mp hl
      have hlow := (of_decide_eq_true hfound).1
      interval_cases l <;> omega

/-- What is left of a code of one byte is nothing. -/
theorem eq_nil_of_strictPrefix_E {x : ℕ} {q : Bytes} (hx : x < 128) (h : StrictPrefix q (E x)) :
    q = [] := by
  have hlen := h.length_lt
  rw [E_of_lt hx, List.length_singleton] at hlen
  exact List.length_eq_zero_iff.mp (by omega)

/-- What is left of the bytes of a part is rejected, unless nothing is left. -/
def RejectsCut (step : Bytes → Except (Stop String) α) (bytes : Bytes) : Prop :=
  ∀ q, q ≠ [] → q.length + 1 < 2 ^ 32 → StrictPrefix q bytes → Rejected (step q)

/-- What is left of the bytes is rejected behind any data, also when nothing is left. -/
def RejectsCutAt (decode : Bytes → UInt32 → Except (Stop String) α) (bytes : Bytes) : Prop :=
  ∀ pre q, StrictPrefix q bytes → (pre ++ q).length + 1 < 2 ^ 32 →
    Rejected (decode (pre ++ q) (ofNat pre.length))

theorem rejectsCut_E {step : Bytes → Except (Stop String) α} {x : ℕ} (hx : x < 128) :
    RejectsCut step (E x) := fun _ hnil _ hq => absurd (eq_nil_of_strictPrefix_E hx hq) hnil

section

variable {step : Bytes → Except (Stop String) (α × UInt32)} {a : α} {hungry : Prop}
  {bytes rest pre q : Bytes}

theorem StepReads.mapError (h : StepReads step bytes a hungry) (f : String → String) :
    StepReads (fun d => Basis.mapError f (step d)) bytes a hungry := by
  refine ⟨fun hlen rest hrest => ?_, fun hlen hh => ?_⟩
  · rw [h.step_append hlen rest hrest]
    rfl
  · obtain ⟨e, he⟩ := h.step_hungry hlen hh
    exact ⟨f e, by rw [he]; rfl⟩

/-- A part that is cut is rejected, and behind a part that is not the data is cut as well. -/
theorem decodeNext_cut (overrun : String) (hread : StepReads step bytes a hungry)
    (hcut : RejectsCut step bytes) (hnil : q ≠ []) (hq : StrictPrefix q (bytes ++ rest))
    (hlen : (pre ++ q).length + 1 < 2 ^ 32) :
    Rejected (decodeNext step overrun (pre ++ q) (ofNat pre.length)) ∨
      ∃ q', q = bytes ++ q' ∧ StrictPrefix q' rest ∧
        decodeNext step overrun (pre ++ q) (ofNat pre.length) =
          .ok (a, ofNat (pre ++ bytes).length) := by
  have hpre : pre.length < 2 ^ 32 ∧ q.length + 1 < 2 ^ 32 := by
    rw [List.length_append] at hlen
    omega
  rcases hq.append_cases with hq | ⟨q', rfl, hq'⟩
  · obtain ⟨e, he⟩ := hcut q hnil hpre.2 hq
    exact .inl ⟨e, decodeNext_error overrun hpre.1 he⟩
  · have hshort : (pre ++ bytes).length < 2 ^ 32 ∧ bytes.length < 2 ^ 32 := by
      simp only [List.length_append] at hlen ⊢
      omega
    by_cases hstop : q' = [] ∧ hungry
    · obtain ⟨e, he⟩ := hread.step_hungry hshort.2 hstop.2
      rw [hstop.1, List.append_nil]
      exact .inl ⟨e, decodeNext_error overrun hpre.1 he⟩
    · exact .inr ⟨q', rfl, hq', decodeNext_append overrun hshort.1
        (hread.step_append hshort.2 q' fun h hungry => hstop ⟨h, hungry⟩)⟩

variable {guard : Bytes → UInt32 → Except (Stop String) Unit} {enc : β → Bytes} {vs : List β}

/-- **A loop over parts whose cut bytes are rejected rejects data that is cut.** -/
theorem decodeLoop_cut (overrun : String) (hguard : Guards guard)
    (hend : ∀ data, List.length data + 1 < 2 ^ 32 → Rejected (guard data (ofNat data.length)))
    (hread : ∀ v ∈ vs, ∃ a hungry, StepReads step (enc v) a hungry)
    (hcut : ∀ v ∈ vs, RejectsCut step (enc v)) :
    RejectsCutAt (fun d => decodeLoop guard step overrun d vs.length) (vs.flatMap enc) := by
  induction vs with
  | nil => exact fun _ _ hq _ => absurd (List.prefix_nil.mp hq.1) hq.2
  | cons v vs ih =>
    intro pre q hq hlen
    simp only [List.length_cons, decodeLoop]
    by_cases hnil : q = []
    · subst hnil
      rw [List.append_nil] at hlen ⊢
      exact (hend pre hlen).bind _
    · have hpass : guard (pre ++ q) (ofNat pre.length) = .ok () := by
        have hpos := List.length_pos_of_ne_nil hnil
        refine hguard _ _ ?_
        rw [List.length_append] at hlen ⊢
        rw [toNat_ofNat_of_lt (by omega)]
        omega
      rw [hpass, ok_bind]
      obtain ⟨a, hungry, hv⟩ := hread v List.mem_cons_self
      rcases decodeNext_cut overrun hv (hcut v List.mem_cons_self) hnil hq hlen with
        hrejected | ⟨q', rfl, hq', hnext⟩
      · exact hrejected.bind _
      · rw [hnext, ok_bind]
        have hrest := ih (fun w hw => hread w (.tail _ hw)) (fun w hw => hcut w (.tail _ hw))
          (pre ++ enc v) q' hq' (by rwa [List.append_assoc])
        rw [List.append_assoc] at hrest
        exact hrest.bind _

end

/-- There is no byte at the end of the data. -/
theorem rejected_atEnd (e : String) (data : Bytes) (hlen : data.length + 1 < 2 ^ 32) :
    Rejected (failIf (decide (data.length < (ofNat data.length + 1).toNat)) e) := by
  have hone : (ofNat data.length + 1).toNat = data.length + 1 := ofNat_add_toNat _ 1 hlen
  rw [failIf_decide_of (by omega)]
  exact rejected_err _

/-- The cut bytes of an element or a field are rejected where those of the type are. -/
theorem RejectsCut.elem {c : Wire α} {bytes : Bytes} (h : RejectsCut c.decode bytes) :
    RejectsCut c.elem bytes := fun q hnil hlen hq => (h q hnil hlen hq).bind _

variable {n : ℕ} {q : Bytes}

/-- Data behind a code of one byte that is cut, but not in front of it. -/
theorem exists_tail_of_strictPrefix {items : Bytes} (hn : n < 128) (hnil : q ≠ [])
    (hq : StrictPrefix q (E n ++ items)) :
    ∃ q', q = E n ++ q' ∧ StrictPrefix q' items ∧ decodeE q = (n, (E n).length) := by
  rcases hq.append_cases with hq | ⟨q', rfl, hq'⟩
  · exact absurd (eq_nil_of_strictPrefix_E hn hq) hnil
  · exact ⟨q', rfl, hq', decodeE_E (by omega) q'⟩

theorem stringWire_cut {s : String} (hlen : s.toList.length < 128)
    (hchars : ∀ c ∈ s.toList, c.toNat < 128) :
    RejectsCut stringWire.decode (stringWire.encode s) := by
  intro q hnil hshort hq
  obtain ⟨q', rfl, hq', hcode⟩ := exists_tail_of_strictPrefix hlen hnil hq
  have hin : ¬ (E s.toList.length ++ q').length < (E s.toList.length).length := by
    simp only [List.length_append]
    omega
  have halloc : ¬ maxAlloc < s.toList.length := by
    simp only [maxAlloc]
    omega
  simp only [stringWire, hcode, if_neg hin, if_neg halloc]
  refine Rejected.bind (decodeLoop_cut _ runeGuard_guards (rejected_atEnd _)
    (fun c hc => ⟨runeOf c.toNat, False, fun _ rest _ => ?_, fun _ h => h.elim⟩)
    (fun c hc => rejectsCut_E (hchars c hc)) _ q' hq' hshort) _
  have hsmall := hchars c hc
  simp only [decodeE_E (by omega : c.toNat < 2 ^ 64)]
  rfl

/-- The length of a slice is read, or there is less data than elements. -/
theorem sliceLength_cases (hn : n < 128) (items : Bytes) :
    Rejected (sliceLength (E n ++ items)) ∨ sliceLength (E n ++ items) = .ok (n, (E n).length) := by
  have hin : ¬ (E n ++ items).length < (E n).length := by
    simp only [List.length_append]
    omega
  simp only [sliceLength, decodeE_E (by omega : n < 2 ^ 64), failIf_decide_of_not hin, ok_bind]
  by_cases hcount : (E n ++ items).length < n
  · rw [failIf_decide_of hcount]
    exact .inl (rejected_err _)
  · rw [failIf_decide_of_not hcount]
    exact .inr rfl

theorem byteSliceWire_cut {b : Bytes} (hlen : b.length < 128) :
    RejectsCut byteSliceWire.decode (byteSliceWire.encode b) := by
  intro q hnil _ hq
  obtain ⟨q', rfl, hq', -⟩ := exists_tail_of_strictPrefix hlen hnil hq
  have hless := hq'.length_lt
  have hstop : (E b.length ++ q').length < (E b.length).length + b.length := by
    simp only [List.length_append]
    omega
  rcases sliceLength_cases hlen q' with hrejected | hlength
  · exact hrejected.bind _
  · simp only [byteSliceWire, hlength, ok_bind, failIf_decide_of hstop]
    exact rejected_err _

variable {c : Wire α}

section

variable (hreads : ∀ a, ∃ u hungry, c.Reads a u hungry)
include hreads

theorem decodeElems_cut (kind : String) {vs : List α}
    (hcut : ∀ a ∈ vs, RejectsCut c.decode (c.encode a)) :
    RejectsCutAt (fun d => decodeElems c kind d vs.length) (vs.flatMap c.encode) := by
  refine decodeLoop_cut _ (elemGuard_guards kind)
    (fun data hlen => (rejected_atEnd _ data hlen).bind _) (fun a _ => ?_)
    (fun a ha => (hcut a ha).elem)
  obtain ⟨u, hungry, hu⟩ := hreads a
  exact ⟨u, hungry, hu.elem⟩

theorem sliceWire_cut {vs : List α} (hlen : vs.length < 128)
    (hcut : ∀ a ∈ vs, RejectsCut c.decode (c.encode a)) :
    RejectsCut (sliceWire c).decode ((sliceWire c).encode vs) := by
  intro q hnil hshort hq
  obtain ⟨q', rfl, hq', -⟩ := exists_tail_of_strictPrefix hlen hnil hq
  rcases sliceLength_cases hlen q' with hrejected | hlength
  · exact hrejected.bind _
  · simp only [sliceWire, hlength, ok_bind]
    exact (decodeElems_cut hreads "slice" hcut _ q' hq' hshort).bind _

end

theorem fixedWire_rejected {name : String} {eq : DecidableEq α} {toNat : α → ℕ} {setUint : ℕ → α}
    {v : α} (hq : StrictPrefix q ((fixedWire name n eq toNat setUint).encode v)) :
    Rejected ((fixedWire name n eq toNat setUint).decode q) := by
  have hshort : q.length < n := by simpa [fixedWire] using hq.length_lt
  exact ⟨_, if_pos hshort⟩

/-- A field that is cut is rejected, and so are the fields behind one that is not. -/
theorem consField_cut {info : FieldInfo} {fs : FieldsWire β} {v : α × β} {u : α} {hungry : Prop}
    (hread : c.Reads v.1 u hungry) (hcut : RejectsCut c.decode (c.encode v.1))
    (hothers : RejectsCutAt fs.decode (fs.encode v.2)) :
    RejectsCutAt (consField info c fs).decode ((consField info c fs).encode v) := by
  intro pre q hq hlen
  have hpos : (ofNat pre.length).toNat = pre.length := by
    refine toNat_ofNat_of_lt ?_
    rw [List.length_append] at hlen
    omega
  have hleft : (pre ++ q).length - (ofNat pre.length).toNat = q.length := by
    rw [hpos, List.length_append, Nat.add_sub_cancel_left]
  simp only [consField, hleft]
  by_cases hnil : q = []
  · subst hnil
    rw [failIf_decide_of (by simp)]
    exact rejected_err _
  · have hin : ¬ q.length < 1 := Nat.not_lt.mpr (List.length_pos_of_ne_nil hnil)
    rw [failIf_decide_of_not hin, ok_bind]
    have hfield : RejectsCut (fun d => mapError (fieldError info c.name) (c.elem d))
        (c.encode v.1) := fun q hnil hlen hq => (hcut.elem q hnil hlen hq).mapError _
    rcases decodeNext_cut "data length insufficient for struct field decoding"
      (hread.elem.mapError (fieldError info c.name)) hfield hnil hq hlen with
      hrejected | ⟨q', rfl, hq', hnext⟩
    · exact hrejected.bind _
    · rw [hnext, ok_bind]
      have hrest := hothers (pre ++ c.encode v.1) q' hq' (by rwa [List.append_assoc])
      rw [List.append_assoc] at hrest
      exact hrest.bind _

mutual

/-- **What is left of the bytes of a value with short codes is rejected**, also when nothing
is left, unless the type starts with a code. -/
theorem GoType.cut_rejected : (t : GoType) → t.SizedElems → (v : t.Val) → t.Short v →
    (q : Bytes) → (q ≠ [] ∨ ¬ t.Coded) → q.length + 1 < 2 ^ 32 → StrictPrefix q (t.encode v) →
    Rejected (t.decode q)
  | .bool, _, _, _, q, _, _, hq => by
    obtain rfl : q = [] := List.length_eq_zero_iff.mp (Nat.lt_one_iff.mp hq.length_lt)
    exact ⟨_, rfl⟩
  | .uint, _, _, hshort, q, hnil, hlen, hq =>
    rejectsCut_E hshort q (hnil.resolve_right fun h => h trivial) hlen hq
  | .uint8, _, _, _, _, _, _, hq => fixedWire_rejected hq
  | .uint16, _, _, _, _, _, _, hq => fixedWire_rejected hq
  | .uint32, _, _, _, _, _, _, hq => fixedWire_rejected hq
  | .uint64, _, _, _, _, _, _, hq => fixedWire_rejected hq
  | .string, _, _, hshort, q, hnil, hlen, hq =>
    stringWire_cut hshort.1 hshort.2 q (hnil.resolve_right fun h => h trivial) hlen hq
  | .array n t, hsized, v, hshort, q, _, hlen, hq => by
    by_cases ht : t = .uint8
    · subst ht
      have hless : q.length < n := lt_of_lt_of_eq hq.length_lt Vector.length_toList
      exact ⟨_, if_pos hless⟩
    · have hreads : ∀ a : t.Val, ∃ u hungry, t.wire.Reads a u hungry := fun a =>
        (t.reads hsized.2 a).imp fun _ hu => ⟨_, hu.1⟩
      simp only [encode, decode, wire_array ht] at hq ⊢
      have hloop := decodeElems_cut hreads "array" (fun a ha q hnil =>
        t.cut_rejected hsized.2 a (hshort a ha) q (.inl hnil)) [] q hq hlen
      have hn : (Vector.toList v).length = n := Vector.length_toList
      rw [hn] at hloop
      exact hloop.bind _
  | .slice t, hsized, vs, hshort, q, hnil, hlen, hq => by
    have hdata : q ≠ [] := hnil.resolve_right fun h => h trivial
    by_cases ht : t = .uint8
    · subst ht
      exact byteSliceWire_cut hshort.1 q hdata hlen hq
    · have hreads : ∀ a : t.Val, ∃ u hungry, t.wire.Reads a u hungry := fun a =>
        (t.reads hsized.2 a).imp fun _ hu => ⟨_, hu.1⟩
      have hall := List.forall_iff_forall_mem.mp hshort.2
      simp only [encode, decode, wire_slice ht] at hq ⊢
      exact sliceWire_cut hreads hshort.1 (fun a ha q hnil =>
        t.cut_rejected hsized.2 a (hall a ha) q (.inl hnil)) q hdata hlen hq
  | .struct fields, hsized, v, hshort, q, _, hlen, hq =>
    (fields.cut_rejected hsized v hshort [] q hq hlen).bind _
  | .map _ _, _, _, hshort, _, _, _, _ => hshort.elim
  | .blockHeader, _, _, hshort, _, _, _, _ => hshort.elim
  | .workResult, _, R, hshort, q, _, _, hq => by
    have hencode : workResult.encode R = [Result.err R] := if_neg hshort
    rw [hencode] at hq
    obtain rfl : q = [] := List.length_eq_zero_iff.mp (Nat.lt_one_iff.mp hq.length_lt)
    exact ⟨_, rfl⟩

theorem GoFields.cut_rejected : (fields : GoFields) → fields.SizedElems → (v : fields.Val) →
    fields.Short v → RejectsCutAt fields.wire.decode (fields.wire.encode v)
  | .nil, _, _, _ => fun _ _ hq _ => absurd (List.prefix_nil.mp hq.1) hq.2
  | .cons _ t fields, hsized, v, hshort => by
    obtain ⟨u, hu, -⟩ := t.reads hsized.1 v.1
    exact consField_cut hu (fun q hnil => t.cut_rejected hsized.1 v.1 hshort.1 q (.inl hnil))
      (fields.cut_rejected hsized.2 v.2 hshort.2)

end

/-- A decoder that accepts no data at all. -/
theorem GoType.not_strict_of_nil {t : GoType} {v : t.Val} (hne : t.encode v ≠ [])
    (h : ¬ Rejected (t.decode [])) : ¬ t.Strict v :=
  fun hstrict => h (hstrict [] ⟨List.nil_prefix, fun hnil => hne hnil.symm⟩)

/-- A type that starts with a code accepts no data at all, as 0 or as the empty value. -/
theorem GoType.not_strict_of_coded {t : GoType} (hcoded : t.Coded) (hsized : t.SizedElems)
    (v : t.Val) : ¬ t.Strict v := by
  cases t with
  | uint | string | map => exact not_strict_of_nil (encode_ne_nil _ id hsized v) not_rejected_ok
  | slice t =>
    refine not_strict_of_nil (encode_ne_nil _ id hsized v) ?_
    by_cases ht : t = .uint8
    · subst ht
      exact not_rejected_ok
    · simp only [decode, wire_slice ht]
      exact not_rejected_ok
  | _ => exact hcoded.elim

/-- **Where the numbers and lengths in a value have codes of one byte, `Decode` notices every
truncation exactly when the type does not start with a code.** -/
theorem GoType.strict_iff (t : GoType) (hsized : t.SizedElems) (v : t.Val) (hshort : t.Short v)
    (hlen : (t.encode v).length < 2 ^ 32) : t.Strict v ↔ ¬ t.Coded := by
  constructor
  · intro hstrict hcoded
    exact not_strict_of_coded hcoded hsized v hstrict
  · intro hcoded q hq
    exact t.cut_rejected hsized v hshort q (.inr hcoded) (lt_of_le_of_lt hq.length_lt hlen) hq

/-- A struct of a `uint`, a slice of strings, and an array of work results with error codes. -/
theorem struct_strict :
    (struct (.cons ⟨"Slot", "slot"⟩ .uint (.cons ⟨"Names", "names"⟩ (.slice .string)
      (.cons ⟨"Results", "results"⟩ (.array 2 .workResult) .nil)))).Strict
      ((100 : UInt64), ["ab", "c"], (#v[⟨[], 3⟩, ⟨[], 1⟩] : Vector Result 2), ()) := by
  refine (strict_iff _ ?_ _ ?_ ?_).mpr id
  · simp [SizedElems, GoFields.SizedElems, ZeroWidth]
  · have hslot : (100 : UInt64).toNat < 128 := by decide
    have hresults : ∀ R ∈ (#v[⟨[], 3⟩, ⟨[], 1⟩] : Vector Result 2).toList, R.err ≠ 0 := by decide
    have hnames : ∀ s ∈ ["ab", "c"], string.Short s := by simp [Short]
    exact ⟨hslot, ⟨(by decide : 2 < 128), List.forall_iff_forall_mem.mpr hnames⟩, hresults,
      trivial⟩
  · decide +kernel

/-- Truncated data that `Decode` accepts: a `uint` without its second byte is 0, a work
result without its last byte is nil, and so is a block header without any byte. -/
theorem truncated_accepted : (uint.encode (128 : UInt64) = [128, 128] ∧
      uint.decode [128] = .ok (some (0 : UInt64), 0) ∧
      ¬ uint.Strict (128 : UInt64)) ∧
    (workResult.encode (⟨[1, 2], 0⟩ : Result) = [0, 2, 1, 2] ∧
      workResult.decode [0, 2, 1] = .ok (none, 1) ∧
      ¬ workResult.Strict (⟨[1, 2], 0⟩ : Result)) ∧
    (blockHeader.decode [] = .ok (none, 0) ∧ ∀ b : BlockHeader, ¬ blockHeader.Strict b) := by
  refine ⟨⟨by decide +kernel, rfl, ?_⟩, ⟨by decide +kernel, rfl, ?_⟩, rfl, ?_⟩
  · exact not_strict_of_nil (encode_ne_nil .uint id trivial _) not_rejected_ok
  · exact fun h => not_rejected_ok (h [0, 2, 1] ⟨⟨[2], rfl⟩, by decide⟩)
  · exact fun b => not_strict_of_nil (blockHeaderWire_ne_nil b) not_rejected_ok

end JamDuna.Types
