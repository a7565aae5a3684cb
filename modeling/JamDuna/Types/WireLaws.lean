/-
# What a decoder reads from an encoding

`Wire.Reads c v u hungry` is the law of one value: its encoding, of less than 4 GiB, is
read as `u` in front of any further bytes, and exactly its bytes are used. `Decode` asks
for one byte in front of each field of a struct, also in front of a field whose encoding
is empty. So the encoding of a struct that ends in such a field cannot be read when
nothing follows; such a value is `hungry`.

There is one law for each loop (`decodeLoop_append`, `decodeLoop_hungry`), and from it one
for each way of putting types together.
-/

import JamDuna.Basis.Positions
import JamDuna.Types.Wire

namespace JamDuna.Types

open JamDuna.Basis
open UInt32 (ofNat)

variable {α β κ : Type}

/-- The encoding of `v` is read as `u` in front of any bytes, and in front of none unless
`hungry`. -/
structure Wire.Reads (c : Wire α) (v u : α) (hungry : Prop) : Prop where
  decode_append : (c.encode v).length < 2 ^ 32 → ∀ rest, (rest = [] → ¬ hungry) →
    c.decode (c.encode v ++ rest) = .ok (some u, ofNat (c.encode v).length)
  decode_hungry : (c.encode v).length < 2 ^ 32 → hungry →
    ∃ e, c.decode (c.encode v) = .error (.err e)

/-- The same for the fields of a struct, which are read behind `pre`. -/
structure FieldsWire.Reads (fs : FieldsWire α) (v u : α) (hungry : Prop) : Prop where
  decode_append : ∀ pre, (pre ++ fs.encode v).length < 2 ^ 32 → ∀ rest, (rest = [] → ¬ hungry) →
      fs.decode (pre ++ (fs.encode v ++ rest)) (ofNat pre.length) =
        .ok (u, ofNat (pre ++ fs.encode v).length)
  decode_hungry : ∀ pre, (pre ++ fs.encode v).length < 2 ^ 32 → hungry →
    ∃ e, fs.decode (pre ++ fs.encode v) (ofNat pre.length) = .error (.err e)

theorem E_length_le (x : ℕ) : (E x).length ≤ 9 := by
  unfold E
  split_ifs
  · simp
  · split
    · next l hfind =>
      have hl : l < 8 := List.mem_range.mp (List.mem_of_find?_eq_some hfind)
      simp only [List.length_cons, length_toLE]
      omega
    · simp

theorem boolWire_reads (b : Bool) : boolWire.Reads b b False := by
  refine ⟨fun _ rest _ => ?_, fun _ h => h.elim⟩
  cases b <;> rfl

theorem uintWire_reads (x : UInt64) : uintWire.Reads x x False := by
  refine ⟨fun _ rest _ => ?_, fun _ h => h.elim⟩
  simp only [uintWire, decodeE_E x.toNat_lt, List.length_append]
  rw [if_neg (by omega), UInt64.ofNat_toNat]

theorem ofLE_append (a b : Bytes) : ofLE (a ++ b) = ofLE a + 256 ^ a.length * ofLE b := by
  induction a with
  | nil => simp [ofLE]
  | cons x a ih =>
    simp only [List.cons_append, ofLE, ih, List.length_cons, pow_succ]
    ring

/-- A number of `n` bytes, of which `SetUint` keeps the low `8 n` bits. -/
theorem fixedWire_reads {name : String} {n : ℕ} {eq : DecidableEq α} {toNat : α → ℕ}
    {setUint : ℕ → α} (hn : n ≤ 8) (hset : ∀ m, toNat (setUint m) = m % 2 ^ (8 * n))
    (hlt : ∀ x, toNat x < 2 ^ (8 * n)) (hinj : ∀ x y, toNat x = toNat y → x = y) (x : α) :
    (fixedWire name n eq toNat setUint).Reads x x False := by
  refine ⟨fun _ rest _ => ?_, fun _ h => h.elim⟩
  have hpow : 2 ^ (8 * n) = 256 ^ n := pow_mul 2 8 n
  have htake : (toLE n (toNat x) ++ rest).take 8 = toLE n (toNat x) ++ rest.take (8 - n) := by
    rw [List.take_append, length_toLE, List.take_of_length_le (by simpa using hn)]
  have hvalue : setUint (ofLE ((toLE n (toNat x) ++ rest).take 8)) = x := by
    apply hinj
    rw [hset, htake, ofLE_append, ofLE_toLE_of_lt (hpow ▸ hlt x), length_toLE, hpow,
      Nat.add_mul_mod_self_left, Nat.mod_eq_of_lt (hpow ▸ hlt x)]
  simp only [fixedWire, List.length_append, length_toLE]
  rw [if_neg (by omega), hvalue]

theorem uint8Wire_reads (x : UInt8) : uint8Wire.Reads x x False :=
  fixedWire_reads (by decide) (fun _ => UInt8.toNat_ofNat') UInt8.toNat_lt
    (fun _ _ => UInt8.toNat_inj.mp) x

theorem uint16Wire_reads (x : UInt16) : uint16Wire.Reads x x False :=
  fixedWire_reads (by decide) (fun _ => UInt16.toNat_ofNat') UInt16.toNat_lt
    (fun _ _ => UInt16.toNat_inj.mp) x

theorem uint32Wire_reads (x : UInt32) : uint32Wire.Reads x x False :=
  fixedWire_reads (by decide) (fun _ => UInt32.toNat_ofNat') UInt32.toNat_lt
    (fun _ _ => UInt32.toNat_inj.mp) x

theorem uint64Wire_reads (x : UInt64) : uint64Wire.Reads x x False :=
  fixedWire_reads (by decide) (fun _ => UInt64.toNat_ofNat') UInt64.toNat_lt
    (fun _ _ => UInt64.toNat_inj.mp) x

section

open List

variable {step : Bytes → Except (Stop String) (α × UInt32)} (overrun : String)

/-- What is read behind `pre` moves the position behind it. -/
theorem decodeNext_append {pre bytes rest : Bytes} {a : α} (hlen : (pre ++ bytes).length < 2 ^ 32)
    (h : step (bytes ++ rest) = .ok (a, ofNat bytes.length)) :
    decodeNext step overrun (pre ++ (bytes ++ rest)) (ofNat pre.length) =
      .ok (a, ofNat (pre ++ bytes).length) := by
  rw [length_append] at hlen
  have hsum := ofNat_add_toNat _ _ hlen
  have hin : ¬ (pre ++ (bytes ++ rest)).length < pre.length + bytes.length := by
    simp only [length_append]
    omega
  have hend : ofNat (pre ++ bytes).length = ofNat pre.length + ofNat bytes.length := by
    rw [length_append, UInt32.ofNat_add]
  rw [← hsum] at hin
  simp only [decodeNext, toNat_ofNat_of_lt (by omega : pre.length < 2 ^ 32), drop_left, h,
    hend, ok_bind, failIf_decide_of_not hin]
  rfl

theorem decodeNext_error {pre bytes : Bytes} {s : Stop String} (hlen : pre.length < 2 ^ 32)
    (h : step bytes = .error s) :
    decodeNext step overrun (pre ++ bytes) (ofNat pre.length) = .error s := by
  simp only [decodeNext, toNat_ofNat_of_lt hlen, drop_left, h]
  rfl

/-- A guard that lets pass where there is data left. -/
def Guards (guard : Bytes → UInt32 → Except (Stop String) Unit) : Prop :=
  ∀ data length, UInt32.toNat length < List.length data → guard data length = .ok ()

theorem elemGuard_guards (kind : String) : Guards (elemGuard kind) := by
  intro data length h
  have hle := toNat_add_one_le length
  have h₁ : ¬ data.length < (length + 1).toNat := by omega
  have h₂ : ¬ data.length - length.toNat < 1 := by omega
  rw [elemGuard, failIf_decide_of_not h₁, ok_bind, failIf_decide_of_not h₂]

theorem runeGuard_guards : Guards runeGuard := by
  intro data length h
  have hle := toNat_add_one_le length
  have h₁ : ¬ data.length < (length + 1).toNat := by omega
  rw [runeGuard, failIf_decide_of_not h₁]

variable {guard : Bytes → UInt32 → Except (Stop String) Unit} {enc : β → Bytes} {hungry : β → Prop}

/-- What one call reads from the bytes of a part. -/
structure StepReads (step : Bytes → Except (Stop String) (α × UInt32)) (bytes : Bytes) (a : α)
    (hungry : Prop) : Prop where
  step_append : bytes.length < 2 ^ 32 → ∀ rest, (rest = [] → ¬ hungry) →
    step (bytes ++ rest) = .ok (a, ofNat bytes.length)
  step_hungry : bytes.length < 2 ^ 32 → hungry → ∃ e, step bytes = .error (.err e)

/-- One part of a loop: it has an encoding, and that is read as `a`. -/
structure PartReads (step : Bytes → Except (Stop String) (α × UInt32)) (enc : β → Bytes)
    (hungry : β → Prop) (v : β) (a : α) : Prop extends StepReads step (enc v) a (hungry v) where
  ne_nil : enc v ≠ []

variable {vs : List β} {as : List α}

theorem flatMap_ne_nil_of_forall₂
    (h : List.Forall₂ (PartReads step enc hungry) vs as) (hnil : vs.flatMap enc = []) :
    vs = [] := by
  cases h with
  | nil => rfl
  | cons hv _ => exact absurd (append_eq_nil_iff.mp hnil).1 hv.ne_nil

theorem length_lt_of_part {pre a b : Bytes} {n : ℕ} (hpos : a ≠ [] ∨ b ≠ [])
    (hn : n = pre.length) : n < (pre ++ (a ++ b)).length := by
  have : 0 < a.length + b.length := by
    rcases hpos with h | h
    all_goals
      have := length_pos_of_ne_nil h
      omega
  simp only [length_append]
  omega

section

variable (hguard : Guards guard) (h : List.Forall₂ (PartReads step enc hungry) vs as)
include hguard h

/-- **A loop reads the encodings of its parts, one after the other.** -/
theorem decodeLoop_append (pre rest : Bytes) (hlen : (pre ++ vs.flatMap enc).length < 2 ^ 32)
    (hrest : rest = [] → ∀ v ∈ vs.getLast?, ¬ hungry v) :
    decodeLoop guard step overrun (pre ++ (vs.flatMap enc ++ rest)) vs.length (ofNat pre.length) =
      .ok (as, ofNat (pre ++ vs.flatMap enc).length) := by
  induction h generalizing pre with
  | nil => simp [decodeLoop, pure, Except.pure]
  | @cons v a vs as hv hvs ih =>
    have hdata : pre ++ ((v :: vs).flatMap enc ++ rest) =
        pre ++ (enc v ++ (vs.flatMap enc ++ rest)) := by simp
    have hdata' : pre ++ (v :: vs).flatMap enc = (pre ++ enc v) ++ vs.flatMap enc := by simp
    rw [hdata'] at hlen ⊢
    have hpre : (pre ++ enc v).length < 2 ^ 32 := by
      rw [length_append] at hlen
      omega
    have hshort : (enc v).length < 2 ^ 32 ∧ pre.length < 2 ^ 32 := by
      rw [length_append] at hpre
      omega
    have hv' : vs.flatMap enc ++ rest = [] → ¬ hungry v := by
      intro hnil
      obtain ⟨hvs_nil, hrest_nil⟩ := append_eq_nil_iff.mp hnil
      obtain rfl := flatMap_ne_nil_of_forall₂ hvs hvs_nil
      exact hrest hrest_nil v (by simp)
    have hpos := hguard (pre ++ (enc v ++ (vs.flatMap enc ++ rest))) (ofNat pre.length)
      (length_lt_of_part (.inl hv.ne_nil) (toNat_ofNat_of_lt hshort.2))
    have hnext := decodeNext_append overrun hpre
      (hv.step_append hshort.1 (vs.flatMap enc ++ rest) hv')
    have htail := ih (pre ++ enc v) hlen fun hnil w hw =>
      hrest hnil w (by cases vs <;> simp_all)
    rw [append_assoc] at htail
    rw [hdata, length_cons, decodeLoop]
    simp only [hpos, hnext, htail, ok_bind]
    rfl

/-- A loop whose last part wants one byte more stops when there is none. -/
theorem decodeLoop_hungry (pre : Bytes) (hlen : (pre ++ vs.flatMap enc).length < 2 ^ 32)
    (hlast : ∃ v ∈ vs.getLast?, hungry v) :
    ∃ e, decodeLoop guard step overrun (pre ++ vs.flatMap enc) vs.length
      (ofNat pre.length) = .error (.err e) := by
  induction h generalizing pre with
  | nil => simp at hlast
  | @cons v a vs as hv hvs ih =>
    have hdata : pre ++ (v :: vs).flatMap enc = pre ++ (enc v ++ vs.flatMap enc) := by simp
    have hassoc : pre ++ (v :: vs).flatMap enc = (pre ++ enc v) ++ vs.flatMap enc := by simp
    have hshort : (pre ++ enc v).length < 2 ^ 32 ∧ (enc v).length < 2 ^ 32 ∧
        pre.length < 2 ^ 32 := by
      rw [hassoc] at hlen
      simp only [length_append] at hlen ⊢
      omega
    have hpos := hguard (pre ++ (enc v ++ vs.flatMap enc)) (ofNat pre.length)
      (length_lt_of_part (.inl hv.ne_nil) (toNat_ofNat_of_lt hshort.2.2))
    rw [hdata, length_cons, decodeLoop]
    rw [hpos, ok_bind]
    by_cases hvs_nil : vs = []
    · -- the last part itself fails
      subst hvs_nil
      obtain ⟨w, hw, hungry_w⟩ := hlast
      obtain rfl : v = w := by simpa using hw
      obtain ⟨e, he⟩ := hv.step_hungry hshort.2.1 hungry_w
      refine ⟨e, ?_⟩
      rw [flatMap_nil, append_nil, decodeNext_error overrun hshort.2.2 he, error_bind]
    · -- this part is read, and a later one fails
      have hv' : vs.flatMap enc = [] → ¬ hungry v := fun hnil =>
        absurd (flatMap_ne_nil_of_forall₂ hvs hnil) hvs_nil
      obtain ⟨e, he⟩ := ih (pre ++ enc v) (by rwa [hassoc] at hlen) (by
        obtain ⟨w, hw, hungry_w⟩ := hlast
        exact ⟨w, by cases vs <;> simp_all, hungry_w⟩)
      rw [append_assoc] at he
      refine ⟨e, ?_⟩
      rw [decodeNext_append overrun hshort.1 (hv.step_append hshort.2.1 (vs.flatMap enc) hv'),
        ok_bind]
      simp only [he, error_bind]

end

end

theorem runeOf_toNat (c : Char) : runeOf c.toNat = c := by
  have hmod : c.toNat % 2 ^ 32 = c.toNat := Nat.mod_eq_of_lt c.val.toNat_lt
  have hvalid : c.toNat.isValidChar := c.valid
  rw [runeOf, hmod, if_pos hvalid, Char.ofNat_toNat]

theorem length_le_length_flatMap_of_ne_nil {enc : β → Bytes} {vs : List β}
    (h : ∀ v ∈ vs, enc v ≠ []) : vs.length ≤ (vs.flatMap enc).length := by
  induction vs with
  | nil => simp
  | cons v vs ih =>
    have hv := List.length_pos_of_ne_nil (h v List.mem_cons_self)
    have hvs := ih fun w hw => h w (.tail _ hw)
    simp only [List.flatMap_cons, List.length_append, List.length_cons]
    omega

theorem stringWire_reads (s : String) : stringWire.Reads s s False := by
  refine ⟨fun hlen rest _ => ?_, fun _ h => h.elim⟩
  have hcount : s.toList.length ≤ (s.toList.flatMap fun c => E c.toNat).length :=
    length_le_length_flatMap_of_ne_nil fun c _ => E_ne_nil c.toNat
  have hlen' : (E s.toList.length ++ s.toList.flatMap fun c => E c.toNat).length < 2 ^ 32 := hlen
  have hlist : s.toList.length < 2 ^ 32 := by
    rw [List.length_append] at hlen'
    omega
  have hparts : List.Forall₂ (PartReads (fun d => (pure (runeOf (decodeE d).1,
      ofNat (decodeE d).2) : Except (Stop String) (Char × UInt32)))
      (fun c => E c.toNat) fun _ => False) s.toList s.toList := by
    refine List.forall₂_same.mpr fun c _ =>
      ⟨⟨fun _ rest _ => ?_, fun _ h => h.elim⟩, E_ne_nil _⟩
    have hc : c.toNat < 2 ^ 64 := lt_trans c.val.toNat_lt (by decide)
    simp only [decodeE_E hc, runeOf_toNat]
    rfl
  have hloop := decodeLoop_append "data length insufficient for string character decoding"
    runeGuard_guards hparts (E s.toList.length) rest hlen' fun _ _ _ h => h
  have hin : ¬ (E s.toList.length ++ ((s.toList.flatMap fun c => E c.toNat) ++ rest)).length <
      (E s.toList.length).length := by
    simp only [List.length_append]
    omega
  have halloc : ¬ maxAlloc < s.toList.length := by
    simp only [maxAlloc]
    omega
  simp only [stringWire, List.append_assoc, decodeE_E (lt_trans hlist (by decide)), if_neg hin,
    if_neg halloc, hloop, ok_bind, String.ofList_toList]
  rfl

variable {n : ℕ} {c : Wire α} {back : α → α}

theorem byteArrayWire_reads (v : Vector UInt8 n) : (byteArrayWire n).Reads v v False := by
  refine ⟨fun hlen rest _ => ?_, fun _ h => h.elim⟩
  have hn : v.toList.length = n := by simp
  have hlen' : n < 2 ^ 32 := hn ▸ hlen
  have hin : ¬ (v.toList ++ rest).length < n := by
    simp only [List.length_append]
    omega
  have hcopy : copyToArray n 0 v.toList = v := by
    apply Vector.toList_inj.mp
    rw [toList_copyToArray hn]
  simp only [byteArrayWire, if_neg hin, toNat_ofNat_of_lt hlen', List.take_left' hn, hcopy, hn]

/-- An element or a field is read as the value. -/
theorem Wire.Reads.elem {v u : α} {hungry : Prop} (h : c.Reads v u hungry) :
    StepReads c.elem (c.encode v) u hungry := by
  refine ⟨fun hlen rest hrest => ?_, fun hlen hungry_v => ?_⟩
  · simp only [Wire.elem, h.decode_append hlen rest hrest]
    rfl
  · obtain ⟨e, he⟩ := h.decode_hungry hlen hungry_v
    exact ⟨e, by simp only [Wire.elem, he]; rfl⟩

/-- The last element wants one byte more. -/
def lastHungry (hungry : α → Prop) (vs : List α) : Prop := ∃ v ∈ vs.getLast?, hungry v

/-- The elements of a sequence that are read back by `back`. -/
theorem forall₂_part {hungry : α → Prop} {vs : List α}
    (h : ∀ v ∈ vs, c.Reads v (back v) (hungry v)) (hne : ∀ v ∈ vs, c.encode v ≠ []) :
    List.Forall₂ (PartReads c.elem c.encode hungry) vs (vs.map back) :=
  List.forall₂_map_right_iff.mpr (List.forall₂_same.mpr fun v hv => ⟨(h v hv).elem, hne v hv⟩)

theorem arrayWire_reads {hungry : α → Prop} {v : Vector α n}
    (h : ∀ a ∈ v.toList, c.Reads a (back a) (hungry a)) (hne : ∀ a ∈ v.toList, c.encode a ≠ []) :
    (arrayWire n c).Reads v (v.map back) (lastHungry hungry v.toList) := by
  have hn : v.toList.length = n := by simp
  have hcopy : copyToArray n c.zero (v.toList.map back) = v.map back := by
    apply Vector.toList_inj.mp
    rw [toList_copyToArray (by simp), Vector.toList_map]
  have hparts := forall₂_part h hne
  constructor
  · intro hlen rest hrest
    have hloop := decodeLoop_append
      ("data length insufficient for " ++ "array" ++ " element decoding") (elemGuard_guards "array")
      hparts [] rest hlen
      fun hnil a ha hungry_a => hrest hnil ⟨a, ha, hungry_a⟩
    rw [hn] at hloop
    simp only [List.nil_append, List.length_nil, ofNat_zero] at hloop
    simp only [arrayWire, decodeElems, hloop, ok_bind, hcopy]
    rfl
  · intro hlen hlast
    obtain ⟨e, he⟩ := decodeLoop_hungry
      ("data length insufficient for " ++ "array" ++ " element decoding") (elemGuard_guards "array")
      hparts [] hlen hlast
    rw [hn] at he
    simp only [List.nil_append, List.length_nil, ofNat_zero] at he
    exact ⟨e, by simp only [arrayWire, decodeElems, he, error_bind]⟩

/-- The length of a slice of `n` elements is read when as many bytes follow. -/
theorem sliceLength_append (items : Bytes) (hn : n < 2 ^ 64) (hle : n ≤ items.length) :
    sliceLength (E n ++ items) = .ok (n, (E n).length) := by
  have h₁ : ¬ (E n ++ items).length < (E n).length := by
    simp only [List.length_append]
    omega
  have h₂ : ¬ (E n ++ items).length < n := by
    simp only [List.length_append]
    omega
  simp only [sliceLength, decodeE_E hn, failIf_decide_of_not h₁, failIf_decide_of_not h₂, ok_bind]
  rfl

theorem byteSliceWire_reads (b : Bytes) : byteSliceWire.Reads b b False := by
  refine ⟨fun hlen rest _ => ?_, fun _ h => h.elim⟩
  have hlen' : (E b.length).length + b.length < 2 ^ 32 := by
    rw [← List.length_append]
    exact hlen
  have hcount : b.length < 2 ^ 64 := by omega
  have hlength := sliceLength_append (b ++ rest) hcount (by simp)
  have hstop := ofNat_add_toNat _ _ hlen'
  have hin : ¬ (E b.length ++ (b ++ rest)).length < (E b.length).length + b.length := by
    simp only [List.length_append]
    omega
  have hcopied : ((E b.length ++ (b ++ rest)).drop (E b.length).length).take
      ((E b.length).length + b.length - (E b.length).length) = b := by
    rw [List.drop_left, Nat.add_sub_cancel_left, List.take_left]
  have hforward : ¬ (E b.length).length + b.length < (E b.length).length := by omega
  simp only [byteSliceWire, List.append_assoc, hlength, ok_bind, failIf_decide_of_not hin, hstop,
    if_neg hforward, hcopied, Nat.sub_self, List.replicate_zero, List.append_nil]
  rw [List.length_append, UInt32.ofNat_add]
  rfl

theorem sliceWire_reads {hungry : α → Prop} {vs : List α}
    (h : ∀ v ∈ vs, c.Reads v (back v) (hungry v)) (hne : ∀ v ∈ vs, c.encode v ≠ []) :
    (sliceWire c).Reads vs (vs.map back) (lastHungry hungry vs) := by
  have hcount := length_le_length_flatMap_of_ne_nil hne
  have hparts := forall₂_part h hne
  have hshort : (E vs.length ++ vs.flatMap c.encode).length < 2 ^ 32 → vs.length < 2 ^ 64 := by
    intro hlen
    rw [List.length_append] at hlen
    omega
  constructor
  · intro hlen rest hrest
    have hlength := sliceLength_append (vs.flatMap c.encode ++ rest)
      (hshort hlen) (by simp only [List.length_append]; omega)
    have hloop := decodeLoop_append
      ("data length insufficient for " ++ "slice" ++ " element decoding") (elemGuard_guards "slice")
      hparts (E vs.length) rest hlen
      fun hnil a ha hungry_a => hrest hnil ⟨a, ha, hungry_a⟩
    simp only [sliceWire, decodeElems, List.append_assoc, hlength, hloop, ok_bind]
    rfl
  · intro hlen hlast
    have hlength := sliceLength_append (vs.flatMap c.encode) (hshort hlen) hcount
    obtain ⟨e, he⟩ := decodeLoop_hungry
      ("data length insufficient for " ++ "slice" ++ " element decoding") (elemGuard_guards "slice")
      hparts (E vs.length) hlen hlast
    exact ⟨e, by simp only [sliceWire, decodeElems, hlength, he, ok_bind, error_bind]⟩

end JamDuna.Types
