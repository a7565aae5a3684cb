/-
# What a decoder reads from structs, maps and types with methods

The laws of `Types.WireLaws` for the types whose parts differ (`types/codec.go`, the cases
`reflect.Struct` and `reflect.Map`, and `CheckCustomDecode`). A field reads as an element
does, except that it may have no bytes. A map is a slice of its entries, sorted by key, and
setting them one after the other gives the map again, whatever the order
(`setMapIndices_entryPairs`).
-/

import JamDuna.Types.WireLaws

namespace JamDuna.Types

open JamDuna.Basis List

variable {α β κ : Type}

theorem endFields_reads (v : Unit) : endFields.Reads v v False := by
  refine ⟨fun pre _ rest _ => ?_, fun _ _ h => h.elim⟩
  simp [endFields, pure, Except.pure]

/-- A field in front of others wants one byte more when they have no bytes. -/
def fieldHungry (c : Wire α) (fs : FieldsWire β) (v : α × β) (first others : Prop) : Prop :=
  others ∨ fs.encode v.2 = [] ∧ (first ∨ c.encode v.1 = [])

section

variable {info : FieldInfo} {c : Wire α} {fs : FieldsWire β} {v u : α × β} {first others : Prop}
  {pre : Bytes}

/-- A struct that fits has parts that fit. -/
theorem lengths_of_fields {a b : Bytes} (hlen : (pre ++ (a ++ b)).length < 2 ^ 32) :
    (pre ++ a).length < 2 ^ 32 ∧ a.length < 2 ^ 32 ∧ pre.length < 2 ^ 32 ∧
      ((pre ++ a) ++ b).length < 2 ^ 32 := by
  simp only [length_append] at hlen ⊢
  omega

/-- The check in front of a field passes where a byte is left. -/
theorem not_left_lt_one {a b : Bytes} (hpre : pre.length < 2 ^ 32) (hpos : a ≠ [] ∨ b ≠ []) :
    ¬ (pre ++ (a ++ b)).length - (UInt32.ofNat pre.length).toNat < 1 := by
  have := length_lt_of_part hpos (toNat_ofNat_of_lt hpre)
  omega

section

variable (ha : StepReads c.elem (c.encode v.1) u.1 first)
include ha

/-- A field reads as the type does, under its own error. -/
theorem mapError_elem_append {rest : Bytes} (hlen : (c.encode v.1).length < 2 ^ 32)
    (hrest : rest = [] → ¬ first) :
    mapError (fieldError info c.name) (c.elem (c.encode v.1 ++ rest)) =
      .ok (u.1, UInt32.ofNat (c.encode v.1).length) := by
  rw [ha.step_append hlen rest hrest]
  rfl

section

variable (hb : fs.Reads v.2 u.2 others)
  (hlen : (pre ++ (c.encode v.1 ++ fs.encode v.2)).length < 2 ^ 32)
include hb hlen

theorem consField_decode_append {rest : Bytes}
    (hrest : rest = [] → ¬ fieldHungry c fs v first others) :
    (consField info c fs).decode (pre ++ ((c.encode v.1 ++ fs.encode v.2) ++ rest))
        (UInt32.ofNat pre.length) =
      .ok (u, UInt32.ofNat (pre ++ (c.encode v.1 ++ fs.encode v.2)).length) := by
  obtain ⟨hpre, hfirst, hpos, hall⟩ := lengths_of_fields hlen
  have hrest' : fs.encode v.2 ++ rest = [] → ¬ first := by
    intro hnil hfst
    obtain ⟨hnil₂, hnil₁⟩ := append_eq_nil_iff.mp hnil
    exact hrest hnil₁ (.inr ⟨hnil₂, .inl hfst⟩)
  have hnonempty : c.encode v.1 ≠ [] ∨ fs.encode v.2 ++ rest ≠ [] := by
    by_contra hcon
    simp only [not_or, not_not] at hcon
    obtain ⟨hnil₂, hnil₁⟩ := append_eq_nil_iff.mp hcon.2
    exact hrest hnil₁ (.inr ⟨hnil₂, .inr hcon.1⟩)
  have hnext : decodeNext (fun d => mapError (fieldError info c.name) (c.elem d))
      "data length insufficient for struct field decoding"
      (pre ++ (c.encode v.1 ++ (fs.encode v.2 ++ rest))) (UInt32.ofNat pre.length) =
        .ok (u.1, UInt32.ofNat (pre ++ c.encode v.1).length) :=
    decodeNext_append _ hpre (mapError_elem_append ha hfirst hrest')
  have htail := hb.decode_append (pre ++ c.encode v.1) hall rest fun hnil h => hrest hnil (.inl h)
  rw [append_assoc] at htail
  simp only [consField, append_assoc, failIf_decide_of_not (not_left_lt_one hpos hnonempty),
    hnext, htail, ok_bind]
  rfl

theorem consField_decode_hungry (hhungry : fieldHungry c fs v first others) :
    ∃ e, (consField info c fs).decode (pre ++ (c.encode v.1 ++ fs.encode v.2))
      (UInt32.ofNat pre.length) = .error (.err e) := by
  obtain ⟨hpre, hfirst, hpos, hall⟩ := lengths_of_fields hlen
  by_cases hnonempty : c.encode v.1 ≠ [] ∨ fs.encode v.2 ≠ []
  · simp only [consField, failIf_decide_of_not (not_left_lt_one hpos hnonempty), ok_bind]
    by_cases hstop : fs.encode v.2 = [] ∧ first
    · -- the field itself wants a byte that nothing provides
      obtain ⟨e, he⟩ := ha.step_hungry hfirst hstop.2
      refine ⟨fieldError info c.name e, ?_⟩
      rw [hstop.1, append_nil, decodeNext_error _ hpos
        (s := .err (fieldError info c.name e)), error_bind]
      rw [he]
      rfl
    · have hothers : others := by
        rcases hhungry with h | ⟨hnil, h | h⟩
        · exact h
        · exact absurd ⟨hnil, h⟩ hstop
        · exact absurd hnonempty (by simp [h, hnil])
      obtain ⟨e, he⟩ := hb.decode_hungry (pre ++ c.encode v.1) hall hothers
      rw [append_assoc] at he
      refine ⟨e, ?_⟩
      rw [decodeNext_append _ hpre
        (mapError_elem_append ha hfirst fun hnil h => hstop ⟨hnil, h⟩), ok_bind]
      simp only [he, error_bind]
  · -- no byte is left in front of the field
    simp only [not_or, not_not] at hnonempty
    refine ⟨"data length insufficient for struct field: " ++ info.name, ?_⟩
    have hempty : (pre ++ (c.encode v.1 ++ fs.encode v.2)).length -
        (UInt32.ofNat pre.length).toNat < 1 := by
      rw [hnonempty.1, hnonempty.2, toNat_ofNat_of_lt hpos]
      simp
    simp only [consField, failIf_decide_of hempty, error_bind]

end

theorem consField_reads (hb : fs.Reads v.2 u.2 others) :
    (consField info c fs).Reads v u (fieldHungry c fs v first others) where
  decode_append _ hlen _ hrest := consField_decode_append ha hb hlen hrest
  decode_hungry _ hlen hhungry := consField_decode_hungry ha hb hlen hhungry

end

end

theorem structWire_reads {name : String} {fs : FieldsWire α} {v u : α} {hungry : Prop}
    (h : fs.Reads v u hungry) : (structWire name fs).Reads v u hungry := by
  constructor
  · intro hlen rest hrest
    have hfields := h.decode_append [] hlen rest hrest
    simp only [nil_append, length_nil, ofNat_zero] at hfields
    simp only [structWire, hfields, ok_bind]
    rfl
  · intro hlen hhungry
    obtain ⟨e, he⟩ := h.decode_hungry [] hlen hhungry
    simp only [nil_append, length_nil, ofNat_zero] at he
    exact ⟨e, by simp only [structWire, he, error_bind]⟩

section

theorem Wire.Reads.congr {c : Wire α} {v u : α} {p q : Prop} (h : c.Reads v u p) (hpq : p ↔ q) :
    c.Reads v u q :=
  propext hpq ▸ h

variable {K : Wire κ} {V : Wire β}

theorem kvPairWire_reads {k k' : κ} {v v' : β} {hk hv : Prop}
    (hK : K.Reads k k' hk) (hV : V.Reads v v' hv) (hne : V.encode v ≠ []) :
    (kvPairWire K V).Reads (k, v, ()) (k', v', ()) hv := by
  refine (structWire_reads (consField_reads (v := (k, v, ())) (u := (k', v', ())) hK.elem
    (consField_reads (v := (v, ())) (u := (v', ())) hV.elem (endFields_reads ())))).congr ?_
  simp [fieldHungry, consField, endFields, hne]

theorem kvPairWire_encode_ne_nil (k : κ) {v : β}
    (hne : V.encode v ≠ []) : (kvPairWire K V).encode (k, v, ()) ≠ [] := by
  simp [kvPairWire, structWire, consField, endFields, hne]

/-- A permutation of the images is an image of a permutation. -/
theorem exists_perm_map_eq {f : α → β} {l : List α} {bs : List β} (h : bs.Perm (l.map f)) :
    ∃ l' : List α, l'.Perm l ∧ l'.map f = bs := by
  have himage : Forall₂ (fun b a => b = f a) (l.map f) l :=
    forall₂_map_left_iff.mpr (forall₂_same.mpr fun _ _ => rfl)
  obtain ⟨l', hl', hperm⟩ := perm_comp_forall₂ h himage
  refine ⟨l', hperm, ?_⟩
  clear hperm h himage
  induction hl' with
  | nil => rfl
  | cons hb _ ih => rw [map_cons, ih, hb]

/-- The entries of a map in the order in which they are encoded. -/
theorem exists_entries (K : Wire κ) (V : Wire β) (m : Finmap fun _ : κ => β) :
    ∃ l : List (Sigma fun _ : κ => β), (l : Multiset (Sigma fun _ : κ => β)) = m.entries ∧
      l.map (entryCode K V) = entryCodes K V m := by
  obtain ⟨l₀, hl₀⟩ := Quot.exists_rep m.entries
  have hl₀' : (l₀ : Multiset (Sigma fun _ : κ => β)) = m.entries := hl₀
  have hperm : (entryCodes K V m).Perm (l₀.map (entryCode K V)) := by
    rw [entryCodes, ← hl₀']
    exact perm_insertionSort _ _
  obtain ⟨l, hl, hmap⟩ := exists_perm_map_eq hperm
  exact ⟨l, (Multiset.coe_eq_coe.mpr hl).trans hl₀', hmap⟩

/-- The entries as the pairs that `Encode` makes of them. -/
def entryPairs (l : List (Sigma fun _ : κ => β)) : List (κ × β × Unit) :=
  l.map fun e => (e.1, e.2, ())

theorem bytesKey_inj (b : Bytes) : (bytesKey b).map UInt8.ofNat = b := by
  simp [bytesKey, Function.comp_def]

variable {l : List (Sigma fun _ : κ => β)}

theorem mapWire_encode {m : Finmap fun _ : κ => β} (h : l.map (entryCode K V) = entryCodes K V m) :
    (mapWire K V).encode m = (sliceWire (kvPairWire K V)).encode (entryPairs l) := by
  have hbytes : ∀ e : Sigma fun _ : κ => β, ((ofLex (entryCode K V e)).2.map UInt8.ofNat) =
      (kvPairWire K V).encode (e.1, e.2, ()) := by
    intro e
    rw [entryCode, ofLex_toLex, bytesKey_inj]
    simp [kvPairWire, structWire, consField, endFields]
  simp only [mapWire, sliceWire, ← h, entryPairs, length_map, flatMap_map, hbytes]

/-- Entries with new keys, set one after the other. -/
theorem foldl_insert_entries [DecidableEq κ] (l : List (Sigma fun _ : κ => β))
    (m : Finmap fun _ : κ => β) (hnodup : l.NodupKeys) (hnew : ∀ e ∈ l, e.1 ∉ m) :
    ((entryPairs l).foldl (fun m kv => m.insert kv.1 kv.2.1) m).entries =
      (l : Multiset (Sigma fun _ : κ => β)) + m.entries := by
  induction l generalizing m with
  | nil => simp [entryPairs]
  | cons e l ih =>
    obtain ⟨hfresh, hrest⟩ := nodupKeys_cons.mp hnodup
    have hstep : (m.insert e.1 e.2).entries = e ::ₘ m.entries :=
      Finmap.entries_insert_of_notMem (hnew e mem_cons_self)
    have hnew' : ∀ e' ∈ l, e'.1 ∉ m.insert e.1 e.2 := by
      intro e' he'
      rw [Finmap.mem_insert, not_or]
      refine ⟨fun heq => hfresh ?_, hnew e' (.tail _ he')⟩
      rw [← heq]
      exact mem_map_of_mem he'
    have := ih (m.insert e.1 e.2) hrest hnew'
    simp only [entryPairs, map_cons, foldl_cons] at this ⊢
    rw [this, hstep, ← Multiset.cons_coe, Multiset.cons_add, Multiset.add_cons]

theorem setMapIndices_entryPairs (h : (l : Multiset (Sigma fun _ : κ => β)) = m.entries) :
    setMapIndices K (entryPairs l) = m := by
  have hnodup : l.NodupKeys := by
    have := m.nodupKeys
    rwa [← h, Multiset.coe_nodupKeys] at this
  apply Finmap.ext
  refine (@foldl_insert_entries β κ K.eq l ∅ hnodup fun e _ => Finmap.notMem_empty).trans ?_
  rw [h]
  exact add_zero m.entries

/-- The value of the last entry, in the order of the encoding, wants one byte more. -/
def mapHungry (K : Wire κ) (V : Wire β) (hungry : β → Prop) (m : Finmap fun _ : κ => β) : Prop :=
  ∃ l : List (Sigma fun _ : κ => β), (l : Multiset (Sigma fun _ : κ => β)) = m.entries ∧
    l.map (entryCode K V) = entryCodes K V m ∧
    lastHungry (fun kv : κ × β × Unit => hungry kv.2.1) (entryPairs l)

/-- A map is read back as the map of what its entries are read back as. -/
theorem mapWire_reads {backK : κ → κ} {backV : β → β} {hungryK : κ → Prop} {hungryV : β → Prop}
    (hK : ∀ k, K.Reads k (backK k) (hungryK k)) (hV : ∀ v, V.Reads v (backV v) (hungryV v))
    (hne : ∀ v, V.encode v ≠ []) (m : Finmap fun _ : κ => β) :
    ∃ u, (mapWire K V).Reads m u (mapHungry K V hungryV m) ∧
      ((∀ k, backK k = k) → (∀ v, backV v = v) → u = m) := by
  have hslice : ∀ l : List (Sigma fun _ : κ => β), (sliceWire (kvPairWire K V)).Reads
      (entryPairs l) ((entryPairs l).map fun kv => (backK kv.1, backV kv.2.1, ()))
      (lastHungry (fun kv => hungryV kv.2.1) (entryPairs l)) := fun l =>
    sliceWire_reads (fun kv _ => kvPairWire_reads (hK kv.1) (hV kv.2.1) (hne kv.2.1))
      fun kv _ => kvPairWire_encode_ne_nil kv.1 (hne kv.2.1)
  obtain ⟨l, hl, hcodes⟩ := exists_entries K V m
  refine ⟨setMapIndices K ((entryPairs l).map fun kv => (backK kv.1, backV kv.2.1, ())),
    ⟨fun hlen rest hrest => ?_, fun hlen hhungry => ?_⟩, fun hk hv => ?_⟩
  · rw [mapWire_encode hcodes] at hlen ⊢
    have hread := (hslice l).decode_append hlen rest fun hnil hlast =>
      hrest hnil ⟨l, hl, hcodes, hlast⟩
    simp only [mapWire, hread, ok_bind]
    rfl
  · obtain ⟨l', -, hcodes', hlast⟩ := hhungry
    rw [mapWire_encode hcodes'] at hlen ⊢
    obtain ⟨e, he⟩ := (hslice l').decode_hungry hlen hlast
    exact ⟨e, by simp only [mapWire, he, error_bind]⟩
  · have hsame : (entryPairs l).map (fun kv => (backK kv.1, backV kv.2.1, ())) = entryPairs l := by
      simp [hk, hv]
    rw [hsame, setMapIndices_entryPairs hl]

end

/-- A type with its own methods, when its `Decode` reads what its `Encode` wrote. -/
theorem customWire_reads {kind : Wire α} {encode : α → Bytes}
    {decode : Bytes → Option (Option α × UInt32)} {v u : α}
    (h : (encode v).length < 2 ^ 32 → ∀ rest, decode (encode v ++ rest) =
      some (some u, UInt32.ofNat (encode v).length)) :
    (customWire kind encode decode).Reads v u False := by
  refine ⟨fun hlen rest _ => ?_, fun _ hf => hf.elim⟩
  have hlen' : (encode v).length < 2 ^ 32 := hlen
  have hin : ¬ (encode v ++ rest).length < (UInt32.ofNat (encode v).length).toNat := by
    rw [toNat_ofNat_of_lt hlen', length_append]
    omega
  simp only [customWire, h hlen' rest, if_neg hin]

end JamDuna.Types
