/-
# Decoding by reflection

`types/codec.go`: `Encode` (261–406), `Decode` (408–628), `CheckCustomDecode`
(230–250) and `getKVPairSliceType`. `Wire α` is what the two functions know of a Go type
with values in `α`; there is one for every kind they distinguish, and those of arrays,
slices, structs and maps are put together from those of their parts.

The position in the data is the `uint32` of the source, so it wraps, and an error is kept
apart from a panic. A decoder may return no value at all (`none`, the nil interface) without an
error: a type with its own `Decode` method reports a failure in this way. An element that is nil
is left at its zero value.

The position never passes the end of the data, since every addition to it is checked; so
`data[length:]` is `data.drop length`.
-/

import JamDuna.Basis.EarlyExit
import JamDuna.Types.Codec
import Mathlib

namespace JamDuna.Types

open JamDuna.Basis

/-- What `Encode` and `Decode` know of a Go type. -/
structure Wire (α : Type) where
  /-- `Type.Name`, empty for a type that is not declared. -/
  name : String
  zero : α
  /-- `==` on keys of a map. -/
  eq : DecidableEq α
  /-- What `Encode` compares when it sorts the keys of a map. -/
  sortKey : α → List ℕ
  encode : α → Bytes
  /-- The value, if any, and the number of bytes used. -/
  decode : Bytes → Except (Stop String) (Option α × UInt32)

/-- The fields of a struct from some field on; `decode` starts at a position. -/
structure FieldsWire (α : Type) where
  zero : α
  eq : DecidableEq α
  encode : α → Bytes
  decode : Bytes → UInt32 → Except (Stop String) (α × UInt32)

variable {α β κ : Type}

/-- The bytes as numbers. -/
def bytesKey (b : Bytes) : List ℕ := b.map UInt8.toNat

/-- `reflect.Bool`. -/
def boolWire : Wire Bool where
  name := "bool"
  zero := false
  eq := inferInstance
  sortKey b := [b.toNat]
  encode b := [if b then 1 else 0]
  decode
    | [] => .error (.err "data length insufficient for bool")
    | b :: _ => .ok (some (b == 1), 1)

/-- `reflect.Uint`: the variable-length code. -/
def uintWire : Wire UInt64 where
  name := "uint"
  zero := 0
  eq := inferInstance
  sortKey x := [x.toNat]
  encode x := E x.toNat
  decode data :=
    if data.length < (decodeE data).2 then .error (.err "data length insufficient for uint")
    else .ok (some (UInt64.ofNat (decodeE data).1), UInt32.ofNat (decodeE data).2)

/-- `reflect.Uint8` to `reflect.Uint64`: `n` bytes. `DecodeE_l` reads up to eight bytes and
`SetUint` keeps the low ones. -/
def fixedWire (name : String) (n : ℕ) (eq : DecidableEq α) (toNat : α → ℕ) (setUint : ℕ → α) :
    Wire α where
  name := name
  zero := setUint 0
  eq := eq
  sortKey x := [toNat x]
  encode x := toLE n (toNat x)
  decode data :=
    if data.length < n then .error (.err ("data length insufficient for " ++ name))
    else .ok (some (setUint (ofLE (data.take 8))), UInt32.ofNat n)

/-- `reflect.Uint8`. -/
def uint8Wire : Wire UInt8 := fixedWire "uint8" 1 inferInstance UInt8.toNat UInt8.ofNat

/-- `reflect.Uint16`. -/
def uint16Wire : Wire UInt16 := fixedWire "uint16" 2 inferInstance UInt16.toNat UInt16.ofNat

/-- `reflect.Uint32`. -/
def uint32Wire : Wire UInt32 := fixedWire "uint32" 4 inferInstance UInt32.toNat UInt32.ofNat

/-- `reflect.Uint64`. -/
def uint64Wire : Wire UInt64 := fixedWire "uint64" 8 inferInstance UInt64.toNat UInt64.ofNat

/-- Decode what starts at `length`, and move on behind it. -/
def decodeNext (step : Bytes → Except (Stop String) (α × UInt32)) (overrun : String)
    (data : Bytes) (length : UInt32) : Except (Stop String) (α × UInt32) := do
  let (a, l) ← step (data.drop length.toNat)
  failIf (decide (data.length < (length + l).toNat)) overrun
  pure (a, length + l)

/-- The loop over `n` parts of the same kind. -/
def decodeLoop (guard : Bytes → UInt32 → Except (Stop String) Unit)
    (step : Bytes → Except (Stop String) (α × UInt32)) (overrun : String) (data : Bytes) :
    ℕ → UInt32 → Except (Stop String) (List α × UInt32)
  | 0, length => pure ([], length)
  | n + 1, length => do
    guard data length
    let (a, length₁) ← decodeNext step overrun data length
    let (as, length₂) ← decodeLoop guard step overrun data n length₁
    pure (a :: as, length₂)

/-- The value an element or a field is set to: nil leaves the zero value. -/
def Wire.elem (c : Wire α) (data : Bytes) : Except (Stop String) (α × UInt32) := do
  let (a, l) ← c.decode data
  pure (a.getD c.zero, l)

/-- The two checks in front of an element. -/
def elemGuard (kind : String) (data : Bytes) (length : UInt32) : Except (Stop String) Unit := do
  failIf (decide (data.length < (length + 1).toNat))
    ("data length insufficient for " ++ kind ++ " element")
  failIf (decide (data.length - length.toNat < 1))
    ("data length insufficient for " ++ kind ++ " element decoding")

/-- The loop over the elements of an array or a slice. -/
def decodeElems (c : Wire α) (kind : String) (data : Bytes) (n : ℕ) (length : UInt32) :
    Except (Stop String) (List α × UInt32) :=
  decodeLoop (elemGuard kind) c.elem
    ("data length insufficient for " ++ kind ++ " element decoding") data n length

/-- `WriteRune` of `rune(x)`: what is no character becomes the replacement character. -/
def runeOf (x : ℕ) : Char :=
  if (x % 2 ^ 32).isValidChar then Char.ofNat (x % 2 ^ 32) else Char.ofNat 0xFFFD

/-- The check in front of a character. -/
def runeGuard (data : Bytes) (length : UInt32) : Except (Stop String) Unit :=
  failIf (decide (data.length < (length + 1).toNat)) "data length insufficient for string character"

/-- The most memory that can be asked for (`runtime.maxAlloc` on 64-bit machines). -/
def maxAlloc : ℕ := 2 ^ 48

/-- `reflect.String`, with valid UTF-8. `Grow` panics when it is asked for too much. -/
def stringWire : Wire String where
  name := "string"
  zero := ""
  eq := inferInstance
  sortKey s := bytesKey s.toUTF8.toList
  encode s := E s.toList.length ++ s.toList.flatMap fun c => E c.toNat
  decode data :=
    if data.length < (decodeE data).2 then
      .error (.err "data length insufficient for decoding string length")
    else if maxAlloc < (decodeE data).1 then .error .panic
    else do
      let (runes, length) ← decodeLoop runeGuard
        (fun d => pure (runeOf (decodeE d).1, UInt32.ofNat (decodeE d).2))
        "data length insufficient for string character decoding" data (decodeE data).1
        (UInt32.ofNat (decodeE data).2)
      pure (some (String.ofList runes), length)

/-- `n` copies of the zero value. -/
def zeroVector (n : ℕ) (zero : α) : Vector α n := Vector.replicate n zero

/-- `[n]byte`. -/
def byteArrayWire (n : ℕ) : Wire (Vector UInt8 n) where
  name := ""
  zero := zeroVector n 0
  eq := inferInstance
  sortKey v := bytesKey v.toList
  encode v := v.toList
  decode data :=
    if data.length < n then .error (.err "data length insufficient for byte array")
    else .ok (some (copyToArray n 0 (data.take (UInt32.ofNat n).toNat)), UInt32.ofNat n)

/-- `[n]T` for other `T`. -/
def arrayWire (n : ℕ) (c : Wire α) : Wire (Vector α n) where
  name := ""
  zero := zeroVector n c.zero
  eq := haveI := c.eq; inferInstance
  sortKey v := bytesKey (v.toList.flatMap c.encode)
  encode v := v.toList.flatMap c.encode
  decode data := do
    let (as, length) ← decodeElems c "array" data n 0
    pure (some (copyToArray n c.zero as), length)

/-- The length of a slice and its checks. -/
def sliceLength (data : Bytes) : Except (Stop String) (ℕ × ℕ) := do
  let (itemLen, l) := decodeE data
  failIf (decide (data.length < l)) "data length insufficient for slice length"
  failIf (decide (data.length < itemLen))
    ("slice length " ++ toString itemLen ++ " exceeds remaining data " ++ toString data.length)
  pure (itemLen, l)

/-- `[]byte`. The end `length + uint32(item_len)` of what is copied may wrap: below the
start it is out of range, and otherwise the bytes that are not copied stay zero. -/
def byteSliceWire : Wire Bytes where
  name := ""
  zero := []
  eq := inferInstance
  sortKey b := bytesKey (E b.length ++ b)
  encode b := E b.length ++ b
  decode data := do
    let (itemLen, l) ← sliceLength data
    failIf (decide (data.length < l + itemLen)) "data length insufficient for byte slice"
    let stop := UInt32.ofNat l + UInt32.ofNat itemLen
    if stop.toNat < l then .error .panic
    else
      let copied := (data.drop l).take (stop.toNat - l)
      pure (some (copied ++ List.replicate (itemLen - copied.length) 0), stop)

/-- `[]T` for other `T`. -/
def sliceWire (c : Wire α) : Wire (List α) where
  name := ""
  zero := []
  eq := haveI := c.eq; inferInstance
  sortKey as := bytesKey (E as.length ++ as.flatMap c.encode)
  encode as := E as.length ++ as.flatMap c.encode
  decode data := do
    let (itemLen, l) ← sliceLength data
    let (as, length) ← decodeElems c "slice" data itemLen (UInt32.ofNat l)
    pure (some as, length)

/-- The name of a field and its `json` tag. -/
structure FieldInfo where
  name : String
  tag : String
  deriving DecidableEq, Repr

/-- The error of a field with its place. -/
def fieldError (info : FieldInfo) (typeName err : String) : String :=
  "[Error From Codec Decode]" ++ err ++ " , type: " ++ typeName ++ ", name: " ++ info.name ++
    ", tag: " ++ info.tag

/-- The end of a struct. -/
def endFields : FieldsWire Unit where
  zero := ()
  eq := inferInstance
  encode _ := []
  decode _ length := pure ((), length)

/-- One more field in front. -/
def consField (info : FieldInfo) (c : Wire α) (fs : FieldsWire β) : FieldsWire (α × β) where
  zero := (c.zero, fs.zero)
  eq := haveI := c.eq; haveI := fs.eq; inferInstance
  encode v := c.encode v.1 ++ fs.encode v.2
  decode data length := do
    failIf (decide (data.length - length.toNat < 1))
      ("data length insufficient for struct field: " ++ info.name)
    let (a, length₁) ← decodeNext (fun d => mapError (fieldError info c.name) (c.elem d))
      "data length insufficient for struct field decoding" data length
    let (b, length₂) ← fs.decode data length₁
    pure ((a, b), length₂)

/-- `reflect.Struct`. -/
def structWire (name : String) (fs : FieldsWire α) : Wire α where
  name := name
  zero := fs.zero
  eq := fs.eq
  sortKey v := bytesKey (fs.encode v)
  encode := fs.encode
  decode data := do
    let (a, length) ← fs.decode data 0
    pure (some a, length)

/-- The struct of a key and a value that a map is encoded as a slice of. -/
def kvPairWire (K : Wire κ) (V : Wire β) : Wire (κ × β × Unit) :=
  structWire "" (consField ⟨"Key", "key"⟩ K (consField ⟨"Value", "value"⟩ V endFields))

/-- The key that an entry of a map is sorted by, with the bytes of the entry. -/
def entryCode (K : Wire κ) (V : Wire β) (e : Sigma fun _ : κ => β) : Lex (List ℕ × List ℕ) :=
  toLex (K.sortKey e.1, bytesKey (K.encode e.1 ++ V.encode e.2))

theorem insertionSort_eq_of_perm {l l' : List (Lex (List ℕ × List ℕ))} (h : l.Perm l') :
    l.insertionSort (· ≤ ·) = l'.insertionSort (· ≤ ·) := by
  have hl := List.pairwise_insertionSort (· ≤ ·) l
  have hl' := List.pairwise_insertionSort (· ≤ ·) l'
  refine List.Perm.eq_of_pairwise (fun _ _ _ _ => le_antisymm) hl hl' ?_
  exact (List.perm_insertionSort _ l).trans (h.trans (List.perm_insertionSort _ l').symm)

/-- `sort.Slice`. Keys that differ are sorted by something that differs, so the order of
`MapKeys` plays no role. -/
def sortCodes (codes : Multiset (Lex (List ℕ × List ℕ))) : List (Lex (List ℕ × List ℕ)) :=
  Quot.liftOn codes (fun l => l.insertionSort (· ≤ ·)) fun _ _ h => insertionSort_eq_of_perm h

/-- The entries of a map as they are encoded, in order. -/
def entryCodes (K : Wire κ) (V : Wire β) (m : Finmap fun _ : κ => β) :
    List (Lex (List ℕ × List ℕ)) :=
  sortCodes (m.entries.map (entryCode K V))

/-- `SetMapIndex` for each pair. -/
def setMapIndices (K : Wire κ) (pairs : List (κ × β × Unit)) : Finmap fun _ : κ => β :=
  haveI := K.eq
  pairs.foldl (fun m kv => m.insert kv.1 kv.2.1) ∅

/-- `reflect.Map`. -/
def mapWire (K : Wire κ) (V : Wire β) : Wire (Finmap fun _ : κ => β) where
  name := ""
  zero := ∅
  eq := haveI := K.eq; haveI := V.eq; inferInstance
  sortKey _ := []
  encode m := E (entryCodes K V m).length ++
    (entryCodes K V m).flatMap fun code => (ofLex code).2.map UInt8.ofNat
  decode data := do
    let (pairs, length) ← (sliceWire (kvPairWire K V)).decode data
    pure (some (setMapIndices K (pairs.getD [])), length)

/-- A type with its own `Encode` and `Decode` methods. A panic of `Decode`, here `none`, is
recovered, and then the type is decoded by its kind as any other. -/
def customWire (kind : Wire α) (encode : α → Bytes)
    (decode : Bytes → Option (Option α × UInt32)) : Wire α where
  name := kind.name
  zero := kind.zero
  eq := kind.eq
  sortKey v := bytesKey (encode v)
  encode := encode
  decode data :=
    match decode data with
    | some (decoded, customLength) =>
      if data.length < customLength.toNat then
        .error (.err "data length insufficient for custom decode")
      else .ok (decoded, customLength)
    | none => kind.decode data

end JamDuna.Types
