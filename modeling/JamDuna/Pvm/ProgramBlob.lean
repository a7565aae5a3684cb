/-
# Program blobs

`DecodeProgram` and `DecodeCorePart` of `pvm/program/program.go`. A program is a header of
eleven bytes, a read-only and a read-write segment, a length, and the core part: three compact
integers (entries of the jump table, bytes of an entry, bytes of code), the jump table, the code
and the bits that mark the starts of instructions.

The sizes are 64-bit words: the size of the jump table is a product modulo `2 ^ 64`, and the
length that is compared with what is there is a sum modulo `2 ^ 64`, read as a signed number.
`none` is a slice outside its bounds, a run-time error of the Go program (`sliceAt`). A
compact integer is cut out by its first byte (`extractBytes`), eight bytes at most; one that is
cut short, or needs nine bytes, is read as zero.

A slice of the blob has a place in it: `tableAt` and `codeAt` are where the jump table and the
code begin.
-/

import JamDuna.Pvm.Operands
import JamDuna.Types.Codec

namespace JamDuna.Pvm

open JamDuna.Basis JamDuna.Types List Nat

section

/-- The errors of the decoders. -/
inductive ProgramError where
  /-- `empty program blob` -/
  | emptyBlob
  /-- `code size %d exceeds blob length %d (j_len=%d, c_len=%d, available=%d)` -/
  | codeSize (cSize blob jLen cLen available : ℕ)
  /-- `program blob too short: %d bytes` -/
  | tooShort (n : ℕ)
  /-- `program blob too short for c_size field` -/
  | tooShortForCSize
  /-- `c_size mismatch: expected %d, got %d` -/
  | cSizeMismatch (expected got : ℕ)
  deriving DecidableEq, Repr

/-- The sizes of a core part, and the bytes behind them. -/
structure Header where
  jSize : ℕ
  z : ℕ
  cSize : ℕ
  rest : Bytes
  deriving DecidableEq

/-- `Program`, with the places of its slices in the blob. -/
structure CorePart where
  jSize : ℕ
  z : UInt8
  J : List UInt32
  code : Bytes
  K : Bytes
  tableAt : ℕ
  codeAt : ℕ
  deriving DecidableEq

/-- The number of bytes of a compact integer, as `extractBytes` has it. -/
def numBytes (firstByte : UInt8) : ℕ :=
  if firstByte < 128 then 1
  else if firstByte < 192 then 2
  else if firstByte < 224 then 3
  else if firstByte < 240 then 4
  else if firstByte < 248 then 5
  else if firstByte < 252 then 6
  else if firstByte < 254 then 7
  else 8

/-- `extractBytes`. -/
def extractBytes : Bytes → Bytes × Bytes
  | [] => ([], [])
  | first :: input =>
    if (first :: input).length < numBytes first then (first :: input, [])
    else ((first :: input).take (numBytes first), (first :: input).drop (numBytes first))

/-- The three integers at the start of a core part. -/
def readHeader (p : Bytes) : Header :=
  let j := extractBytes p
  let z := extractBytes j.2
  let c := extractBytes z.2
  ⟨(decodeE j.1).1, (decodeE z.1).1, (decodeE c.1).1, c.2⟩

/-- `j_size * z`, a 64-bit word. -/
def Header.jLen (h : Header) : ℕ := h.jSize * h.z % 2 ^ 64

/-- `j_len + c_len`, a 64-bit word. -/
def Header.total (h : Header) : ℕ := (h.jLen + h.cSize) % 2 ^ 64

/-- `int` of a 64-bit word. -/
def goInt (n : ℕ) : ℤ := Int.bmod n (2 ^ 64)

/-- The slice `v[i:j]` with signed bounds. -/
def sliceAt (v : Bytes) (i j : ℤ) : Option Bytes :=
  if 0 ≤ i ∧ i ≤ j ∧ j ≤ v.length then some ((v.drop i.toNat).take (j - i).toNat) else none

/-- The entries of the jump table: `z` bytes each, the last one what is left. With `z = 0` there
are none. -/
def jumpTable (z : ℕ) (jByte : Bytes) : List UInt32 :=
  if z = 0 then []
  else
    (range ((jByte.length + z - 1) / z)).map fun i =>
      (decodeEL ((jByte.drop (i * z)).take z)).toUInt32

/-- The bits of a byte, the lowest first. -/
def bitsOf (b : UInt8) : Bytes :=
  [b &&& 1, (b >>> 1) &&& 1, (b >>> 2) &&& 1, (b >>> 3) &&& 1, (b >>> 4) &&& 1, (b >>> 5) &&& 1,
    (b >>> 6) &&& 1, (b >>> 7) &&& 1]

/-- The loop of `expandBits`: `left` bits are still to be written. -/
def expandLoop : Bytes → ℕ → Bytes
  | [], _ => []
  | b :: k, left => if 8 ≤ left then bitsOf b ++ expandLoop k (left - 8) else (bitsOf b).take left

/-- `expandBits`. -/
def expandBits (kBytes : Bytes) (cSize : ℕ) : Bytes :=
  expandLoop kBytes (min (kBytes.length * 8) cSize)

/-- `IsBasicBlockInstruction`. -/
def isBasicBlockInstruction (opcode : UInt8) : Bool :=
  [0, 1, 40, 50, 80, 81, 82, 83, 84, 85, 86, 87, 88, 89, 90, 170, 171, 172, 173, 174, 175,
    180].contains opcode

/-- The loop that marks the starts of basic blocks, over the code from the current byte on:
`start` is `startBasicBlock`. -/
def markBlocks : Bool → Bytes → Bytes → Bytes
  | _, _, [] => []
  | start, code, v :: k =>
    if v > 0 then
      let mark := if start then v ||| 2 else v
      let start := match code with
        | [] => false
        | opcode :: _ => isBasicBlockInstruction opcode
      mark :: markBlocks start code.tail k
    else v :: markBlocks start code.tail k

variable (p : Bytes)

/-- The program of the three segments. -/
def corePart (h : Header) (jByte code kBytes : Bytes) : CorePart where
  jSize := h.jSize
  z := UInt8.ofNat h.z
  J := jumpTable h.z jByte
  code := code
  K := markBlocks true code (expandBits kBytes (code.length % 2 ^ 32))
  tableAt := p.length - h.rest.length
  codeAt := p.length - h.rest.length + jByte.length

/-- `DecodeCorePart`. -/
def decodeCorePart : Option (Except ProgramError CorePart) :=
  if p.length = 0 then some (.error .emptyBlob)
  else
    let h := readHeader p
    if (h.rest.length : ℤ) < goInt h.total then
      some (.error (.codeSize h.cSize p.length h.jLen h.cSize h.rest.length))
    else do
      let jByte ← sliceAt h.rest 0 (goInt h.jLen)
      let cByte ← sliceAt h.rest (goInt h.jLen) (goInt h.total)
      let kBytes ← sliceAt h.rest (goInt h.total) h.rest.length
      return .ok (corePart p h jByte cByte kBytes)

/-- What `DecodeProgram` returns. -/
structure DecodedProgram where
  core : CorePart
  oSize : UInt32
  wSize : UInt32
  zVal : UInt32
  sVal : UInt32
  oByte : Bytes
  wByte : Bytes

/-- A number of `len` bytes in the blob. -/
def fieldAt (start len : ℕ) : ℕ := ofLE ((p.drop start).take len)

/-- A segment of the blob, or zeros if it is too long. -/
def segmentAt (start len : ℕ) : Bytes :=
  if start + len ≤ p.length then (p.drop start).take len else replicate len 0

/-- `DecodeProgram`. -/
def decodeProgram : Option (Except ProgramError DecodedProgram) :=
  if p.length < 11 then some (.error (.tooShort p.length))
  else
    let oSize := fieldAt p 0 3
    let wSize := fieldAt p 3 3
    let offset := 11 + oSize + wSize
    if p.length < offset + 4 then some (.error .tooShortForCSize)
    else if (p.drop (offset + 4)).length ≠ fieldAt p offset 4 then
      some (.error (.cSizeMismatch (fieldAt p offset 4) (p.drop (offset + 4)).length))
    else
      (decodeCorePart (p.drop (offset + 4))).map fun r => r.map fun core =>
        { core := core
          oSize := UInt32.ofNat oSize
          wSize := UInt32.ofNat wSize
          zVal := UInt32.ofNat (fieldAt p 6 2)
          sVal := UInt32.ofNat (fieldAt p 8 3)
          oByte := segmentAt p 11 oSize
          wByte := segmentAt p (11 + oSize) wSize }

end

section

variable {first : UInt8}

/-- The class of a first byte, and the number of bytes it asks for. -/
theorem exists_headerClass (h : first ≠ 255) :
    ∃ l < 8, headerClass l first.toNat ∧ numBytes first = l + 1 := by
  have hlt : first.toNat < 255 := by
    have hne : first.toNat ≠ 255 := fun hn => h (UInt8.toNat_inj.mp hn)
    have := first.toNat_lt
    omega
  unfold numBytes headerClass
  simp only [UInt8.lt_iff_toNat_lt, UInt8.reduceToNat]
  split_ifs
  · exact ⟨0, by norm_num; omega⟩
  · exact ⟨1, by norm_num; omega⟩
  · exact ⟨2, by norm_num; omega⟩
  · exact ⟨3, by norm_num; omega⟩
  · exact ⟨4, by norm_num; omega⟩
  · exact ⟨5, by norm_num; omega⟩
  · exact ⟨6, by norm_num; omega⟩
  · exact ⟨7, by norm_num; omega⟩

/-- `DecodeE` by the class of the first byte. -/
theorem decodeE_class {l : ℕ} (hl : l < 8) (hclass : headerClass l first.toNat)
    (hne : first ≠ 255) (rest : Bytes) :
    decodeE (first :: rest) = if rest.length < l then (0, 0)
      else ((first.toNat - (256 - 2 ^ (8 - l))) * 2 ^ (8 * l) + ofLE (rest.take l), l + 1) := by
  by_cases hzero : first = 0
  · have h0 : headerClass 0 first.toNat := by
      rw [hzero]
      decide
    have hl0 : l = 0 := headerClass_unique (by norm_num) hl h0 hclass
    subst hzero hl0
    rfl
  · have hfind : (range 8).find? (fun l => decide (headerClass l first.toNat)) = some l := by
      refine find?_eq_some_of_unique (mem_range.mpr hl) (decide_eq_true hclass) ?_
      intro l' hl' hclass'
      exact headerClass_unique hl (mem_range.mp hl') hclass (of_decide_eq_true hclass')
    rw [decodeE, if_neg hzero, if_neg hne, hfind]

/-- An integer that `DecodeE` reads is a 64-bit word. -/
theorem decodeE_lt (b : Bytes) : (decodeE b).1 < 2 ^ 64 := by
  cases b with
  | nil => decide
  | cons first rest =>
    by_cases hne : first = 255
    · have hlt := ofLE_lt (rest.take 8)
      have hle : 256 ^ (rest.take 8).length ≤ 256 ^ 8 :=
        Nat.pow_le_pow_right (by norm_num) (length_take_le 8 rest)
      subst hne
      rw [decodeE, if_neg (by decide), if_pos rfl]
      split_ifs
      · norm_num
      · omega
    · obtain ⟨l, hl, hclass, -⟩ := exists_headerClass hne
      have hlt := ofLE_lt (rest.take l)
      have hle : 256 ^ (rest.take l).length ≤ 256 ^ l :=
        Nat.pow_le_pow_right (by norm_num) (length_take_le l rest)
      rw [decodeE_class hl hclass hne]
      split_ifs
      · norm_num
      · unfold headerClass at hclass
        generalize ofLE (rest.take l) = low at *
        interval_cases l <;> omega

/-- What `extractBytes` cuts off for an integer that is all there. -/
theorem extractBytes_of_le {rest : Bytes} (h : numBytes first ≤ (first :: rest).length) :
    extractBytes (first :: rest) =
      ((first :: rest).take (numBytes first), (first :: rest).drop (numBytes first)) := by
  rw [extractBytes, if_neg (by omega)]

theorem extractBytes_of_lt {rest : Bytes} (h : (first :: rest).length < numBytes first) :
    extractBytes (first :: rest) = (first :: rest, []) := by
  rw [extractBytes, if_pos h]

theorem extractBytes_suffix (p : Bytes) : (extractBytes p).2 <:+ p := by
  cases p with
  | nil => exact suffix_rfl
  | cons first input =>
    rw [extractBytes]
    split_ifs
    · exact nil_suffix
    · exact drop_suffix _ _

/-- The integer at the start of a blob, with the bytes behind it, if it is all there. -/
def declaredInt (p : Bytes) : Option (ℕ × Bytes) :=
  if (decodeE p).2 = 0 then none else some ((decodeE p).1, p.drop (decodeE p).2)

/-- **An integer that is all there is read as it is, or as zero** if it has nine bytes. -/
theorem decodeE_extractBytes {p : Bytes} {v : ℕ × Bytes} (h : declaredInt p = some v) :
    (decodeE (extractBytes p).1).1 = v.1 ∨ (decodeE (extractBytes p).1).1 = 0 := by
  cases p with
  | nil => cases h
  | cons first rest =>
    by_cases hne : first = 255
    · right
      subst hne
      obtain ⟨t, ht, hlen⟩ : ∃ t, (extractBytes (255 :: rest)).1 = 255 :: t ∧ t.length < 8 := by
        rcases lt_or_ge (255 :: rest).length (numBytes 255) with hlt | hge
        · refine ⟨rest, by rw [extractBytes_of_lt hlt], ?_⟩
          exact lt_of_lt_of_le (lt_of_succ_lt hlt) (by decide)
        · refine ⟨rest.take 7, by rw [extractBytes_of_le hge]; rfl, ?_⟩
          exact lt_succ_of_le (length_take_le 7 rest)
      rw [ht, decodeE, if_neg (by decide), if_pos rfl, if_pos hlen]
    · obtain ⟨l, hl, hclass, hnum⟩ := exists_headerClass hne
      left
      unfold declaredInt at h
      rw [decodeE_class hl hclass hne] at h
      by_cases hlen : rest.length < l
      · rw [if_pos hlen] at h
        cases h
      · have hge : numBytes first ≤ (first :: rest).length := by
          rw [hnum, length_cons]
          omega
        rw [if_neg hlen, if_neg (by omega)] at h
        cases h
        rw [extractBytes_of_le hge, hnum, take_succ_cons, decodeE_class hl hclass hne,
          if_neg (by rw [length_take]; omega), take_take, min_self]

end

theorem readHeader_rest_suffix (p : Bytes) : (readHeader p).rest <:+ p :=
  ((extractBytes_suffix _).trans (extractBytes_suffix _)).trans (extractBytes_suffix p)

variable {p : Bytes} (h : Header)

/-- The core part is refused as too short. -/
def Header.Rejected : Prop := h.total < 2 ^ 63 ∧ h.rest.length < h.total

/-- The core part is there. -/
def Header.Fits : Prop := h.jLen + h.cSize < 2 ^ 63 ∧ h.jLen + h.cSize ≤ h.rest.length

theorem goInt_of_lt {n : ℕ} (hn : n < 2 ^ 64) :
    goInt n = if n < 2 ^ 63 then (n : ℤ) else n - 2 ^ 64 := by
  have hmod := bmod_of_lt hn
  unfold goInt
  rw [hmod]
  split_ifs <;> omega

theorem jLen_lt : h.jLen < 2 ^ 64 := by
  exact mod_lt _ (by positivity)

theorem total_lt : h.total < 2 ^ 64 := by
  exact mod_lt _ (by positivity)

theorem lt_goInt_total_iff : (h.rest.length : ℤ) < goInt h.total ↔ h.Rejected := by
  rw [goInt_of_lt (total_lt h), Header.Rejected]
  have := total_lt h
  split_ifs <;> omega

theorem sliceAt_eq_some {v : Bytes} {i j : ℕ} (hij : i ≤ j) (hj : j ≤ v.length) :
    sliceAt v i j = some ((v.drop i).take (j - i)) := by
  have hsub : ((j : ℤ) - i).toNat = j - i := by omega
  rw [sliceAt, if_pos ⟨by omega, by omega, by omega⟩, hsub, Int.toNat_natCast]

theorem sliceAt_eq_none {v : Bytes} {i j : ℤ} (h : i < 0 ∨ j < i) : sliceAt v i j = none := by
  rw [sliceAt, if_neg (by omega)]

variable {h} in
theorem Header.Fits.total (hfits : h.Fits) : h.total = h.jLen + h.cSize := by
  exact mod_eq_of_lt (lt_trans hfits.1 (by norm_num))

variable {h} in
theorem Header.Fits.not_rejected (hfits : h.Fits) : ¬h.Rejected := by
  intro hrej
  have htotal := hfits.total
  have hle := hfits.2
  have hlt := hrej.2
  omega

theorem decodeCorePart_rejected (hp : p ≠ []) (hrej : (readHeader p).Rejected) :
    ∃ e, decodeCorePart p = some (.error e) := by
  unfold decodeCorePart
  rw [if_neg (mt length_eq_zero_iff.mp hp), if_pos ((lt_goInt_total_iff _).mpr hrej)]
  exact ⟨_, rfl⟩

/-- **What an accepted core part is decoded to.** -/
theorem decodeCorePart_fits (hp : p ≠ []) (hfits : (readHeader p).Fits) :
    decodeCorePart p = some (.ok (corePart p (readHeader p)
      ((readHeader p).rest.take (readHeader p).jLen)
      (((readHeader p).rest.drop (readHeader p).jLen).take (readHeader p).cSize)
      ((readHeader p).rest.drop ((readHeader p).jLen + (readHeader p).cSize)))) := by
  have htotal := hfits.total
  have hnrej := hfits.not_rejected
  unfold decodeCorePart
  rw [if_neg (mt length_eq_zero_iff.mp hp), if_neg (mt (lt_goInt_total_iff _).mp hnrej), htotal]
  generalize readHeader p = h at *
  obtain ⟨hlt, hle⟩ := hfits
  have hj : goInt h.jLen = (h.jLen : ℕ) := by
    rw [goInt_of_lt (jLen_lt h), if_pos (by omega)]
  have ht : goInt (h.jLen + h.cSize) = (h.jLen + h.cSize : ℕ) := by
    rw [goInt_of_lt (by omega), if_pos hlt]
  have hslice₁ := sliceAt_eq_some (v := h.rest) (zero_le h.jLen) (by omega)
  have hslice₂ := sliceAt_eq_some (v := h.rest) (le_add_right h.jLen h.cSize) hle
  have hslice₃ := sliceAt_eq_some (v := h.rest) hle le_rfl
  rw [hj, ht]
  rw [Nat.cast_zero, drop_zero, Nat.sub_zero] at hslice₁
  rw [Nat.add_sub_cancel_left] at hslice₂
  rw [← length_drop, take_length] at hslice₃
  rw [hslice₁, hslice₂, hslice₃]
  rfl

/-- **Where the decoder crashes**: the length that it asks for is negative, or has wrapped. -/
theorem decodeCorePart_crash (hp : p ≠ []) (hrej : ¬(readHeader p).Rejected)
    (hfits : ¬(readHeader p).Fits) : decodeCorePart p = none := by
  have hc : (readHeader p).cSize < 2 ^ 64 := decodeE_lt _
  unfold decodeCorePart
  rw [if_neg (mt length_eq_zero_iff.mp hp), if_neg (mt (lt_goInt_total_iff _).mp hrej)]
  generalize readHeader p = h at *
  have hj := jLen_lt h
  by_cases hneg : h.jLen < 2 ^ 63
  · -- the code would end before it starts
    have hend : goInt h.total < goInt h.jLen := by
      have htotal : h.total = (h.jLen + h.cSize) % 2 ^ 64 := rfl
      have ht := total_lt h
      rw [goInt_of_lt hj, goInt_of_lt ht, if_pos hneg]
      unfold Header.Rejected at hrej
      unfold Header.Fits at hfits
      split_ifs with hsmall <;> omega
    rw [sliceAt_eq_none (v := h.rest) (.inr hend)]
    cases sliceAt h.rest 0 (goInt h.jLen) <;> rfl
  · have hstart : goInt h.jLen < 0 := by
      rw [goInt_of_lt hj, if_neg hneg]
      omega
    rw [sliceAt_eq_none (v := h.rest) (.inr hstart)]
    rfl

/-- An accepted core part has its segments. -/
theorem fits_of_accepted {c : CorePart} (h : decodeCorePart p = some (.ok c)) :
    p ≠ [] ∧ (readHeader p).Fits := by
  have hp : p ≠ [] := by
    rintro rfl
    cases h
  refine ⟨hp, by_contra fun hfits => ?_⟩
  by_cases hrej : (readHeader p).Rejected
  · obtain ⟨e, he⟩ := decodeCorePart_rejected hp hrej
    cases h.symm.trans he
  · cases h.symm.trans (decodeCorePart_crash hp hrej hfits)

end JamDuna.Pvm
