/-
# Which blobs are decoded as they declare

A core part declares its sizes by three compact integers (`declaredHeader`). A decoder is sound
on a blob if it does not crash and, where it accepts the blob, jump table and code are the
declared bytes, all of them there, and the jump table has the declared number of entries
(`SoundCore`, `SoundProgram`).

The core part is decoded soundly exactly if it is empty, or refused as too short, or its sizes
are read as they are declared, their sum without wrapping around fits in what follows, and the
entries of a jump table are not empty (`PlainCore`). Otherwise the decoder crashes, or accepts
the blob with fewer entries or less code than it declares. The segments of a whole program are
no problem: one that is too long is filled with zeros at first, but then the length behind it
is missing too.
-/

import JamDuna.Pvm.ProgramBlob

namespace JamDuna.Pvm

open JamDuna.Basis JamDuna.Types List Option Nat

/-- The sizes that a core part declares, if they are all there. -/
def declaredHeader (p : Bytes) : Option Header :=
  (declaredInt p).bind fun j =>
    (declaredInt j.2).bind fun z =>
      (declaredInt z.2).map fun c => ⟨j.1, z.1, c.1, c.2⟩

/-- The core part is what the blob declares. -/
def CoreDeclared (p : Bytes) (c : CorePart) : Prop :=
  ∃ h, declaredHeader p = some h ∧ c.tableAt = p.length - h.rest.length ∧
    c.J.length = h.jSize ∧ c.codeAt = c.tableAt + h.jSize * h.z ∧
    c.code = (p.drop c.codeAt).take h.cSize ∧ c.codeAt + h.cSize ≤ p.length

/-- `DecodeCorePart` returns, and what it accepts is as declared. -/
def SoundCore (p : Bytes) : Prop :=
  decodeCorePart p ≠ none ∧ ∀ c, decodeCorePart p = some (.ok c) → CoreDeclared p c

/-- The sizes are read as they are declared, and what they ask for is there. -/
def ReadAsDeclared (p : Bytes) : Prop :=
  ∃ h, declaredHeader p = some h ∧ h.jSize = (readHeader p).jSize ∧
    h.cSize = (readHeader p).cSize ∧ h.jSize * h.z = (readHeader p).jSize * (readHeader p).z ∧
    h.rest = (readHeader p).rest ∧ ((readHeader p).z = 0 → h.jSize = 0) ∧
    h.jSize * h.z + h.cSize < 2 ^ 63 ∧ h.jSize * h.z + h.cSize ≤ h.rest.length

/-- The blobs that `DecodeCorePart` handles. -/
def PlainCore (p : Bytes) : Prop := p = [] ∨ (readHeader p).Rejected ∨ ReadAsDeclared p

section

theorem declaredInt_suffix {p : Bytes} {v : ℕ × Bytes} (h : declaredInt p = some v) :
    v.2 <:+ p := by
  unfold declaredInt at h
  split_ifs at h
  cases h
  exact drop_suffix _ _

variable {h : Header}

theorem declaredHeader_cases {p : Bytes} (hh : declaredHeader p = some h) :
    ∃ j z c, declaredInt p = some j ∧ declaredInt j.2 = some z ∧ declaredInt z.2 = some c ∧
      h = ⟨j.1, z.1, c.1, c.2⟩ := by
  obtain ⟨j, hj, hrest⟩ := bind_eq_some_iff.mp hh
  obtain ⟨z, hz, hrest⟩ := bind_eq_some_iff.mp hrest
  obtain ⟨c, hc, rfl⟩ := map_eq_some_iff.mp hrest
  exact ⟨j, z, c, hj, hz, hc, rfl⟩

theorem declaredHeader_rest_suffix {p : Bytes} (hh : declaredHeader p = some h) : h.rest <:+ p := by
  obtain ⟨j, z, c, hj, hz, hc, rfl⟩ := declaredHeader_cases hh
  exact ((declaredInt_suffix hc).trans (declaredInt_suffix hz)).trans (declaredInt_suffix hj)

/-- The number of entries is read as it is, or as zero. -/
theorem readHeader_jSize {p : Bytes} (hh : declaredHeader p = some h) :
    (readHeader p).jSize = h.jSize ∨ (readHeader p).jSize = 0 := by
  obtain ⟨j, z, c, hj, -, -, rfl⟩ := declaredHeader_cases hh
  exact decodeE_extractBytes hj

theorem length_jumpTable (z : ℕ) (jByte : Bytes) :
    (jumpTable z jByte).length = if z = 0 then 0 else (jByte.length + z - 1) / z := by
  unfold jumpTable
  split_ifs
  · rfl
  · rw [length_map, length_range]

/-- A product that has wrapped leaves too few entries. -/
theorem entries_lt_of_wrap {j z : ℕ} (hz : 0 < z) (hz' : z < 2 ^ 64) (hwrap : 2 ^ 64 ≤ j * z) :
    (j * z % 2 ^ 64 + z - 1) / z < j := by
  rw [div_lt_iff_lt_mul hz]
  omega

theorem eq_drop_of_suffix {l p : Bytes} (h : l <:+ p) : l = p.drop (p.length - l.length) := by
  obtain ⟨t, rfl⟩ := h
  rw [length_append, Nat.add_sub_cancel, drop_left]

variable {p : Bytes}

/-- The code of an accepted core part is where `codeAt` says. -/
theorem code_eq_drop (r : Header) (hsuffix : r.rest <:+ p) : (r.rest.drop r.jLen).take r.cSize =
      (p.drop (p.length - r.rest.length + r.jLen)).take r.cSize := by
  have hrest := eq_drop_of_suffix hsuffix
  rw [← drop_drop, ← hrest]

theorem soundCore_of_readAsDeclared (hp : p ≠ []) (h : ReadAsDeclared p) : SoundCore p := by
  obtain ⟨h, hh, hj, hc, hprod, hrest, hz, hlt, hle⟩ := h
  have hjLen : (readHeader p).jLen = h.jSize * h.z := by
    unfold Header.jLen
    rw [← hprod]
    exact mod_eq_of_lt (by omega)
  have hfits : (readHeader p).Fits := by
    unfold Header.Fits
    rw [hjLen, ← hc, ← hrest]
    exact ⟨hlt, hle⟩
  have hsuffix := readHeader_rest_suffix p
  have hlen : (readHeader p).rest.length ≤ p.length := hsuffix.length_le
  have hdec := decodeCorePart_fits hp hfits
  refine ⟨by rw [hdec]; exact nofun, fun c hcore => ?_⟩
  rw [hdec] at hcore
  cases hcore
  have htake : ((readHeader p).rest.take (readHeader p).jLen).length = h.jSize * h.z := by
    rw [length_take, hjLen]
    rw [hrest] at hle
    omega
  refine ⟨h, hh, ?_, ?_, ?_, ?_, ?_⟩
  · show p.length - (readHeader p).rest.length = _
    rw [hrest]
  · show (jumpTable (readHeader p).z _).length = _
    rw [length_jumpTable, htake]
    split_ifs with hzero
    · exact (hz hzero).symm
    · have hpos : 0 < (readHeader p).z := pos_of_ne_zero hzero
      rw [hprod, ← hj, Nat.add_sub_assoc hpos, Nat.add_comm, Nat.add_mul_div_right _ _ hpos,
        div_eq_of_lt (by omega), zero_add]
  · show _ + length _ = _ + _
    rw [htake]
    rfl
  · show _ = take _ (drop (_ + length _) p)
    rw [htake, hc, ← hjLen]
    exact code_eq_drop _ hsuffix
  · show p.length - (readHeader p).rest.length + length _ + h.cSize ≤ p.length
    rw [htake]
    rw [hrest] at hle
    omega

theorem readAsDeclared_of_soundCore (hp : p ≠ []) (hfits : (readHeader p).Fits)
    (h : SoundCore p) : ReadAsDeclared p := by
  obtain ⟨h, hh, htable, hJ, hcode, hbytes, hle⟩ := h.2 _ (decodeCorePart_fits hp hfits)
  have hsuffix := readHeader_rest_suffix p
  have hsuffix' := declaredHeader_rest_suffix hh
  have hjSize := readHeader_jSize hh
  have hz : (readHeader p).z < 2 ^ 64 := decodeE_lt _
  unfold ReadAsDeclared
  generalize readHeader p = r at *
  obtain ⟨hlt, hfit⟩ := hfits
  have hlen := hsuffix.length_le
  have hlen' := hsuffix'.length_le
  have htake : (r.rest.take r.jLen).length = r.jLen := by
    rw [length_take]
    omega
  dsimp only [corePart] at htable hJ hcode hbytes hle
  rw [htake] at hcode hbytes hle
  rw [length_jumpTable, htake] at hJ
  have hrest : h.rest = r.rest := by
    have hsame : h.rest.length = r.rest.length := by omega
    rw [eq_drop_of_suffix hsuffix, eq_drop_of_suffix hsuffix', hsame]
  have hprod : r.jLen = h.jSize * h.z := by omega
  have hcSize : h.cSize = r.cSize := by
    have hsame := congrArg length hbytes
    rw [length_take, length_take, length_drop, length_drop] at hsame
    omega
  have hjLen : r.jLen = r.jSize * r.z % 2 ^ 64 := rfl
  have hentries : h.jSize = r.jSize ∧ r.jLen = r.jSize * r.z := by
    rcases hjSize with heq | hzero
    · refine ⟨heq.symm, ?_⟩
      by_contra hne
      -- the product has wrapped, and the jump table is too short
      have hwrap : 2 ^ 64 ≤ r.jSize * r.z := by
        by_contra hsmall
        rw [mod_eq_of_lt (by omega)] at hjLen
        exact hne hjLen
      have hpos : 0 < r.z := by
        rcases Nat.eq_zero_or_pos r.z with h0 | hpos
        · rw [h0, mul_zero] at hwrap
          omega
        · exact hpos
      have hfew := entries_lt_of_wrap hpos hz hwrap
      rw [if_neg (by omega), hjLen, ← heq] at hJ
      omega
    · have hzero' : r.jLen = 0 := by rw [hjLen, hzero, zero_mul, zero_mod]
      refine ⟨?_, by rw [hzero', hzero, zero_mul]⟩
      rw [hzero, ← hJ, hzero']
      split_ifs with h0
      · rfl
      · exact div_eq_of_lt (by omega)
  refine ⟨h, hh, hentries.1, hcSize, by omega, hrest, fun h0 => ?_, by omega, ?_⟩
  · rw [if_pos h0] at hJ
    exact hJ.symm
  · rw [hrest, hcSize, ← hprod]
    exact hfit

/-- **`DecodeCorePart` is sound exactly on the plain blobs.** -/
theorem soundCore_iff_plainCore (p : Bytes) : SoundCore p ↔ PlainCore p := by
  by_cases hp : p = []
  · subst hp
    exact ⟨fun _ => .inl rfl, fun _ => ⟨nofun, fun c hc => nomatch hc⟩⟩
  · constructor
    · intro hsound
      by_cases hrej : (readHeader p).Rejected
      · exact .inr (.inl hrej)
      · by_cases hfits : (readHeader p).Fits
        · exact .inr (.inr (readAsDeclared_of_soundCore hp hfits hsound))
        · exact absurd (decodeCorePart_crash hp hrej hfits) hsound.1
    · rintro (hnil | hrej | hread)
      · exact absurd hnil hp
      · obtain ⟨e, he⟩ := decodeCorePart_rejected hp hrej
        refine ⟨by rw [he]; exact nofun, fun c hc => ?_⟩
        rw [he] at hc
        cases hc
      · exact soundCore_of_readAsDeclared hp hread

end

/-- The code of an integer below `2 ^ 56` is cut off as a whole. -/
theorem extractBytes_E {x : ℕ} (hx : x < 2 ^ 56) (rest : Bytes) :
    extractBytes (E x ++ rest) = (E x, rest) := by
  obtain ⟨first, l, low, hE, hlow, hnum⟩ :
      ∃ first l low, E x = first :: low ∧ low.length = l ∧ numBytes first = l + 1 := by
    unfold E
    split_ifs with h0
    · exact ⟨0, 0, [], rfl, rfl, by decide⟩
    · cases hfind : (range 8).find? fun l =>
          decide (2 ^ (7 * l) ≤ x ∧ x < 2 ^ (7 * (l + 1))) with
      | none =>
        -- an integer without a class has at least 57 bits
        simp [range_succ] at hfind
        omega
      | some l =>
        have hl : l < 8 := mem_range.mp (mem_of_find?_eq_some hfind)
        have hfound := find?_some hfind
        obtain ⟨hlow, hhigh⟩ := of_decide_eq_true hfound
        obtain ⟨hclass, -, hlt⟩ := header_spec hl (pos_of_ne_zero h0) hlow hhigh
        refine ⟨_, l, _, rfl, length_toLE _ _, ?_⟩
        generalize 256 - 2 ^ (8 - l) + x / 2 ^ (8 * l) = header at hclass hlt
        have hval : (UInt8.ofNat header).toNat = header := by
          rw [UInt8.toNat_ofNat']
          omega
        have hne : UInt8.ofNat header ≠ 255 := by
          intro heq
          have h255 : (255 : UInt8).toNat = 255 := rfl
          rw [heq, h255] at hval
          omega
        obtain ⟨l', hl', hclass', hnum⟩ := exists_headerClass hne
        rw [hval] at hclass'
        rw [hnum, headerClass_unique hl hl' hclass hclass']
  have hlen : numBytes first ≤ (first :: (low ++ rest)).length := by
    rw [hnum, length_cons, length_append]
    omega
  rw [hE, cons_append, extractBytes_of_le hlen, hnum, take_succ_cons,
    drop_succ_cons, take_left' hlow, drop_left' hlow]

variable {c j z : ℕ}

theorem readHeader_E (hj : j < 2 ^ 56) (hz : z < 2 ^ 56) (hc : c < 2 ^ 56)
    (rest : Bytes) : readHeader (E j ++ (E z ++ (E c ++ rest))) = ⟨j, z, c, rest⟩ := by
  have hvalue {x : ℕ} (hx : x < 2 ^ 56) : (decodeE (E x)).1 = x := by
    have hdec := decodeE_E (show x < 2 ^ 64 by omega) []
    rw [append_nil] at hdec
    rw [hdec]
  unfold readHeader
  dsimp only
  rw [extractBytes_E hj, extractBytes_E hz, extractBytes_E hc, hvalue hj, hvalue hz, hvalue hc]

theorem declaredHeader_E (hj : j < 2 ^ 64) (hz : z < 2 ^ 64) (hc : c < 2 ^ 64) (rest : Bytes) :
    declaredHeader (E j ++ (E z ++ (E c ++ rest))) = some ⟨j, z, c, rest⟩ := by
  have hint {x : ℕ} (hx : x < 2 ^ 64) (rest : Bytes) :
      declaredInt (E x ++ rest) = some (x, rest) := by
    have hpos : (E x).length ≠ 0 := fun h => E_ne_nil x (length_eq_zero_iff.mp h)
    unfold declaredInt
    rw [decodeE_E hx, if_neg hpos, drop_left]
  unfold declaredHeader
  rw [hint hj, bind_some, hint hz, bind_some, hint hc, map_some]

/-- **What was encoded is decoded**: sizes below `2 ^ 56`, a jump table of `j` entries of `z`
bytes, the code, and any bytes behind. -/
theorem plainCore_encoded (hj : j < 2 ^ 56) (hz : z < 2 ^ 56) (hc : c < 2 ^ 56)
    (hz0 : z = 0 → j = 0) {table code k : Bytes} (htable : table.length = j * z)
    (hcode : code.length = c) (hsize : j * z + c < 2 ^ 63) :
    PlainCore (E j ++ (E z ++ (E c ++ (table ++ code ++ k)))) := by
  refine .inr (.inr ⟨_, declaredHeader_E (by omega) (by omega) (by omega) _, ?_⟩)
  rw [readHeader_E hj hz hc]
  refine ⟨rfl, rfl, rfl, rfl, hz0, hsize, ?_⟩
  dsimp only
  rw [length_append, length_append]
  omega

variable (p : Bytes)

/-- Where the core part starts. -/
def coreAt : ℕ := 11 + fieldAt p 0 3 + fieldAt p 3 3 + 4

/-- The header and the segments in front of the core part are there, and its length is right. -/
def FrameComplete : Prop :=
  11 ≤ p.length ∧ coreAt p ≤ p.length ∧
    (p.drop (coreAt p)).length = fieldAt p (11 + fieldAt p 0 3 + fieldAt p 3 3) 4

/-- The program is what the blob declares. -/
def ProgramDeclared (d : DecodedProgram) : Prop :=
  d.oByte = (p.drop 11).take (fieldAt p 0 3) ∧ d.oByte.length = fieldAt p 0 3 ∧
    d.wByte = (p.drop (11 + fieldAt p 0 3)).take (fieldAt p 3 3) ∧
    d.wByte.length = fieldAt p 3 3 ∧ CoreDeclared (p.drop (coreAt p)) d.core

/-- `DecodeProgram` returns, and what it accepts is as declared. -/
def SoundProgram : Prop :=
  decodeProgram p ≠ none ∧ ∀ d, decodeProgram p = some (.ok d) → ProgramDeclared p d

theorem decodeProgram_incomplete {p : Bytes} (h : ¬FrameComplete p) :
    ∃ e, decodeProgram p = some (.error e) := by
  unfold FrameComplete coreAt at h
  unfold decodeProgram
  dsimp only
  split_ifs with hshort hlen hsize
  · exact ⟨_, rfl⟩
  · exact ⟨_, rfl⟩
  · exact ⟨_, rfl⟩
  · exact absurd ⟨by omega, by omega, not_not.mp hsize⟩ h

theorem decodeProgram_complete {p : Bytes} (h : FrameComplete p) :
    decodeProgram p = (decodeCorePart (p.drop (coreAt p))).map fun r => r.map fun core =>
      { core := core
        oSize := UInt32.ofNat (fieldAt p 0 3)
        wSize := UInt32.ofNat (fieldAt p 3 3)
        zVal := UInt32.ofNat (fieldAt p 6 2)
        sVal := UInt32.ofNat (fieldAt p 8 3)
        oByte := segmentAt p 11 (fieldAt p 0 3)
        wByte := segmentAt p (11 + fieldAt p 0 3) (fieldAt p 3 3) } := by
  obtain ⟨hlen, hcore, hsize⟩ := h
  unfold coreAt at hcore hsize ⊢
  unfold decodeProgram
  rw [if_neg (by omega), if_neg (by omega), if_neg (not_not.mpr hsize)]

theorem segmentAt_of_le {start len : ℕ} (h : start + len ≤ p.length) :
    segmentAt p start len = (p.drop start).take len ∧ (segmentAt p start len).length = len := by
  have heq : segmentAt p start len = (p.drop start).take len := if_pos h
  refine ⟨heq, ?_⟩
  rw [heq, length_take, length_drop]
  omega

theorem soundProgram_iff_of_complete {p : Bytes} (h : FrameComplete p) :
    SoundProgram p ↔ SoundCore (p.drop (coreAt p)) := by
  have hcore : 11 + fieldAt p 0 3 + fieldAt p 3 3 + 4 ≤ p.length := h.2.1
  have hdec := decodeProgram_complete h
  unfold SoundProgram SoundCore
  rw [hdec]
  cases hpart : decodeCorePart (p.drop (coreAt p)) with
  | none => exact ⟨fun hs => absurd rfl hs.1, fun hs => absurd rfl hs.1⟩
  | some r =>
    refine and_congr (iff_of_true (by simp) (by simp)) ?_
    cases r with
    | error e => exact ⟨fun _ c hc => (nomatch hc), fun _ d hd => (nomatch hd)⟩
    | ok core =>
      constructor
      · intro hs c hc
        cases hc
        exact (hs _ rfl).2.2.2.2
      · intro hs d hd
        cases hd
        obtain ⟨ho, ho'⟩ := segmentAt_of_le p (show 11 + fieldAt p 0 3 ≤ p.length by omega)
        obtain ⟨hw, hw'⟩ := segmentAt_of_le p
          (show 11 + fieldAt p 0 3 + fieldAt p 3 3 ≤ p.length by omega)
        exact ⟨ho, ho', hw, hw', hs core rfl⟩

/-- **Decoding of programs.** Both decoders return without a slice outside its bounds, and accept
only what the blob declares, exactly on the plain blobs; a program also where its frame is not
complete. -/
theorem decoding_sound_iff (p : Bytes) : (SoundCore p ↔ PlainCore p) ∧
      (SoundProgram p ↔ ¬FrameComplete p ∨ PlainCore (p.drop (coreAt p))) := by
  refine ⟨soundCore_iff_plainCore p, ?_⟩
  by_cases hframe : FrameComplete p
  · rw [soundProgram_iff_of_complete hframe, soundCore_iff_plainCore]
    exact ⟨.inr, fun h => h.resolve_left (not_not.mpr hframe)⟩
  · obtain ⟨e, he⟩ := decodeProgram_incomplete hframe
    refine ⟨fun _ => .inl hframe, fun _ => ⟨by rw [he]; exact nofun, fun d hd => ?_⟩⟩
    rw [he] at hd
    cases hd

/-- A core part with `2 ^ 32` entries of `2 ^ 31` bytes: the size of the table is negative as a
signed number, and cutting it out fails. In front of it a frame without segments. -/
def negativeTable : Bytes :=
  [0, 0, 0, 0, 0, 0, 0, 0, 0, 0, 0, 11, 0, 0, 0, 241, 0, 0, 0, 0, 240, 0, 0, 0, 128, 0]

/-- The same with entries of `2 ^ 32` bytes: the size wraps to zero, and the jump table is empty. -/
def wrappedTable : Bytes :=
  [0, 0, 0, 0, 0, 0, 0, 0, 0, 0, 0, 11, 0, 0, 0, 241, 0, 0, 0, 0, 241, 0, 0, 0, 0, 0]

theorem decoding_unsound :
    ¬SoundProgram negativeTable ∧ decodeProgram negativeTable = none ∧ ¬SoundProgram wrappedTable ∧
      (∃ d, decodeProgram wrappedTable = some (.ok d) ∧ d.core.J = []) ∧
      (declaredHeader (wrappedTable.drop 15)).map (·.jSize) = some (2 ^ 32) := by
  have hcrash : decodeProgram negativeTable = none :=
    isNone_iff_eq_none.mp (by decide +kernel)
  have hjSize : (declaredHeader (wrappedTable.drop 15)).map (·.jSize) = some (2 ^ 32) := by
    decide +kernel
  have haccepts : ∃ d, decodeProgram wrappedTable = some (.ok d) ∧ d.core.J = [] := ⟨_, rfl, rfl⟩
  refine ⟨fun hs => hs.1 hcrash, hcrash, fun hs => ?_, haccepts, hjSize⟩
  obtain ⟨d, hd, hJ⟩ := haccepts
  obtain ⟨-, -, -, -, h, hh, -, hlen, -⟩ := hs.2 d hd
  have hat : coreAt wrappedTable = 15 := by decide
  rw [hat] at hh
  rw [hh, map_some, some_inj] at hjSize
  rw [hJ, hjSize] at hlen
  exact absurd hlen (by decide)

end JamDuna.Pvm
