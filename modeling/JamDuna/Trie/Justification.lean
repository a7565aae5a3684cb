/-
# Justifications

`common/tool.go`, `EncodeJustification` and `DecodeJustification`: the entries of a path
one after the other, each behind a marker byte that tells its length. 32 bytes have the
marker 0, 64 bytes the marker 1 and a segment shard the marker 2; an entry of any other
length is an error. `trie/wbt.go`, `ComputeEncodedProofSize`: the length of the encoded
path of a well-balanced tree, computed from the index and the number of leaves.
-/

import JamDuna.Trie.BalancedProofs

namespace JamDuna.Trie

open JamDuna.Basis Storage List HashTree Nat

section

/-- The errors of the two functions. -/
inductive JustificationError where
  /-- `invalid length %d at index %d; expected 32 or 64 or %d`. -/
  | invalidLength (length index shardSize : ℕ)
  /-- `unexpected end of data for …` an entry of that many bytes `… at position %d`. -/
  | unexpectedEnd (size position : ℕ)
  /-- `invalid marker 0x%x at position %d`. -/
  | invalidMarker (marker : UInt8) (position : ℕ)
  deriving DecidableEq, Repr

variable (numECPiecesPerSegment : ℕ)

/-- The marker of an entry. -/
def markerOf (h : Bytes) : Option UInt8 :=
  if h.length = 32 then some 0
  else if h.length = 64 then some 1
  else if h.length = 2 * numECPiecesPerSegment then some 2
  else none

/-- The entries of `EncodeJustification` from an index on. -/
def encodeEntries : ℕ → List Bytes → Except JustificationError Bytes
  | _, [] => .ok []
  | i, h :: path =>
    match markerOf numECPiecesPerSegment h with
    | none => .error (.invalidLength h.length i (2 * numECPiecesPerSegment))
    | some marker =>
      match encodeEntries (i + 1) path with
      | .error e => .error e
      | .ok rest => .ok (marker :: h ++ rest)

/-- `EncodeJustification`. -/
def encodeJustification (path : List Bytes) : Except JustificationError Bytes :=
  encodeEntries numECPiecesPerSegment 0 path

/-- The number of bytes that a marker announces. -/
def markedSize (marker : UInt8) : Option ℕ :=
  if marker = 0 then some 32
  else if marker = 1 then some 64
  else if marker = 2 then some (2 * numECPiecesPerSegment)
  else none

/-- The loop of `DecodeJustification`, on the bytes from a position on and for at most `n`
entries. -/
def decodeEntries : ℕ → ℕ → Bytes → List Bytes → Except JustificationError (List Bytes)
  | 0, _, _, path => .ok path
  | _ + 1, _, [], path => .ok path
  | n + 1, i, marker :: rest, path =>
    match markedSize numECPiecesPerSegment marker with
    | none => .error (.invalidMarker marker i)
    | some size =>
      if rest.length < size then .error (.unexpectedEnd size i)
      else decodeEntries n (i + 1 + size) (rest.drop size) (path ++ [rest.take size])

/-- `DecodeJustification`. -/
def decodeJustification (compact : Bytes) : Except JustificationError (List Bytes) :=
  decodeEntries numECPiecesPerSegment compact.length 0 compact []

/-- `computeProofPath`: the number of entries and of their bytes. -/
def computeProofPath (targetIdx currentStart currentEnd leafSize : ℕ) : ℕ × ℕ :=
  if currentStart = currentEnd then (0, 0)
  else if targetIdx < currentStart ∨ currentEnd < targetIdx ∨ currentEnd < currentStart then (0, 0)
  else
    let n := currentEnd - currentStart + 1
    let midOffset := (n + 1) / 2
    let leftEnd := currentStart + midOffset - 1
    let rightStart := currentStart + midOffset
    if targetIdx ≤ leftEnd then
      let deeper := computeProofPath targetIdx currentStart leftEnd leafSize
      (deeper.1 + 1, deeper.2 + if rightStart = currentEnd then leafSize else 32)
    else
      let deeper := computeProofPath targetIdx rightStart currentEnd leafSize
      (deeper.1 + 1, deeper.2 + if currentStart = leftEnd then leafSize else 32)
termination_by currentEnd - currentStart
decreasing_by
  all_goals omega

/-- `ComputeEncodedProofSize`. -/
def computeEncodedProofSize (shardIdx numShards leafSize : ℕ) : ℕ :=
  if numShards = 0 ∨ leafSize = 0 ∨ numShards ≤ shardIdx ∨ numShards = 1 then 0
  else
    let total := computeProofPath shardIdx 0 (numShards - 1) leafSize
    total.1 + total.2

end

section

variable {shard : ℕ}

/-- An entry that has a marker. -/
def Marked (shard : ℕ) (h : Bytes) : Prop := h.length = 32 ∨ h.length = 64 ∨ h.length = 2 * shard

/-- The marker announces the length of the entry. -/
theorem exists_markerOf {h : Bytes} (hh : Marked shard h) :
    ∃ marker, markerOf shard h = some marker ∧ markedSize shard marker = some h.length := by
  rw [markerOf]
  split_ifs with h32 h64 hshard
  · exact ⟨0, rfl, by rw [h32]; rfl⟩
  · exact ⟨1, rfl, by rw [h64]; rfl⟩
  · exact ⟨2, rfl, by rw [hshard]; rfl⟩
  · rcases hh with h | h | h
    · exact absurd h h32
    · exact absurd h h64
    · exact absurd h hshard

/-- **A path of marked entries is encoded**, with a byte more for each entry, and decoded to
itself. -/
theorem encodeEntries_spec {path : List Bytes} (hpath : ∀ h ∈ path, Marked shard h) (i : ℕ) :
    ∃ enc, encodeEntries shard i path = .ok enc ∧ enc.length = path.length + (path.map length).sum ∧
      ∀ n j all, enc.length ≤ n → decodeEntries shard n j enc all = .ok (all ++ path) := by
  induction path generalizing i with
  | nil =>
    refine ⟨[], rfl, rfl, fun n j all _ => ?_⟩
    rw [append_nil]
    cases n <;> rfl
  | cons h path ih =>
    obtain ⟨marker, hmarker, hsize⟩ := exists_markerOf (hpath h (mem_cons_self ..))
    obtain ⟨enc, henc, hlen, hdec⟩ := ih (fun h hh => hpath h (.tail _ hh)) (i + 1)
    refine ⟨marker :: h ++ enc, by rw [encodeEntries, hmarker, henc], ?_, fun n j all hn => ?_⟩
    · simp only [cons_append, length_cons, length_append, map_cons, sum_cons, hlen]
      omega
    · have hn' : h.length + enc.length + 1 ≤ n := by simpa using hn
      obtain ⟨n, rfl⟩ : ∃ n', n = n' + 1 := ⟨n - 1, by omega⟩
      rw [cons_append, decodeEntries, hsize]
      simp only [length_append, take_left', drop_left']
      rw [if_neg (by omega), hdec n _ _ (by omega), append_assoc, singleton_append]

end

section

/-- The lengths of the entries beside the path of a leaf, when every leaf has `size` bytes. -/
def siblingSizes (size index n : ℕ) : List ℕ :=
  if n ≤ 1 then []
  else if index < (n + 1) / 2 then
    (if n - (n + 1) / 2 = 1 then size else 32) :: siblingSizes size index ((n + 1) / 2)
  else
    (if (n + 1) / 2 = 1 then size else 32) ::
      siblingSizes size (index - (n + 1) / 2) (n - (n + 1) / 2)
termination_by n

variable {size : ℕ}

/-- **`computeProofPath` counts these entries and their bytes.** -/
theorem computeProofPath_eq {i n : ℕ} (hi : i < n) (start : ℕ) :
    computeProofPath (start + i) start (start + n - 1) size =
      ((siblingSizes size i n).length, (siblingSizes size i n).sum) := by
  induction n using Nat.strong_induction_on generalizing i start with
  | _ n ih =>
    rw [computeProofPath, siblingSizes]
    by_cases hone : n ≤ 1
    · rw [if_pos (by omega), if_pos hone]
      rfl
    · rw [if_neg (by omega), if_neg (by omega), if_neg hone]
      have hcount : start + n - 1 - start + 1 = n := by omega
      simp only [hcount]
      by_cases hside : i < (n + 1) / 2
      · have hdeeper := ih ((n + 1) / 2) (by omega) hside start
        have hiff : start + (n + 1) / 2 = start + n - 1 ↔ n - (n + 1) / 2 = 1 := by omega
        rw [if_pos (by omega), if_pos hside, hdeeper]
        simp only [hiff, length_cons, sum_cons]
        rw [add_comm (siblingSizes _ _ _).sum]
      · have hdeeper := ih (n - (n + 1) / 2) (by omega) (i := i - (n + 1) / 2) (by omega)
          (start + (n + 1) / 2)
        have hindex : start + (n + 1) / 2 + (i - (n + 1) / 2) = start + i := by omega
        have hend : start + (n + 1) / 2 + (n - (n + 1) / 2) - 1 = start + n - 1 := by omega
        have hiff : start = start + (n + 1) / 2 - 1 ↔ (n + 1) / 2 = 1 := by omega
        rw [hindex, hend] at hdeeper
        rw [if_neg (by omega), if_neg hside, hdeeper]
        simp only [hiff, length_cons, sum_cons]
        rw [add_comm (siblingSizes _ _ _).sum]

/-- **The lengths of the entries beside a path.** -/
theorem Split.sizes {H : HashType → HashFn} {hashType : HashType} {nodes : List WBTNode}
    {t : WBTNode} (h : Split H hashType nodes t) (hsize : ∀ x ∈ nodes, x.hash.length = size) :
    t.hash.length = (if nodes.length = 1 then size else 32) ∧ ∀ i < nodes.length,
      (t.copath (directions i nodes.length)).map length = siblingSizes size i nodes.length := by
  induction h with
  | single x =>
    refine ⟨hsize x (.head _), fun i hi => ?_⟩
    rw [directions, siblingSizes]
    rfl
  | @node nodes id l r htwo hl hr ihl ihr =>
    obtain ⟨hlenl, hpathl⟩ := ihl fun x hx => hsize x (mem_of_mem_take hx)
    obtain ⟨hlenr, hpathr⟩ := ihr fun x hx => hsize x (mem_of_mem_drop hx)
    have htake : (nodes.take ((nodes.length + 1) / 2)).length = (nodes.length + 1) / 2 := by
      rw [length_take]
      omega
    rw [htake] at hlenl hpathl
    rw [length_drop] at hlenr hpathr
    constructor
    · rw [if_neg (by omega)]
      exact (H hashType).length_run _
    · intro i hi
      have hone : ¬ nodes.length ≤ 1 := by omega
      rw [directions, if_neg hone, siblingSizes, if_neg hone]
      by_cases hside : i < (nodes.length + 1) / 2
      · rw [if_pos hside, if_pos hside, copath_cons_node, map_cons]
        exact congrArg₂ _ hlenr (hpathl i hside)
      · rw [if_neg hside, if_neg hside, copath_cons_node, map_cons]
        exact congrArg₂ _ hlenl (hpathr _ (by omega))

/-- Every entry is a leaf or a hash. -/
theorem mem_siblingSizes {i n k : ℕ} (h : k ∈ siblingSizes size i n) : k = size ∨ k = 32 := by
  induction n using Nat.strong_induction_on generalizing i with
  | _ n ih =>
    rw [siblingSizes] at h
    split_ifs at h
    · exact absurd h not_mem_nil
    all_goals
      rcases mem_cons.mp h with rfl | h
      · simp
      · exact ih _ (by omega) h

end

variable {H : HashType → HashFn} {values : List Bytes}

/-- With blobs of one length the leaves of two blobs or more have that length. -/
theorem length_leafNodes_hash {leafSize : ℕ} (hsize : ∀ v ∈ values, v.length = leafSize)
    (htwo : 2 ≤ values.length) : ∀ x ∈ leafNodes H values .blake2b, x.hash.length = leafSize := by
  match values, htwo with
  | v :: w :: values, _ =>
    intro x hx
    obtain ⟨i, a, ha, rfl⟩ := exists_of_mem_leavesOf hx
    exact hsize a ha

/-- The lengths of the entries that `Trace` returns. -/
theorem LeafAt.sizes {tree : WellBalancedTree} {i leafSize : ℕ} {leaf : WBTNode}
    (h : LeafAt H values tree i leaf) (hi : i < values.length)
    (hsize : ∀ v ∈ values, v.length = leafSize) :
    (tree.root.copath (directions i values.length)).map length =
      siblingSizes leafSize i values.length := by
  by_cases htwo : 2 ≤ values.length
  · have hlen : (leafNodes H values .blake2b).length = values.length := length_leafNodes
    have hsizes := (h.split.sizes (length_leafNodes_hash hsize htwo)).2 i (by omega)
    rwa [hlen] at hsizes
  · rw [directions, siblingSizes, if_pos (by omega), if_pos (by omega)]
    rfl

/-- **The path of `Trace` is accepted, and its encoding has the computed size.** For blobs
of one length that has a marker the path is encoded in that many bytes and decoded to
itself. -/
theorem trace_accepted_and_sized (H : HashType → HashFn) {values : List Bytes} {i : ℕ}
    (hi : i < values.length) :
    ∃ tree leaf path, newWellBalancedTree H values .blake2b = some tree ∧
      tree.trace i = .ok (values.length, leaf, path) ∧
      verifyWBT H values.length i tree.rootHash leaf path = .ok (tree.rootHash, true) ∧
      ∀ leafSize shard : ℕ, 0 < leafSize → (leafSize = 32 ∨ leafSize = 64 ∨ leafSize = 2 * shard) →
        (∀ v ∈ values, v.length = leafSize) →
        ∃ enc, encodeJustification shard path = .ok enc ∧
          computeEncodedProofSize i values.length leafSize = enc.length ∧
          decodeJustification shard enc = .ok path := by
  have hne : values ≠ [] := ne_nil_of_length_pos (zero_lt_of_lt hi)
  obtain ⟨tree, hnew, hleaves⟩ := exists_leafAt H hne
  obtain ⟨leaf, h⟩ := hleaves i hi
  refine ⟨tree, leaf.hash, _, hnew, h.trace_eq, h.accepts hi,
    fun leafSize shard hpos hmark hsize => ?_⟩
  set path := tree.root.copath (directions i values.length) with hpath
  have hsizes := h.sizes hi hsize
  have hmarked : ∀ x ∈ path, Marked shard x := by
    intro x hx
    have hmem : x.length ∈ siblingSizes leafSize i values.length := hsizes ▸ mem_map_of_mem hx
    rcases mem_siblingSizes hmem with hx | hx
    · rw [Marked, hx]
      exact hmark
    · exact .inl hx
  obtain ⟨enc, henc, hlen, hdec⟩ := encodeEntries_spec hmarked 0
  have hcount : path.length = (siblingSizes leafSize i values.length).length := by
    rw [← hsizes, length_map]
  refine ⟨enc, henc, ?_, hdec _ 0 [] (le_refl _)⟩
  rw [hlen, hsizes, hcount, computeEncodedProofSize]
  by_cases hone : values.length = 1
  · rw [if_pos (by omega), hone, siblingSizes]
    rfl
  · have htotal : computeProofPath (0 + i) 0 (0 + values.length - 1) leafSize = _ :=
      computeProofPath_eq hi 0
    rw [zero_add, zero_add] at htotal
    rw [if_neg (by omega), htotal]

/-- Three blobs of 64 bytes. -/
def bundles : List Bytes := [replicate 64 1, replicate 64 2, replicate 64 3]

theorem trace_accepted_and_sized_bundles :
    ∃ tree leaf path, newWellBalancedTree (fun _ => polyHash) bundles .blake2b = some tree ∧
      tree.trace (2 : ℕ) = .ok (3, leaf, path) ∧
      verifyWBT (fun _ => polyHash) 3 (2 : ℕ) tree.rootHash leaf path = .ok (tree.rootHash, true) ∧
      ∃ enc, encodeJustification 1026 path = .ok enc ∧
        computeEncodedProofSize 2 3 64 = enc.length ∧ decodeJustification 1026 enc = .ok path := by
  obtain ⟨tree, leaf, path, hnew, htrace, haccept, hsized⟩ :=
    trace_accepted_and_sized (fun _ => polyHash) (show 2 < bundles.length by decide)
  exact ⟨tree, leaf, path, hnew, htrace, haccept,
    hsized 64 1026 (by decide) (.inr (.inl rfl)) (by decide)⟩

/-- **A path with entries of another length is not encoded.** -/
theorem short_blobs_not_encoded :
    ∃ tree leaf path, newWellBalancedTree (fun _ => polyHash) oneAndTwo .blake2b = some tree ∧
      tree.trace 0 = .ok (2, leaf, path) ∧
      encodeJustification 1026 path = .error (.invalidLength 1 0 2052) ∧
      computeEncodedProofSize 0 2 1 = 2 := by
  obtain ⟨tree, hnew, htrace⟩ :
      ∃ tree, newWellBalancedTree (fun _ => polyHash) oneAndTwo .blake2b = some tree ∧
        tree.trace 0 = .ok (2, [1], [[2]]) := by decide +kernel
  exact ⟨tree, [1], [[2]], hnew, htrace, rfl, by decide +kernel⟩

end JamDuna.Trie
