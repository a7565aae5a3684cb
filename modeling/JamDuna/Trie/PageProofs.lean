/-
# Page proofs

`trie/cdt.go`, `GeneratePageProof` and `PageProofToFullJustification`: the segments of a
work package are proved in pages of 64. The proof of a page has the justification of the
page (`J6`, without the lowest six levels) and the hashes of its leaves, without those that
only fill the tree up. The justification of a segment is rebuilt from it by building the
tree of the page again.

The page is filled up with the zero hash to 64 leaves, except when the whole list is shorter
than that: then it is filled up to the next power of two, as the whole tree is. Leaves with
the zero hash are left out of a page wherever they are, so a segment that hashes to zero
would move the ones behind it.
-/

import JamDuna.Trie.ConstantDepth
import JamDuna.Storage.SmallHash

namespace JamDuna.Trie

open JamDuna.Types JamDuna.Basis Storage HashTree Nat

section

/-- `PageFixedDepth`. -/
def pageFixedDepth : ℕ := 6

/-- `1 << PageFixedDepth`. -/
def pageSize : ℕ := 64

/-- `H0Hash`. -/
def h0Hash : Hash32 := hash32 zeroHash

/-- `PageProof`: `JustificationX` and `LeafHashes`. -/
abbrev PageProof : Type := List Hash32 × List Hash32 × Unit

def pageProofWire : Wire PageProof :=
  structWire "PageProof" (consField ⟨"JustificationX", "j_x"⟩ (sliceWire hashWire)
    (consField ⟨"LeafHashes", "l_x"⟩ (sliceWire hashWire) endFields))

/-- `MaxPageIndex`. -/
def CDMerkleTree.maxPageIndex (mt : CDMerkleTree) : ℕ := mt.leaves.length / pageSize

/-- `GenerateLocalLeavesX`. -/
def CDMerkleTree.generateLocalLeavesX (mt : CDMerkleTree) (pageIndex : ℤ) :
    Except CDTError (List Hash32) :=
  if mt.leaves.length = 0 then .error .emptyTree
  else if pageIndex < 0 ∨ (mt.maxPageIndex : ℤ) < pageIndex then .error .leafIndexOutOfRange
  else
    let segIdxStart := pageIndex.toNat * pageSize
    let segIdxEnd := min (segIdxStart + pageSize) mt.leaves.length
    let hashedLeaves := ((mt.leaves.take segIdxEnd).drop segIdxStart).map fun leaf =>
      hash32 leaf.hash
    .ok (hashedLeaves.filter fun hashedLeaf => hashedLeaf ≠ h0Hash)

/-- The bytes of one page. An error of `GenerateLocalLeavesX` is overwritten. -/
def CDMerkleTree.pageProofByte (tree : CDMerkleTree) (pageIdx : ℕ) : Except (Stop CDTError) Bytes :=
  match tree.generateCDTJustificationX ((pageIdx * pageSize : ℕ) : ℤ) pageFixedDepth with
  | .error err => .error (.err err)
  | .ok globalJustification =>
    let localHashedLeaves := (tree.generateLocalLeavesX pageIdx).toOption.getD []
    .ok (pageProofWire.encode (globalJustification, localHashedLeaves, ()))

variable (H : HashType → HashFn)

/-- `GeneratePageProof`. -/
def generatePageProof (segments : List Bytes) : Except (Stop CDTError) (List Bytes) :=
  match newCDMerkleTree H segments with
  | none => .error .panic
  | some tree =>
    let numPages := (segments.length + pageSize - 1) / pageSize
    (List.range numPages).mapM tree.pageProofByte

/-- `padLeafHashes`. -/
def padLeafHashes (nonEmptyleafHashes : List Hash32) (isFixedPadding : Bool) : List Hash32 :=
  let size := if isFixedPadding then pageSize else nextPowerOfTwo nonEmptyleafHashes.length
  nonEmptyleafHashes ++ List.replicate (size - nonEmptyleafHashes.length) h0Hash

/-- `NewCDTSubtree`. -/
def newCDTSubtree (nonEmptyleafHashes : List Hash32) (isFixedPadding : Bool) :
    Option CDMerkleTree :=
  if nonEmptyleafHashes.length = 0 then some ⟨.leaf 0 zeroHash, []⟩
  else treeOf H ((padLeafHashes nonEmptyleafHashes isFixedPadding).map Vector.toList)

/-- What `PageProofToFullJustification` returns as an error. -/
inductive PageProofError where
  /-- An error of `types.Decode`. -/
  | decode (err : String)
  /-- An error of `GenerateCDTJustificationX`. -/
  | tree (err : CDTError)
  deriving DecidableEq, Repr

/-- Without a value from `Decode` the type assertion panics. -/
def decodePageProof (pageProofByte : Bytes) : Except (Stop PageProofError) PageProof :=
  match pageProofWire.decode pageProofByte with
  | .error (.err err) => .error (.err (.decode err))
  | .error .panic => .error .panic
  | .ok (none, _) => .error .panic
  | .ok (some recoveredPageProof, _) => .ok recoveredPageProof

/-- The padding of a page: to the next power of two for a first page that is not full. -/
def fixedPadding (pageIdx : ℤ) (leafHashes : List Hash32) : Bool :=
  ¬ (pageIdx = 0 ∧ leafHashes.length ≠ pageSize)

/-- `PageProofToFullJustification`. -/
def pageProofToFullJustification (pageProofByte : Bytes) (pageIdx subTreeIdx : ℤ) :
    Except (Stop PageProofError) (List Hash32) :=
  match decodePageProof pageProofByte with
  | .error err => .error err
  | .ok (globalJustification, localHashedLeaves, _) =>
    match newCDTSubtree H localHashedLeaves (fixedPadding pageIdx localHashedLeaves) with
    | none => .error .panic
    | some subTree =>
      match subTree.generateCDTJustificationX subTreeIdx 0 with
      | .error err => .error (.err (.tree err))
      | .ok subTreeJustification => .ok (globalJustification ++ subTreeJustification)

end

theorem pageProofWire_reads (v : PageProof) : pageProofWire.Reads v v False := by
  have hslice := sliceWire_reads_same hashWire_reads hashWire_ne_nil
  exact structWire_reads (consField_reads_of_ne_nil (hslice v.1).elem (sliceWire_ne_nil _ _)
    (consField_reads_of_ne_nil (hslice v.2.1).elem (sliceWire_ne_nil _ _) (endFields_reads _)))

theorem length_sliceWire_hashWire_le (l : List Hash32) :
    ((sliceWire hashWire).encode l).length ≤ 9 + 32 * l.length := by
  have hE := E_length_le l.length
  have hitems : (l.flatMap hashWire.encode).length = 32 * l.length := by
    induction l with
    | nil => rfl
    | cons x l ih =>
      have hx : (hashWire.encode x).length = 32 := Vector.length_toList
      rw [List.flatMap_cons, List.length_append, ih (E_length_le _), hx, List.length_cons]
      omega
  show (E l.length ++ l.flatMap hashWire.encode).length ≤ _
  rw [List.length_append, hitems]
  omega

/-- **A page proof is read back** as it was written. -/
theorem decodePageProof_encode {globalJustification leafHashes : List Hash32}
    (hglobal : globalJustification.length < 2 ^ 20) (hleaves : leafHashes.length < 2 ^ 20) :
    decodePageProof (pageProofWire.encode (globalJustification, leafHashes, ())) =
      .ok (globalJustification, leafHashes, ()) := by
  have h₁ := length_sliceWire_hashWire_le globalJustification
  have h₂ := length_sliceWire_hashWire_le leafHashes
  have hsize : (pageProofWire.encode (globalJustification, leafHashes, ())).length < 2 ^ 32 := by
    show ((sliceWire hashWire).encode globalJustification ++
      ((sliceWire hashWire).encode leafHashes ++ [])).length < 2 ^ 32
    simp only [List.length_append, List.length_nil]
    omega
  have hread := (pageProofWire_reads (globalJustification, leafHashes, ())).decode_append hsize []
    (fun _ h => h)
  rw [List.append_nil] at hread
  rw [decodePageProof, hread]

variable (H : HashType → HashFn) {segments : List Bytes}

/-- The leaf hashes of the segments of a page. -/
def pageHashes (segments : List Bytes) (pageIdx : ℕ) : List Bytes :=
  ((segments.map (leafHash H)).drop (pageIdx * pageSize)).take pageSize

theorem length_pageHashes (segments : List Bytes) (pageIdx : ℕ) :
    (pageHashes H segments pageIdx).length =
      min pageSize (segments.length - pageIdx * pageSize) := by
  simp [pageHashes]

variable {pageIdx : ℕ}

theorem mem_pageHashes {x : Bytes} (hx : x ∈ pageHashes H segments pageIdx) :
    ∃ s ∈ segments, leafHash H s = x :=
  List.mem_map.mp (List.mem_of_mem_drop (List.mem_of_mem_take hx))

theorem toList_pageHashes (pageIdx : ℕ) :
    ((pageHashes H segments pageIdx).map hash32).map Vector.toList =
      pageHashes H segments pageIdx := by
  rw [List.map_map]
  refine (List.map_congr_left fun x hx => ?_).trans (List.map_id _)
  obtain ⟨s, -, rfl⟩ := mem_pageHashes H hx
  exact toList_hash32 (length_leafHash H s)

/-- Only the zero hash is read as the zero hash. -/
theorem hash32_ne_h0Hash {x : Bytes} (h32 : x.length = 32) (hx : x ≠ zeroHash) :
    hash32 x ≠ h0Hash := by
  intro heq
  have hlist := congrArg Vector.toList heq
  rw [h0Hash, toList_hash32 h32, toList_hash32 rfl] at hlist
  exact hx hlist

variable {H} {mt : CDMerkleTree} {d : ℕ}

/-- **`GenerateLocalLeavesX`** keeps exactly the leaf hashes of the segments. -/
theorem generateLocalLeavesX_eq (hover : mt.Over H d (paddedHashes H segments))
    (hle : segments.length ≤ 2 ^ d) (hnz : ∀ s ∈ segments, leafHash H s ≠ zeroHash)
    (hpage : pageIdx * pageSize < segments.length) :
    mt.generateLocalLeavesX pageIdx = .ok ((pageHashes H segments pageIdx).map hash32) := by
  have hmax : ¬ ((pageIdx : ℤ) < 0 ∨ (mt.maxPageIndex : ℤ) < pageIdx) := by
    have : pageIdx ≤ mt.maxPageIndex := by
      rw [CDMerkleTree.maxPageIndex, hover.leaves, le_div_iff_mul_le (by decide)]
      omega
    omega
  -- The leaves of the page are those of its segments and some that fill the tree up.
  obtain ⟨fill, hfill⟩ : ∃ fill, ((paddedHashes H segments).take
      (min (pageIdx * pageSize + pageSize) (2 ^ d))).drop (pageIdx * pageSize) =
        pageHashes H segments pageIdx ++ List.replicate fill zeroHash := by
    have htake : (segments.map (leafHash H)).take (min (pageIdx * pageSize + pageSize) (2 ^ d)) =
        (segments.map (leafHash H)).take (pageIdx * pageSize + pageSize) := by
      rcases le_total (pageIdx * pageSize + pageSize) (2 ^ d) with h | h
      · rw [min_eq_left h]
      · rw [min_eq_right h, List.take_of_length_le (by simpa using hle),
          List.take_of_length_le (by simpa using hle.trans h)]
    rw [paddedHashes, List.take_append, htake, List.drop_append, List.take_replicate,
      List.drop_replicate, List.drop_take, Nat.add_sub_cancel_left, pageHashes]
    exact ⟨_, rfl⟩
  rw [CDMerkleTree.generateLocalLeavesX, if_neg (by rw [hover.leaves]; omega), if_neg hmax]
  dsimp only
  have hmap : ∀ l : List CDTNode, l.map (fun leaf => hash32 leaf.hash) =
      (l.map hash).map hash32 := fun l => by rw [List.map_map]; rfl
  rw [hmap, List.map_drop, List.map_take, hover.map_hash, Int.toNat_natCast, hover.leaves, hfill,
    List.map_append, List.filter_append, List.filter_eq_self.mpr, List.filter_eq_nil_iff.mpr,
    List.append_nil]
  · intro x hx
    obtain ⟨y, hy, rfl⟩ := List.mem_map.mp hx
    rw [List.eq_of_mem_replicate hy]
    simp [h0Hash]
  · intro x hx
    obtain ⟨y, hy, rfl⟩ := List.mem_map.mp hx
    obtain ⟨s, hs, rfl⟩ := mem_pageHashes H hy
    exact decide_eq_true (hash32_ne_h0Hash (length_leafHash H s) (hnz s hs))

theorem toList_padLeafHashes (pageIdx : ℕ) (isFixedPadding : Bool) :
    (padLeafHashes ((pageHashes H segments pageIdx).map hash32) isFixedPadding).map
        Vector.toList = pageHashes H segments pageIdx ++ List.replicate
      ((if isFixedPadding then pageSize else
        nextPowerOfTwo (pageHashes H segments pageIdx).length) -
          (pageHashes H segments pageIdx).length) zeroHash := by
  simp only [padLeafHashes, List.map_append, toList_pageHashes, List.map_replicate, List.length_map]
  rw [h0Hash, toList_hash32 rfl]

theorem newCDTSubtree_eq_treeOf (hpage : pageIdx * pageSize < segments.length)
    (isFixedPadding : Bool) {hashes' : List Bytes}
    (h : (padLeafHashes ((pageHashes H segments pageIdx).map hash32) isFixedPadding).map
      Vector.toList = hashes') :
    newCDTSubtree H ((pageHashes H segments pageIdx).map hash32) isFixedPadding =
      treeOf H hashes' := by
  have hsize : 0 < pageSize := by decide
  rw [newCDTSubtree, if_neg, h]
  rw [List.length_map, length_pageHashes]
  omega


open List
/-- A deep tree has whole pages. -/
theorem two_pow_eq_mul_pageSize (h : pageFixedDepth ≤ d) :
    2 ^ d = 2 ^ (d - pageFixedDepth) * pageSize := by
  rw [show pageSize = 2 ^ pageFixedDepth from rfl, ← pow_add, Nat.sub_add_cancel h]

/-- A page of 64 leaves, filled up with the zero hash, is a part of the leaves of the tree. -/
theorem getElem?_filledPage (hnext : nextPowerOfTwo segments.length = 2 ^ d) {j : ℕ}
    (hj : j < pageSize) (hin : pageIdx * pageSize + j < 2 ^ d) :
    (pageHashes H segments pageIdx ++ replicate
      (pageSize - (pageHashes H segments pageIdx).length) zeroHash)[j]? =
        (paddedHashes H segments)[pageIdx * pageSize + j]? := by
  have hlen := length_pageHashes H segments pageIdx
  have hcount : (segments.map (leafHash H)).length = segments.length := length_map _
  rw [paddedHashes, hnext]
  by_cases hreal : pageIdx * pageSize + j < segments.length
  · rw [getElem?_append_left (by omega), getElem?_append_left (by omega), pageHashes,
      getElem?_take_of_lt hj, getElem?_drop]
  · rw [getElem?_append_right (by omega), getElem?_append_right (by omega),
      getElem?_replicate, getElem?_replicate, if_pos (by omega), if_pos (by omega)]

/-- Less than 64 segments: the page is the whole tree. -/
theorem newCDTSubtree_of_few (hnext : nextPowerOfTwo segments.length = 2 ^ d)
    (hpos : 0 < segments.length) (hfew : segments.length < pageSize) :
    ∃ sub, newCDTSubtree H ((pageHashes H segments 0).map hash32) false = some sub ∧
      sub.Over H d (paddedHashes H segments) := by
  have hall : pageHashes H segments 0 = segments.map (leafHash H) := by
    rw [pageHashes, zero_mul, drop_zero, take_of_length_le (by simpa using hfew.le)]
  obtain ⟨sub, hsub, hover⟩ := treeOf_spec H ((length_paddedHashes H segments).trans hnext)
  refine ⟨sub, ?_, hover⟩
  rw [newCDTSubtree_eq_treeOf (by rwa [zero_mul]) _ (toList_padLeafHashes 0 _), ← hsub, hall,
    paddedHashes, length_map]
  rfl

/-- A page that is filled up to 64 leaves. -/
theorem newCDTSubtree_of_filled (hpage : pageIdx * pageSize < segments.length) :
    ∃ sub, newCDTSubtree H ((pageHashes H segments pageIdx).map hash32) true = some sub ∧
      sub.Over H pageFixedDepth (pageHashes H segments pageIdx ++ replicate
        (pageSize - (pageHashes H segments pageIdx).length) zeroHash) := by
  have hlen := length_pageHashes H segments pageIdx
  have hfull : (pageHashes H segments pageIdx ++ replicate
      (pageSize - (pageHashes H segments pageIdx).length) zeroHash).length =
        2 ^ pageFixedDepth := by
    have : 2 ^ pageFixedDepth = pageSize := rfl
    rw [length_append, length_replicate]
    omega
  obtain ⟨sub, hsub, hover⟩ := treeOf_spec H hfull
  refine ⟨sub, ?_, hover⟩
  rw [newCDTSubtree_eq_treeOf hpage _ (toList_padLeafHashes pageIdx _), ← hsub]
  rfl

/-- **The tree of a page, built again from its leaf hashes**, has the depth of the page and
the leaf hashes of the whole tree. -/
theorem newCDTSubtree_spec (hnext : nextPowerOfTwo segments.length = 2 ^ d)
    (hle : segments.length ≤ 2 ^ d) (hlt : d = 0 ∨ 2 ^ d < 2 * segments.length)
    (hpage : pageIdx * pageSize < segments.length) :
    ∃ sub hashes', newCDTSubtree H ((pageHashes H segments pageIdx).map hash32)
        (fixedPadding pageIdx ((pageHashes H segments pageIdx).map hash32)) = some sub ∧
      sub.Over H (min d pageFixedDepth) hashes' ∧ ∀ j < 2 ^ min d pageFixedDepth,
        hashes'[j]? = (paddedHashes H segments)[2 ^ min d pageFixedDepth * pageIdx + j]? := by
  have hlen := length_pageHashes H segments pageIdx
  by_cases hsmall : pageIdx = 0 ∧ (pageHashes H segments pageIdx).length ≠ pageSize
  · obtain ⟨rfl, hshort⟩ := hsmall
    have hcount : segments.length < pageSize := by omega
    have hdepth : d ≤ pageFixedDepth := by
      rcases hlt with rfl | hlt
      · exact zero_le _
      · refine Nat.le_of_lt_succ ((Nat.pow_lt_pow_iff_right (show 1 < 2 by decide)).mp ?_)
        have : 2 ^ pageFixedDepth.succ = 2 * pageSize := rfl
        omega
    have hfixed : fixedPadding (0 : ℕ) ((pageHashes H segments 0).map hash32) = false := by
      simpa [fixedPadding] using hshort
    obtain ⟨sub, hsub, hover⟩ := newCDTSubtree_of_few (H := H) hnext (by omega) hcount
    rw [min_eq_left hdepth, hfixed]
    exact ⟨sub, paddedHashes H segments, hsub, hover, fun j _ => by rw [mul_zero, zero_add]⟩
  · have hmany : pageSize ≤ segments.length := by
      by_contra hfew
      refine hsmall ⟨?_, by omega⟩
      by_contra hne
      have := Nat.le_mul_of_pos_left pageSize (Nat.pos_of_ne_zero hne)
      omega
    have hdepth : pageFixedDepth ≤ d := by
      refine (Nat.pow_le_pow_iff_right (show 1 < 2 by decide)).mp ?_
      have : 2 ^ pageFixedDepth = pageSize := rfl
      omega
    have hfixed : fixedPadding pageIdx ((pageHashes H segments pageIdx).map hash32) = true := by
      rw [fixedPadding, decide_eq_true_eq, length_map, Int.natCast_eq_zero]
      exact hsmall
    obtain ⟨sub, hsub, hover⟩ := newCDTSubtree_of_filled (H := H) hpage
    rw [min_eq_right hdepth, hfixed]
    refine ⟨sub, _, hsub, hover, fun j hj => ?_⟩
    have hpow := two_pow_eq_mul_pageSize hdepth
    have hin : pageIdx < 2 ^ (d - pageFixedDepth) := by
      refine Nat.lt_of_mul_lt_mul_right (a := pageSize) ?_
      omega
    have hend := mul_le_mul_right pageSize hin
    rw [succ_mul] at hend
    have hj' : j < pageSize := hj
    rw [getElem?_filledPage hnext hj' (by omega), mul_comm pageIdx]
    rfl

variable (H) {index : ℕ}

/-- The list of segments fits into memory: a slice takes 24 bytes there. -/
def FitsInMemory (segments : List Bytes) : Prop := 24 * segments.length ≤ maxAlloc

/-- Where a segment is in its page. -/
theorem index_in_page {d n : ℕ} (hle : n ≤ 2 ^ d) (hi : index < n) :
    d = (d - pageFixedDepth) + min d pageFixedDepth ∧
      2 ^ min d pageFixedDepth * (index / pageSize) = index / pageSize * pageSize ∧
      index / pageSize < 2 ^ (d - pageFixedDepth) ∧
      index % pageSize < 2 ^ min d pageFixedDepth := by
  refine ⟨by omega, ?_⟩
  rcases lt_or_ge d pageFixedDepth with hd | hd
  · have hpow : 2 ^ d ≤ 2 ^ pageFixedDepth := Nat.pow_le_pow_right (by decide) hd.le
    have hpage : index / pageSize = 0 := div_eq_of_lt (by
      have : (2 : ℕ) ^ pageFixedDepth = pageSize := rfl
      omega)
    have hmod := mod_le index pageSize
    rw [hpage, Nat.min_eq_left hd.le, Nat.sub_eq_zero_of_le hd.le]
    exact ⟨by simp, by decide, by omega⟩
  · have hpow := two_pow_eq_mul_pageSize hd
    rw [min_eq_right hd, mul_comm, div_lt_iff_lt_mul (by decide)]
    exact ⟨rfl, by omega, mod_lt _ (by decide)⟩

/-- What the proof of a page says. -/
def pageContent (segments : List Bytes) (mt : CDMerkleTree) (d pageIdx : ℕ) : PageProof :=
  (((mt.root.copath (bits d (pageIdx * pageSize))).take (d - pageFixedDepth)).map hash32,
    (pageHashes H segments pageIdx).map hash32, ())

/-- **`GeneratePageProof`** has every page, with its justification and its leaf hashes. -/
theorem generatePageProof_spec {mt : CDMerkleTree} {d : ℕ}
    (hmt : newCDMerkleTree H segments = some mt) (hover : mt.Over H d (paddedHashes H segments))
    (hle : segments.length ≤ 2 ^ d) (hnz : ∀ s ∈ segments, leafHash H s ≠ zeroHash) :
    ∃ pages, generatePageProof H segments = .ok pages ∧ ∀ p, p * pageSize < segments.length →
        pages[p]? = some (pageProofWire.encode (pageContent H segments mt d p)) := by
  have hmem : ∀ p, p < (segments.length + pageSize - 1) / pageSize ↔
      p * pageSize < segments.length := by
    intro p
    have hsize : pageSize = 64 := rfl
    rw [hsize]
    omega
  refine ⟨(range ((segments.length + pageSize - 1) / pageSize)).map fun p =>
    pageProofWire.encode (pageContent H segments mt d p), ?_, fun p hp => ?_⟩
  · rw [generatePageProof, hmt]
    refine mapM_eq_ok.mpr (forall₂_map_right_iff.mpr (forall₂_same.mpr fun p hp => ?_))
    have hpage := (hmem p).mp (mem_range.mp hp)
    rw [CDMerkleTree.pageProofByte,
      hover.generateCDTJustificationX_eq (hpage.trans_le hle) pageFixedDepth]
    simp only [generateLocalLeavesX_eq hover hle hnz hpage]
    rfl
  · rw [getElem?_map, getElem?_range ((hmem p).mpr hp), Option.map_some]

/-- The justifications of a tree that fits into memory are short. -/
theorem depth_lt_of_fitsInMemory {d : ℕ} (hfits : FitsInMemory segments)
    (hlt : d = 0 ∨ 2 ^ d < 2 * segments.length) : d < 48 := by
  rcases hlt with rfl | hlt
  · decide
  · refine (Nat.pow_lt_pow_iff_right (show 1 < 2 by decide)).mp (hlt.trans_le ?_)
    have : 24 * segments.length ≤ 2 ^ 48 := hfits
    omega

/-- **Justifications from page proofs.** For every list of segments none of which has the
zero hash, and every segment of it, the justification rebuilt from the proof of the
segment's page is the one generated from the whole tree, and it verifies to the root. -/
theorem pageProof_rebuilds_justification (hfits : FitsInMemory segments)
    (hnz : ∀ s ∈ segments, leafHash H s ≠ zeroHash) {segment : Bytes}
    (hsegment : segments[index]? = some segment) :
    ∃ mt pages page full, newCDMerkleTree H segments = some mt ∧
      generatePageProof H segments = .ok pages ∧ pages[index / pageSize]? = some page ∧
      mt.generateCDTJustificationX index 0 = .ok full ∧
      pageProofToFullJustification H page (index / pageSize : ℕ) (index % pageSize : ℕ) = .ok full ∧
      verifyCDTJustificationX H (computeLeaf H segment .blake2b) index full 0 = mt.root.hash := by
  have hi : index < segments.length := (List.getElem?_eq_some_iff.mp hsegment).1
  have hmem : segment ∈ segments := mem_of_getElem? hsegment
  obtain ⟨mt, d, hmt, hnext, hle, hlt, hover⟩ := newCDMerkleTree_spec H (ne_nil_of_mem hmem)
  have hsize : pageSize = 64 := rfl
  have hpage : index / pageSize * pageSize < segments.length :=
    (div_mul_le_self _ _).trans_lt hi
  obtain ⟨hd, hstart, hp, hj⟩ := index_in_page hle hi
  obtain ⟨sub, hashes', hsub, hsubOver, hsame⟩ := newCDTSubtree_spec (H := H) hnext hle hlt hpage
  have hcopath := fun j hj => hover.copath_eq_append (j := j) hd hsubOver hp hsame hj
  rw [hstart] at hcopath
  -- The justification of the page is that of its first leaf without the lowest levels.
  have hglobal : (mt.root.copath (bits d (index / pageSize * pageSize))).take (d - pageFixedDepth) =
        mt.root.copath (bits (d - pageFixedDepth) (index / pageSize)) := by
    have hfirst := hcopath 0 (Nat.two_pow_pos _)
    have hlen := hover.length_copath (hpage.trans_le hle)
    rw [add_zero] at hfirst
    rw [hfirst] at hlen ⊢
    rw [length_append, hsubOver.length_copath (Nat.two_pow_pos _)] at hlen
    exact take_left' (by omega)
  obtain ⟨pages, hpages, hbytes⟩ := generatePageProof_spec H hmt hover hle hnz
  refine ⟨mt, pages, _, (mt.root.copath (bits d index)).map hash32, hmt, hpages,
    hbytes _ hpage, ?_, ?_, ?_⟩
  · rw [hover.generateCDTJustificationX_eq (hi.trans_le hle), Nat.sub_zero,
      take_of_length_le (hover.length_copath (hi.trans_le hle)).le]
  · have hdepth := depth_lt_of_fitsInMemory hfits hlt
    have hlen := length_pageHashes H segments (index / pageSize)
    rw [pageProofToFullJustification, pageContent, decodePageProof_encode
      (by rw [length_map, length_take]; omega) (by rw [length_map]; omega)]
    simp only [hsub, hsubOver.generateCDTJustificationX_eq hj 0]
    rw [hglobal, Nat.sub_zero, take_of_length_le (hsubOver.length_copath hj).le,
      ← map_append, ← hcopath _ hj, div_add_mod']
  · have hleaf : leafHash H segment = computeLeaf H segment .blake2b := by
      refine if_pos fun hzero => hnz segment hmem ?_
      rw [hzero, leafHash, if_neg (not_not.mpr rfl)]
    rw [← hleaf]
    refine hover.verifyCDTJustificationX_eq (length_mem_paddedHashes H) ?_
    rw [paddedHashes, getElem?_append_left (by simpa using hi), getElem?_map, hsegment]
    rfl

/-- 66 segments: a full page and one with two segments. -/
def twoPages : List Bytes := (range 66).map fun i => [UInt8.ofNat i]

/-- The second segment of the last page, with a small hash function. -/
theorem pageProof_rebuilds_lastPage :
    FitsInMemory twoPages ∧ (∀ s ∈ twoPages, leafHash (fun _ => polyHash) s ≠ zeroHash) ∧
      ∃ mt pages page full, newCDMerkleTree (fun _ => polyHash) twoPages = some mt ∧
        generatePageProof (fun _ => polyHash) twoPages = .ok pages ∧
        pages[65 / pageSize]? = some page ∧ mt.generateCDTJustificationX (65 : ℕ) 0 = .ok full ∧
        pageProofToFullJustification (fun _ => polyHash) page (65 / pageSize : ℕ)
          (65 % pageSize : ℕ) = .ok full ∧
        verifyCDTJustificationX (fun _ => polyHash)
          (computeLeaf (fun _ => polyHash) [65] .blake2b) 65 full 0 = mt.root.hash := by
  have hfits : FitsInMemory twoPages := by
    unfold FitsInMemory
    decide
  have hnz : ∀ s ∈ twoPages, leafHash (fun _ => polyHash) s ≠ zeroHash := by decide +kernel
  exact ⟨hfits, hnz, pageProof_rebuilds_justification (fun _ => polyHash) hfits hnz
    (show twoPages[65]? = some [65] by decide)⟩

end JamDuna.Trie
