/-
# The starts of basic blocks

`DecodeCorePart` of `pvm/program/program.go` expands the bits behind the code to a bitmask with
an entry for each byte of the code, and walks over it once: the first instruction, and every
instruction whose predecessor ends a block, gets the mark 2. The interpreter finds the next
instruction with `skip`, which looks 24 bytes ahead and no further.

A block should start at the first byte of the code and where `skip` leads from an instruction
that ends a block (`ExactMarks`). The walk has its own notion of both: it marks the first
instruction wherever that is, and the next instruction however far it is
(`blockMark_markBlocks_iff`). The two agree exactly if there are enough bits, the first
instruction is at 0, and the one behind the end of a block is at most 25 bytes further on
(`exactMarks_iff`).
-/

import JamDuna.Pvm.Handlers
import JamDuna.Pvm.ProgramBlob

namespace JamDuna.Pvm

open List Nat

/-- An instruction starts at the index. -/
def Marked (k : Bytes) (i : ℕ) : Prop := k.getD i 0 ≠ 0

/-- The index has the mark of a basic block. -/
def BlockMark (k : Bytes) (i : ℕ) : Prop := k.getD i 0 &&& 2 ≠ 0

/-- The instruction at the index ends a block. -/
def terminatorAt (code : Bytes) (n : ℕ) : Bool := code[n]?.any isBasicBlockInstruction

/-- The next instruction behind `n` starts at `i`. -/
def NextMarked (k : Bytes) (n i : ℕ) : Prop := n < i ∧ Marked k i ∧ ∀ m, n < m → m < i → ¬Marked k m

/-- The program of a core part, as the interpreter has it. -/
def CorePart.program (c : CorePart) : VMProgram where
  code := c.code
  bitmask := c.K
  J := c.J

/-- The bitmask has an entry for each byte of the code, and blocks start at the first byte and
where `skip` leads from the end of a block. -/
structure ExactMarks (c : CorePart) : Prop where
  length : c.K.length = c.code.length
  mark : ∀ i, BlockMark c.K i ↔ Marked c.K i ∧ (i = 0 ∨
    ∃ n, Marked c.K n ∧ terminatorAt c.code n = true ∧ i = n + 1 + c.program.skip n)

/-- The core parts whose marks are exact: there are enough bits behind the code, the first
instruction is at 0, and the one behind the end of a block is near. -/
structure MarksPlain (p : Bytes) (c : CorePart) : Prop where
  bits : c.code.length ≤ 8 * (p.length - (c.codeAt + c.code.length))
  size : c.code.length < 2 ^ 32
  first : ∀ i, Marked c.K i → (∀ m < i, ¬Marked c.K m) → i = 0
  near : ∀ n i, Marked c.K n → terminatorAt c.code n = true → NextMarked c.K n i → i ≤ n + 25

section

/-- The walk comes to the index with `startBasicBlock` set: it started so and has seen no
instruction, or the last one it has seen ends a block. -/
def Opens (start : Bool) (code k : Bytes) (i : ℕ) : Prop :=
  ((∀ m < i, ¬Marked k m) ∧ start = true) ∨
    ∃ n, Marked k n ∧ terminatorAt code n = true ∧ n < i ∧ ∀ m, n < m → m < i → ¬Marked k m

variable {start : Bool} {code k : Bytes} {v : UInt8}

theorem markBlocks_cons_of_marked (hv : v ≠ 0) : markBlocks start code (v :: k) =
      (if start then v ||| 2 else v) :: markBlocks (terminatorAt code 0) code.tail k := by
  have hpos : v > 0 := UInt8.pos_iff_ne_zero.mpr hv
  cases code with
  | nil | cons opcode code => exact if_pos hpos

theorem markBlocks_cons_zero :
    markBlocks start code (0 :: k) = 0 :: markBlocks start code.tail k := rfl

theorem length_markBlocks (start : Bool) (code k : Bytes) :
    (markBlocks start code k).length = k.length := by
  induction k generalizing start code with
  | nil => rfl
  | cons v k ih =>
    by_cases hv : v = 0
    · rw [hv, markBlocks_cons_zero, length_cons, length_cons, ih]
    · rw [markBlocks_cons_of_marked hv, length_cons, length_cons, ih]

theorem terminatorAt_succ (n : ℕ) : terminatorAt code (n + 1) = terminatorAt code.tail n := by
  cases code with
  | nil | cons opcode code => rfl

/-- Behind an instruction the flag says whether it ends a block; behind any other byte it is
as before. -/
theorem opens_cons (i : ℕ) : Opens start code (v :: k) (i + 1) ↔
      Opens (if v = 0 then start else terminatorAt code 0) code.tail k i := by
  have hrest (n : ℕ) : (∀ m, n < m → m < i + 1 → ¬Marked (v :: k) m) ↔
      ∀ m, n ≤ m → m < i → ¬Marked k m := by
    rw [← and_forall_add_one]
    simp [Marked]
  unfold Opens
  rw [← or_exists_add_one, Nat.forall_lt_succ_left]
  simp only [hrest, terminatorAt_succ, Nat.add_lt_add_iff_right, Nat.succ_le_iff]
  by_cases hv : v = 0
  · simp [hv, Marked]
  · simp [hv, Marked, and_comm (a := terminatorAt code 0 = true)]

/-- At the first index the flag is as the walk started. -/
theorem opens_zero (start : Bool) (code k : Bytes) : Opens start code k 0 ↔ start = true := by
  constructor
  · rintro (⟨-, hstart⟩ | ⟨n, -, -, hlt, -⟩)
    · exact hstart
    · omega
  · exact fun hstart => .inl ⟨fun m hm => absurd hm (not_lt_zero m), hstart⟩

/-- **What the walk marks**: the entries keep what they are, and an instruction gets the mark of a
block exactly where the flag is set. -/
theorem blockMark_markBlocks_iff (start : Bool) (code : Bytes) {k : Bytes}
    (hk : ∀ v ∈ k, v = 0 ∨ v = 1) (i : ℕ) :
    (Marked (markBlocks start code k) i ↔ Marked k i) ∧
      (BlockMark (markBlocks start code k) i ↔ Marked k i ∧ Opens start code k i) := by
  -- by induction on the bitmask, the flag of the rest being that behind its first entry
  induction k generalizing start code i with
  | nil => simp [markBlocks, Marked, BlockMark]
  | cons v k ih =>
    have htail : ∀ u ∈ k, u = 0 ∨ u = 1 := fun u hu => hk u (mem_cons_of_mem v hu)
    rcases hk v mem_cons_self with rfl | rfl
    · rw [markBlocks_cons_zero]
      cases i with
      | zero => simp [Marked, BlockMark]
      | succ i =>
        rw [opens_cons, if_pos rfl]
        exact ih start code.tail htail i
    · rw [markBlocks_cons_of_marked (by decide)]
      cases i with
      | zero =>
        rw [opens_zero]
        cases start with
        | false =>
          have hmark : (1 : UInt8) &&& 2 ≠ 0 ↔ (1 : UInt8) ≠ 0 ∧ false = true := by decide
          exact ⟨Iff.rfl, hmark⟩
        | true =>
          have hsame : (1 : UInt8) ||| 2 ≠ 0 ↔ (1 : UInt8) ≠ 0 := by decide
          have hmark : ((1 : UInt8) ||| 2) &&& 2 ≠ 0 ↔ (1 : UInt8) ≠ 0 ∧ true = true := by decide
          exact ⟨hsame, hmark⟩
      | succ i =>
        rw [opens_cons, if_neg (show (1 : UInt8) ≠ 0 by decide)]
        exact ih (terminatorAt code 0) code.tail htail i

end

section

variable {p : Program} {n i : ℕ}

/-- **Where `skip` leads**: over no instruction, at most 25 bytes on, and to an instruction, the
end of the bitmask, or exactly 25 bytes on. -/
theorem skip_cases (hn : n < p.bitmask.length) :
    (∀ m, n < m → m < n + 1 + p.skip n → ¬Marked p.bitmask m) ∧ n + 1 + p.skip n ≤ n + 25 ∧
      (Marked p.bitmask (n + 1 + p.skip n) ∨ n + 1 + p.skip n = p.bitmask.length ∨
        n + 1 + p.skip n = n + 25) := by
  unfold Program.skip
  dsimp only
  generalize hstop : (if p.bitmask.length < n + 25 then p.bitmask.length else n + 25) = stop
  have hstop' : stop = min p.bitmask.length (n + 25) := by
    rw [← hstop]
    split_ifs <;> omega
  cases hfind : (range' (n + 1) (stop - (n + 1))).find? fun i => p.bitmask.getD i 0 != 0 with
  | some i =>
    obtain ⟨hmark, hmem, hbefore⟩ := find?_range'_eq_some.mp hfind
    have hmem := mem_range'_1.mp hmem
    have hat : n + 1 + (i - n - 1) = i := by omega
    rw [hat]
    refine ⟨fun m hm hm' hmarked => ?_, by omega, .inl (bne_iff_ne.mp hmark)⟩
    have hzero := hbefore m (by omega) hm'
    rw [bne_iff_ne.mpr hmarked] at hzero
    cases hzero
  | none =>
    have hnone := find?_eq_none.mp hfind
    have hzero : ∀ m, n < m → m < stop → ¬Marked p.bitmask m := by
      intro m hm hm' hmark
      exact hnone m (mem_range'_1.mpr ⟨by omega, by omega⟩) (bne_iff_ne.mpr hmark)
    split_ifs with hend
    · have hat : n + 1 + (stop - n - 1) = stop := by omega
      rw [hat]
      exact ⟨hzero, by omega, .inr (.inl (by omega))⟩
    · have hat : n + 1 + 24 = stop := by omega
      rw [hat]
      exact ⟨hzero, by omega, .inr (.inr (by omega))⟩

theorem lt_length_of_marked {k : Bytes} (h : Marked k i) : i < k.length := by
  by_contra hge
  exact h (by rw [getD_eq_getElem?_getD, getElem?_eq_none (by omega)]; rfl)

/-- `skip` leads to an instruction exactly if that is the next one and at most 25 bytes on. -/
theorem eq_skip_iff (hn : Marked p.bitmask n) (hi : Marked p.bitmask i) :
    i = n + 1 + p.skip n ↔ NextMarked p.bitmask n i ∧ i ≤ n + 25 := by
  obtain ⟨hbetween, hle, hcases⟩ := skip_cases (lt_length_of_marked hn)
  have hlen := lt_length_of_marked hi
  constructor
  · rintro rfl
    exact ⟨⟨by omega, hi, hbetween⟩, hle⟩
  · rintro ⟨⟨hlt, -, hnone⟩, hnear⟩
    rcases lt_trichotomy i (n + 1 + p.skip n) with h | h | h
    · exact absurd hi (hbetween i hlt h)
    · exact h
    · -- `skip` would have stopped before, at an instruction
      rcases hcases with hmark | hend | hfar
      · exact absurd hmark (hnone _ (by omega) h)
      · omega
      · omega

end

theorem and_one_cases (x : UInt8) : x &&& 1 = 0 ∨ x &&& 1 = 1 := by
  have hand : (x &&& 1).toNat = x.toNat % 2 := by
    rw [UInt8.toNat_and]
    exact and_one_is_mod x.toNat
  rw [← UInt8.toNat_inj, ← UInt8.toNat_inj, hand]
  exact mod_two_eq_zero_or_one x.toNat

theorem bitsOf_zero_or_one (b : UInt8) : ∀ v ∈ bitsOf b, v = 0 ∨ v = 1 := by
  simp [bitsOf, and_one_cases]

theorem expandLoop_zero_or_one (k : Bytes) (left : ℕ) : ∀ v ∈ expandLoop k left, v = 0 ∨ v = 1 := by
  induction k generalizing left with
  | nil => exact fun v hv => nomatch hv
  | cons b k ih =>
    intro v hv
    rw [expandLoop] at hv
    split_ifs at hv
    · rcases mem_append.mp hv with hb | hrest
      · exact bitsOf_zero_or_one b v hb
      · exact ih _ v hrest
    · exact bitsOf_zero_or_one b v (mem_of_mem_take hv)

theorem length_expandLoop (k : Bytes) {left : ℕ} (h : left ≤ k.length * 8) :
    (expandLoop k left).length = left := by
  induction k generalizing left with
  | nil =>
    rw [length_nil, zero_mul] at h
    exact (le_zero.mp h).symm
  | cons b k ih =>
    have hbits : (bitsOf b).length = 8 := rfl
    rw [length_cons] at h
    rw [expandLoop]
    split_ifs with hfull
    · rw [length_append, ih (by omega), hbits]
      omega
    · rw [length_take, hbits]
      omega

theorem length_expandBits (k : Bytes) (n : ℕ) : (expandBits k n).length = min (k.length * 8) n :=
  length_expandLoop k (min_le_left _ _)

variable {p : Bytes} {c : CorePart}

section

variable (h : decodeCorePart p = some (.ok c))
include h

/-- An accepted core part comes from three segments that follow each other. -/
theorem accepted_cases :
    ∃ k : Bytes, c.K = markBlocks true c.code (expandBits k (c.code.length % 2 ^ 32)) ∧
      k.length = p.length - (c.codeAt + c.code.length) := by
  obtain ⟨hp, hfits⟩ := fits_of_accepted h
  cases h.symm.trans (decodeCorePart_fits hp hfits)
  have hlen := (readHeader_rest_suffix p).length_le
  obtain ⟨-, hle⟩ := hfits
  refine ⟨_, rfl, ?_⟩
  dsimp only [corePart]
  rw [length_drop, length_take, length_take, length_drop]
  omega

/-- Instructions and marks of an accepted core part. -/
theorem blockMark_iff_of_accepted (i : ℕ) :
    BlockMark c.K i ↔ Marked c.K i ∧ Opens true c.code c.K i := by
  obtain ⟨k, hK, -⟩ := accepted_cases h
  have hbits := expandLoop_zero_or_one k (min (k.length * 8) (c.code.length % 2 ^ 32))
  have hwalk (m : ℕ) := blockMark_markBlocks_iff true c.code hbits m
  have hmarked (m : ℕ) : Marked c.K m ↔ Marked (expandBits k (c.code.length % 2 ^ 32)) m := by
    rw [hK]
    exact (hwalk m).1
  have hopens : Opens true c.code c.K i ↔
      Opens true c.code (expandBits k (c.code.length % 2 ^ 32)) i := by
    unfold Opens
    simp only [hmarked]
  rw [hmarked, hopens, hK]
  exact (hwalk i).2

/-- The bitmask covers the code. -/
theorem length_K_iff_of_accepted : c.K.length = c.code.length ↔ c.code.length < 2 ^ 32 ∧
      c.code.length ≤ 8 * (p.length - (c.codeAt + c.code.length)) := by
  obtain ⟨k, hK, hk⟩ := accepted_cases h
  rw [hK, length_markBlocks, length_expandBits, hk]
  omega

end

/-- A place where `skip` leads from the end of a block. -/
theorem skip_from_terminator_iff {i : ℕ} (hi : Marked c.K i) :
    (∃ n, Marked c.K n ∧ terminatorAt c.code n = true ∧ i = n + 1 + c.program.skip n) ↔
      ∃ n, Marked c.K n ∧ terminatorAt c.code n = true ∧ NextMarked c.K n i ∧ i ≤ n + 25 := by
  refine exists_congr fun n => and_congr_right fun hn => and_congr_right fun _ => ?_
  exact eq_skip_iff (p := c.program.toProgram) hn hi

/-- The last instruction before a place is only one. -/
theorem eq_of_nextMarked {k : Bytes} {n n' i : ℕ} (hn : Marked k n) (hn' : Marked k n')
    (h : NextMarked k n i) (h' : NextMarked k n' i) : n = n' := by
  rcases lt_trichotomy n n' with hlt | heq | hgt
  · exact absurd hn' (h.2.2 n' hlt h'.1)
  · exact heq
  · exact absurd hn (h'.2.2 n hgt h.1)

/-- **Marks of basic blocks.** The bitmask of an accepted core part has one entry for each byte
of the code, and the marks of blocks are where they should be, exactly if there are enough bits,
the first instruction is at 0, and the instruction behind the end of a block is at most 25 bytes
on. -/
theorem exactMarks_iff (h : decodeCorePart p = some (.ok c)) : ExactMarks c ↔ MarksPlain p c := by
  constructor
  · intro hexact
    obtain ⟨hsize, hbits⟩ := (length_K_iff_of_accepted h).mp hexact.length
    refine ⟨hbits, hsize, fun i hi hnone => ?_, fun n i hn hterm hnext => ?_⟩
    · have hmark := (blockMark_iff_of_accepted h i).mpr ⟨hi, .inl ⟨hnone, rfl⟩⟩
      rcases ((hexact.mark i).mp hmark).2 with hzero | ⟨n, hn, -, heq⟩
      · exact hzero
      · exact absurd hn (hnone n (by omega))
    · have hi := hnext.2.1
      have hmark := (blockMark_iff_of_accepted h i).mpr
        ⟨hi, .inr ⟨n, hn, hterm, hnext.1, hnext.2.2⟩⟩
      rcases ((hexact.mark i).mp hmark).2 with hzero | hskip
      · exact absurd hnext.1 (by omega)
      · obtain ⟨n', hn', -, hnext', hnear⟩ := (skip_from_terminator_iff hi).mp hskip
        rwa [eq_of_nextMarked hn hn' hnext hnext']
  · intro hplain
    refine ⟨(length_K_iff_of_accepted h).mpr ⟨hplain.size, hplain.bits⟩, fun i => ?_⟩
    rw [blockMark_iff_of_accepted h i]
    refine and_congr_right fun hi => ?_
    rw [skip_from_terminator_iff hi]
    constructor
    · rintro (⟨hnone, -⟩ | ⟨n, hn, hterm, hlt, hbetween⟩)
      · exact .inl (hplain.first i hi hnone)
      · have hnext : NextMarked c.K n i := ⟨hlt, hi, hbetween⟩
        exact .inr ⟨n, hn, hterm, hnext, hplain.near n i hn hterm hnext⟩
    · rintro (rfl | ⟨n, hn, hterm, hnext, -⟩)
      · exact (opens_zero true c.code c.K).mpr rfl
      · exact .inr ⟨n, hn, hterm, hnext.1, hnext.2.2⟩

/-- A core part without a jump table and with the code `TRAP`, `TRAP`, and its bits. -/
def twoTraps (bits : UInt8) : Bytes := [0, 0, 2, 0, 0, bits]

/-- What it is decoded to. -/
def twoTrapsPart (K : Bytes) : CorePart where
  jSize := 0
  z := 0
  J := []
  code := [0, 0]
  K := K
  tableAt := 3
  codeAt := 3

theorem exactMarks_twoTraps : decodeCorePart (twoTraps 3) = some (.ok (twoTrapsPart [3, 3])) ∧
      ExactMarks (twoTrapsPart [3, 3]) := by
  have hdec : decodeCorePart (twoTraps 3) = some (.ok (twoTrapsPart [3, 3])) := by
    decide +kernel
  refine ⟨hdec, (exactMarks_iff hdec).mpr ⟨by decide, by decide, fun i _ hnone => ?_,
    fun n i _ _ hnext => ?_⟩⟩
  · by_contra hi
    exact hnone 0 (Nat.pos_of_ne_zero hi) (show (3 : UInt8) ≠ 0 by decide)
  · rcases i with _ | _ | i
    · omega
    · omega
    · exact absurd rfl hnext.2.1

/-- With the first byte unmarked the block mark is at 1, where no block should start. -/
theorem blockMark_unmarkedFirst :
    decodeCorePart (twoTraps 2) = some (.ok (twoTrapsPart [0, 3])) ∧
      ¬ExactMarks (twoTrapsPart [0, 3]) := by
  have hdec : decodeCorePart (twoTraps 2) = some (.ok (twoTrapsPart [0, 3])) := by
    decide +kernel
  refine ⟨hdec, fun hexact => ?_⟩
  have hmark : BlockMark (twoTrapsPart [0, 3]).K 1 := show (3 : UInt8) &&& 2 ≠ 0 by decide
  rcases ((hexact.mark 1).mp hmark).2 with hone | ⟨n, hn, -, heq⟩
  · exact absurd hone (by decide)
  · have hzero : n = 0 := by omega
    subst hzero
    exact hn rfl

end JamDuna.Pvm
