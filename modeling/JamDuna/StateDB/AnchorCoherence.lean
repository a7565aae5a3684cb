/-
# The anchor of a report and the recent history

`checkRecentBlock` of `statedb/guarantees.go` against the recent history that
`ApplyStateRecentHistory` (`statedb/history.go`) keeps. The three flags of its
loop are set by three comparisons that need not meet in one entry, so a report may
take its anchor, its state root and its beefy root from different blocks.

For which histories every accepted report is nevertheless about one block is
`checkRecentBlock_coherent_iff`; when the header hashes of the history differ,
that leaves the histories whose blocks all have one state root and one beefy root
(`mixes_iff_of_nodup`).
-/

import JamDuna.StateDB.Guarantees

namespace JamDuna.StateDB

open JamDuna.Types JamDuna.Basis List

/-- The history entry `b` is the one the report's context names: its header hash,
state root and beefy root are those of the anchor. -/
def HistoryState.Anchors (b : HistoryState) (refine : RefineContext) : Prop :=
  b.headerHash = refine.anchor ∧ b.stateRoot = refine.stateRoot ∧ b.b = refine.beefyRoot

instance HistoryState.decidableAnchors (b : HistoryState) (refine : RefineContext) :
    Decidable (b.Anchors refine) :=
  inferInstanceAs (Decidable (_ ∧ _ ∧ _))

/-- The three tests after the loop of `checkRecentBlock`, on its flags. -/
def recentBlockFlags (anchor stateroot beefyroot : Bool) : GuaranteeCheck Unit := do
  failIf (!anchor) .errGAnchorNotRecent
  failIf (!stateroot) .errGBadStateRoot
  failIf (!beefyroot) .errGBadBeefyMMRRoot

/-- The loop of `checkRecentBlock` as the source has it: the newest block comes
first, and the loop ends once the three flags are set. -/
def recentBlockLoop (refine : RefineContext) :
    Bool → Bool → Bool → List HistoryState → GuaranteeCheck Unit
  | anchor, stateroot, beefyroot, [] => recentBlockFlags anchor stateroot beefyroot
  | anchor, stateroot, beefyroot, block :: blocks =>
    let anchor := anchor || block.headerHash == refine.anchor
    let stateroot := stateroot || block.stateRoot == refine.stateRoot
    let beefyroot := beefyroot || block.b == refine.beefyRoot
    if anchor && stateroot && beefyroot then .ok ()
    else recentBlockLoop refine anchor stateroot beefyroot blocks

theorem recentBlockLoop_eq_flags (refine : RefineContext) (anchor stateroot beefyroot : Bool)
    (blocks : List HistoryState) :
    recentBlockLoop refine anchor stateroot beefyroot blocks =
      recentBlockFlags (anchor || blocks.any fun b => b.headerHash == refine.anchor)
        (stateroot || blocks.any fun b => b.stateRoot == refine.stateRoot)
        (beefyroot || blocks.any fun b => b.b == refine.beefyRoot) := by
  induction blocks generalizing anchor stateroot beefyroot with
  | nil => simp [recentBlockLoop]
  | cons block blocks ih =>
    simp only [recentBlockLoop, any_cons, ← Bool.or_assoc]
    split_ifs with hall
    · -- the three flags are set, and a set flag passes whatever the rest holds
      simp only [Bool.and_eq_true] at hall
      obtain ⟨⟨ha, hs⟩, hb⟩ := hall
      rw [ha, hs, hb]
      rfl
    · exact ih _ _ _

/-- `checkRecentBlock` is the loop over the history, newest block first. -/
theorem checkRecentBlock_eq_loop (j : JamState) (g : Guarantee) : j.checkRecentBlock g =
      recentBlockLoop g.report.refineContext false false false j.recentBlocks.reverse := by
  rw [recentBlockLoop_eq_flags]
  simp only [Bool.false_or, any_reverse]
  rfl

/-- **What `checkRecentBlock` tests**: the three fields of the anchor each occur
somewhere in the recent history. -/
theorem checkRecentBlock_eq_ok {j : JamState} {g : Guarantee} : j.checkRecentBlock g = .ok () ↔
      (∃ b ∈ j.recentBlocks, b.headerHash = g.report.refineContext.anchor) ∧
        (∃ b ∈ j.recentBlocks, b.stateRoot = g.report.refineContext.stateRoot) ∧
        ∃ b ∈ j.recentBlocks, b.b = g.report.refineContext.beefyRoot := by
  unfold JamState.checkRecentBlock
  rw [check_bind_eq_ok, check_bind_eq_ok]
  simp only [failIf_eq_ok, Bool.not_eq_false', any_eq_true, beq_iff_eq]

/-- The header hash of one entry, the state root of another and the beefy root of
a third are always found together in some entry. -/
def Mixes (history : List HistoryState) : Prop :=
  ∀ b₁ ∈ history, ∀ b₂ ∈ history, ∀ b₃ ∈ history,
    ∃ b ∈ history, b.headerHash = b₁.headerHash ∧ b.stateRoot = b₂.stateRoot ∧ b.b = b₃.b

/-- A guarantee whose report has the given anchor and nothing else. -/
def anchoredGuarantee (anchor stateRoot beefyRoot : Hash) : Guarantee :=
  ⟨{ plainReport 1 0 [] with refineContext := ⟨anchor, stateRoot, beefyRoot, 0, 0, []⟩ }, 1, []⟩

/-- **Anchor coherence.** Every guarantee that `checkRecentBlock` accepts is
about one single entry of the recent history precisely when the history has, for
any three of its entries, one with the header hash of the first, the state root of
the second and the beefy root of the third. -/
theorem checkRecentBlock_coherent_iff (j : JamState) :
    (∀ g, j.checkRecentBlock g = .ok () → ∃ b ∈ j.recentBlocks, b.Anchors g.report.refineContext) ↔
      Mixes j.recentBlocks := by
  constructor
  · intro h b₁ hb₁ b₂ hb₂ b₃ hb₃
    exact h (anchoredGuarantee b₁.headerHash b₂.stateRoot b₃.b)
      (checkRecentBlock_eq_ok.mpr ⟨⟨b₁, hb₁, rfl⟩, ⟨b₂, hb₂, rfl⟩, ⟨b₃, hb₃, rfl⟩⟩)
  · intro h g hok
    obtain ⟨⟨b₁, hb₁, h₁⟩, ⟨b₂, hb₂, h₂⟩, ⟨b₃, hb₃, h₃⟩⟩ := checkRecentBlock_eq_ok.mp hok
    obtain ⟨b, hb, hheader, hroot, hbeefy⟩ := h b₁ hb₁ b₂ hb₂ b₃ hb₃
    exact ⟨b, hb, hheader.trans h₁, hroot.trans h₂, hbeefy.trans h₃⟩

/-- Two blocks with their own roots: the report names the first block and carries
the state root of the second. -/
theorem mixed_anchor_accepted :
    let j : JamState := { freshState with recentBlocks := [⟨1, 11, 21, []⟩, ⟨2, 12, 22, []⟩] }
    let g := anchoredGuarantee 1 22 11
    j.checkRecentBlock g = .ok () ∧ ∀ b ∈ j.recentBlocks, ¬ b.Anchors g.report.refineContext := by
  intro j g
  exact ⟨checkRecentBlock_eq_ok.mpr ⟨⟨_, .head _, rfl⟩,
    ⟨_, mem_cons_of_mem _ mem_cons_self, rfl⟩, ⟨_, mem_cons_self, rfl⟩⟩, by decide⟩

/-- When no two entries share a header hash, the histories of
`checkRecentBlock_coherent_iff` are those with one state root and one beefy root. -/
theorem mixes_iff_of_nodup {history : List HistoryState}
    (hnodup : (history.map (·.headerHash)).Nodup) :
    Mixes history ↔ ∀ b ∈ history, ∀ b' ∈ history, b.stateRoot = b'.stateRoot ∧ b.b = b'.b := by
  constructor
  · intro h b hb b' hb'
    obtain ⟨c, hc, hheader, hroot, hbeefy⟩ := h b hb b' hb' b' hb'
    obtain rfl : c = b := inj_on_of_nodup_map hnodup hc hb hheader
    exact ⟨hroot, hbeefy⟩
  · intro h b₁ hb₁ b₂ hb₂ b₃ hb₃
    exact ⟨b₁, hb₁, rfl, (h b₁ hb₁ b₂ hb₂).1, (h b₁ hb₁ b₃ hb₃).2⟩

end JamDuna.StateDB
