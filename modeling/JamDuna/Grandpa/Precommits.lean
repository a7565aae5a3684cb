/-
# Precommits that finalise a block

`VerifyWarpSyncJustification` of `grandpa/warpsync.go` and `ProcessCommitMessage` of
`grandpa/grandpacommit.go` accept a block as final when enough of the authorities have signed a
precommit for it. Both count the precommits of a list and not the authorities behind them, so a
signature that is repeated is counted again.

The first does not compare the vote of a precommit with the header, and is content with two thirds
of the authorities. `warpSyncSound_iff` sets the three apart: where no signer is repeated and no
precommit is for another block, acceptance means that more than two thirds have signed a precommit
for the header unless exactly two thirds have. The second compares the number of precommits with
two thirds of the *stake*. Where no signer is repeated it is right if and only if two thirds of the
stake and two thirds of the authorities are the same whole number (`acceptsSupermajority_iff`). With
the stakes that `NewGrandpa` sets, 100 for each authority, it turns away even the commits that all
have signed (`length_lt_threshold`).

The commit it turns away is the one its peers send: `AttemptToFinalizeAtRound` of
`grandpa/grandpa.go` broadcasts what `NewFinalCommitMessage` makes of the votes of the round, with
the hash of the first of them as target. `commitVerifiable_iff` says for which rounds the peers
accept it.
-/

import JamDuna.Types.Header

namespace JamDuna.Grandpa

open JamDuna.Types JamDuna.Basis

/-- `types.GrandpaVote`. -/
structure GrandpaVote where
  headerHash : Hash
  slot : UInt32
  deriving DecidableEq

/-- `types.GrandpaSignedPrecommit`. -/
structure GrandpaSignedPrecommit where
  vote : GrandpaVote
  messageSignature : Ed25519Signature
  ed25519Pub : Ed25519Key

/-- `types.GrandpaCommit`: the target and the precommits. -/
structure GrandpaCommit extends GrandpaVote where
  precommits : List GrandpaSignedPrecommit

/-- `GrandpaCommitMessage`, and `types.GrandpaJustification` less the ancestries, which nothing
reads. -/
structure GrandpaCommitMessage where
  round : UInt64
  setId : UInt32
  commit : GrandpaCommit

/-- `types.WarpSyncFragment`. -/
structure WarpSyncFragment where
  header : BlockHeader
  justification : GrandpaCommitMessage

/-- `Grandpa`: the authorities, the stakes in `Voter_Staked`, and the rounds with a `GrandpaCJF`. -/
structure State where
  scheduledAuthoritySet : List Validator
  voterStaked : List UInt64
  hasCJF : UInt64 → Bool

variable (ed25519Verify : Ed25519Key → Bytes → Ed25519Signature → Bool) (hash : BlockHeader → Hash)

/-- `getGrandpaVoteUnsignedBytes` for a precommit. -/
def unsignedBytes (vote : GrandpaVote) (round : UInt64) (setId : UInt32) : Bytes :=
  "jam_grandpa_vote".toUTF8.toList ++ [1] ++ vote.headerHash.bytes ++ toLE 4 vote.slot.toNat ++
    toLE 8 round.toNat ++ toLE 8 setId.toNat

/-- `VerifyPrecommitSignature`. -/
def verifyPrecommitSignature (round : UInt64) (setId : UInt32) (p : GrandpaSignedPrecommit) :
    Bool :=
  ed25519Verify p.ed25519Pub (unsignedBytes p.vote round setId) p.messageSignature

/-- The key is that of an authority. -/
def isAuthority (authorities : List Validator) (key : Ed25519Key) : Bool :=
  authorities.any (·.ed25519 == key)

/-- The loop of `VerifyWarpSyncJustification`. -/
def signedWeight (authorities : List Validator) (m : GrandpaCommitMessage) : UInt64 :=
  m.commit.precommits.foldl (fun weight p =>
    if !isAuthority authorities p.ed25519Pub then weight
    else if !verifyPrecommitSignature ed25519Verify m.round m.setId p then weight
    else weight + 1) 0

/-- `VerifyWarpSyncJustification`. -/
def verifyWarpSyncJustification (authorities : List Validator) (fragment : WarpSyncFragment) :
    Except String Unit :=
  let signedWeight := signedWeight ed25519Verify authorities fragment.justification
  let threshold := (UInt64.ofNat authorities.length * 2 + 2) / 3
  let headerHash := fragment.justification.commit.headerHash
  if signedWeight < threshold then
    .error ("insufficient precommit weight: got " ++ toString signedWeight ++ ", need >=" ++
      toString threshold)
  else if headerHash ≠ hash fragment.header then
    .error ("target hash mismatch: commit has " ++ headerHash.hex ++ ", header is " ++
      (hash fragment.header).hex)
  else .ok ()

/-- `GetSupermajorityThreshold`. -/
def State.getSupermajorityThreshold (g : State) : Int64 :=
  (g.voterStaked.foldl (· + ·) 0).toInt64 * 2 / 3 + 1

/-- The loop of `ProcessCommitMessage`. -/
def commitWeight (authorities : List Validator) (m : GrandpaCommitMessage) : Int64 :=
  m.commit.precommits.foldl (fun weight p =>
    if p.vote ≠ m.commit.toGrandpaVote then weight
    else if !isAuthority authorities p.ed25519Pub then weight
    else if !verifyPrecommitSignature ed25519Verify m.round m.setId p then weight
    else weight + 1) 0

/-- `ProcessCommitMessage`. -/
def State.processCommitMessage (g : State) (m : GrandpaCommitMessage) : Except String Unit :=
  if !g.hasCJF m.round then
    .error ("ProcessCommitMessage: no CJF found for round " ++ toString m.round)
  else
    let weight := commitWeight ed25519Verify g.scheduledAuthoritySet m
    if weight < g.getSupermajorityThreshold then
      .error ("ProcessCommitMessage: not enough precommit weight in commit message, got " ++
        toString weight ++ ", need " ++ toString g.getSupermajorityThreshold)
    else .ok ()

/-- `RoundState`: the number of the round and the votes of its `GrandpaCJF`. -/
structure Round where
  votingRoundNumber : UInt64
  votes : List GrandpaSignedPrecommit

/-- The votes of the round as a commit. -/
def Round.message (r : Round) (setId : UInt32) (target : GrandpaVote) : GrandpaCommitMessage :=
  ⟨r.votingRoundNumber, setId, ⟨target, r.votes⟩⟩

/-- `NewFinalCommitMessage`: the slot of the target is that of the block, the hash that of the first
vote. -/
def newFinalCommitMessage (rounds : UInt64 → Option Round) (setId : UInt32) (block : BlockHeader)
    (round : UInt64) : Except String GrandpaCommitMessage :=
  match rounds round with
  | none => .error ("NewFinalCommitMessage: no grandpa justification found, block hash: " ++
      (hash block).hex)
  | some r => match r.votes with
    | [] => .error ("NewFinalCommitMessage: no votes in grandpa justification for round " ++
        toString round ++ ", block hash: " ++ (hash block).hex)
    | first :: _ => .ok (r.message setId ⟨first.vote.headerHash, block.slot⟩)

/-- The best final candidate of a round: its header, what `ChildOrBrother` says of it and the last
finalised block, and its weight in the precommit graph. The graph itself is not modelled. -/
structure Candidate where
  header : BlockHeader
  childOrBrother : Bool
  cumulativeVotesWeight : UInt64

/-- The candidate is finalised. -/
def State.finalizes (g : State) (best : Candidate) : Bool :=
  best.childOrBrother && decide (g.getSupermajorityThreshold.toUInt64 < best.cumulativeVotesWeight)

/-- `AttemptToFinalizeAtRound`: the commit that is broadcast, if the candidate is finalised. -/
def State.attemptToFinalizeAtRound (g : State) (lastCompletedRound : UInt64)
    (rounds : UInt64 → Option Round) (setId : UInt32) (best : Candidate) (round : UInt64) :
    Except String (Option GrandpaCommitMessage) :=
  if (rounds round).isNone then
    .error ("round " ++ toString round ++ " state not found, last round=" ++
      toString lastCompletedRound)
  else if g.finalizes best then (newFinalCommitMessage hash rounds setId best.header round).map some
  else .ok none

variable (authorities : List Validator) (m : GrandpaCommitMessage)

/-- An authority has signed the precommit. -/
def isValid (p : GrandpaSignedPrecommit) : Bool :=
  isAuthority authorities p.ed25519Pub && verifyPrecommitSignature ed25519Verify m.round m.setId p

/-- The authorities with a valid precommit for a vote. -/
def signers (vote : GrandpaVote) : Finset Ed25519Key :=
  ((m.commit.precommits.filter fun p => isValid ed25519Verify authorities m p &&
    unsignedBytes p.vote m.round m.setId == unsignedBytes vote m.round m.setId).map
      (·.ed25519Pub)).toFinset

/-- The valid precommits of the message. -/
def validPrecommits : List GrandpaSignedPrecommit :=
  m.commit.precommits.filter (isValid ed25519Verify authorities m)

/-- The valid precommits for the target of the message. -/
def targetPrecommits : List GrandpaSignedPrecommit :=
  m.commit.precommits.filter fun p =>
    p.vote = m.commit.toGrandpaVote && isValid ed25519Verify authorities m p

/-- What a warp-sync fragment is accepted for: the number of valid precommits, whoever signed them
and for whatever block, and the hash of the target. -/
structure Accepted (f : WarpSyncFragment) : Prop where
  weight : (UInt64.ofNat authorities.length * 2 + 2) / 3 ≤
    UInt64.ofNat (validPrecommits ed25519Verify authorities f.justification).length
  target : f.justification.commit.headerHash = hash f.header

/-- **Warp-sync soundness.** Whoever has signed what, if the signatures of the fragment are not
forged: an accepted fragment has a header for which more than two thirds of the authorities have
signed a precommit. -/
def WarpSyncSound (f : WarpSyncFragment) : Prop :=
  ∀ Signed : Ed25519Key → Bytes → Prop, (∀ p ∈ f.justification.commit.precommits,
      verifyPrecommitSignature ed25519Verify f.justification.round f.justification.setId p = true →
        Signed p.ed25519Pub (unsignedBytes p.vote f.justification.round f.justification.setId)) →
    verifyWarpSyncJustification ed25519Verify hash authorities f = .ok () →
    ∃ S : Finset Ed25519Key, 2 * authorities.length < 3 * S.card ∧
      ∀ key ∈ S, isAuthority authorities key = true ∧
        Signed key (unsignedBytes ⟨hash f.header, f.header.slot⟩ f.justification.round
          f.justification.setId)

/-- No authority has signed two of the precommits. -/
def SignersDistinct (precommits : List GrandpaSignedPrecommit) : Prop :=
  (precommits.map (·.ed25519Pub)).Nodup

/-- `GetTotalStake`, without the wrap-around. -/
def State.totalStake (g : State) : ℕ := (g.voterStaked.map (·.toNat)).sum

/-- **Acceptance is a supermajority**: more than two thirds of the authorities have a valid
precommit for the target. -/
def AcceptsSupermajority (g : State) : Prop :=
  g.processCommitMessage ed25519Verify m = .ok () ↔ 2 * g.scheduledAuthoritySet.length <
      3 * ((targetPrecommits ed25519Verify g.scheduledAuthoritySet m).map
        (·.ed25519Pub)).toFinset.card

/-- **Commits are verifiable**: whenever a candidate is finalised, a commit for it is broadcast, and
accepted by every node with the same authorities and the precommits of the round. -/
def CommitVerifiable (g : State) (last : UInt64) (rounds : UInt64 → Option Round) (setId : UInt32)
    (best : Candidate) (round : UInt64) : Prop :=
  (rounds round).isSome = true → g.finalizes best = true →
    ∃ m, g.attemptToFinalizeAtRound hash last rounds setId best round = .ok (some m) ∧
      m.commit.toGrandpaVote = ⟨hash best.header, best.header.slot⟩ ∧
      ∀ peer : State, peer.scheduledAuthoritySet = g.scheduledAuthoritySet →
        peer.voterStaked = g.voterStaked → peer.hasCJF round = true →
        peer.processCommitMessage ed25519Verify m = .ok ()

variable {ed25519Verify hash authorities m}

/-- A loop that adds one for some elements counts them. -/
theorem foldl_count {α ν : Type} {step : ν → α → ν} (counts : α → Bool) (value : ℕ → ν)
    (hstep : ∀ n a, step (value n) a = if counts a then value (n + 1) else value n) (l : List α)
    (n : ℕ) : l.foldl step (value n) = value (n + (l.filter counts).length) := by
  induction l generalizing n with
  | nil => rfl
  | cons a l ih =>
    rw [List.foldl_cons, hstep, List.filter_cons]
    split_ifs
    · rw [ih, List.length_cons]
      congr 1
      omega
    · exact ih n

theorem signedWeight_eq : signedWeight ed25519Verify authorities m =
    UInt64.ofNat (validPrecommits ed25519Verify authorities m).length := by
  refine (foldl_count (isValid ed25519Verify authorities m) UInt64.ofNat (fun n p => ?_) _ 0).trans
    (by rw [Nat.zero_add]; rfl)
  unfold isValid
  cases isAuthority authorities p.ed25519Pub <;>
    cases verifyPrecommitSignature ed25519Verify m.round m.setId p <;> simp [UInt64.ofNat_add]

theorem commitWeight_eq : commitWeight ed25519Verify authorities m =
    Int64.ofNat (targetPrecommits ed25519Verify authorities m).length := by
  refine (foldl_count (fun p => p.vote = m.commit.toGrandpaVote &&
    isValid ed25519Verify authorities m p) Int64.ofNat (fun n p => ?_) _ 0).trans
      (by rw [Nat.zero_add]; rfl)
  unfold isValid
  by_cases hvote : p.vote = m.commit.toGrandpaVote <;>
    cases isAuthority authorities p.ed25519Pub <;>
    cases verifyPrecommitSignature ed25519Verify m.round m.setId p <;>
    simp [hvote, Int64.ofNat_add]

/-- The authorities behind the valid precommits for a vote. -/
theorem mem_signers_iff {vote : GrandpaVote} {key : Ed25519Key} :
    key ∈ signers ed25519Verify authorities m vote ↔
      isAuthority authorities key = true ∧ ∃ p ∈ m.commit.precommits, p.ed25519Pub = key ∧
        verifyPrecommitSignature ed25519Verify m.round m.setId p = true ∧
        unsignedBytes p.vote m.round m.setId = unsignedBytes vote m.round m.setId := by
  unfold signers isValid
  simp only [List.mem_toFinset, List.mem_map, List.mem_filter, Bool.and_eq_true, beq_iff_eq]
  constructor
  · rintro ⟨p, ⟨hp, ⟨hauthority, hverify⟩, hbytes⟩, rfl⟩
    exact ⟨hauthority, p, hp, rfl, hverify, hbytes⟩
  · rintro ⟨hauthority, p, hp, rfl, hverify, hbytes⟩
    exact ⟨p, ⟨hp, ⟨hauthority, hverify⟩, hbytes⟩, rfl⟩

theorem verifyWarpSyncJustification_eq_ok (f : WarpSyncFragment) :
    verifyWarpSyncJustification ed25519Verify hash authorities f = .ok () ↔
      Accepted ed25519Verify hash authorities f := by
  unfold verifyWarpSyncJustification
  dsimp only
  rw [signedWeight_eq]
  split_ifs with hless hhash
  · exact iff_of_false nofun fun h => absurd hless (UInt64.not_lt.mpr h.weight)
  · exact iff_of_false nofun fun h => hhash h.target
  · exact iff_of_true rfl ⟨UInt64.not_lt.mp hless, not_not.mp hhash⟩

/-- What the signatures of the fragment show is all that anybody has to have signed. -/
theorem warpSyncSound_iff_signers (f : WarpSyncFragment) :
    WarpSyncSound ed25519Verify hash authorities f ↔ (Accepted ed25519Verify hash authorities f →
        2 * authorities.length < 3 * (signers ed25519Verify authorities f.justification
          ⟨hash f.header, f.header.slot⟩).card) := by
  unfold WarpSyncSound
  simp only [verifyWarpSyncJustification_eq_ok]
  constructor
  · intro hsound haccepted
    -- nobody has signed more than what the fragment shows
    obtain ⟨S, hcard, hS⟩ := hsound (fun key bytes => ∃ p ∈ f.justification.commit.precommits,
      p.ed25519Pub = key ∧
      verifyPrecommitSignature ed25519Verify f.justification.round f.justification.setId p = true ∧
      unsignedBytes p.vote f.justification.round f.justification.setId = bytes)
      (fun p hp hverify => ⟨p, hp, rfl, hverify, rfl⟩) haccepted
    have hle := Finset.card_le_card fun key hkey => mem_signers_iff.mpr (hS key hkey)
    omega
  · intro hcount Signed hunforged haccepted
    refine ⟨_, hcount haccepted, fun key hkey => ?_⟩
    obtain ⟨hauthority, p, hp, rfl, hverify, hbytes⟩ := mem_signers_iff.mp hkey
    exact ⟨hauthority, hbytes ▸ hunforged p hp hverify⟩

/-- Precommits of different authorities are at most as many as the authorities. -/
theorem SignersDistinct.length_le {l : List GrandpaSignedPrecommit} (h : SignersDistinct l)
    (hvalid : ∀ p ∈ l, isValid ed25519Verify authorities m p = true) :
    l.length ≤ authorities.length := by
  have hsub : l.map (·.ed25519Pub) ⊆ authorities.map (·.ed25519) := by
    intro key hkey
    obtain ⟨p, hp, rfl⟩ := List.mem_map.mp hkey
    obtain ⟨v, hv, heq⟩ := List.any_eq_true.mp (Bool.and_eq_true_iff.mp (hvalid p hp)).1
    exact List.mem_map.mpr ⟨v, hv, eq_of_beq heq⟩
  simpa using (h.subperm hsub).length_le

/-- The weight that is asked for is two thirds of the authorities, rounded up. -/
theorem threshold_le_iff {n k : ℕ} (hsize : 2 * n + 2 < 2 ^ 64) (hle : k ≤ n) :
    (UInt64.ofNat n * 2 + 2) / 3 ≤ UInt64.ofNat k ↔ 2 * n ≤ 3 * k := by
  have hthreshold : (UInt64.ofNat n * 2 + 2) / 3 = UInt64.ofNat ((n * 2 + 2) / 3) := by
    rw [UInt64.ofNat_div (by omega) (by decide), UInt64.ofNat_add, UInt64.ofNat_mul]
    rfl
  have hlt : ∀ i ≤ n + 1, i < UInt64.size := fun i hi => by
    unfold UInt64.size
    omega
  rw [hthreshold, UInt64.ofNat_le_iff_le (hlt _ (by omega)) (hlt _ (by omega))]
  omega

/-- **When warp sync is sound.** What it does not check is whether a signer is repeated and what
the precommits are for. Where neither goes wrong, a fragment is accepted for more than two thirds of
the authorities unless the signers are exactly two thirds of them. -/
theorem warpSyncSound_iff (f : WarpSyncFragment) (hsize : 2 * authorities.length + 2 < 2 ^ 64)
    (hsigners : SignersDistinct (validPrecommits ed25519Verify authorities f.justification))
    (hvote : ∀ p ∈ validPrecommits ed25519Verify authorities f.justification,
      p.vote = ⟨hash f.header, f.header.slot⟩) :
    WarpSyncSound ed25519Verify hash authorities f ↔
      (f.justification.commit.headerHash = hash f.header →
        3 * (validPrecommits ed25519Verify authorities f.justification).length ≠
          2 * authorities.length) := by
  have hall : signers ed25519Verify authorities f.justification ⟨hash f.header, f.header.slot⟩ =
      ((validPrecommits ed25519Verify authorities f.justification).map (·.ed25519Pub)).toFinset := by
    unfold signers validPrecommits
    congr 2
    refine List.filter_congr fun p hp => ?_
    by_cases hvalid : isValid ed25519Verify authorities f.justification p = true
    · rw [hvote p (List.mem_filter.mpr ⟨hp, hvalid⟩), hvalid, beq_self_eq_true, Bool.and_true]
    · rw [Bool.eq_false_of_not_eq_true hvalid, Bool.false_and]
  have hle := hsigners.length_le fun p hp => (List.mem_filter.mp hp).2
  have hthird := threshold_le_iff hsize hle
  rw [warpSyncSound_iff_signers, hall, List.toFinset_card_of_nodup hsigners, List.length_map]
  constructor
  · intro h hhash heq
    have := h ⟨hthird.mpr heq.ge, hhash⟩
    omega
  · rintro h ⟨hweight, hhash⟩
    exact lt_of_le_of_ne (hthird.mp hweight) (h hhash).symm

theorem processCommitMessage_eq_ok (g : State) (m : GrandpaCommitMessage) :
    g.processCommitMessage ed25519Verify m = .ok () ↔
      g.hasCJF m.round = true ∧ g.getSupermajorityThreshold ≤ Int64.ofNat
        (targetPrecommits ed25519Verify g.scheduledAuthoritySet m).length := by
  unfold State.processCommitMessage
  dsimp only
  rw [commitWeight_eq]
  split_ifs with hcjf hless
  · exact iff_of_false nofun fun h => by simp [h.1] at hcjf
  · exact iff_of_false nofun fun h => absurd hless (Int64.not_lt.mpr h.2)
  · exact iff_of_true rfl ⟨by simpa using hcjf, Int64.not_lt.mp hless⟩

theorem foldl_add_eq (l : List UInt64) (a : UInt64) :
    l.foldl (· + ·) a = a + UInt64.ofNat (l.map (·.toNat)).sum := by
  induction l generalizing a with
  | nil => simp
  | cons b l ih =>
    rw [List.foldl_cons, ih, List.map_cons, List.sum_cons, UInt64.ofNat_add, UInt64.ofNat_toNat,
      UInt64.add_assoc]

theorem getSupermajorityThreshold_eq {g : State} (hstake : 2 * g.totalStake < 2 ^ 63) :
    g.getSupermajorityThreshold = Int64.ofNat (2 * g.totalStake / 3 + 1) := by
  unfold State.getSupermajorityThreshold
  rw [foldl_add_eq, UInt64.zero_add, UInt64.toInt64_ofNat', Int64.ofNat_add,
    Int64.ofNat_div hstake (by decide), Nat.mul_comm, Int64.ofNat_mul]
  rfl

/-- **With the stakes of `NewGrandpa`, 100 for each authority, no commit is accepted** in which no
signer is repeated. -/
theorem length_lt_threshold {g : State}
    (hstaked : g.voterStaked = List.replicate g.scheduledAuthoritySet.length 100)
    (hsize : 200 * g.scheduledAuthoritySet.length < 2 ^ 63)
    (hsigners : SignersDistinct (targetPrecommits ed25519Verify g.scheduledAuthoritySet m)) :
    ¬g.getSupermajorityThreshold ≤
      Int64.ofNat (targetPrecommits ed25519Verify g.scheduledAuthoritySet m).length := by
  have hstake : g.totalStake = g.scheduledAuthoritySet.length * 100 := by
    simp [State.totalStake, hstaked]
  have hle := hsigners.length_le fun p hp => (Bool.and_eq_true_iff.mp (List.mem_filter.mp hp).2).2
  rw [getSupermajorityThreshold_eq (by omega), Int64.ofNat_le_iff_le (by omega) (by omega)]
  omega

/-- Where no signer is repeated, a commit is accepted for two thirds of the stake. -/
theorem acceptsSupermajority_iff_count {g : State} {count : ℕ}
    (hstake : 2 * g.totalStake < 2 ^ 63) (hcjf : g.hasCJF m.round = true)
    (hsigners : SignersDistinct (targetPrecommits ed25519Verify g.scheduledAuthoritySet m))
    (hlength : (targetPrecommits ed25519Verify g.scheduledAuthoritySet m).length = count)
    (hcount : count < 2 ^ 63) :
    AcceptsSupermajority ed25519Verify m g ↔
      (2 * g.totalStake / 3 < count ↔ 2 * g.scheduledAuthoritySet.length / 3 < count) := by
  unfold AcceptsSupermajority
  rw [processCommitMessage_eq_ok, getSupermajorityThreshold_eq hstake,
    List.toFinset_card_of_nodup hsigners, List.length_map, hlength,
    Int64.ofNat_le_iff_le (by omega) hcount, and_iff_right hcjf]
  omega

/-- The commit that the first authorities have signed. -/
theorem exists_commit_of_length {g : State} (round : UInt64) {count : ℕ}
    (hkeys : (g.scheduledAuthoritySet.map (·.ed25519)).Nodup)
    (hsign : ∀ v ∈ g.scheduledAuthoritySet, ∀ bytes, ∃ sig, ed25519Verify v.ed25519 bytes sig = true)
    (hcount : count ≤ g.scheduledAuthoritySet.length) :
    ∃ m : GrandpaCommitMessage, m.round = round ∧
      SignersDistinct (targetPrecommits ed25519Verify g.scheduledAuthoritySet m) ∧
      (targetPrecommits ed25519Verify g.scheduledAuthoritySet m).length = count := by
  choose! sig hsig using hsign
  let sign (v : Validator) : GrandpaSignedPrecommit :=
    ⟨⟨0, 0⟩, sig v (unsignedBytes ⟨0, 0⟩ round 0), v.ed25519⟩
  let m : GrandpaCommitMessage :=
    ⟨round, 0, ⟨⟨0, 0⟩, (g.scheduledAuthoritySet.take count).map sign⟩⟩
  have hall : targetPrecommits ed25519Verify g.scheduledAuthoritySet m = m.commit.precommits := by
    refine List.filter_eq_self.mpr fun p hp => ?_
    obtain ⟨v, hv, rfl⟩ := List.mem_map.mp hp
    have hmem := List.mem_of_mem_take hv
    refine Bool.and_eq_true_iff.mpr
      ⟨decide_eq_true rfl, Bool.and_eq_true_iff.mpr ⟨?_, hsig v hmem _⟩⟩
    exact List.any_eq_true.mpr ⟨v, hmem, beq_self_eq_true _⟩
  refine ⟨m, rfl, ?_, ?_⟩
  · rw [hall, SignersDistinct, List.map_map]
    exact hkeys.sublist ((List.take_sublist count _).map _)
  · rw [hall, List.length_map, List.length_take]
    omega

/-- **When commits are accepted for a supermajority**, for a node whose authorities are different
and able to sign. Precommits are counted against two thirds of the stake: of the commits in which no
signer is repeated, the node accepts exactly those of a supermajority if and only if two thirds of
the stake is two thirds of the authorities, in whole numbers. -/
theorem acceptsSupermajority_iff (g : State) (hne : g.scheduledAuthoritySet ≠ [])
    (hkeys : (g.scheduledAuthoritySet.map (·.ed25519)).Nodup)
    (hsign : ∀ v ∈ g.scheduledAuthoritySet, ∀ bytes, ∃ sig, ed25519Verify v.ed25519 bytes sig = true)
    (hround : ∃ round, g.hasCJF round = true) (hstake : 2 * g.totalStake < 2 ^ 63) :
    (∀ m, g.hasCJF m.round = true →
        SignersDistinct (targetPrecommits ed25519Verify g.scheduledAuthoritySet m) →
        AcceptsSupermajority ed25519Verify m g) ↔
      2 * g.totalStake / 3 = 2 * g.scheduledAuthoritySet.length / 3 := by
  constructor
  · intro h
    have hpos := List.length_pos_iff.mpr hne
    obtain ⟨round, hcjf⟩ := hround
    -- one more than the smaller of the two thirds
    have hcount : min (2 * g.totalStake / 3) (2 * g.scheduledAuthoritySet.length / 3) + 1 ≤
        g.scheduledAuthoritySet.length := by omega
    obtain ⟨m, rfl, hsigners, hlength⟩ := exists_commit_of_length round hkeys hsign hcount
    have hthirds := (acceptsSupermajority_iff_count hstake hcjf hsigners hlength (by omega)).mp
      (h m hcjf hsigners)
    omega
  · intro heq m hcjf hsigners
    have hle := hsigners.length_le fun p hp =>
      (Bool.and_eq_true_iff.mp (List.mem_filter.mp hp).2).2
    rw [acceptsSupermajority_iff_count hstake hcjf hsigners rfl (by omega), heq]

/-- The commit of a finalised candidate names the first vote of the round. -/
theorem attemptToFinalizeAtRound_eq_ok {g : State} {last : UInt64} {rounds : UInt64 → Option Round}
    {setId : UInt32} {best : Candidate} {round : UInt64} {r : Round} (hr : rounds round = some r)
    (hfinal : g.finalizes best = true) (m : GrandpaCommitMessage) :
    g.attemptToFinalizeAtRound hash last rounds setId best round = .ok (some m) ↔
      ∃ first, r.votes.head? = some first ∧
        m = r.message setId ⟨first.vote.headerHash, best.header.slot⟩ := by
  unfold State.attemptToFinalizeAtRound newFinalCommitMessage
  rw [hr, if_neg (by simp), if_pos hfinal]
  obtain ⟨number, votes⟩ := r
  cases votes with
  | nil => simp [Except.map]
  | cons first rest => simp [Except.map, eq_comm]

/-- **When the peers accept the commit of a finalised block.** The state of the round carries its
number, the first vote is for the block itself, and the valid precommits for the block, one for each
authority, are as many as two thirds of the *stake*. With the stakes of `NewGrandpa` that is never
so (`length_lt_threshold`). -/
theorem commitVerifiable_iff (g : State) (last : UInt64) (rounds : UInt64 → Option Round)
    (setId : UInt32) (best : Candidate) (round : UInt64) :
    CommitVerifiable ed25519Verify hash g last rounds setId best round ↔
      ∀ r, rounds round = some r → g.finalizes best = true → r.votingRoundNumber = round ∧
        r.votes.head?.map (·.vote.headerHash) = some (hash best.header) ∧
        g.getSupermajorityThreshold ≤ Int64.ofNat
          (targetPrecommits ed25519Verify g.scheduledAuthoritySet
            (r.message setId ⟨hash best.header, best.header.slot⟩)).length := by
  constructor
  · intro hverifiable r hr hfinal
    obtain ⟨m, hm, htarget, hpeers⟩ := hverifiable (by rw [hr]; rfl) hfinal
    obtain ⟨first, hfirst, rfl⟩ := (attemptToFinalizeAtRound_eq_ok hr hfinal m).mp hm
    have hhash : first.vote.headerHash = hash best.header := congrArg GrandpaVote.headerHash htarget
    -- a peer that has votes in this round only
    obtain ⟨hround, hweight⟩ := (processCommitMessage_eq_ok _ _).mp
      (hpeers { g with hasCJF := (· == round) } rfl rfl (beq_self_eq_true round))
    rw [hhash] at hweight
    exact ⟨eq_of_beq hround, by rw [hfirst, Option.map_some, hhash], hweight⟩
  · intro h hround hfinal
    obtain ⟨r, hr⟩ := Option.isSome_iff_exists.mp hround
    obtain ⟨hnumber, hhead, hweight⟩ := h r hr hfinal
    obtain ⟨first, hfirst, hhash⟩ := Option.map_eq_some_iff.mp hhead
    refine ⟨_, (attemptToFinalizeAtRound_eq_ok hr hfinal _).mpr ⟨first, hfirst, rfl⟩,
      congrArg (GrandpaVote.mk · _) hhash, fun peer hauthorities hstaked hcjf => ?_⟩
    rw [processCommitMessage_eq_ok, hhash, hauthorities, State.getSupermajorityThreshold, hstaked]
    exact ⟨(congrArg peer.hasCJF hnumber).trans hcjf, hweight⟩

/-- Three authorities. -/
def threeAuthorities : List Validator := [⟨1⟩, ⟨2⟩, ⟨3⟩]

/-- A precommit of an authority for the block `target` at slot 7. -/
def precommitOf (target : Hash) (key : Ed25519Key) : GrandpaSignedPrecommit :=
  ⟨⟨target, 7⟩, Vector.replicate 64 0, key⟩

/-- A fragment for the header of slot 7, with one precommit of one authority for another block,
which is repeated. -/
def repeatedFragment : WarpSyncFragment where
  header := ⟨Vector.replicate 32 0, Vector.replicate 32 0, Vector.replicate 32 0, 7, none, [], [], 0,
    Vector.replicate 96 0, Vector.replicate 96 0⟩
  justification := ⟨1, 0, ⟨⟨5, 7⟩, [precommitOf 6 1, precommitOf 6 1]⟩⟩

/-- **A repeated signature for another header is accepted.** -/
theorem repeatedFragment_accepted :
    verifyWarpSyncJustification (fun _ _ _ => true) (fun _ => 5) threeAuthorities
        repeatedFragment = .ok () ∧
      ¬WarpSyncSound (fun _ _ _ => true) (fun _ => 5) threeAuthorities repeatedFragment := by
  have hok : verifyWarpSyncJustification (fun _ _ _ => true) (fun _ => 5) threeAuthorities
      repeatedFragment = .ok () := by decide +kernel
  refine ⟨hok, fun hsound => ?_⟩
  have hkeys : ∀ p ∈ repeatedFragment.justification.commit.precommits, p.ed25519Pub = 1 := by
    simp [repeatedFragment, precommitOf]
  obtain ⟨S, hcard, hS⟩ := hsound (fun key _ => key = 1) (fun p hp _ => hkeys p hp) hok
  have hsub : S ⊆ {1} := fun key hkey => Finset.mem_singleton.mpr (hS key hkey).2
  have hle := Finset.card_le_card hsub
  rw [Finset.card_singleton] at hle
  have hlength : threeAuthorities.length = 3 := rfl
  omega

/-- The commit of round 1 that all three have signed. -/
def unanimousCommit : GrandpaCommitMessage :=
  ⟨1, 0, ⟨⟨5, 7⟩, [precommitOf 5 1, precommitOf 5 2, precommitOf 5 3]⟩⟩

/-- The fragment for the same header with this commit. -/
def signedFragment : WarpSyncFragment := ⟨repeatedFragment.header, unanimousCommit⟩

theorem warpSyncSound_of_three :
    verifyWarpSyncJustification (fun _ _ _ => true) (fun _ => 5) threeAuthorities
        signedFragment = .ok () ∧
      WarpSyncSound (fun _ _ _ => true) (fun _ => 5) threeAuthorities signedFragment :=
  ⟨by decide +kernel, (warpSyncSound_iff signedFragment (by decide)
    (by unfold SignersDistinct; decide +kernel) (by decide +kernel)).mpr fun _ => by decide +kernel⟩

/-- The node as `NewGrandpa` sets it up for the three authorities, with votes in every round. -/
def newGrandpa : State := ⟨threeAuthorities, [100, 100, 100], fun _ => true⟩

/-- **A commit that all authorities have signed is turned away.** -/
theorem unanimous_rejected :
    newGrandpa.processCommitMessage (fun _ _ _ => true) unanimousCommit ≠ .ok () ∧
      ¬AcceptsSupermajority (fun _ _ _ => true) unanimousCommit newGrandpa := by
  have hrejected : newGrandpa.processCommitMessage (fun _ _ _ => true) unanimousCommit ≠ .ok () := by
    decide +kernel
  refine ⟨hrejected, fun haccepts => hrejected (haccepts.mpr ?_)⟩
  decide +kernel

/-- With one unit of stake for each authority commits are accepted for a supermajority. -/
theorem acceptsSupermajority_unitStakes :
    State.totalStake ⟨threeAuthorities, [1, 1, 1], fun _ => true⟩ = 3 ∧
      ∀ m, SignersDistinct (targetPrecommits (fun _ _ _ => true) threeAuthorities m) →
        AcceptsSupermajority (fun _ _ _ => true) m
          ⟨threeAuthorities, [1, 1, 1], fun _ => true⟩ :=
  ⟨rfl, fun m => (acceptsSupermajority_iff ⟨threeAuthorities, [1, 1, 1], fun _ => true⟩
    (by decide) (by decide) (fun _ _ _ => ⟨Vector.replicate 64 0, rfl⟩) ⟨0, rfl⟩
    (by decide)).mpr rfl m rfl⟩

/-- Round 1, where all three have voted for the block 5, except that the first may have voted for
another, such as one of its descendants. -/
def lastRound (first : Hash) : Round := ⟨1, [precommitOf first 1, precommitOf 5 2, precommitOf 5 3]⟩

/-- **The peers turn away the commit of a block that all authorities have voted for**, and if the
first vote is for a descendant, the commit names the descendant. -/
theorem finalCommit_unverifiable :
    newGrandpa.finalizes ⟨repeatedFragment.header, true, 300⟩ = true ∧ ∀ first,
      newFinalCommitMessage (fun _ => 5) (fun _ => lastRound first) 0 repeatedFragment.header 1 =
        .ok ((lastRound first).message 0 ⟨first, 7⟩) ∧
      ¬CommitVerifiable (fun _ _ _ => true) (fun _ => 5) newGrandpa 0 (fun _ => lastRound first) 0
        ⟨repeatedFragment.header, true, 300⟩ 1 := by
  have hfinal : newGrandpa.finalizes ⟨repeatedFragment.header, true, 300⟩ = true := by
    decide +kernel
  refine ⟨hfinal, fun first => ⟨rfl, fun hverifiable => ?_⟩⟩
  obtain ⟨m, hm, -, hpeers⟩ := hverifiable rfl hfinal
  obtain ⟨vote, -, rfl⟩ := (attemptToFinalizeAtRound_eq_ok rfl hfinal m).mp hm
  refine length_lt_threshold rfl (by decide) ?_
    ((processCommitMessage_eq_ok _ _).mp (hpeers newGrandpa rfl rfl rfl)).2
  -- the three have voted once each
  have hkeys : ([1, 2, 3] : List Ed25519Key).Nodup := by decide
  exact hkeys.sublist (List.filter_sublist.map _)

end JamDuna.Grandpa
