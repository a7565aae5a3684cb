/-
# What the dispute checks accept

One lemma for each check of `statedb/disputes.go`: the exact condition under
which it passes. `Accepted` collects the conditions of all of them, and
`isValidateDispute_eq_ok` says that `IsValidateDispute` returns a result exactly
on the accepted extrinsics; the later modules use that lemma and do not open the
checks again.

The two counting loops come out weaker than they read. `counter` and `found`
are never reset, so `enoughLoop` only tests its first report (`enoughLoop_eq_ok`)
and `validLoop` only its first element (`validLoop_eq_ok`).
-/

import JamDuna.StateDB.Disputes

namespace JamDuna.StateDB

open JamDuna.Types JamDuna.Basis List JamState

variable {ed25519Verify : Ed25519Key → Bytes → Ed25519Signature → Bool}

variable {v : List Verdict} {c : List Culprit}

theorem checkNotPresentVerdict_eq_ok {f : List Fault} : checkNotPresentVerdict v c f = .ok () ↔
      (∀ x ∈ c, x.target ∈ v.map (·.target)) ∧ (∀ x ∈ f, x.target ∈ v.map (·.target)) := by
  simp only [checkNotPresentVerdict, check_bind_eq_ok, forM_eq_ok, failIf_eq_ok]
  simp

section

variable {α κ : Type} [LinearOrder κ] {pre : α → Check Unit} {key : α → κ} {dup ord : DisputeError}

theorem checkOrderedAt_eq_ok {l : List α} {i : Fin l.length} :
    checkOrderedAt pre key dup ord l i = .ok () ↔
      pre (l.get i) = .ok () ∧ (∀ j, i ≠ j → key (l.get j) ≠ key (l.get i)) ∧
        (0 < i.val → key (l.get (predecessor i)) ≤ key (l.get i)) := by
  simp only [checkOrderedAt, check_bind_eq_ok, forM_eq_ok, failIf_eq_ok]
  simp

/-- **An order check passes on the lists whose keys strictly increase** and
whose elements pass their own check. -/
theorem checkOrdered_eq_ok {l : List α} :
    checkOrdered pre key dup ord l = .ok () ↔
      (∀ x ∈ l, pre x = .ok ()) ∧ (l.map key).Pairwise (· < ·) := by
  simp only [checkOrdered, forM_eq_ok, checkOrderedAt_eq_ok, mem_finRange, true_imp_iff]
  have hmap : (l.map key).Pairwise (· < ·) ↔
      ∀ i j : Fin l.length, i < j → key (l.get i) < key (l.get j) := by
    rw [pairwise_map, pairwise_iff_get]
  rw [hmap]
  constructor
  · intro h
    refine ⟨fun x hx => ?_, ?_⟩
    · obtain ⟨i, rfl⟩ := get_of_mem hx
      exact (h i).1
    · -- neighbours are in order and distinct, so the keys increase along the list
      have hle : ∀ (n : ℕ) (i j : Fin l.length), i.val + n = j.val →
          key (l.get i) ≤ key (l.get j) := by
        intro n
        induction n with
        | zero =>
          intro i j hij
          have : i = j := Fin.ext (by omega)
          rw [this]
        | succ n ih =>
          intro i j hij
          have hj := (h j).2.2 (by omega)
          exact le_trans (ih i (predecessor j) (by simp only [predecessor]; omega)) hj
      intro i j hij
      have hne := (h j).2.1 i (Fin.ne_of_gt hij)
      exact lt_of_le_of_ne (hle (j.val - i.val) i j (by have := Fin.lt_def.mp hij; omega)) hne
  · rintro ⟨hpre, hlt⟩ i
    refine ⟨hpre _ (get_mem l i), fun j hij => ?_, fun h => ?_⟩
    · rcases lt_or_gt_of_ne hij with hij | hij
      · exact (hlt i j hij).ne'
      · exact (hlt j i hij).ne
    · exact (hlt (predecessor i) i (Fin.lt_def.mpr (by simp only [predecessor]; omega))).le

end

theorem checkVerdicts_eq_ok : checkVerdicts v = .ok () ↔ (v.map (·.target)).Pairwise (· < ·) := by
  simp [checkVerdicts, checkOrdered_eq_ok]

theorem checkCulprit_eq_ok : checkCulprit ed25519Verify c = .ok () ↔
      (∀ x ∈ c, x.verify ed25519Verify = true) ∧ (c.map (·.key)).Pairwise (· < ·) := by
  simp [checkCulprit, checkOrdered_eq_ok]

theorem checkFault_eq_ok : checkFault ed25519Verify f = .ok () ↔
      (∀ x ∈ f, x.verify ed25519Verify = true) ∧ (f.map (·.key)).Pairwise (· < ·) := by
  simp [checkFault, checkOrdered_eq_ok]

/-- The keys an offender may have: those of the current and previous
validators. -/
def JamState.validatorKeys (j : JamState) : List Ed25519Key :=
  j.safroleState.currValidators.map (·.ed25519) ++ j.safroleState.prevValidators.map (·.ed25519)

variable {j : JamState} {set : List Hash} {s : DisputeState}

theorem checkOffender_eq_ok {e : DisputeError} {key : Ed25519Key} :
    j.checkOffender e key = .ok () ↔ key ∉ j.disputesState.offenders ∧ key ∈ j.validatorKeys := by
  have hnone : j.checkOffender e key = .ok () ↔ j.checkIfKeyOffend key = none := by
    unfold checkOffender
    cases j.checkIfKeyOffend key <;> simp
  rw [hnone]
  unfold checkIfKeyOffend validatorKeys
  split_ifs with h1 h2 h3 <;> simp_all

theorem checkWorkReportHash_eq_ok {good bad wonky : List Hash} :
    checkWorkReportHash v good bad wonky = .ok () ↔
      ∀ x ∈ v, x.target ∉ good ∧ x.target ∉ bad ∧ x.target ∉ wonky := by
  simp only [checkWorkReportHash, forM_eq_ok, check_bind_eq_ok, failIf_eq_ok]
  simp

theorem checkVote_eq_ok :
    checkVote v = .ok () ↔ ∀ x ∈ v, (x.votes.toList.map (·.index.toNat)).Pairwise (· < ·) ∧
        (x.positiveCount = 0 ∨ x.positiveCount = validatorsSuperMajority ∨
          x.positiveCount = wonkyTrueThreshold) := by
  simp only [checkVote, forM_eq_ok, check_bind_eq_ok, failIf_eq_ok, checkOrdered_eq_ok]
  refine forall₂_congr fun x _ => and_congr (by simp) ?_
  simp only [Bool.not_eq_false', Bool.or_eq_true, beq_iff_eq, or_assoc]

/-- Counting the occurrences of `s` in one pass of the inner loop. -/
theorem foldl_count (targets : List Hash) (s : Hash) (n : ℕ) :
    targets.foldl (fun n t => if s = t then n + 1 else n) n = n + targets.count s := by
  induction targets generalizing n with
  | nil => simp
  | cons t targets ih =>
    rw [foldl_cons, ih, count_cons]
    by_cases h : s = t
    · simp [h]; omega
    · simp [h, Ne.symm h]

/-- Looking for `t` in one pass of the inner loop. -/
theorem foldl_found (set : List Hash) (t : Hash) (b : Bool) :
    set.foldl (fun b s => if s = t then true else b) b = (b || decide (t ∈ set)) := by
  rw [foldl_ite_const (fun s => s = t)]
  by_cases ht : t ∈ set <;> simp [ht]

/-- **The first counting loop tests only its first report.** `counter` never
falls, so when the first report reaches the threshold every later one does. -/
theorem enoughLoop_eq_ok {targets : List Hash} {check : ℕ → Check Unit} {k n : ℕ}
    (hcheck : ∀ n, check n = .ok () ↔ k ≤ n) :
    enoughLoop targets check n set = .ok () ↔ ∀ s ∈ set.head?, k ≤ n + targets.count s := by
  induction set generalizing n with
  | nil => simp [enoughLoop]
  | cons s set ih =>
    have hstep : enoughLoop targets check n (s :: set) = .ok () ↔
        k ≤ n + targets.count s ∧ enoughLoop targets check (n + targets.count s) set = .ok () := by
      simp only [enoughLoop, foldl_count, check_bind_eq_ok, hcheck]
    rw [hstep, ih]
    constructor
    · rintro ⟨hs, -⟩
      simpa using hs
    · intro h
      have hs : k ≤ n + targets.count s := h s rfl
      exact ⟨hs, fun t _ => by omega⟩

/-- **The second counting loop tests only its first element.** Once `found` is
set it stays set. -/
theorem validLoop_eq_ok {α : Type} {target : α → Hash} {pre : α → Check Unit}
    {missing : α → DisputeError} {found : Bool} {xs : List α} :
    validLoop set target pre missing found xs = .ok () ↔
      (∀ x ∈ xs, pre x = .ok ()) ∧ (found = true ∨ ∀ x ∈ xs.head?, target x ∈ set) := by
  induction xs generalizing found with
  | nil => simp [validLoop]
  | cons x xs ih =>
    simp only [validLoop, foldl_found, check_bind_eq_ok, failIf_eq_ok, ih]
    cases found <;> by_cases hx : target x ∈ set <;> simp [hx]

theorem isFaultEnoughAndValid_eq_ok : isFaultEnoughAndValid s f = .ok () ↔
      (∀ g ∈ s.goodSet.head?, ∃ x ∈ f, x.target = g) ∧ (∀ x ∈ f, x.voting = false) ∧
        ∀ x ∈ f.head?, x.target ∈ s.goodSet := by
  have hcheck : ∀ n, failIf (decide (n < 1)) DisputeError.errDMissingFaultsGoodVerdict = .ok () ↔
      1 ≤ n := fun n => by simp [Nat.one_le_iff_ne_zero]
  simp only [isFaultEnoughAndValid, check_bind_eq_ok, enoughLoop_eq_ok hcheck,
    validLoop_eq_ok, failIf_eq_ok, Bool.false_eq_true, false_or, Nat.zero_add,
    one_le_count_iff, mem_map]

theorem isCulpritEnoughAndValid_eq_ok :
    isCulpritEnoughAndValid s c = .ok () ↔ (∀ b ∈ s.badSet.head?, 2 ≤ (c.map (·.target)).count b) ∧
        ∀ x ∈ c.head?, x.target ∈ s.badSet := by
  have hcheck : ∀ n, (do
      failIf (n == 0) DisputeError.errDMissingCulpritsBadVerdict
      failIf (decide (n < 2)) DisputeError.errDSingleCulpritBadVerdict) = .ok () ↔ 2 ≤ n := by
    intro n
    simp only [check_bind_eq_ok, failIf_eq_ok]
    simp
    omega
  simp only [isCulpritEnoughAndValid, check_bind_eq_ok, enoughLoop_eq_ok hcheck,
    validLoop_eq_ok, Bool.false_eq_true, false_or, Nat.zero_add, implies_true, true_and]

/-- What an extrinsic has to satisfy to pass `IsValidateDispute`, check by
check. -/
structure Accepted (ed25519Verify : Ed25519Key → Bytes → Ed25519Signature → Bool) (j : JamState)
    (d : Dispute) : Prop where
  culprits_present : ∀ c ∈ d.culprit, c.target ∈ d.verdict.map (·.target)
  faults_present : ∀ f ∈ d.fault, f.target ∈ d.verdict.map (·.target)
  signed : ∀ v ∈ d.verdict, j.checkSignature ed25519Verify v = .ok ()
  verdicts_sorted : (d.verdict.map (·.target)).Pairwise (· < ·)
  culprits_signed : ∀ c ∈ d.culprit, c.verify ed25519Verify = true
  culprits_sorted : (d.culprit.map (·.key)).Pairwise (· < ·)
  faults_signed : ∀ f ∈ d.fault, f.verify ed25519Verify = true
  faults_sorted : (d.fault.map (·.key)).Pairwise (· < ·)
  culprits_new : ∀ c ∈ d.culprit, c.key ∉ j.disputesState.offenders ∧ c.key ∈ j.validatorKeys
  faults_new : ∀ f ∈ d.fault, f.key ∉ j.disputesState.offenders ∧ f.key ∈ j.validatorKeys
  verdicts_new : ∀ v ∈ d.verdict, v.target ∉ j.disputesState.goodSet ∧
    v.target ∉ j.disputesState.badSet ∧ v.target ∉ j.disputesState.wonkySet
  votes_sorted : ∀ v ∈ d.verdict, (v.votes.toList.map (·.index.toNat)).Pairwise (· < ·)
  votes_count : ∀ v ∈ d.verdict, v.positiveCount = 0 ∨ v.positiveCount = validatorsSuperMajority ∨
    v.positiveCount = wonkyTrueThreshold
  first_good_fault : ∀ g ∈ (sortSetPrime (verdict2result d.verdict)).goodSet.head?,
    ∃ f ∈ d.fault, f.target = g
  faults_against : ∀ f ∈ d.fault, f.voting = false
  first_fault_good : ∀ f ∈ d.fault.head?,
    f.target ∈ (sortSetPrime (verdict2result d.verdict)).goodSet
  first_bad_culprits : ∀ b ∈ (sortSetPrime (verdict2result d.verdict)).badSet.head?,
    2 ≤ (d.culprit.map (·.target)).count b
  first_culprit_bad : ∀ c ∈ d.culprit.head?,
    c.target ∈ (sortSetPrime (verdict2result d.verdict)).badSet

/-- **`IsValidateDispute` returns a result exactly on the accepted extrinsics**,
and the result lists the verdicts with their counts. -/
theorem isValidateDispute_eq_ok {d : Dispute} {r : List VerdictResult} :
    j.isValidateDispute ed25519Verify d = .ok r ↔
      Accepted ed25519Verify j d ∧ r = verdict2result d.verdict := by
  simp only [isValidateDispute, check_bind_eq_ok, checkNotPresentVerdict_eq_ok,
    forM_eq_ok, checkVerdicts_eq_ok, checkCulprit_eq_ok, checkFault_eq_ok, checkOffender_eq_ok,
    checkWorkReportHash_eq_ok, checkVote_eq_ok, isFaultEnoughAndValid_eq_ok,
    isCulpritEnoughAndValid_eq_ok]
  constructor
  · rintro ⟨⟨h1, h2⟩, h3, h4, ⟨h5, h6⟩, ⟨h7, h8⟩, h9, h10, h11, h12, ⟨h13, h14, h15⟩, ⟨h16, h17⟩, h⟩
    exact ⟨⟨h1, h2, h3, h4, h5, h6, h7, h8, h9, h10, h11, fun v hv => (h12 v hv).1,
      fun v hv => (h12 v hv).2, h13, h14, h15, h16, h17⟩, (Except.ok.inj h).symm⟩
  · rintro ⟨h, rfl⟩
    exact ⟨⟨h.culprits_present, h.faults_present⟩, h.signed, h.verdicts_sorted,
      ⟨h.culprits_signed, h.culprits_sorted⟩, ⟨h.faults_signed, h.faults_sorted⟩, h.culprits_new,
      h.faults_new, h.verdicts_new, fun v hv => ⟨h.votes_sorted v hv, h.votes_count v hv⟩,
      ⟨h.first_good_fault, h.faults_against, h.first_fault_good⟩,
      ⟨h.first_bad_culprits, h.first_culprit_bad⟩, rfl⟩

end JamDuna.StateDB
