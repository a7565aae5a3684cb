/-
# Which accepted extrinsics are well formed

A dispute extrinsic is well formed when every verdict is answered for: a report
judged good has a fault, a report judged bad has two culprits, and every culprit
and fault contradicts a judgement (`WellFormed`). `isFaultEnoughAndValid` and
`isCulpritEnoughAndValid` are there to enforce it.

They do so for the first report of each kind and the first entry of each list
only, because `counter` and `found` carry over between the rounds of their loops.
`isValidateDispute_wellFormed_iff` says exactly what is left open, and
`secondGoodVerdict_accepted` is an extrinsic that gets through.
-/

import JamDuna.StateDB.Judgements

namespace JamDuna.StateDB

open JamDuna.Types

variable {ed25519Verify : Ed25519Key → Bytes → Ed25519Signature → Bool}

/-- The report is judged good by this extrinsic, or was before. -/
def JudgedGood (j : JamState) (d : Dispute) (h : Hash) : Prop :=
  h ∈ judged validatorsSuperMajority d.verdict ∨ h ∈ j.disputesState.goodSet

/-- The report is judged bad by this extrinsic, or was before. -/
def JudgedBad (j : JamState) (d : Dispute) (h : Hash) : Prop :=
  h ∈ judged 0 d.verdict ∨ h ∈ j.disputesState.badSet

/-- Every verdict is answered for, and every culprit and fault contradicts a
judgement. -/
structure WellFormed (j : JamState) (d : Dispute) : Prop where
  good_has_fault : ∀ v ∈ d.verdict, v.positiveCount = validatorsSuperMajority →
    ∃ f ∈ d.fault, f.target = v.target
  bad_has_culprits : ∀ v ∈ d.verdict, v.positiveCount = 0 →
    2 ≤ (d.culprit.map (·.target)).count v.target
  culprit_bad : ∀ c ∈ d.culprit, JudgedBad j d c.target
  fault_contradicts : ∀ f ∈ d.fault,
    (f.voting = false ∧ JudgedGood j d f.target) ∨ (f.voting = true ∧ JudgedBad j d f.target)

/-- A statement about every element, split at the head. -/
theorem forall_mem_iff_head_tail {α : Type} {l : List α} {P : α → Prop} :
    (∀ x ∈ l, P x) ↔ (∀ x ∈ l.head?, P x) ∧ ∀ x ∈ l.tail, P x := by
  cases l <;> simp

theorem forall_mem_judged {k : ℕ} {v : List Verdict} {P : Hash → Prop} :
    (∀ h ∈ judged k v, P h) ↔ ∀ x ∈ v, x.positiveCount = k → P x.target := by
  simp only [mem_judged]
  exact ⟨fun h x hx hk => h _ ⟨x, hx, hk, rfl⟩, fun h _ ⟨x, hx, hk, hxt⟩ => hxt ▸ h x hx hk⟩

section

variable {j : JamState} {d : Dispute} (h : Accepted ed25519Verify j d)
include h

/-- A report with a verdict in an accepted extrinsic was not judged before. -/
theorem Accepted.target_new {t : Hash} (ht : t ∈ d.verdict.map (·.target)) :
    t ∉ j.disputesState.goodSet ∧ t ∉ j.disputesState.badSet := by
  obtain ⟨v, hv, rfl⟩ := List.mem_map.mp ht
  exact ⟨(h.verdicts_new v hv).1, (h.verdicts_new v hv).2.1⟩

/-- In an accepted extrinsic the faults all vote against their report, so they
contradict a judgement when the report is judged good now. -/
theorem Accepted.fault_contradicts_iff {f : Fault} (hf : f ∈ d.fault) :
    ((f.voting = false ∧ JudgedGood j d f.target) ∨ (f.voting = true ∧ JudgedBad j d f.target)) ↔
      f.target ∈ judged validatorsSuperMajority d.verdict := by
  have hnew := (h.target_new (h.faults_present f hf)).1
  simp [h.faults_against f hf, JudgedGood, hnew]

theorem Accepted.culprit_bad_iff {c : Culprit} (hc : c ∈ d.culprit) :
    JudgedBad j d c.target ↔ c.target ∈ judged 0 d.verdict := by
  have hnew := (h.target_new (h.culprits_present c hc)).2
  simp [JudgedBad, hnew]

/-- Well-formedness of an accepted extrinsic, in terms of the two lists of
judged reports. -/
theorem Accepted.wellFormed_iff :
    WellFormed j d ↔ (∀ g ∈ judged validatorsSuperMajority d.verdict, ∃ f ∈ d.fault, f.target = g) ∧
      (∀ b ∈ judged 0 d.verdict, 2 ≤ (d.culprit.map (·.target)).count b) ∧
      (∀ c ∈ d.culprit, c.target ∈ judged 0 d.verdict) ∧
      ∀ f ∈ d.fault, f.target ∈ judged validatorsSuperMajority d.verdict := by
  rw [forall_mem_judged, forall_mem_judged]
  constructor
  · intro hw
    exact ⟨hw.good_has_fault, hw.bad_has_culprits,
      fun c hc => (h.culprit_bad_iff hc).mp (hw.culprit_bad c hc),
      fun f hf => (h.fault_contradicts_iff hf).mp (hw.fault_contradicts f hf)⟩
  · rintro ⟨hg, hb, hc, hf⟩
    exact ⟨hg, hb, fun c hm => (h.culprit_bad_iff hm).mpr (hc c hm),
      fun f hm => (h.fault_contradicts_iff hm).mpr (hf f hm)⟩

end

/-- **An accepted extrinsic is well formed exactly when the reports and entries
after the first ones are answered for too.** The checks cover the first report
judged good, the first judged bad, the first culprit and the first fault; the
rest is up to the author of the block. -/
theorem isValidateDispute_wellFormed_iff {j : JamState} {d : Dispute} {r : List VerdictResult}
    (h : j.isValidateDispute ed25519Verify d = .ok r) :
    WellFormed j d ↔
      (∀ g ∈ (judged validatorsSuperMajority d.verdict).tail, ∃ f ∈ d.fault, f.target = g) ∧
      (∀ b ∈ (judged 0 d.verdict).tail, 2 ≤ (d.culprit.map (·.target)).count b) ∧
      (∀ c ∈ d.culprit.tail, c.target ∈ judged 0 d.verdict) ∧
      ∀ f ∈ d.fault.tail, f.target ∈ judged validatorsSuperMajority d.verdict := by
  have ha := (isValidateDispute_eq_ok.mp h).1
  have hgood := ha.first_good_fault
  have hfault := ha.first_fault_good
  have hbad := ha.first_bad_culprits
  have hculprit := ha.first_culprit_bad
  rw [sortSetPrime_goodSet ha.verdicts_sorted] at hgood hfault
  rw [sortSetPrime_badSet ha.verdicts_sorted] at hbad hculprit
  rw [ha.wellFormed_iff]
  refine and_congr ?_ (and_congr ?_ (and_congr ?_ ?_))
  · exact forall_mem_iff_head_tail.trans (and_iff_right hgood)
  · exact forall_mem_iff_head_tail.trans (and_iff_right hbad)
  · exact forall_mem_iff_head_tail.trans (and_iff_right hculprit)
  · exact forall_mem_iff_head_tail.trans (and_iff_right hfault)

/-- A good verdict with its fault. -/
def answeredVerdict : Dispute where
  verdict := [verdictWith 1 5]
  culprit := []
  fault := [⟨1, false, 0, zeroSignature⟩]

theorem answeredVerdict_wellFormed :
    freshState.isValidateDispute (fun _ _ _ => true) answeredVerdict = .ok [⟨1, 5⟩] ∧
      WellFormed freshState answeredVerdict := by
  have hok : freshState.isValidateDispute (fun _ _ _ => true) answeredVerdict = .ok [⟨1, 5⟩] := by
    decide +kernel
  have hgood : (judged validatorsSuperMajority answeredVerdict.verdict).tail = [] := by
    decide +kernel
  have hbad : (judged 0 answeredVerdict.verdict).tail = [] := by decide +kernel
  refine ⟨hok, (isValidateDispute_wellFormed_iff hok).mpr ⟨?_, ?_, ?_, ?_⟩⟩
  · simp [hgood]
  · simp [hbad]
  all_goals simp [answeredVerdict]

/-- Two good verdicts, with a fault for the first report only. -/
def secondGoodVerdict : Dispute where
  verdict := [verdictWith 1 5, verdictWith 2 5]
  culprit := []
  fault := [⟨1, false, 0, zeroSignature⟩]

/-- The second good verdict is accepted without a fault: `counter` still holds
the fault of the first. -/
theorem secondGoodVerdict_accepted :
    freshState.isValidateDispute (fun _ _ _ => true) secondGoodVerdict = .ok [⟨1, 5⟩, ⟨2, 5⟩] ∧
      ¬ WellFormed freshState secondGoodVerdict := by
  refine ⟨by decide +kernel, fun hw => ?_⟩
  have hfault := hw.good_has_fault (verdictWith 2 5) (by decide +kernel) (by decide +kernel)
  exact absurd hfault (by decide +kernel)

end JamDuna.StateDB
