/-
# No-shows of an audit

`GetAnnouncementWithoutJtrue`, `IsReportAudited` and `IsBlockAudited` of `statedb/audit.go`, over
the judgements that `PutJudgement` of `types/judgement.go` collects: at most one of a validator
about a report.

The search for the judgement of an announcer keeps the last one it has looked at, to see afterwards
whether it found one. Before the first judgement that is the zero value, which is a judgement of
validator 0: without any judgement about a report the announcement of validator 0 is no no-show,
and everything else is exact (`noShowsExact_iff`).
-/

import JamDuna.Types.Basic

namespace JamDuna.Audit

open JamDuna.Types List Function

/-- `AuditAnnouncement`, less the header and the signature. -/
structure Announcement where
  tranche : UInt32
  selectedWorkReport : List (UInt16 × Hash)
  validatorIndex : UInt32

/-- `Judgement`, less the signature. -/
structure Judgement where
  judge : Bool
  workReportHash : Hash
  validator : UInt16

/-- `JudgeBucket`: the judgements about each report, with the hashes of those that are known. -/
structure JudgeBucket where
  judgements : Hash → List Judgement
  known : Hash → Bool
  nodup : ∀ w, ((judgements w).map (·.validator)).Nodup

theorem JudgeBucket.nodup_update (J : JudgeBucket) {j : Judgement}
    (h : j.validator ∉ (J.judgements j.workReportHash).map (·.validator)) (w : Hash) :
    ((update J.judgements j.workReportHash (J.judgements j.workReportHash ++ [j]) w).map
      (·.validator)).Nodup := by
  rcases eq_or_ne w j.workReportHash with rfl | hne
  · rw [update_self, map_append]
    exact concat_eq_append ▸ (J.nodup _).concat h
  · rw [update_of_ne hne]
    exact J.nodup w

/-- `PutJudgement`. -/
def JudgeBucket.put (hash : Judgement → Hash) (J : JudgeBucket) (j : Judgement) : JudgeBucket :=
  if J.known (hash j) then J
  else if h : j.validator ∈ (J.judgements j.workReportHash).map (·.validator) then J
  else ⟨update J.judgements j.workReportHash (J.judgements j.workReportHash ++ [j]),
    update J.known (hash j) true, J.nodup_update h⟩

/-- The search for the judgement of a validator: whether it ends at a negative one, and the last
judgement it has looked at. -/
def inspect (v : UInt32) : List Judgement → Judgement → Bool × Judgement
  | [], tmp => (false, tmp)
  | j :: js, _ =>
    if v = j.validator.toUInt32 then (!j.judge, j) else inspect v js j

/-- What an announcement contributes. -/
def withoutJtrue (js : List Judgement) (a : Announcement) : List Announcement :=
  let found := inspect a.validatorIndex js ⟨false, 0, 0⟩
  (if found.1 then [a] else []) ++ if a.validatorIndex ≠ found.2.validator.toUInt32 then [a] else []

variable (A : Hash → List Announcement) (J : JudgeBucket) (w : Hash)

/-- `GetAnnouncementWithoutJtrue`, with the count. -/
def getAnnouncementWithoutJtrue : List Announcement × ℕ :=
  let announcements := (A w).flatMap (withoutJtrue (J.judgements w))
  (announcements, announcements.length)

/-- `GetTrueCount`. -/
def getTrueCount : ℕ := (J.judgements w).countP (·.judge)

/-- `IsReportAudited`. -/
def isReportAudited : Bool :=
  if (getAnnouncementWithoutJtrue A J w).2 = 0 then (J.judgements w).all (·.judge)
  else decide (validatorsSuperMajority ≤ getTrueCount J w)

/-- `IsBlockAudited`; `reports` are the hashes of the available reports. -/
def isBlockAudited (reports : List Hash) : Bool := reports.all (isReportAudited A J)

/-- The announcer judged the report valid. -/
def JudgedValid (a : Announcement) : Prop :=
  ∃ j ∈ J.judgements w, j.judge ∧ j.validator.toUInt32 = a.validatorIndex

instance JudgedValid.decidable (a : Announcement) : Decidable (JudgedValid J w a) :=
  inferInstanceAs (Decidable (∃ j ∈ J.judgements w, _))

/-- The report is audited: every announcer judged it valid and nobody invalid, or some announcer did
not and a supermajority judged it valid. -/
def ReportAudited : Prop :=
  ((∀ a ∈ A w, JudgedValid J w a) ∧ ∀ j ∈ J.judgements w, j.judge) ∨
    ((∃ a ∈ A w, ¬JudgedValid J w a) ∧
      validatorsSuperMajority ≤ ((J.judgements w).filter (·.judge)).length)

/-- The accounting is exact. -/
structure NoShowsExact (reports : List Hash) : Prop where
  announcements : ∀ w, (getAnnouncementWithoutJtrue A J w).1 = (A w).filter (¬JudgedValid J w ·)
  report : ∀ w, isReportAudited A J w ↔ ReportAudited A J w
  block : isBlockAudited A J reports ↔ ∀ w ∈ reports, ReportAudited A J w

variable {A J w} {v : UInt32} {js : List Judgement}

/-- **The search**: it ends at a negative judgement of the validator, or at another validator's,
exactly if there is no positive one; an empty search ends where it starts. -/
theorem inspect_spec (hnodup : (js.map (·.validator)).Nodup) (tmp : Judgement)
    (h : js = [] → v ≠ tmp.validator.toUInt32) :
    ((inspect v js tmp).1 = true → v = (inspect v js tmp).2.validator.toUInt32) ∧
      ((inspect v js tmp).1 = true ∨ v ≠ (inspect v js tmp).2.validator.toUInt32 ↔
        ¬∃ j ∈ js, j.judge ∧ j.validator.toUInt32 = v) := by
  induction js generalizing tmp with
  | nil => exact ⟨nofun, iff_of_true (.inr (h rfl)) nofun⟩
  | cons j js ih =>
    rw [map_cons, nodup_cons] at hnodup
    rw [exists_mem_cons_iff]
    by_cases hv : v = j.validator.toUInt32
    · have hrest : ¬∃ j' ∈ js, j'.judge ∧ j'.validator.toUInt32 = v := by
        rintro ⟨j', hj', -, hv'⟩
        refine hnodup.1 (mem_map.mpr ⟨j', hj', ?_⟩)
        exact UInt16.toUInt32_inj.mp (hv'.trans hv)
      rw [inspect, if_pos hv, or_iff_left hrest]
      refine ⟨fun _ => hv, ?_⟩
      simp [hv]
    · rw [inspect, if_neg hv]
      have hj : ¬(j.judge ∧ j.validator.toUInt32 = v) := fun hj => hv hj.2.symm
      simpa only [hj, false_or] using ih hnodup.2 j fun _ => hv

/-- An announcement is counted once, if its validator has not judged the report valid. -/
theorem withoutJtrue_eq {a : Announcement} (h : J.judgements w = [] → a.validatorIndex ≠ 0) :
    withoutJtrue (J.judgements w) a = if JudgedValid J w a then [] else [a] := by
  obtain ⟨hone, hcount⟩ := inspect_spec (J.nodup w) ⟨false, 0, 0⟩ h
  dsimp only [withoutJtrue]
  generalize inspect a.validatorIndex (J.judgements w) ⟨false, 0, 0⟩ = found at hone hcount ⊢
  by_cases hvalid : JudgedValid J w a
  · have hnot := hcount.not.mpr (not_not.mpr hvalid)
    rw [not_or] at hnot
    rw [if_neg hnot.1, if_neg hnot.2, if_pos hvalid]
    rfl
  · rw [if_neg hvalid]
    by_cases hneg : found.1 = true
    · rw [if_pos hneg, if_neg (not_not.mpr (hone hneg))]
      rfl
    · rw [if_neg hneg, if_pos ((hcount.mpr hvalid).resolve_left hneg)]
      rfl

/-- Without judgements about a report, the announcements of validator 0 are left out. -/
theorem withoutJtrue_nil {a : Announcement} (h : a.validatorIndex = 0) :
    withoutJtrue [] a = [] := by
  rw [withoutJtrue, inspect, h]
  rfl

theorem mem_of_mem_withoutJtrue {a b : Announcement} (h : b ∈ withoutJtrue js a) : b = a := by
  rcases mem_append.mp h with h | h
  all_goals
    split_ifs at h
    · exact mem_singleton.mp h
    · cases h

/-- **When the accounting is exact**: validator 0 has not announced a report without judgements. -/
theorem noShowsExact_iff (reports : List Hash) : NoShowsExact A J reports ↔
    ∀ w, J.judgements w = [] → ∀ a ∈ A w, a.validatorIndex ≠ 0 := by
  constructor
  · intro h w hnil a ha hzero
    have hmem : a ∈ (A w).filter (¬JudgedValid J w ·) := by
      refine mem_filter.mpr ⟨ha, decide_eq_true ?_⟩
      rintro ⟨j, hj, -⟩
      rw [hnil] at hj
      cases hj
    rw [← h.announcements w] at hmem
    obtain ⟨b, hb, hab⟩ := mem_flatMap.mp hmem
    obtain rfl := mem_of_mem_withoutJtrue hab
    rw [hnil, withoutJtrue_nil hzero] at hab
    cases hab
  · intro h
    have hlist : ∀ w, (A w).flatMap (withoutJtrue (J.judgements w)) =
        (A w).filter (¬JudgedValid J w ·) := by
      intro w
      rw [flatMap_congr fun a ha => withoutJtrue_eq fun hnil => h w hnil a ha]
      induction A w with
      | nil => rfl
      | cons a as ih => by_cases hvalid : JudgedValid J w a <;> simp [hvalid, ih]
    have hreport : ∀ w, isReportAudited A J w ↔ ReportAudited A J w := by
      intro w
      unfold isReportAudited ReportAudited getAnnouncementWithoutJtrue getTrueCount
      rw [hlist, countP_eq_length_filter]
      have hzero : ((A w).filter (¬JudgedValid J w ·)).length = 0 ↔
          ∀ a ∈ A w, JudgedValid J w a := by
        simp [filter_eq_nil_iff]
      split_ifs with hnone
      · have hall := hzero.mp hnone
        rw [all_eq_true]
        constructor
        · exact fun hjudged => .inl ⟨hall, hjudged⟩
        · rintro (hjudged | ⟨⟨a, ha, hnot⟩, -⟩)
          · exact hjudged.2
          · exact absurd (hall a ha) hnot
      · have hsome := hzero.not.mp hnone
        rw [decide_eq_true_iff]
        constructor
        · intro hcount
          push Not at hsome
          exact .inr ⟨hsome, hcount⟩
        · rintro (hall | hcount)
          · exact absurd hall.1 hsome
          · exact hcount.2
    exact ⟨hlist, hreport, by simp [isBlockAudited, hreport]⟩

/-- A bucket without judgements. -/
def noJudgements : JudgeBucket := ⟨fun _ => [], fun _ => false, fun _ => nodup_nil⟩

/-- **A no-show of validator 0 is missed**: it has announced report 7 and nobody has judged it, but
the block counts as audited. -/
theorem silentZero_audited :
    let A : Hash → List Announcement := fun _ => [⟨0, [(0, 7)], 0⟩]
    getAnnouncementWithoutJtrue A noJudgements 7 = ([], 0) ∧
      isBlockAudited A noJudgements [7] = true ∧ ¬NoShowsExact A noJudgements [7] := by
  intro A
  have haudited : isBlockAudited A noJudgements [7] = true := by decide
  refine ⟨rfl, haudited, fun h => ?_⟩
  rcases h.block.mp haudited 7 (.head _) with ⟨hall, -⟩ | ⟨-, hcount⟩
  · obtain ⟨j, hj, -⟩ := hall _ (.head _)
    cases hj
  · exact absurd hcount (by decide)

end JamDuna.Audit
