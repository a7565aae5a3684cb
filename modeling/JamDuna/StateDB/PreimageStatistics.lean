/-
# Preimages of a block and their statistics

`ApplyStateTransitionPreimages` with `ValidateAddPreimage` and
`ValidateAddPreimageWithUpdatedService` of `statedb/statedb.go`, and
`tallyServiceStatistics` of `statedb/statistics.go`, in the order in which
`ApplyStateTransitionFromBlock` runs them.

The extrinsic is a Go slice, and all three work on one backing array. The
integration drops the preimages that are no longer wanted by filtering that array
in place, and the statistics are tallied from the array afterwards: from the kept
preimages followed by the old ones that were not overwritten
(`tallied_eq`). `preimageStatistics_exact_iff` says when every preimage is still
counted once, for its requester and with its length.

The counters are the 64-bit `uint` of the source. The tally of core statistics,
which reads no preimage, and the writes to the trie are left out.
-/

import JamDuna.Basis.InPlace
import JamDuna.Types.Extrinsics

namespace JamDuna.StateDB

open JamDuna.Types JamDuna.Basis List UInt64

/-- `types.Preimages`: one preimage of the extrinsic. -/
structure Preimages where
  requester : UInt32
  blob : Bytes
  deriving DecidableEq, Repr

/-- `Preimages.BlobLength`. -/
def Preimages.blobLength (l : Preimages) : UInt32 := UInt32.ofNat l.blob.length

/-- `types.ServiceStatistics`. -/
structure ServiceStatistics where
  numPreimages : UInt64 := 0
  numBytesPreimages : UInt64 := 0
  numResults : UInt64 := 0
  refineGasUsed : UInt64 := 0
  numImportedSegments : UInt64 := 0
  numExtrinsics : UInt64 := 0
  numBytesExtrinsics : UInt64 := 0
  numExportedSegments : UInt64 := 0
  accumulateNumWorkReports : UInt64 := 0
  accumulateGasUsed : UInt64 := 0
  deriving DecidableEq, Repr

/-- `accumulateStatistics`. -/
structure AccumulateStatistics where
  gasUsed : UInt64
  numWorkReports : UInt64

/-- `GetPreImageLookup` of the trie: the timeslots of a request, if it is set. -/
abbrev PreimageTrie := UInt32 → Hash → UInt32 → Except String (Option (List UInt32))

/-- The accounts after accumulation, as the integration reads them: by requester and
hash the `Timeslots` of the `Lookup` entry, which may be nil. -/
abbrev UpdatedLookups := UInt32 → Option (Hash → Option (Option (List UInt32)))

section

variable (blake2Hash : Bytes → Hash)

/-- The end of both validations: the anchors are set and not a single timeslot. -/
def checkAnchors (anchors : List UInt32) (ok : Bool) : Except (Stop String) Unit := do
  failIf (!ok) "preimagelookup (h,l) not set"
  failIf (anchors.length == 1) "preimagelookup not empty"

/-- What the validations take from an answer of the trie. -/
def anchorsOf : Except String (Option (List UInt32)) → Except (Stop String) (List UInt32 × Bool)
  | .error _ => .error (.err "preimagelookup (h,l) not set")
  | .ok none => .ok ([], false)
  | .ok (some anchors) => .ok (anchors, true)

/-- `ValidateAddPreimage`. -/
def validateAddPreimage (trie : PreimageTrie) (l : Preimages) : Except (Stop String) Hash := do
  let preimageHash := blake2Hash l.blob
  let found ← anchorsOf (trie l.requester preimageHash l.blobLength)
  checkAnchors found.1 found.2
  return preimageHash

/-- `ValidateAddPreimageWithUpdatedService`. When the account has timeslots for the
hash, the trie is not read; the `ok` of that lookup is a variable of an inner scope,
and the one that is checked stays false. -/
def validateAddPreimageWithUpdatedService (trie : PreimageTrie) (serviceAccounts : UpdatedLookups)
    (l : Preimages) : Except (Stop String) Hash := do
  let preimageHash := blake2Hash l.blob
  let found ← match (serviceAccounts l.requester).bind fun lookup => (lookup preimageHash).join with
    | some timeslots => .ok (timeslots, false)
    | none => anchorsOf (trie l.requester preimageHash l.blobLength)
  checkAnchors found.1 found.2
  return preimageHash

/-- A preimage may follow another one in the extrinsic. -/
def Preimages.follows (curr prev : Preimages) : Bool :=
  decide (prev.requester < curr.requester) ||
    (curr.requester == prev.requester && decide (prev.blob < curr.blob))

/-- The loop over neighbours in `ApplyStateTransitionPreimages`. -/
def checkPreimageOrder : List Preimages → Except (Stop String) Unit
  | prev :: curr :: rest => do
    failIf (!curr.follows prev) "serviceIndices duplicated or not ordered"
    checkPreimageOrder (curr :: rest)
  | _ => .ok ()

/-- What `ApplyStateTransitionPreimages` returns and leaves behind: the two counters
of the author's statistics, and the backing array of its argument with the number of
preimages that were integrated. -/
structure PreimageResult where
  numPreimages : UInt32
  numOctets : UInt32
  array : List Preimages
  integrated : ℕ

/-- The preimage is integrated. -/
def keepsPreimage (trie : PreimageTrie) (serviceAccounts : UpdatedLookups) (l : Preimages) : Bool :=
  (validateAddPreimageWithUpdatedService blake2Hash trie serviceAccounts l).toOption.isSome

/-- `ApplyStateTransitionPreimages`. -/
def applyStateTransitionPreimages (trie : PreimageTrie) (serviceAccounts : UpdatedLookups)
    (preimages : List Preimages) : Except (Stop String) PreimageResult := do
  checkPreimageOrder preimages
  let kept := filterInPlace (keepsPreimage blake2Hash trie serviceAccounts) preimages
  return ⟨preimages.foldl (fun n _ => n + 1) 0,
    preimages.foldl (fun n l => n + l.blobLength) 0, kept.1, kept.2⟩

end

/-- `cs := &stats[s]`, created when absent, and changed by `f`. -/
def tallyAt (stats : UInt32 → Option ServiceStatistics) (s : UInt32)
    (f : ServiceStatistics → ServiceStatistics) : UInt32 → Option ServiceStatistics :=
  Function.update stats s (some (f ((stats s).getD {})))

/-- What a digest adds to the statistics of its service. -/
def ServiceStatistics.addDigest (v : WorkDigest) (cs : ServiceStatistics) : ServiceStatistics :=
  { cs with
    refineGasUsed := cs.refineGasUsed + v.gasUsed
    numImportedSegments := cs.numImportedSegments + v.numImportedSegments
    numExportedSegments := cs.numExportedSegments + v.numExportedSegments
    numExtrinsics := cs.numExtrinsics + v.numExtrinsics
    numBytesExtrinsics := cs.numBytesExtrinsics + v.numBytesExtrinsics
    numResults := cs.numResults + 1 }

/-- What a preimage adds to the statistics of its requester. -/
def ServiceStatistics.addPreimage (p : Preimages) (cs : ServiceStatistics) : ServiceStatistics :=
  { cs with
    numPreimages := cs.numPreimages + 1
    numBytesPreimages := cs.numBytesPreimages + ofNat p.blob.length }

/-- What accumulation adds to the statistics of a service; gas that would overflow is
not added. -/
def ServiceStatistics.addAccumulation (a : AccumulateStatistics) (cs : ServiceStatistics) :
    ServiceStatistics :=
  { cs with
    accumulateNumWorkReports := cs.accumulateNumWorkReports + a.numWorkReports
    accumulateGasUsed :=
      if 0xFFFFFFFFFFFFFFFF - cs.accumulateGasUsed < a.gasUsed then cs.accumulateGasUsed
      else cs.accumulateGasUsed + a.gasUsed }

/-- The loop over the digests of the guarantees. -/
def tallyDigests (guarantees : List Guarantee) : UInt32 → Option ServiceStatistics :=
  (guarantees.flatMap (·.report.results)).foldl
    (fun stats v => tallyAt stats v.serviceID (.addDigest v)) fun _ => none

/-- The loop over the preimages. -/
def tallyPreimages (stats : UInt32 → Option ServiceStatistics) (preimages : List Preimages) :
    UInt32 → Option ServiceStatistics :=
  preimages.foldl (fun stats p => tallyAt stats p.requester (.addPreimage p)) stats

/-- The loop over the map of accumulation statistics, which has each service once. -/
def tallyAccumulation (stats : UInt32 → Option ServiceStatistics)
    (accumulateStats : UInt32 → Option AccumulateStatistics) : UInt32 → Option ServiceStatistics :=
  fun s => match accumulateStats s with
    | none => stats s
    | some a => some (((stats s).getD {}).addAccumulation a)

/-- `tallyServiceStatistics`; records equal to the empty one are not stored. -/
def tallyServiceStatistics (guarantees : List Guarantee) (preimages : List Preimages)
    (accumulateStats : UInt32 → Option AccumulateStatistics) : UInt32 → Option ServiceStatistics :=
  fun s => (tallyAccumulation (tallyPreimages (tallyDigests guarantees) preimages)
    accumulateStats s).filter (· ≠ {})

/-- What the preimage parts of `ApplyStateTransitionFromBlock` read besides the
block: the trie before the block and after accumulation, and what accumulation
left. -/
structure PreimageContext where
  before : PreimageTrie
  after : PreimageTrie
  serviceAccounts : UpdatedLookups
  accumulateStats : UInt32 → Option AccumulateStatistics

/-- The preimage parts of `ApplyStateTransitionFromBlock`: every preimage is wanted
before the block, the integration after accumulation, and the tally of what the
array then holds. -/
def applyPreimages (blake2Hash : Bytes → Hash) (c : PreimageContext) (guarantees : List Guarantee)
    (preimages : List Preimages) : Except (Stop String) (UInt32 → Option ServiceStatistics) := do
  forM preimages fun l => validateAddPreimage blake2Hash c.before l *> .ok ()
  let r ← applyStateTransitionPreimages blake2Hash c.after c.serviceAccounts preimages
  return tallyServiceStatistics guarantees r.array c.accumulateStats

/-- The number of preimages of a list for one service. -/
def preimageCount (s : UInt32) (preimages : List Preimages) : ℕ :=
  preimages.countP (·.requester = s)

/-- The number of their bytes. -/
def preimageOctets (s : UInt32) (preimages : List Preimages) : ℕ :=
  ((preimages.filter (·.requester = s)).map (·.blob.length)).sum

/-- The statistics count each preimage of the list once for its requester and with
its own length, in the 64-bit counters of the source. -/
def PreimagesCounted (stats : UInt32 → Option ServiceStatistics) (preimages : List Preimages) :
    Prop :=
  ∀ s, ((stats s).getD {}).numPreimages = ofNat (preimageCount s preimages) ∧
    ((stats s).getD {}).numBytesPreimages = ofNat (preimageOctets s preimages)

theorem preimageCount_append (s : UInt32) (xs ys : List Preimages) :
    preimageCount s (xs ++ ys) = preimageCount s xs + preimageCount s ys :=
  countP_append

theorem preimageOctets_append (s : UInt32) (xs ys : List Preimages) :
    preimageOctets s (xs ++ ys) = preimageOctets s xs + preimageOctets s ys := by
  simp [preimageOctets, filter_append]

/-- **A tally, seen through one counter**: the counter of a service grows by what its
own elements add. -/
theorem counter_foldl_tallyAt {α : Type} (counter : ServiceStatistics → UInt64) (key : α → UInt32)
    (add : α → ServiceStatistics → ServiceStatistics) (weight : α → ℕ)
    (hadd : ∀ a cs, counter (add a cs) = counter cs + ofNat (weight a)) (xs : List α)
    (stats : UInt32 → Option ServiceStatistics) (s : UInt32) :
    counter ((xs.foldl (fun stats a => tallyAt stats (key a) (add a)) stats s).getD {}) =
      counter ((stats s).getD {}) + ofNat ((xs.filter (key · = s)).map weight).sum := by
  induction xs generalizing stats with
  | nil => simp
  | cons a xs ih =>
    rw [foldl_cons, ih]
    by_cases hs : key a = s
    · subst hs
      simp only [tallyAt, Function.update_self, Option.getD_some, hadd, decide_true,
        filter_cons_of_pos, map_cons, sum_cons, ofNat_add]
      ac_rfl
    · have hother : tallyAt stats (key a) (add a) s = stats s :=
        Function.update_of_ne (Ne.symm hs) _ _
      rw [hother, filter_cons_of_neg (by simpa using hs)]

/-- Digests do not touch the counters of preimages. -/
theorem counters_tallyDigests (guarantees : List Guarantee) (s : UInt32) :
    ((tallyDigests guarantees s).getD {}).numPreimages = 0 ∧
      ((tallyDigests guarantees s).getD {}).numBytesPreimages = 0 := by
  have hcounter := fun counter hadd => counter_foldl_tallyAt counter WorkDigest.serviceID .addDigest
    (fun _ => 0) hadd (guarantees.flatMap (·.report.results)) (fun _ => none) s
  simp only [sum_map_zero] at hcounter
  constructor
  · exact hcounter (·.numPreimages) fun _ _ => (UInt64.add_zero _).symm
  · exact hcounter (·.numBytesPreimages) fun _ _ => (UInt64.add_zero _).symm

section

variable (guarantees : List Guarantee) (preimages : List Preimages)
  (accumulateStats : UInt32 → Option AccumulateStatistics)
include guarantees preimages accumulateStats

/-- The last loop and the omission of empty records do not touch them either. -/
theorem counters_tallyServiceStatistics (s : UInt32) :
    let stats := tallyServiceStatistics guarantees preimages accumulateStats
    let tallied := tallyPreimages (tallyDigests guarantees) preimages
    ((stats s).getD {}).numPreimages = ((tallied s).getD {}).numPreimages ∧
      ((stats s).getD {}).numBytesPreimages = ((tallied s).getD {}).numBytesPreimages := by
  have hfilter : ∀ v : Option ServiceStatistics, (v.filter (· ≠ {})).getD {} = v.getD {} := by
    rintro (_ | v)
    · rfl
    · by_cases hv : v = {} <;> simp [Option.filter, hv]
  simp only [tallyServiceStatistics, hfilter, tallyAccumulation]
  cases accumulateStats s with
  | none | some a => exact ⟨rfl, rfl⟩

/-- **The tally counts the preimages it is given.** -/
theorem tallyServiceStatistics_counted :
    PreimagesCounted (tallyServiceStatistics guarantees preimages accumulateStats) preimages := by
  intro s
  obtain ⟨hcount, hbytes⟩ := counters_tallyServiceStatistics guarantees preimages accumulateStats s
  obtain ⟨hcount₀, hbytes₀⟩ := counters_tallyDigests guarantees s
  constructor
  · rw [hcount, tallyPreimages, counter_foldl_tallyAt (·.numPreimages) Preimages.requester
      .addPreimage (fun _ => 1) (fun _ _ => rfl), hcount₀, UInt64.zero_add, preimageCount,
      countP_eq_length_filter]
    simp
  · rw [hbytes, tallyPreimages, counter_foldl_tallyAt (·.numBytesPreimages) Preimages.requester
      .addPreimage (·.blob.length) (fun _ _ => rfl), hbytes₀, UInt64.zero_add]
    rfl

end

variable {blake2Hash : Bytes → Hash} {c : PreimageContext} {guarantees : List Guarantee}
  {preimages : List Preimages} {stats : UInt32 → Option ServiceStatistics}

/-- The preimages of a block that are integrated. -/
def integrated (blake2Hash : Bytes → Hash) (c : PreimageContext) (preimages : List Preimages) :
    List Preimages :=
  preimages.filter (keepsPreimage blake2Hash c.after c.serviceAccounts)

/-- **What is tallied**: the integrated preimages, followed by those of the extrinsic
behind them. -/
theorem tallied_eq (h : applyPreimages blake2Hash c guarantees preimages = .ok stats) :
    stats = tallyServiceStatistics guarantees (integrated blake2Hash c preimages ++
        preimages.drop (integrated blake2Hash c preimages).length) c.accumulateStats := by
  obtain ⟨-, h⟩ := check_bind_eq_ok.mp h
  obtain ⟨r, hr, h⟩ := bind_eq_ok.mp h
  obtain ⟨-, hr⟩ := check_bind_eq_ok.mp hr
  rw [← Except.ok.inj h, ← Except.ok.inj hr, filterInPlace_eq]
  rfl

/-- **When the preimage statistics of an accepted block are exact**: when for every
service the integrated preimages are as many, with as many bytes, as the same number
of preimages at the front of the extrinsic, whose place they have taken. -/
theorem preimageStatistics_exact_iff
    (h : applyPreimages blake2Hash c guarantees preimages = .ok stats) :
    PreimagesCounted stats preimages ↔
      ∀ s, UInt64.ofNat (preimageCount s (integrated blake2Hash c preimages)) =
          UInt64.ofNat (preimageCount s
            (preimages.take (integrated blake2Hash c preimages).length)) ∧
        UInt64.ofNat (preimageOctets s (integrated blake2Hash c preimages)) =
          UInt64.ofNat (preimageOctets s
            (preimages.take (integrated blake2Hash c preimages).length)) := by
  set kept := integrated blake2Hash c preimages with hkept
  have htally := tallyServiceStatistics_counted guarantees
    (kept ++ preimages.drop kept.length) c.accumulateStats
  rw [← tallied_eq h] at htally
  refine forall_congr' fun s => ?_
  obtain ⟨hcount, hbytes⟩ := htally s
  -- both sides share the preimages behind the integrated ones
  have hsplit := take_append_drop kept.length preimages
  have hcount' := preimageCount_append s (preimages.take kept.length) (preimages.drop kept.length)
  have hbytes' := preimageOctets_append s (preimages.take kept.length) (preimages.drop kept.length)
  rw [hsplit] at hcount' hbytes'
  rw [hcount, hbytes, hcount', hbytes', preimageCount_append, preimageOctets_append,
    ofNat_add, ofNat_add, ofNat_add, ofNat_add,
    UInt64.add_left_inj, UInt64.add_left_inj]

/-- Two services provide a preimage each, of one and of two bytes. -/
def twoPreimages : List Preimages := [⟨1, [7]⟩, ⟨2, [8, 9]⟩]

/-- Every request is set and empty, before and after; during accumulation the
services of `touched` have got their preimage. -/
def requestedContext (touched : List UInt32) : PreimageContext where
  before := fun _ _ _ => .ok (some [])
  after := fun _ _ _ => .ok (some [])
  serviceAccounts := fun s =>
    if touched.contains s then some fun _ => some (some [5]) else none
  accumulateStats := fun _ => none

theorem preimageStatistics_exact_untouched :
    ∃ stats, applyPreimages (fun _ => 0) (requestedContext []) [] twoPreimages = .ok stats ∧
      PreimagesCounted stats twoPreimages := by
  obtain ⟨stats, hstats⟩ := Option.isSome_iff_exists.mp (show (applyPreimages (fun _ => 0)
    (requestedContext []) [] twoPreimages).toOption.isSome by decide +kernel)
  have hok := ok_of_toOption hstats
  have hkept : integrated (fun _ => 0) (requestedContext []) twoPreimages = twoPreimages := by
    decide +kernel
  refine ⟨stats, hok, (preimageStatistics_exact_iff hok).mpr fun s => ?_⟩
  rw [hkept, take_length]
  exact ⟨rfl, rfl⟩

/-- When the first preimage has become unneeded, the second one takes its place in
the array: its service is credited with two preimages and the other one with none. -/
theorem preimageStatistics_dropped :
    ∃ stats, applyPreimages (fun _ => 0) (requestedContext [1]) [] twoPreimages = .ok stats ∧
      ((stats 1).getD {}).numPreimages = 0 ∧ ((stats 2).getD {}).numPreimages = 2 ∧
      ((stats 2).getD {}).numBytesPreimages = 4 ∧ ¬ PreimagesCounted stats twoPreimages := by
  obtain ⟨stats, hstats, h1, h2, h3⟩ :
      ∃ stats ∈ (applyPreimages (fun _ => 0) (requestedContext [1]) [] twoPreimages).toOption,
        ((stats 1).getD {}).numPreimages = 0 ∧ ((stats 2).getD {}).numPreimages = 2 ∧
        ((stats 2).getD {}).numBytesPreimages = 4 := by decide +kernel
  refine ⟨stats, ok_of_toOption hstats, h1, h2, h3, fun h => ?_⟩
  have hone : (0 : UInt64) = ofNat (preimageCount 1 twoPreimages) := h1 ▸ (h 1).1
  exact absurd hone (by decide)

end JamDuna.StateDB
