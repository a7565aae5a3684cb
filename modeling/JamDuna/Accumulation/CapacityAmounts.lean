/-
# The amounts that WRITE and SOLICIT compare with

`ComputeThreshold` and `ComputeThresholdDelta` of `types/serviceaccount.go` in exact
integers, below `2 ^ 31` items and `2 ^ 63` octets, where no word wraps.

WRITE takes the threshold after the change when it adds an entry or lengthens a value,
and the threshold before the change otherwise. SOLICIT always takes the threshold for a
new request, also for one that was available and forgotten, where only timeslots change.
-/

import JamDuna.Accumulation.CapacityCalls

namespace JamDuna.Accumulation

open JamDuna.Types JamDuna.Basis UInt64 ServiceAccount

variable (a : ServiceAccount)

theorem threshold_mono {i i' o o' : ℕ} (hi : i ≤ i') (ho : o ≤ o') (gratis : ℕ) :
    threshold i o gratis ≤ threshold i' o' gratis := by
  unfold threshold
  omega

/-- The last step of both computations, on words that do not wrap. -/
theorem toNat_threshold {i o : UInt64} (h : FitsThreshold i.toNat o.toNat) (gratis : UInt64) :
    (if 100 + 10 * i + 1 * o ≤ gratis then 0 else 100 + 10 * i + 1 * o - gratis).toNat =
      threshold i.toNat o.toNat gratis.toNat := by
  obtain ⟨hi, ho⟩ := h
  have hfoot : (100 + 10 * i + 1 * o).toNat = 100 + 10 * i.toNat + o.toNat := by
    rw [UInt64.toNat_add, UInt64.toNat_add, UInt64.toNat_mul, UInt64.toNat_mul]
    have h100 : (100 : UInt64).toNat = 100 := rfl
    have h10 : (10 : UInt64).toNat = 10 := rfl
    have h1 : (1 : UInt64).toNat = 1 := rfl
    rw [h100, h10, h1]
    omega
  unfold threshold
  split_ifs with hle
  · have hzero : (0 : UInt64).toNat = 0 := rfl
    rw [le_iff_toNat_le, hfoot] at hle
    rw [hzero]
    omega
  · rw [le_iff_toNat_le, hfoot] at hle
    rw [UInt64.toNat_sub_of_le _ _ (UInt64.le_iff_toNat_le.mpr (by rw [hfoot]; omega)), hfoot]

theorem toNat_computeThreshold (h : FitsThreshold a.numStorageItems.toNat a.storageSize.toNat) :
    a.computeThreshold.toNat =
      threshold a.numStorageItems.toNat a.storageSize.toNat a.gratisOffset.toNat := by
  have hitems := toNat_signExtend_of_lt h.1
  have hfits : FitsThreshold a.numStorageItems.toInt32.toInt64.toUInt64.toNat
      a.storageSize.toNat := by
    rw [hitems]
    exact h
  have hthreshold := toNat_threshold hfits a.gratisOffset
  rw [hitems] at hthreshold
  exact hthreshold

theorem toNat_computeThresholdDelta {i : UInt32} {o : UInt64}
    (h : FitsThreshold (a.numStorageItems.toNat + i.toNat) (a.storageSize.toNat + o.toNat)) :
    (a.computeThresholdDelta i.toInt32 o.toInt64).toNat =
      threshold (a.numStorageItems.toNat + i.toNat) (a.storageSize.toNat + o.toNat)
        a.gratisOffset.toNat := by
  obtain ⟨hi, ho⟩ := h
  have hmax : maxUint64.toNat = 2 ^ 64 - 1 := rfl
  have hitems : (a.numStorageItems + i).toNat = a.numStorageItems.toNat + i.toNat := by
    rw [UInt32.toNat_add]
    omega
  have hoctets : (a.storageSize + o).toNat = a.storageSize.toNat + o.toNat := by
    rw [UInt64.toNat_add]
    omega
  have hsum : ¬ maxUint64 - o < a.storageSize := by
    rw [UInt64.lt_iff_toNat_lt, UInt64.toNat_sub_of_le _ _
      (le_iff_toNat_le.mpr (by rw [hmax]; omega)), hmax]
    omega
  have hmul : ¬ ((0 : UInt64) < 1 ∧ maxUint64 / 1 < a.storageSize + o) := by
    have hdiv : maxUint64 / 1 = maxUint64 := rfl
    rw [hdiv, lt_iff_toNat_lt (a := maxUint64), hmax, hoctets]
    omega
  have hext : (a.numStorageItems.toInt32 + i.toInt32).toInt64.toUInt64.toNat =
      a.numStorageItems.toNat + i.toNat := by
    rw [← UInt32.toInt32_add, toNat_signExtend_of_lt (by omega), hitems]
  have hthreshold := toNat_threshold (i := (a.numStorageItems.toInt32 + i.toInt32).toInt64.toUInt64)
    (o := a.storageSize + o) (by rw [hext, hoctets]; exact ⟨hi, ho⟩) a.gratisOffset
  rw [hext, hoctets] at hthreshold
  rw [← hthreshold]
  unfold computeThresholdDelta
  rw [toUInt64_toInt64, if_neg hsum]
  rw [if_neg hmul]

variable {a} {env : StorageEnv}

/-- The contents after a write. -/
theorem contents_posterior_write (h : FootprintExact env a) (args : WriteArgs) :
    (a.posterior env (.write args)).items env +
          entryWeight (fun _ _ => 1) args.muK (a.readStorage env args.muK) =
        a.items env + entryWeight (fun _ _ => 1) args.muK args.entry ∧
      (a.posterior env (.write args)).octets env +
          entryWeight storageOctets args.muK (a.readStorage env args.muK) =
        a.octets env + entryWeight storageOctets args.muK args.entry := by
  exact contents_of_storage h.storage_finite (readStorage_writeEntry env a args) rfl

theorem WriteArgs.entry_of_ne_nil {args : WriteArgs} (hv : args.v ≠ []) :
    args.entry = some args.v :=
  if_neg fun hvz => hv (WriteArgs.v_eq_nil hvz)

section

variable (h : FootprintExact env a)
include h

/-- `ComputeThreshold` on exact counters. -/
theorem FootprintExact.toNat_computeThreshold (hfits : FitsThreshold (a.items env) (a.octets env)) :
    a.computeThreshold.toNat = a.exactThreshold env := by
  rw [Accumulation.toNat_computeThreshold a (by rw [h.items_eq, h.octets_eq]; exact hfits),
    h.items_eq, h.octets_eq]
  rfl

/-- `ComputeThresholdDelta` on exact counters, for a change by the two words. -/
theorem FootprintExact.toNat_computeThresholdDelta {b : ServiceAccount} {i : UInt32} {o : UInt64}
    (hfits : FitsThreshold (b.items env) (b.octets env)) (hi : b.items env = a.items env + i.toNat)
    (ho : b.octets env = a.octets env + o.toNat) (hgratis : b.gratisOffset = a.gratisOffset) :
    (a.computeThresholdDelta i.toInt32 o.toInt64).toNat = b.exactThreshold env := by
  rw [hi, ho, ← h.items_eq, ← h.octets_eq] at hfits
  rw [Accumulation.toNat_computeThresholdDelta a hfits, h.items_eq, h.octets_eq, ← hi, ← ho,
    exactThreshold, hgratis]

variable {args : WriteArgs} {hash : Hash} {z : UInt64}

section

variable (hreg : CapacityCall.Regular env a (.write args))
include hreg

/-- A new entry is compared with the threshold after it. -/
theorem compared_write_new (hold : a.readStorage env args.muK = none) (hv : args.v ≠ []) :
    a.compared env (.write args) = (a.posterior env (.write args)).exactThreshold env := by
  obtain ⟨hitems, hoctets⟩ := contents_posterior_write h args
  rw [hold, WriteArgs.entry_of_ne_nil hv] at hitems hoctets
  simp only [entryWeight_none, entryWeight_some, storageOctets] at hitems hoctets
  have hK := args.length_muK
  have hV := args.length_v_lt
  have hpos : 0 < ofNat args.v.length := by
    rw [lt_iff_toNat_lt, args.toNat_valLen]
    exact List.length_pos_iff.mpr hv
  have hd : a.writeDelta env args = ⟨1, (accountStorageConst + ofNat args.v.length +
      ofNat args.muK.length).toInt64, maxUint64⟩ := by
    unfold ServiceAccount.writeDelta Accumulation.writeDelta
    rw [hold]
    exact if_pos hpos
  have hsum := toNat_storageWord (m := args.v.length) (n := args.muK.length) (by omega)
  have hone : (1 : UInt32).toNat = 1 := rfl
  unfold compared writeThreshold
  dsimp only
  rw [hd]
  rw [if_pos (.inl (show (0 : Int32) < 1 by decide))]
  exact h.toNat_computeThresholdDelta (i := 1) hreg.2 (by rw [hone]; omega) (by rw [hsum]; omega)
    rfl

/-- A write for which no byte was read is compared with the threshold before it. -/
theorem compared_write_nil
    (hv : args.v = []) : a.compared env (.write args) = a.exactThreshold env := by
  have hfits := hreg.1.2
  have hle := entryWeight_le_mapWeight storageOctets h.storage_finite args.muK
  have hshrinks : ¬ (0 < (a.writeDelta env args).deltaItems ∨
      0 < (a.writeDelta env args).deltaSize) := by
    unfold ServiceAccount.writeDelta Accumulation.writeDelta
    rw [hv]
    cases hold : a.readStorage env args.muK with
    | none => exact (show ¬ ((0 : Int32) < 0 ∨ (0 : Int64) < 0) by decide)
    | some old =>
      -- the change is negative, and the octets stay below the sign bit
      rw [hold, entryWeight_some, storageOctets] at hle
      unfold octets at hfits
      have hsum := toNat_storageWord (m := old.length) (n := args.muK.length) (by omega)
      have hneg := toNat_neg_of_pos (u := accountStorageConst + ofNat old.length +
        ofNat args.muK.length) (by omega)
      have hsize : ¬ 0 < (-(accountStorageConst + ofNat old.length +
          ofNat args.muK.length)).toInt64 := by
        rw [zero_lt_toInt64_iff, hneg, hsum]
        omega
      rw [toInt64_neg] at hsize
      rintro (hitems | hoctets)
      · exact absurd hitems (show ¬ (0 : Int32) < -1 by decide)
      · exact hsize hoctets
  unfold compared writeThreshold
  dsimp only
  rw [if_neg hshrinks]
  exact h.toNat_computeThreshold hreg.1

/-- A value in the place of another is compared with the threshold after the write when
it is longer, and with the threshold before it otherwise. -/
theorem compared_write_over {old : Bytes} (hold : a.readStorage env args.muK = some old)
    (hv : args.v ≠ []) :
    a.compared env (.write args) =
      if old.length < args.v.length then (a.posterior env (.write args)).exactThreshold env
      else a.exactThreshold env := by
  set grown := ofNat args.v.length - ofNat old.length
  obtain ⟨hitems, hoctets⟩ := contents_posterior_write h args
  have hfits := hreg.1.2
  have hle := entryWeight_le_mapWeight storageOctets h.storage_finite args.muK
  rw [hold, WriteArgs.entry_of_ne_nil hv] at hitems hoctets
  rw [hold] at hle
  simp only [entryWeight_some, storageOctets] at hitems hoctets hle
  have hV := args.length_v_lt
  have hdiff : grown.toNat = (2 ^ 64 - old.length + args.v.length) % 2 ^ 64 := by
    have hprev : (ofNat old.length).toNat = old.length := by
      rw [toNat_ofNat']
      omega
    rw [UInt64.toNat_sub, args.toNat_valLen, hprev]
  have hgrows : 0 < grown.toInt64 ↔ old.length < args.v.length := by
    rw [zero_lt_toInt64_iff, hdiff]
    omega
  have hne : ofNat args.v.length ≠ 0 := by
    intro hzero
    rw [← UInt64.toNat_inj, args.toNat_valLen] at hzero
    exact hv (List.length_eq_zero_iff.mp hzero)
  have hd : a.writeDelta env args = ⟨0, grown.toInt64, ofNat old.length⟩ := by
    unfold ServiceAccount.writeDelta Accumulation.writeDelta
    rw [hold, toInt64_sub]
    exact if_neg hne
  unfold compared writeThreshold
  dsimp only
  rw [hd]
  by_cases hlt : old.length < args.v.length
  · have hzero : (0 : UInt32).toNat = 0 := rfl
    rw [if_pos hlt, if_pos (.inr (hgrows.mpr hlt))]
    exact h.toNat_computeThresholdDelta (i := 0) hreg.2 (by rw [hzero]; omega)
      (by rw [hdiff]; omega) rfl
  · have hnot : ¬ ((0 : Int32) < 0 ∨ 0 < grown.toInt64) := by
      rintro (hzero | hpos)
      · exact absurd hzero (by decide)
      · exact hlt (hgrows.mp hpos)
    rw [if_neg hlt, if_neg hnot]
    exact h.toNat_computeThreshold hreg.1

/-- The code compares a growing write with the threshold after it, and every other write
with the threshold before it. -/
theorem compared_write :
    (args.Grows env a → a.compared env (.write args) =
        (a.posterior env (.write args)).exactThreshold env) ∧
      (¬ args.Grows env a → a.compared env (.write args) = a.exactThreshold env) := by
  unfold WriteArgs.Grows
  by_cases hv : args.v = []
  · have hnil := compared_write_nil h hreg hv
    cases hold : a.readStorage env args.muK with
    | none => exact ⟨fun hne => absurd hv hne, fun _ => hnil⟩
    | some old => exact ⟨fun hlt => absurd hlt (by rw [hv]; simp), fun _ => hnil⟩
  · cases hold : a.readStorage env args.muK with
    | none => exact ⟨fun _ => compared_write_new h hreg hold hv, fun hnot => absurd hv hnot⟩
    | some old =>
      have hover := compared_write_over h hreg hold hv
      exact ⟨fun hlt => hover.trans (if_pos hlt), fun hlt => hover.trans (if_neg hlt)⟩

end

/-- The code compares every SOLICIT with the threshold for a new request. -/
theorem compared_solicit {timeslot : UInt32}
    (hreg : CapacityCall.Regular env a (.solicit timeslot hash z)) :
    a.compared env (.solicit timeslot hash z) =
      threshold (a.items env + 2) (a.octets env + (81 + z.toUInt32.toNat))
        a.gratisOffset.toNat := by
  obtain ⟨-, hfits⟩ := hreg
  have hz := z.toUInt32.toNat_lt
  have hword : (accountLookupConst + z.toUInt32.toUInt64).toNat = 81 + z.toUInt32.toNat :=
    toNat_lookupWord (z := z.toUInt32.toUInt64) hz
  have htwo : (2 : UInt32).toNat = 2 := rfl
  have hval := toNat_computeThresholdDelta a (i := 2)
    (o := accountLookupConst + z.toUInt32.toUInt64)
    (by rw [h.items_eq, h.octets_eq, hword, htwo]; exact hfits)
  rw [h.items_eq, h.octets_eq, hword, htwo] at hval
  have hmax : maxUint64.toNat = 2 ^ 64 - 1 := rfl
  have hne : a.computeThresholdDelta 2 (accountLookupConst + z.toUInt32.toUInt64).toInt64 ≠
      maxUint64 := by
    intro heq
    have hval' : maxUint64.toNat = _ := heq ▸ hval
    obtain ⟨hi, ho⟩ := hfits
    rw [hmax, threshold] at hval'
    omega
  unfold compared
  dsimp only
  rw [if_neg hne]
  exact hval

/-- The contents after SOLICIT. -/
theorem contents_posterior_solicit (timeslot : UInt32) (hone : a.OneLengthAt hash z.toUInt32) :
    (a.posterior env (.solicit timeslot hash z)).items env + entryWeight (fun _ _ => 2)
          (hash, z.toUInt32) (a.lookupTimeslots env.toHostEnv hash z.toUInt32) =
        a.items env + 2 ∧
      (a.posterior env (.solicit timeslot hash z)).octets env + entryWeight requestOctets
          (hash, z.toUInt32) (a.lookupTimeslots env.toHostEnv hash z.toUInt32) =
        a.octets env + (81 + z.toUInt32.toNat) := by
  have hstorage : (a.posterior env (.solicit timeslot hash z)).readStorage env =
      a.readStorage env := by
    funext k
    show ((a.cacheLookup env.toHostEnv hash z.toUInt32).writeLookup hash z.toUInt32 _).readStorage
      env k = _
    rw [readStorage_writeLookup, readStorage_cacheLookup]
  have hrequests := (hone.cacheLookup env).requestMap_writeLookup env
    (some (a.solicited env timeslot hash z.toUInt32))
  rw [requestMap_cacheLookup] at hrequests
  rw [hone.lookupTimeslots_eq env]
  exact contents_of_request h.requests_finite hstorage hrequests

/-- The threshold after SOLICIT: that of one more request, or the same. -/
theorem exactThreshold_posterior_solicit (timeslot : UInt32)
    (hone : a.OneLengthAt hash z.toUInt32) :
    (a.posterior env (.solicit timeslot hash z)).exactThreshold env =
      if a.lookupTimeslots env.toHostEnv hash z.toUInt32 = none then
        threshold (a.items env + 2) (a.octets env + (81 + z.toUInt32.toNat)) a.gratisOffset.toNat
      else a.exactThreshold env := by
  have hgratis : (a.posterior env (.solicit timeslot hash z)).gratisOffset = a.gratisOffset := by
    show (a.cacheLookup env.toHostEnv hash z.toUInt32).gratisOffset = a.gratisOffset
    rw [(sameContents_cacheLookup env a hash z.toUInt32).1]
  obtain ⟨hitems, hoctets⟩ := contents_posterior_solicit h timeslot hone
  unfold exactThreshold
  rw [hgratis]
  cases hl : a.lookupTimeslots env.toHostEnv hash z.toUInt32 with
  | none =>
    rw [hl] at hitems hoctets
    simp only [entryWeight_none, Nat.add_zero] at hitems hoctets
    rw [if_pos rfl, hitems, hoctets]
  | some t =>
    rw [hl] at hitems hoctets
    rw [if_neg (Option.some_ne_none t), Nat.add_right_cancel hitems, Nat.add_right_cancel hoctets]

/-- **Enforcement of a regular call.** -/
theorem enforced_iff_sameSide {call : CapacityCall} (hadm : call.Admissible env a)
    (hreg : call.Regular env a) : call.Enforced env a ↔ call.SameSide env a := by
  rw [enforced_iff hadm]
  cases call with
  | write args =>
    obtain ⟨hgrow, hkeep⟩ := compared_write h hreg
    unfold CapacityCall.SameSide
    by_cases hg : args.Grows env a
    · simp [hgrow hg, hg]
    · simp [hkeep hg, hg]
  | solicit timeslot hash z =>
    rw [compared_solicit h hreg, exactThreshold_posterior_solicit h timeslot hreg.1]
    unfold CapacityCall.SameSide
    by_cases hl : a.lookupTimeslots env.toHostEnv hash z.toUInt32 = none
    · simp [hl]
    · simp [hl]

end

end JamDuna.Accumulation
