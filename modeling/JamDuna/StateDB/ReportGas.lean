/-
# The gas of accepted reports, in exact arithmetic

`checkGas` of `statedb/guarantees.go` and the loop of `OuterAccumulate`
(`statedb/accumulate.go`) that decides how many reports the gas pays for. Both
add digest gas as `uint64`, so both are compared here with the sums and the loop
over natural numbers.

`checkGas` only sees the sum modulo `2 ^ 64` (`checkGas_eq_ok`). A report passes
with an exact sum above the allocation precisely when that sum reaches `2 ^ 64`,
and then the loop of `OuterAccumulate` runs over wrapped prefix sums as well.
-/

import JamDuna.StateDB.Guarantees

namespace JamDuna.StateDB

open JamDuna.Types JamDuna.Basis List UInt64 Nat

/-- The gas of a list of digests, as an unbounded number. -/
def exactGas (digests : List WorkDigest) : ℕ := (digests.map (·.gas.toNat)).sum

@[simp] theorem exactGas_nil : exactGas [] = 0 := rfl

@[simp] theorem exactGas_cons (d : WorkDigest) (ds : List WorkDigest) :
    exactGas (d :: ds) = d.gas.toNat + exactGas ds := by simp [exactGas]

theorem exactGas_append (ds es : List WorkDigest) :
    exactGas (ds ++ es) = exactGas ds + exactGas es := by simp [exactGas]

theorem exactGas_le_of_prefix {ds es : List WorkDigest} (h : ds <+: es) :
    exactGas ds ≤ exactGas es := by
  obtain ⟨rest, rfl⟩ := h
  rw [exactGas_append]
  exact le_add_right _ _

/-- The `uint64` sum of `checkGas` is the exact sum modulo `2 ^ 64`. -/
theorem toNat_foldl_gas (digests : List WorkDigest) (acc : UInt64) :
    (digests.foldl (fun n result => n + result.gas) acc).toNat =
      (acc.toNat + exactGas digests) % 2 ^ 64 := by
  induction digests generalizing acc with
  | nil =>
    have hacc := acc.toNat_lt
    simp only [foldl_nil, exactGas_nil]
    omega
  | cons d ds ih =>
    rw [foldl_cons, ih, UInt64.toNat_add, exactGas_cons]
    omega

section

variable {ctx : GuaranteeContext} {g : Guarantee}

/-- What a report within its gas limits satisfies: the exact sum is within the
allocation of the report, and no digest is below the minimum of its service. -/
structure GasWithin (ctx : GuaranteeContext) (w : WorkReport) : Prop where
  total : exactGas w.results ≤ accumulationGasAllocation
  minimum : ∀ d ∈ w.results, ∀ account, ctx.getService d.serviceID = .ok (some account) →
    account.gasLimitG ≤ d.gas

/-- **What `checkGas` tests**: the wrapped sum, and the minimum of each service
that is found. -/
theorem checkGas_eq_ok : checkGas ctx g = .ok () ↔
    exactGas g.report.results % 2 ^ 64 ≤ accumulationGasAllocation ∧
      ∀ d ∈ g.report.results, ∀ account, ctx.getService d.serviceID = .ok (some account) →
        account.gasLimitG ≤ d.gas := by
  have hsum : (g.report.results.foldl (fun n result => n + result.gas) (0 : UInt64)).toNat =
      exactGas g.report.results % 2 ^ 64 := by
    rw [toNat_foldl_gas, UInt64.toNat_zero, zero_add]
  have halloc : (ofNat accumulationGasAllocation).toNat = accumulationGasAllocation := by
    decide
  unfold checkGas
  rw [check_bind_eq_ok, failIf_eq_ok, decide_eq_false_iff_not, lt_iff_toNat_lt, hsum, halloc,
    not_lt, forM_eq_ok]
  refine and_congr_right fun _ => forall₂_congr fun d _ => ?_
  split
  · rename_i account haccount
    rw [failIf_eq_ok, decide_eq_false_iff_not, UInt64.not_lt]
    refine ⟨fun h account' h' => ?_, fun h => h account haccount⟩
    obtain rfl : account = account' := by simpa [haccount] using h'
    exact h
  · rename_i hnone
    exact ⟨fun _ account h => absurd h (hnone account), fun _ => rfl⟩

/-- An accepted report is within its limits when its exact sum did not wrap. -/
theorem gasWithin_iff (h : checkGas ctx g = .ok ()) :
    GasWithin ctx g.report ↔ exactGas g.report.results < 2 ^ 64 := by
  obtain ⟨hsum, hmin⟩ := checkGas_eq_ok.mp h
  constructor
  · intro hw
    exact hw.total.trans_lt (by decide)
  · intro hlt
    rw [mod_eq_of_lt hlt] at hsum
    exact ⟨hsum, hmin⟩

end

/-- The inner loop of `OuterAccumulate`: the gas after the digests of a report,
and `done`. -/
def digestLoop (g gasTmp : UInt64) : List WorkDigest → UInt64 × Bool
  | [] => (gasTmp, false)
  | d :: ds => if gasTmp + d.gas ≤ g then digestLoop g (gasTmp + d.gas) ds else (gasTmp, true)

/-- The outer loop, from the report number `i` on; `n` is the number of all
reports. -/
def reportLoop (g : UInt64) (n : ℕ) : UInt64 → ℕ → List WorkReport → ℕ
  | _, i, [] => i
  | gasTmp, i, w :: ws =>
    let (gasTmp, done) := digestLoop g gasTmp w.results
    if n + 1 ≤ i ∨ done then i else reportLoop g n gasTmp (i + 1) ws

/-- `i` of `OuterAccumulate`: how many reports the gas `g` pays for. -/
def numWithinGas (g : UInt64) (workReports : List WorkReport) : ℕ :=
  reportLoop g workReports.length 0 0 workReports

/-- The same count over natural numbers: reports are taken while their digests,
on top of the gas `acc` of the earlier ones, stay within `g`. -/
def exactWithinGas (g acc : ℕ) : List WorkReport → ℕ
  | [] => 0
  | w :: ws =>
    if acc + exactGas w.results ≤ g then exactWithinGas g (acc + exactGas w.results) ws + 1 else 0

/-- No prefix sum of the digest gas of the reports reaches `2 ^ 64`. -/
def NoWrap (workReports : List WorkReport) : Prop :=
  ∀ ds, ds <+: workReports.flatMap (·.results) → exactGas ds < 2 ^ 64

/-- Below `2 ^ 64` the inner loop stops exactly when the digests do not fit, and
otherwise has added them all. -/
theorem digestLoop_spec {g gasTmp : UInt64} (ds : List WorkDigest) (hg : gasTmp ≤ g)
    (h : gasTmp.toNat + exactGas ds < 2 ^ 64) :
    ((digestLoop g gasTmp ds).2 = false ↔ gasTmp.toNat + exactGas ds ≤ g.toNat) ∧
      ((digestLoop g gasTmp ds).2 = false →
        (digestLoop g gasTmp ds).1.toNat = gasTmp.toNat + exactGas ds) := by
  induction ds generalizing gasTmp with
  | nil => simpa [digestLoop] using le_iff_toNat_le.mp hg
  | cons d ds ih =>
    rw [exactGas_cons] at h ⊢
    have hadd : (gasTmp + d.gas).toNat = gasTmp.toNat + d.gas.toNat := by
      rw [UInt64.toNat_add]
      omega
    unfold digestLoop
    split_ifs with hfit
    · obtain ⟨hdone, hgas⟩ := ih hfit (by omega)
      rw [hadd] at hdone hgas
      exact ⟨hdone.trans (by rw [add_assoc]), fun hd => (hgas hd).trans (add_assoc _ _ _)⟩
    · rw [le_iff_toNat_le, hadd] at hfit
      simp only [false_iff, false_implies, and_true]
      omega

variable {ws : List WorkReport}

/-- Below `2 ^ 64` the outer loop counts as the exact one does. -/
theorem reportLoop_eq {g gasTmp : UInt64} {n i : ℕ} (hg : gasTmp ≤ g)
    (hi : i + ws.length ≤ n) (h : gasTmp.toNat + exactGas (ws.flatMap (·.results)) < 2 ^ 64) :
    reportLoop g n gasTmp i ws = i + exactWithinGas g.toNat gasTmp.toNat ws := by
  induction ws generalizing gasTmp i with
  | nil => rfl
  | cons w ws ih =>
    rw [flatMap_cons, exactGas_append] at h
    rw [length_cons] at hi
    obtain ⟨hdone, hgas⟩ := digestLoop_spec w.results hg (by omega)
    unfold reportLoop exactWithinGas
    simp only [show ¬ n + 1 ≤ i by omega, false_or, ← hdone, ← Bool.not_eq_true]
    cases hd : (digestLoop g gasTmp w.results).2 with
    | true => simp
    | false =>
      have hle := hdone.mp hd
      have htmp := hgas hd
      simp only [Bool.false_eq_true, if_false, not_false_eq_true, if_true]
      rw [ih (le_iff_toNat_le.mpr (by omega)) (by omega) (by omega), htmp]
      omega

/-- **Without a wrapped sum `OuterAccumulate` takes the reports that the gas pays
for.** -/
theorem numWithinGas_eq {g : UInt64} {workReports : List WorkReport} (h : NoWrap workReports) :
    numWithinGas g workReports = exactWithinGas g.toNat 0 workReports := by
  have hall := h _ prefix_rfl
  unfold numWithinGas
  rw [reportLoop_eq (le_iff_toNat_le.mpr (zero_le _)) (by omega) (by simpa using hall)]
  simp

/-- The gas of reports that are each within the allocation. -/
theorem exactGas_flatMap_le {bound : ℕ} (h : ∀ w ∈ ws, exactGas w.results ≤ bound) :
    exactGas (ws.flatMap (·.results)) ≤ ws.length * bound := by
  induction ws with
  | nil => simp
  | cons w ws ih =>
    rw [forall_mem_cons] at h
    rw [flatMap_cons, exactGas_append, length_cons, succ_mul, add_comm]
    exact Nat.add_le_add (ih h.2) h.1

theorem noWrap_of_gas_le (hlen : ws.length ≤ totalCores)
    (h : ∀ w ∈ ws, exactGas w.results ≤ accumulationGasAllocation) : NoWrap ws := by
  intro ds hds
  calc exactGas ds ≤ exactGas (ws.flatMap (·.results)) := exactGas_le_of_prefix hds
    _ ≤ ws.length * accumulationGasAllocation := exactGas_flatMap_le h
    _ ≤ totalCores * accumulationGasAllocation := mul_le_mul_right _ hlen
    _ < 2 ^ 64 := by decide

/-- **The gas of accepted reports.** Take reports that `checkGas` accepted, at
most one per core, each in the context of its own block. Each of them is within
its limits in exact arithmetic, no prefix sum of their digests wraps, and
`OuterAccumulate` therefore counts as over the integers whatever gas it is given,
precisely when no report has digests worth `2 ^ 64` or more. -/
theorem accepted_gas_exact_iff (accepted : List (GuaranteeContext × Guarantee))
    (hlen : accepted.length ≤ totalCores) (hok : ∀ p ∈ accepted, checkGas p.1 p.2 = .ok ()) :
    ((∀ p ∈ accepted, GasWithin p.1 p.2.report) ∧ NoWrap (accepted.map (·.2.report)) ∧
        ∀ g, numWithinGas g (accepted.map (·.2.report)) =
          exactWithinGas g.toNat 0 (accepted.map (·.2.report))) ↔
      ∀ p ∈ accepted, exactGas p.2.report.results < 2 ^ 64 := by
  constructor
  · rintro ⟨hwithin, -, -⟩ p hp
    exact (gasWithin_iff (hok p hp)).mp (hwithin p hp)
  · intro hlt
    have hwithin : ∀ p ∈ accepted, GasWithin p.1 p.2.report := fun p hp =>
      (gasWithin_iff (hok p hp)).mpr (hlt p hp)
    have hno : NoWrap (accepted.map (·.2.report)) := by
      refine noWrap_of_gas_le (by rwa [length_map]) fun w hw => ?_
      obtain ⟨p, hp, rfl⟩ := mem_map.mp hw
      exact (hwithin p hp).total
    exact ⟨hwithin, hno, fun g => numWithinGas_eq hno⟩

/-- A digest of service 0 with the given gas. -/
def gasDigest (gas : UInt64) : WorkDigest := ⟨0, 0, 0, gas, ⟨[], 0⟩, 0, 0, 0, 0, 0⟩

/-- A guarantee of a report with two digests. -/
def gasGuarantee (gas gas' : UInt64) : Guarantee :=
  ⟨{ plainReport 1 0 [] with results := [gasDigest gas, gasDigest gas'] }, 1, []⟩

/-- A block in slot 1 where every service exists and asks for a gas of 3. -/
def gasContext : GuaranteeContext := ⟨1, [], fun _ => .ok (some ⟨0, 3⟩), [], []⟩

theorem checkGas_gasGuarantee {gas gas' : UInt64}
    (hsum : (gas.toNat + gas'.toNat) % 2 ^ 64 ≤ accumulationGasAllocation)
    (hgas : 3 ≤ gas) (hgas' : 3 ≤ gas') : checkGas gasContext (gasGuarantee gas gas') = .ok () := by
  refine checkGas_eq_ok.mpr ⟨hsum, fun d hd account haccount => ?_⟩
  obtain rfl : (⟨0, 3⟩ : ServiceAccount) = account := by simpa [gasContext] using haccount
  rcases mem_pair.mp hd with rfl | rfl
  · exact hgas
  · exact hgas'

/-- Two reports of 7 and 9 million gas are within their limits, and so is their
sum. -/
theorem accepted_gas_exact_two : GasWithin gasContext (gasGuarantee 4000000 3000000).report ∧
      NoWrap [(gasGuarantee 4000000 3000000).report, (gasGuarantee 5 8999995).report] := by
  have hok : ∀ p ∈ [(gasContext, gasGuarantee 4000000 3000000),
      (gasContext, gasGuarantee 5 8999995)], checkGas p.1 p.2 = .ok () := by
    intro p hp
    rcases mem_pair.mp hp with rfl | rfl
    all_goals exact checkGas_gasGuarantee (by decide) (by decide) (by decide)
  have h := (accepted_gas_exact_iff _ (by decide) hok).mpr (by decide +kernel)
  exact ⟨h.1 (gasContext, gasGuarantee 4000000 3000000) (by simp), h.2.1⟩

/-- Two digests of `2 ^ 63` gas each sum to zero: the report is accepted, and its
gas is more than a trillion times the allocation. -/
theorem wrapped_gas_accepted :
    checkGas gasContext (gasGuarantee 0x8000000000000000 0x8000000000000000) = .ok () ∧
      ¬ GasWithin gasContext (gasGuarantee 0x8000000000000000 0x8000000000000000).report ∧
      ¬ NoWrap [(gasGuarantee 0x8000000000000000 0x8000000000000000).report] := by
  refine ⟨checkGas_gasGuarantee (by decide +kernel) (by decide +kernel) (by decide +kernel),
    fun h => absurd h.total (by decide +kernel), fun h => ?_⟩
  exact absurd (h _ prefix_rfl) (by decide +kernel)

end JamDuna.StateDB
