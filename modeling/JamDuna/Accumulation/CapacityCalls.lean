/-
# Calls that the balance may refuse

`hostWrite` and `hostSolicit` of `statedb/pvm_hostfunctions.go` answer `FULL` when the
balance of the account is below an amount that `ComputeThreshold` or
`ComputeThresholdDelta` of `types/serviceaccount.go` gives (`compared`). It is meant to
be the threshold of the account as the call would leave it (`posterior`), and
`Enforced` says that the answer is the one for that threshold.

A call that answers `FULL` changes nothing but the cache of requests, so enforcement is a
matter of the two amounts alone (`enforced_iff`).
-/

import JamDuna.Accumulation.Footprint

namespace JamDuna.Accumulation

open JamDuna.Types JamDuna.Basis ServiceAccount

/-- The threshold of a footprint in exact integers. -/
def threshold (items octets gratis : ℕ) : ℕ := 100 + 10 * items + octets - gratis

/-- A footprint for which no word of the computation wraps. -/
def FitsThreshold (items octets : ℕ) : Prop := items < 2 ^ 31 ∧ octets < 2 ^ 63

/-- A call that may be refused for want of balance. -/
inductive CapacityCall where
  | write (args : WriteArgs)
  | solicit (timeslot : UInt32) (h : Hash) (z : UInt64)

/-- The same call among those that change the footprint. -/
def CapacityCall.footprint : CapacityCall → FootprintCall
  | .write args => .write args
  | .solicit timeslot h z => .solicit timeslot h z

variable (env : StorageEnv) (a : ServiceAccount)

/-- The threshold of what the account holds, in exact integers. -/
noncomputable def ServiceAccount.exactThreshold : ℕ :=
  threshold (a.items env) (a.octets env) a.gratisOffset.toNat

/-- Only the balance is in the way of the call: SOLICIT finds no request, or one that
has been available and forgotten. -/
def CapacityCall.Admissible : CapacityCall → Prop
  | .write _ => True
  | .solicit _ h z =>
    a.lookupTimeslots env.toHostEnv h z.toUInt32 = none ∨
      ∃ x y, a.lookupTimeslots env.toHostEnv h z.toUInt32 = some [x, y]

/-- The timeslots that SOLICIT writes. -/
def ServiceAccount.solicited (timeslot : UInt32) (h : Hash) (z : UInt32) : List UInt32 :=
  match a.lookupTimeslots env.toHostEnv h z with
  | some [x, y] => [x, y, timeslot]
  | _ => []

/-- The account with the contents that the call gives it, whatever its balance is. -/
def ServiceAccount.posterior : CapacityCall → ServiceAccount
  | .write args => a.writeStorage args.muK args.v (args.vz == 0)
  | .solicit timeslot h z =>
    (a.cacheLookup env.toHostEnv h z.toUInt32).writeLookup h z.toUInt32
      (some (a.solicited env timeslot h z.toUInt32))

/-- The call answers `FULL`. -/
def CapacityCall.IsFull : CapacityCall → Prop
  | .write args => (a.hostWrite env args).1 = .full
  | .solicit timeslot h z => (a.hostSolicit env.toHostEnv timeslot h z).1 = .full

/-- The accounts differ at most in the requests that are cached, and have the same
requests. -/
def SameContents (b : ServiceAccount) : Prop :=
  b = { a with lookup := b.lookup } ∧ b.requestMap env = a.requestMap env

/-- `FULL` is the answer exactly when the balance is below the threshold of the account
after the change, and then nothing changes. -/
def CapacityCall.Enforced (call : CapacityCall) : Prop :=
  (call.IsFull env a ↔ a.balance.toNat < (a.posterior env call).exactThreshold env) ∧
    (call.IsFull env a → SameContents env a (a.footprintStep env call.footprint))

/-- The amount that the code compares the balance with; SOLICIT takes the largest word as
too much for every balance. -/
def ServiceAccount.compared : CapacityCall → ℕ
  | .write args => (a.writeThreshold env args).toNat
  | .solicit _ _ z =>
    let t := a.computeThresholdDelta 2 (accountLookupConst + z.toUInt32.toUInt64).toInt64
    if t = maxUint64 then 2 ^ 64 else t.toNat

/-- The write adds an entry or lengthens a value. -/
def WriteArgs.Grows (args : WriteArgs) : Prop :=
  match a.readStorage env args.muK with
  | none => args.v ≠ []
  | some old => old.length < args.v.length

/-- No word wraps, and the overlay has the hash of a request under no other length. -/
def CapacityCall.Regular : CapacityCall → Prop
  | .write args =>
    FitsThreshold (a.items env) (a.octets env) ∧
      FitsThreshold ((a.posterior env (.write args)).items env)
        ((a.posterior env (.write args)).octets env)
  | .solicit _ h z =>
    a.OneLengthAt h z.toUInt32 ∧
      FitsThreshold (a.items env + 2) (a.octets env + (81 + z.toUInt32.toNat))

/-- The balance is on the same side of the amount that is compared and of the threshold
after the change: the write grows the account or the request is new, where the two are
equal, or the balance does not lie between them. -/
def CapacityCall.SameSide : CapacityCall → Prop
  | .write args =>
    args.Grows env a ∨ (a.balance.toNat < a.exactThreshold env ↔
        a.balance.toNat < (a.posterior env (.write args)).exactThreshold env)
  | .solicit _ h z =>
    a.lookupTimeslots env.toHostEnv h z.toUInt32 = none ∨
      (a.balance.toNat < threshold (a.items env + 2) (a.octets env + (81 + z.toUInt32.toNat))
          a.gratisOffset.toNat ↔
        a.balance.toNat < a.exactThreshold env)

/-- A regular and clean call. -/
def CapacityStep (a : ServiceAccount) (call : CapacityCall) (a' : ServiceAccount) : Prop :=
  a' = a.footprintStep env call.footprint ∧ call.Regular env a ∧ call.footprint.Clean a

variable {env a}

theorem sameContents_refl : SameContents env a a := ⟨rfl, rfl⟩

theorem sameContents_cacheLookup (env : StorageEnv) (a : ServiceAccount) (h : Hash) (z : UInt32) :
    SameContents env a (a.cacheLookup env.toHostEnv h z) := by
  refine ⟨?_, requestMap_cacheLookup env a h z⟩
  unfold cacheLookup
  split <;> rfl

/-- Capacity is looked at in the account with the request cached, which has the counters
and the balance of the account. -/
theorem ensureCapacity_cacheLookup (env : StorageEnv) (a : ServiceAccount) (h : Hash) (z : UInt64)
    (timeslot : UInt32) :
    (a.cacheLookup env.toHostEnv h z.toUInt32).ensureCapacity z.toUInt32 = true ↔
      ¬ a.balance.toNat < a.compared env (.solicit timeslot h z) := by
  have hsame : (a.cacheLookup env.toHostEnv h z.toUInt32).ensureCapacity z.toUInt32 =
      a.ensureCapacity z.toUInt32 := by
    rw [(sameContents_cacheLookup env a h z.toUInt32).1]
    rfl
  have hlt := a.balance.toNat_lt
  rw [hsame]
  unfold ensureCapacity compared
  dsimp only
  generalize a.computeThresholdDelta 2 (accountLookupConst + z.toUInt32.toUInt64).toInt64 = t
  by_cases ht : t = maxUint64
  · rw [if_pos ht, ht]
    simp only [beq_self_eq_true, Bool.not_true, Bool.false_and, Bool.false_eq_true, false_iff]
    omega
  · rw [if_neg ht]
    simp [ht, UInt64.le_iff_toNat_le]

/-- **What SOLICIT answers and leaves behind**, when only the balance is in the way. -/
theorem hostSolicit_eq {timeslot : UInt32} {h : Hash} {z : UInt64}
    (hadm : CapacityCall.Admissible env a (.solicit timeslot h z)) :
    (CapacityCall.IsFull env a (.solicit timeslot h z) ↔
        a.balance.toNat < a.compared env (.solicit timeslot h z)) ∧
      (a.balance.toNat < a.compared env (.solicit timeslot h z) →
        (a.hostSolicit env.toHostEnv timeslot h z).2 =
          a.cacheLookup env.toHostEnv h z.toUInt32) := by
  have hcap := ensureCapacity_cacheLookup env a h z timeslot
  unfold CapacityCall.IsFull hostSolicit
  by_cases hb : a.balance.toNat < a.compared env (.solicit timeslot h z)
  · have hno : ¬ (a.cacheLookup env.toHostEnv h z.toUInt32).ensureCapacity z.toUInt32 = true :=
      fun hyes => hcap.mp hyes hb
    rcases hadm with hnone | ⟨x, y, hsome⟩
    · simp [hnone, hno, hb]
    · simp [hsome, hno, hb]
  · have hyes := hcap.mpr hb
    rcases hadm with hnone | ⟨x, y, hsome⟩
    · simp [hnone, hyes, hb]
    · simp [hsome, hyes, hb]

variable {call : CapacityCall}

/-- **`FULL` is the answer exactly when the balance is below the amount compared.** -/
theorem isFull_iff (hadm : call.Admissible env a) :
    call.IsFull env a ↔ a.balance.toNat < a.compared env call := by
  cases call with
  | write args =>
    unfold CapacityCall.IsFull hostWrite compared
    rw [← UInt64.lt_iff_toNat_lt]
    by_cases hb : a.balance < a.writeThreshold env args
    · simp [hb]
    · simp [hb]
  | solicit timeslot h z => exact (hostSolicit_eq hadm).1

/-- `FULL` changes nothing. -/
theorem sameContents_of_isFull (hadm : call.Admissible env a) (hfull : call.IsFull env a) :
    SameContents env a (a.footprintStep env call.footprint) := by
  have hb := (isFull_iff hadm).mp hfull
  cases call with
  | write args =>
    have hlt : a.balance < a.writeThreshold env args := UInt64.lt_iff_toNat_lt.mpr hb
    have hsame : (a.hostWrite env args).2 = a := by
      unfold hostWrite
      rw [if_pos hlt]
    show SameContents env a (a.hostWrite env args).2
    rw [hsame]
    exact sameContents_refl
  | solicit timeslot h z =>
    show SameContents env a (a.hostSolicit env.toHostEnv timeslot h z).2
    rw [(hostSolicit_eq hadm).2 hb]
    exact sameContents_cacheLookup env a h z.toUInt32

/-- Enforcement is a matter of the amount compared. -/
theorem enforced_iff (hadm : call.Admissible env a) :
    call.Enforced env a ↔ (a.balance.toNat < a.compared env call ↔
        a.balance.toNat < (a.posterior env call).exactThreshold env) := by
  unfold CapacityCall.Enforced
  rw [isFull_iff hadm]
  exact and_iff_left fun hb => sameContents_of_isFull hadm ((isFull_iff hadm).mpr hb)

end JamDuna.Accumulation
