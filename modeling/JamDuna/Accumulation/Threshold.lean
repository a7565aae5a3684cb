/-
# The threshold balance

`hostWrite` and `hostSolicit` of `statedb/pvm_hostfunctions.go` compare the balance with
something else than the threshold after the change in two cases. A WRITE that does not
grow the account is compared with the threshold before the write, so an account below
its threshold cannot shrink to come above it. A SOLICIT of a request that has been
available and forgotten is compared as if it made a new request.

Both err towards `FULL`, so along every run of regular and clean calls a balance that is
at least the threshold stays so (`threshold_enforced_iff`).
-/

import JamDuna.Accumulation.CapacityAmounts

namespace JamDuna.Accumulation

open JamDuna.Types JamDuna.Basis ServiceAccount

section

variable {env : StorageEnv} {a b : ServiceAccount}

/-- The threshold is a matter of the contents and the gratis offset. -/
theorem exactThreshold_congr (hstorage : b.readStorage env = a.readStorage env)
    (hrequests : b.requestMap env = a.requestMap env) (hgratis : b.gratisOffset = a.gratisOffset) :
    b.exactThreshold env = a.exactThreshold env := by
  unfold exactThreshold items octets
  rw [hstorage, hrequests, hgratis]

theorem SameContents.readStorage_eq (h : SameContents env a b) :
    b.readStorage env = a.readStorage env := by
  rw [h.1]
  rfl

theorem SameContents.balance_eq (h : SameContents env a b) : b.balance = a.balance := by
  rw [h.1]

theorem SameContents.gratisOffset_eq (h : SameContents env a b) :
    b.gratisOffset = a.gratisOffset := by
  rw [h.1]

/-- The call did what it is for: the contents are those after the change, and the balance
was at least the amount compared. -/
structure Served (env : StorageEnv) (a : ServiceAccount) (call : CapacityCall)
    (b : ServiceAccount) : Prop where
  compared_le : a.compared env call ≤ a.balance.toNat
  readStorage_eq : b.readStorage env = (a.posterior env call).readStorage env
  requestMap_eq : b.requestMap env = (a.posterior env call).requestMap env
  gratisOffset_eq : b.gratisOffset = (a.posterior env call).gratisOffset
  balance_eq : b.balance = a.balance

theorem served_write {args : WriteArgs} (hb : ¬ a.balance < a.writeThreshold env args) :
    Served env a (.write args) (a.hostWrite env args).2 := by
  obtain ⟨hstorage, hrequests, -, -⟩ := hostWrite_of_le hb
  have hposterior := readStorage_writeEntry env a args
  have hfields : (a.hostWrite env args).2.gratisOffset = a.gratisOffset ∧
      (a.hostWrite env args).2.balance = a.balance := by
    unfold hostWrite adjustStorageSize
    rw [if_neg hb]
    split_ifs <;> exact ⟨rfl, rfl⟩
  refine ⟨?_, hstorage.trans hposterior.symm, hrequests, hfields.1, hfields.2⟩
  rw [UInt64.lt_iff_toNat_lt] at hb
  exact Nat.le_of_not_lt hb

theorem served_solicit {timeslot : UInt32} {h : Hash} {z : UInt64}
    (hadm : CapacityCall.Admissible env a (.solicit timeslot h z))
    (hb : ¬ a.balance.toNat < a.compared env (.solicit timeslot h z)) :
    Served env a (.solicit timeslot h z) (a.hostSolicit env.toHostEnv timeslot h z).2 := by
  have hyes := (ensureCapacity_cacheLookup env a h z timeslot).mpr hb
  have hbalance := (sameContents_cacheLookup env a h z.toUInt32).balance_eq
  rcases hadm with hnone | ⟨x, y, hsome⟩
  · -- a new request: the counters move after the request is written
    have hresult : (a.hostSolicit env.toHostEnv timeslot h z).2 =
        ((a.posterior env (.solicit timeslot h z)).adjustNumStorageItems 2).adjustStorageSize
          (accountLookupConst + z.toUInt32.toUInt64).toInt64 := by
      simp [hostSolicit, posterior, solicited, hnone, hyes]
    rw [hresult]
    refine ⟨Nat.le_of_not_lt hb, readStorage_adjust env _ _ _, requestMap_adjust env _ _ _, ?_, ?_⟩
    · unfold adjustStorageSize
      split_ifs <;> rfl
    · rw [← hbalance]
      unfold adjustStorageSize
      split_ifs <;> rfl
  · have hresult : (a.hostSolicit env.toHostEnv timeslot h z).2 =
        a.posterior env (.solicit timeslot h z) := by
      simp [hostSolicit, posterior, solicited, hsome, hyes]
    rw [hresult]
    exact ⟨Nat.le_of_not_lt hb, rfl, rfl, rfl, hbalance⟩

/-- **What a call can do**: nothing, or what it is for. -/
theorem footprintStep_cases (env : StorageEnv) (a : ServiceAccount) (call : CapacityCall) :
    SameContents env a (a.footprintStep env call.footprint) ∨
      Served env a call (a.footprintStep env call.footprint) := by
  by_cases hadm : call.Admissible env a
  · by_cases hb : a.balance.toNat < a.compared env call
    · exact .inl (sameContents_of_isFull hadm ((isFull_iff hadm).mpr hb))
    · right
      cases call with
      | write args => exact served_write fun hlt => hb (UInt64.lt_iff_toNat_lt.mp hlt)
      | solicit timeslot h z => exact served_solicit hadm hb
  · left
    cases call with
    | write args => exact absurd trivial hadm
    | solicit timeslot h z =>
      have hhuh : (a.hostSolicit env.toHostEnv timeslot h z).2 =
          a.cacheLookup env.toHostEnv h z.toUInt32 := by
        unfold hostSolicit
        dsimp only
        split
        · next hnone => exact absurd (.inl hnone) hadm
        · next x y hsome => exact absurd (.inr ⟨x, y, hsome⟩) hadm
        · rfl
      show SameContents env a (a.hostSolicit env.toHostEnv timeslot h z).2
      rw [hhuh]
      exact sameContents_cacheLookup env a h z.toUInt32

variable {call : CapacityCall}

/-- The threshold after a clean call is at most the amount compared. -/
theorem exactThreshold_posterior_le (h : FootprintExact env a)
    (hreg : call.Regular env a) (hclean : call.footprint.Clean a) :
    (a.posterior env call).exactThreshold env ≤ a.compared env call := by
  cases call with
  | write args =>
    obtain ⟨hgrow, hkeep⟩ := compared_write h hreg
    by_cases hg : args.Grows env a
    · exact (hgrow hg).ge
    · rw [hkeep hg]
      obtain ⟨hitems, hoctets⟩ := contents_posterior_write h args
      have hshrinks : entryWeight (fun _ _ => 1) args.muK args.entry ≤
            entryWeight (fun _ _ => 1) args.muK (a.readStorage env args.muK) ∧
          entryWeight storageOctets args.muK args.entry ≤
            entryWeight storageOctets args.muK (a.readStorage env args.muK) := by
        unfold WriteArgs.Grows at hg
        rcases hclean with hvz | hv
        · have hentry : args.entry = none := if_pos hvz
          rw [hentry]
          exact ⟨Nat.zero_le _, Nat.zero_le _⟩
        · cases hold : a.readStorage env args.muK with
          | none =>
            rw [hold] at hg
            exact absurd hv hg
          | some old =>
            rw [hold] at hg
            rw [WriteArgs.entry_of_ne_nil hv]
            simp only [entryWeight_some, storageOctets]
            constructor <;> omega
      exact threshold_mono (by omega) (by omega) _
  | solicit timeslot hash z =>
    rw [compared_solicit h hreg, exactThreshold_posterior_solicit h timeslot hreg.1]
    split_ifs
    · exact le_rfl
    · exact threshold_mono (by omega) (by omega) _

/-- The contents after a regular call fit into the counters. -/
theorem fitsCounters_footprintStep (h : FootprintExact env a)
    (hreg : call.Regular env a) : FitsCounters env (a.footprintStep env call.footprint) := by
  have hcongr : ∀ {b c : ServiceAccount}, b.readStorage env = c.readStorage env →
      b.requestMap env = c.requestMap env → FitsCounters env c → FitsCounters env b := by
    intro b c hstorage hrequests hfits
    unfold FitsCounters items octets at hfits ⊢
    rw [hstorage, hrequests]
    exact hfits
  have hbefore : FitsCounters env a := by
    cases call with
    | write args =>
      obtain ⟨⟨hi, ho⟩, -⟩ := hreg
      exact ⟨by omega, by omega⟩
    | solicit timeslot hash z =>
      obtain ⟨-, hi, ho⟩ := hreg
      exact ⟨by omega, by omega⟩
  have hafter : FitsCounters env (a.posterior env call) := by
    cases call with
    | write args =>
      obtain ⟨-, hi, ho⟩ := hreg
      exact ⟨by omega, by omega⟩
    | solicit timeslot hash z =>
      obtain ⟨hone, hi, ho⟩ := hreg
      obtain ⟨hitems, hoctets⟩ := contents_posterior_solicit h timeslot hone
      exact ⟨by omega, by omega⟩
  rcases footprintStep_cases env a call with hsame | hserved
  · exact hcongr hsame.readStorage_eq hsame.2 hbefore
  · exact hcongr hserved.readStorage_eq hserved.requestMap_eq hafter

/-- A step keeps the footprint exact and the balance at the threshold or above. -/
theorem CapacityStep.preserves (hstep : CapacityStep env a call b)
    (h : FootprintExact env a) (hb : a.exactThreshold env ≤ a.balance.toNat) :
    FootprintExact env b ∧ b.exactThreshold env ≤ b.balance.toNat := by
  obtain ⟨rfl, hreg, hclean⟩ := hstep
  refine ⟨?_, ?_⟩
  · have hfits := fitsCounters_footprintStep h hreg
    cases call with
    | write args => exact h.hostWrite hclean hfits
    | solicit timeslot hash z => exact h.hostSolicit timeslot hclean hfits
  · rcases footprintStep_cases env a call with hsame | hserved
    · rw [exactThreshold_congr hsame.readStorage_eq hsame.2 hsame.gratisOffset_eq, hsame.balance_eq]
      exact hb
    · rw [exactThreshold_congr hserved.readStorage_eq hserved.requestMap_eq
        hserved.gratisOffset_eq, hserved.balance_eq]
      exact (exactThreshold_posterior_le h hreg hclean).trans hserved.compared_le

end

/-- **When the threshold balance is enforced.** A WRITE or SOLICIT is answered `FULL`, with
nothing changed, exactly when the balance is below the threshold after the change, if and
only if the balance is on the same side of that threshold and of the amount that the code
compares with. For regular calls that is so when the write grows the account or the
request is new, and otherwise unless the balance lies between the two. Along every run of
regular and clean calls a balance at the threshold or above stays there. -/
theorem threshold_enforced_iff (env : StorageEnv) :
    (∀ (a : ServiceAccount) (call : CapacityCall), FootprintExact env a → call.Admissible env a →
        (call.Enforced env a ↔ (a.balance.toNat < a.compared env call ↔
            a.balance.toNat < (a.posterior env call).exactThreshold env))) ∧
      (∀ (a : ServiceAccount) (call : CapacityCall), FootprintExact env a →
        call.Admissible env a → call.Regular env a → (call.Enforced env a ↔ call.SameSide env a)) ∧
      ∀ (a a' : ServiceAccount) (calls : List CapacityCall), FootprintExact env a →
        a.exactThreshold env ≤ a.balance.toNat → Run (CapacityStep env) a calls a' →
          a'.exactThreshold env ≤ a'.balance.toNat := by
  refine ⟨fun a call _ hadm => enforced_iff hadm,
    fun a call h hadm hreg => enforced_iff_sameSide h hadm hreg, ?_⟩
  intro a a' calls h hb hrun
  have hend := hrun.preserves
    (P := fun b => FootprintExact env b ∧ b.exactThreshold env ≤ b.balance.toNat)
    (fun b call b' hstep hinv => hstep.preserves hinv.1 hinv.2) ⟨h, hb⟩
  exact hend.2

theorem items_bareAccount : bareAccount.items emptyStorage = 0 :=
  footprintExact_bareAccount.items_eq.symm

theorem octets_bareAccount : bareAccount.octets emptyStorage = 0 :=
  footprintExact_bareAccount.octets_eq.symm

theorem threshold_enforced_smallWrite :
    CapacityCall.Enforced emptyStorage bareAccount (.write smallWrite) := by
  have hread : bareAccount.readStorage emptyStorage smallWrite.muK = none := rfl
  obtain ⟨hitems, hoctets⟩ := contents_posterior_write footprintExact_bareAccount smallWrite
  rw [hread, WriteArgs.entry_of_ne_nil (by decide)] at hitems hoctets
  simp only [entryWeight_none, entryWeight_some, storageOctets, items_bareAccount,
    octets_bareAccount] at hitems hoctets
  have hlen : smallWrite.muK.length = 1 ∧ smallWrite.v.length = 1 := ⟨rfl, rfl⟩
  have hreg : CapacityCall.Regular emptyStorage bareAccount (.write smallWrite) := by
    refine ⟨⟨?_, ?_⟩, ?_, ?_⟩
    · rw [items_bareAccount]
      decide
    · rw [octets_bareAccount]
      decide
    · omega
    · omega
  have hgrows : smallWrite.Grows emptyStorage bareAccount := show smallWrite.v ≠ [] by decide
  exact ((threshold_enforced_iff emptyStorage).2.1 bareAccount (.write smallWrite)
    footprintExact_bareAccount trivial hreg).mpr (.inl hgrows)

/-- An account with one entry of storage and less than the threshold of 146. -/
def storedAccount : ServiceAccount :=
  { bareAccount.writeStorage [1] [2] false with
    numStorageItems := 1
    storageSize := 36
    balance := 120 }

/-- The deletion of the entry. -/
def smallDeletion : WriteArgs := ⟨[1], 0, [], smallWrite.length_muK, rfl⟩

/-- An account with one request, which was available and forgotten, and exactly the
threshold of 206. -/
def requestedAccount : ServiceAccount :=
  { bareAccount.writeLookup 1 5 (some [1, 2]) with
    numStorageItems := 2
    storageSize := 86
    balance := 206 }

theorem readStorage_storedAccount : storedAccount.readStorage emptyStorage =
    Function.update (bareAccount.readStorage emptyStorage) [1] (some [2]) :=
  readStorage_writeStorage emptyStorage bareAccount [1] [2] false

theorem requestMap_requestedAccount : requestedAccount.requestMap emptyStorage =
    Function.update (bareAccount.requestMap emptyStorage) (1, 5) (some [1, 2]) := by
  have hone : bareAccount.OneLengthAt 1 5 := fun l hl => nomatch hl
  exact hone.requestMap_writeLookup emptyStorage (some [1, 2])

theorem footprintExact_storedAccount : FootprintExact emptyStorage storedAccount := by
  obtain ⟨hitems, hoctets⟩ := contents_of_storage (b := storedAccount)
    footprintExact_bareAccount.storage_finite readStorage_storedAccount rfl
  rw [readStorage_bareAccount, items_bareAccount] at hitems
  rw [readStorage_bareAccount, octets_bareAccount] at hoctets
  refine ⟨?_, keys_none_finite, hitems.symm, hoctets.symm⟩
  rw [readStorage_storedAccount]
  exact keys_update_finite keys_none_finite _ _

theorem footprintExact_requestedAccount : FootprintExact emptyStorage requestedAccount := by
  obtain ⟨hitems, hoctets⟩ := contents_of_request (b := requestedAccount)
    footprintExact_bareAccount.requests_finite rfl requestMap_requestedAccount
  rw [requestMap_bareAccount, items_bareAccount] at hitems
  rw [requestMap_bareAccount, octets_bareAccount] at hoctets
  refine ⟨keys_none_finite, ?_, hitems.symm, hoctets.symm⟩
  rw [requestMap_requestedAccount]
  exact keys_update_finite keys_none_finite _ _

/-- A deletion that would bring the account above its threshold is refused, and so is a
SOLICIT that changes no footprint, on an account that has its threshold. -/
theorem threshold_not_enforced : (FootprintExact emptyStorage storedAccount ∧
      CapacityCall.Admissible emptyStorage storedAccount (.write smallDeletion) ∧
      ¬ CapacityCall.Enforced emptyStorage storedAccount (.write smallDeletion)) ∧
    FootprintExact emptyStorage requestedAccount ∧
      CapacityCall.Admissible emptyStorage requestedAccount (.solicit 3 1 5) ∧
      ¬ CapacityCall.Enforced emptyStorage requestedAccount (.solicit 3 1 5) := by
  have hadm : CapacityCall.Admissible emptyStorage requestedAccount (.solicit 3 1 5) :=
    .inr ⟨1, 2, by decide⟩
  have hadm' : CapacityCall.Admissible emptyStorage storedAccount (.write smallDeletion) := trivial
  refine ⟨⟨footprintExact_storedAccount, hadm', fun henf => ?_⟩,
    footprintExact_requestedAccount, hadm, fun henf => ?_⟩
  · have hside := (enforced_iff hadm').mp henf
    have hcompared : storedAccount.compared emptyStorage (.write smallDeletion) = 146 := by
      decide +kernel
    obtain ⟨hitems, hoctets⟩ := contents_posterior_write footprintExact_storedAccount smallDeletion
    have hread : storedAccount.readStorage emptyStorage smallDeletion.muK = some [2] := by
      decide +kernel
    have hentry : smallDeletion.entry = none := rfl
    rw [hread, hentry, ← footprintExact_storedAccount.items_eq] at hitems
    rw [hread, hentry, ← footprintExact_storedAccount.octets_eq] at hoctets
    have hitems' := Nat.add_right_cancel (m := 1) (k := 0) hitems
    have hoctets' := Nat.add_right_cancel (m := 36) (k := 0) hoctets
    have hafter : (storedAccount.posterior emptyStorage (.write smallDeletion)).exactThreshold
        emptyStorage = 100 := by
      rw [exactThreshold, hitems', hoctets']
      rfl
    rw [hcompared, hafter] at hside
    exact absurd (hside.mp (by decide)) (by decide)
  · have hside := (enforced_iff hadm).mp henf
    have hcompared : requestedAccount.compared emptyStorage (.solicit 3 1 5) = 312 := by
      decide +kernel
    have hone : requestedAccount.OneLengthAt 1 (5 : UInt64).toUInt32 := by
      intro l hl
      cases hl
      rfl
    have hafter : (requestedAccount.posterior emptyStorage (.solicit 3 1 5)).exactThreshold
        emptyStorage = 206 := by
      rw [exactThreshold_posterior_solicit footprintExact_requestedAccount 3 hone,
        if_neg (by decide), exactThreshold,
        ← footprintExact_requestedAccount.items_eq, ← footprintExact_requestedAccount.octets_eq]
      rfl
    rw [hcompared, hafter] at hside
    exact absurd (hside.mp (by decide)) (by decide)

end JamDuna.Accumulation
