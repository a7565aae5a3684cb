/-
# The indices of new services

The searches of `Accumulation.NewService` go through all of `[2 ^ 16, 2 ^ 32 - 2 ^ 8)`, so
they end when an index there is free, and every index that is proposed lies there
(`publicIndex_of_run`).

An index that NEW takes names no account of the partial state. It may name one of the state
trie: when the index that NEW takes is not the one that was compared with the trie, or when
the registrar names an account that was not read before in this block. When all calls of NEW
in a context create their account at an index without an account is `createsFresh_iff`.
-/

import JamDuna.Accumulation.NewService

namespace JamDuna.Accumulation

open JamDuna.Basis Option UInt64 Nat IndexedContext

theorem toNat_minPubServiceIndex : minPubServiceIndex.toNat = 2 ^ 16 := rfl

theorem toNat_serviceIndexRangeSize : serviceIndexRangeSize.toNat = 4294901504 := rfl

/-- An offset into the range does not wrap. -/
theorem toNat_offset (n : UInt32) :
    (minPubServiceIndex + n % serviceIndexRangeSize).toNat = 2 ^ 16 + n.toNat % 4294901504 := by
  rw [UInt32.toNat_add, UInt32.toNat_mod, toNat_minPubServiceIndex, toNat_serviceIndexRangeSize,
    mod_eq_of_lt (by omega)]

theorem publicIndex_offset (n : UInt32) :
    PublicIndex (minPubServiceIndex + n % serviceIndexRangeSize) := by
  rw [PublicIndex, toNat_offset]
  omega

/-- Adding and subtracting inside the range does not wrap. -/
theorem toNat_bumpServiceIndex {bump i : UInt32} (hi : PublicIndex i) (hbump : bump.toNat ≤ 256) :
    (bumpServiceIndex bump i).toNat = 2 ^ 16 + (i.toNat - 2 ^ 16 + bump.toNat) % 4294901504 := by
  obtain ⟨hlow, hhigh⟩ := hi
  have hle : minPubServiceIndex ≤ i := by
    rwa [UInt32.le_iff_toNat_le, toNat_minPubServiceIndex]
  have hsub : (i - minPubServiceIndex).toNat = i.toNat - 2 ^ 16 := by
    rw [UInt32.toNat_sub_of_le _ _ hle, toNat_minPubServiceIndex]
  have hadd : (i - minPubServiceIndex + bump).toNat = i.toNat - 2 ^ 16 + bump.toNat := by
    rw [UInt32.toNat_add, hsub, mod_eq_of_lt (by omega)]
  rw [bumpServiceIndex, toNat_offset, hadd]

theorem publicIndex_bumpServiceIndex (bump i : UInt32) : PublicIndex (bumpServiceIndex bump i) :=
  publicIndex_offset _

theorem publicIndex_clampServiceIndex (i : UInt32) : PublicIndex (clampServiceIndex i) := by
  unfold clampServiceIndex
  split_ifs with hlow
  · decide
  · exact publicIndex_offset _

section

variable {i : UInt32} (hi : PublicIndex i)
include hi

/-- After `k` steps. -/
theorem iterate_bumpServiceIndex (k : ℕ) : PublicIndex ((bumpServiceIndex 1)^[k] i) ∧
      ((bumpServiceIndex 1)^[k] i).toNat = 2 ^ 16 + (i.toNat - 2 ^ 16 + k) % 4294901504 := by
  induction k with
  | zero =>
    have hlt : i.toNat - 2 ^ 16 + 0 < 4294901504 := by
      have := hi.2
      omega
    rw [Function.iterate_zero_apply, mod_eq_of_lt hlt]
    exact ⟨hi, by have := hi.1; omega⟩
  | succ k ih =>
    rw [Function.iterate_succ_apply']
    refine ⟨publicIndex_bumpServiceIndex _ _, ?_⟩
    have hone : (1 : UInt32).toNat = 1 := rfl
    rw [toNat_bumpServiceIndex ih.1 (by decide), ih.2, hone]
    omega

variable {j : UInt32} {taken : UInt32 → Bool} {accounts : Accounts}

/-- **The steps go through the whole range.** -/
theorem exists_iterate_eq (hj : PublicIndex j) :
    ∃ k < serviceIndexRangeSize.toNat, (bumpServiceIndex 1)^[k] i = j := by
  refine ⟨(j.toNat + 4294901504 - i.toNat) % 4294901504, ?_, ?_⟩
  · rw [toNat_serviceIndexRangeSize]
    omega
  rw [← UInt32.toNat_inj, (iterate_bumpServiceIndex hi _).2]
  obtain ⟨hi₁, hi₂⟩ := hi
  obtain ⟨hj₁, hj₂⟩ := hj
  omega

/-- **A search finds an index of the range that is free**, if there is one. -/
theorem exists_findFreeIndex (hfree : ∃ j, PublicIndex j ∧ taken j = false) :
    ∃ j, findFreeIndex taken i = some j := by
  obtain ⟨j, hj, hj'⟩ := hfree
  obtain ⟨k, hk, rfl⟩ := exists_iterate_eq hi hj
  exact exists_search_eq_some hk hj'

theorem findFreeIndex_spec (h : findFreeIndex taken i = some j) :
    PublicIndex j ∧ taken j = false := by
  obtain ⟨k, -, rfl, hfree, -⟩ := search_spec h
  exact ⟨(iterate_bumpServiceIndex hi k).1, hfree⟩

theorem newCheck_eq (accounts : Accounts) :
    newCheck i accounts = findFreeIndex (fun i => (accounts i).isSome) i := by
  have hnot : ¬ i < minPubServiceIndex := by
    rw [UInt32.lt_iff_toNat_lt, toNat_minPubServiceIndex, not_lt]
    exact hi.1
  rw [newCheck, if_neg hnot]

/-- **`new_check`** finds an index that the accounts lack. -/
theorem newCheck_spec (h : newCheck i accounts = some j) : PublicIndex j ∧ accounts j = none := by
  rw [newCheck_eq hi] at h
  obtain ⟨hj, hfree⟩ := findFreeIndex_spec hi h
  exact ⟨hj, by simpa using hfree⟩

theorem exists_newCheck (hfree : ∃ j, PublicIndex j ∧ accounts j = none) :
    ∃ j, newCheck i accounts = some j := by
  rw [newCheck_eq hi]
  obtain ⟨j, hj, hnone⟩ := hfree
  exact exists_findFreeIndex hi ⟨j, hj, by simp [hnone]⟩

end

section

variable {x : IndexedContext} {xs : ServiceAccount} {args : NewArgs}

/-- The search of NEW ends when the partial state lacks an index of the range. -/
theorem exists_selectIndex (hfree : ∃ j, PublicIndex j ∧ x.u.serviceAccounts j = none) :
    ∃ r, x.selectIndex xs args = some r := by
  unfold selectIndex
  split_ifs
  · exact ⟨_, rfl⟩
  · obtain ⟨c, hc⟩ := exists_newCheck (publicIndex_clampServiceIndex x.newServiceIndex) hfree
    obtain ⟨next, hnext⟩ := exists_newCheck (publicIndex_bumpServiceIndex 42 c) hfree
    simp only [hc, hnext]
    exact ⟨_, rfl⟩

/-- What NEW selects: an index of the range that the partial state lacks, and another one to
propose next; or the index that the registrar names. -/
theorem selectIndex_spec {c next : UInt32} (h : x.selectIndex xs args = some (c, next)) :
    (x.namesIndex xs args = true ∧ c = args.requestedServiceIndex.toUInt32 ∧
        next = x.newServiceIndex) ∨
      (x.namesIndex xs args = false ∧
        newCheck (clampServiceIndex x.newServiceIndex) x.u.serviceAccounts = some c ∧
        PublicIndex next) := by
  unfold selectIndex at h
  split_ifs at h with hnames
  · cases h
    exact .inl ⟨hnames, rfl, rfl⟩
  · split at h
    · cases h
    · next c' hc =>
      obtain ⟨next', hnext, heq⟩ := map_eq_some_iff.mp h
      cases heq
      exact .inr ⟨by simpa using hnames, hc,
        (newCheck_spec (publicIndex_bumpServiceIndex 42 _) hnext).1⟩

end

section

variable {x x' : IndexedContext} {timeslot : UInt32} {args : NewArgs}

/-- A call of NEW that creates an account at `c`. -/
structure Creates (x : IndexedContext) (timeslot : UInt32) (args : NewArgs) (xs : ServiceAccount)
    (codeHash : Hash) (c next : UInt32) : Prop where
  own : x.u.serviceAccounts x.serviceIndex = some xs
  hash : args.codeHash = some codeHash
  length : ¬ maxUint32 < args.codeLen
  gratis : ¬ (x.u.privilegedState.managerServiceID ≠ xs.serviceIndex ∧ args.gratisOffset ≠ 0)
  solvent : ¬ xs.balance < xs.computeThreshold
  free : ¬ (x.namesIndex xs args = true ∧
    (x.u.serviceAccounts args.requestedServiceIndex.toUInt32).isSome = true)
  select : x.selectIndex xs args = some (c, next)
  pays : ¬ (xs.balance < (newAccountOf timeslot xs codeHash args c).balance ∨
    xs.balance - (newAccountOf timeslot xs codeHash args c).balance < xs.computeThreshold)

theorem newServiceIndex_createAccount (x : IndexedContext) (timeslot : UInt32)
    (xs : ServiceAccount) (codeHash : Hash) (args : NewArgs) (c : UInt32) :
    (x.createAccount timeslot xs codeHash args c).2.newServiceIndex = x.newServiceIndex := by
  unfold createAccount
  dsimp only
  split_ifs <;> rfl

/-- **What `hostNew` did when it returns an index.** -/
theorem hostNew_eq_ok {c : UInt32} (h : x.hostNew timeslot args = some (.ok c, x')) :
    ∃ xs codeHash next, Creates x timeslot args xs codeHash c next := by
  unfold hostNew at h
  cases hown : x.u.serviceAccounts x.serviceIndex with
  | none => simp [hown] at h
  | some xs =>
    cases hhash : args.codeHash with
    | none => simp [hown, hhash] at h
    | some codeHash =>
      simp only [hown, hhash] at h
      split_ifs at h with hlen hgratis hpoor hfull
      all_goals try simp at h
      cases hselect : x.selectIndex xs args with
      | none => simp [hselect] at h
      | some r =>
        obtain ⟨c', next⟩ := r
        simp only [hselect, some.injEq] at h
        unfold createAccount at h
        dsimp only at h
        split_ifs at h with hpay
        · cases (Prod.mk.inj h).1
        · obtain rfl : c' = c := NewResult.ok.inj (Prod.mk.inj h).1
          exact ⟨xs, codeHash, next, hown, hhash, hlen, hgratis, hpoor, hfull, hselect, hpay⟩

theorem Creates.hostNew {xs : ServiceAccount} {codeHash : Hash} {c next : UInt32}
    (h : Creates x timeslot args xs codeHash c next) :
    ∃ x', x.hostNew timeslot args = some (.ok c, x') := by
  unfold IndexedContext.hostNew
  simp only [h.own, h.hash, if_neg h.length, if_neg h.gratis, if_neg h.solvent, if_neg h.free,
    h.select]
  unfold createAccount
  rw [if_neg h.pays]
  exact ⟨_, rfl⟩

/-- NEW keeps the proposed index or moves it inside the range. -/
theorem newServiceIndex_hostNew {r : NewResult} (h : x.hostNew timeslot args = some (r, x')) :
    x'.newServiceIndex = x.newServiceIndex ∨ PublicIndex x'.newServiceIndex := by
  unfold hostNew at h
  split at h
  · cases h
  · cases h
    exact .inl rfl
  · split_ifs at h
    iterate 4
      cases h
      exact .inl rfl
    split at h
    · cases h
    · next c next hselect =>
      have hindex := congrArg (fun y => y.2.newServiceIndex) (some.inj h)
      rw [newServiceIndex_createAccount] at hindex
      obtain rfl : next = x'.newServiceIndex := hindex
      rcases selectIndex_spec hselect with ⟨-, -, hsame⟩ | ⟨-, -, hnext⟩
      · exact .inl hsame
      · exact .inr hnext

/-- **NEW returns** when the partial state lacks an index of the range. -/
theorem isSome_hostNew {xs : ServiceAccount} (hown : x.u.serviceAccounts x.serviceIndex = some xs)
    (hfree : ∃ j, PublicIndex j ∧ x.u.serviceAccounts j = none) (timeslot : UInt32)
    (args : NewArgs) : (x.hostNew timeslot args).isSome := by
  unfold hostNew
  cases hhash : args.codeHash with
  | none => simp [hown]
  | some codeHash =>
    obtain ⟨r, hr⟩ : ∃ r, x.selectIndex xs args = some r := exists_selectIndex hfree
    simp only [hown, hr]
    split_ifs <;> rfl

/-- The balance of a new account is its threshold: 201, one more for every byte of code, less
what is granted. -/
theorem toNat_balance_newAccountOf (timeslot : UInt32) (xs : ServiceAccount) (codeHash : Hash)
    (c : UInt32) (hlen : ¬ maxUint32 < args.codeLen) :
    (newAccountOf timeslot xs codeHash args c).balance.toNat =
      201 + args.codeLen.toNat - args.gratisOffset.toNat := by
  have hlt : args.codeLen.toNat < 2 ^ 32 := by
    rw [lt_iff_toNat_lt, show maxUint32.toNat = 2 ^ 32 - 1 from rfl] at hlen
    omega
  obtain ⟨footprint, hdef, hfootprint⟩ : ∃ u, u = 100 + 10 * (2 : UInt32).toInt32.toInt64.toUInt64 +
      1 * (accountLookupConst + args.codeLen) ∧ u.toNat = 201 + args.codeLen.toNat := by
    refine ⟨_, rfl, ?_⟩
    rw [show (10 * (2 : UInt32).toInt32.toInt64.toUInt64) = 20 from rfl]
    simp only [UInt64.toNat_add, UInt64.toNat_mul, accountLookupConst, UInt64.reduceToNat]
    omega
  have hbalance : (newAccountOf timeslot xs codeHash args c).balance =
      if footprint ≤ args.gratisOffset then 0 else footprint - args.gratisOffset := by
    rw [hdef]
    rfl
  rw [hbalance]
  split_ifs with hle
  · rw [le_iff_toNat_le, hfootprint] at hle
    rw [UInt64.toNat_zero]
    omega
  · rw [UInt64.not_le] at hle
    rw [UInt64.toNat_sub_of_le _ _ (UInt64.le_of_lt hle), hfootprint]

end

section

variable (blake2 : Bytes → Hash) (env : HostEnv) (timeslot : UInt32)

/-- A host call of a run: NEW, or one of the others, which leave the proposed index alone. -/
inductive ContextStep : IndexedContext → IndexedContext → Prop
  | new {x x' : IndexedContext} (args : NewArgs) (r : NewResult)
      (h : x.hostNew timeslot args = some (r, x')) : ContextStep x x'
  | host (x : IndexedContext) (call : HostCall) : ContextStep x
      { x with toXContext := ((⟨x.toXContext, x.toXContext⟩ : VM).hostCall blake2 env call).x }

variable {blake2 env timeslot} {x x' : IndexedContext}

theorem ContextStep.publicIndex (h : ContextStep blake2 env timeslot x x')
    (hx : PublicIndex x.newServiceIndex) : PublicIndex x'.newServiceIndex := by
  cases h with
  | new args r h =>
    rcases newServiceIndex_hostNew h with hsame | hpublic
    · rwa [hsame]
    · exact hpublic
  | host call => exact hx

/-- **The proposed index stays in the range over a whole run.** -/
theorem publicIndex_of_run (h : Relation.ReflTransGen (ContextStep blake2 env timeslot) x x')
    (hx : PublicIndex x.newServiceIndex) : PublicIndex x'.newServiceIndex := by
  induction h with
  | refl => exact hx
  | tail _ hstep ih => exact hstep.publicIndex ih

variable (blake2 env) in
/-- The index that `NewXContext` derives from the hash is in the range. -/
theorem publicIndex_seed (s : UInt32) (entropy : Hash) (timeslot : UInt32) :
    PublicIndex (indexSeed blake2 s entropy timeslot % serviceIndexRangeSize +
      minPubServiceIndex) := by
  rw [UInt32.add_comm]
  exact publicIndex_offset _

end

variable {env : HostEnv} {x : IndexedContext} {xs : ServiceAccount}

/-- Every call of NEW in this context that creates an account does so at an index without an
account, in the partial state and in the trie. -/
def CreatesFresh (env : HostEnv) (x : IndexedContext) : Prop :=
  ∀ timeslot args c x', x.hostNew timeslot args = some (.ok c, x') →
    x.u.serviceAccounts c = none ∧ env.getService c = none

/-- The running service can pay for a new account; the manager may grant all of it. -/
def IndexedContext.CanPay (x : IndexedContext) (xs : ServiceAccount) : Prop :=
  xs.computeThreshold ≤ xs.balance ∧ (x.u.privilegedState.managerServiceID = xs.serviceIndex ∨
      xs.computeThreshold.toNat + 201 ≤ xs.balance.toNat)

/-- The trie has no account where NEW cannot see it: at the first index that the partial state
lacks, and, for the registrar, at the small indices that the partial state lacks. -/
structure NoHiddenAccount (env : HostEnv) (x : IndexedContext) (xs : ServiceAccount) : Prop where
  proposed : ∀ c, newCheck (clampServiceIndex x.newServiceIndex) x.u.serviceAccounts = some c →
    env.getService c = none
  named : x.u.privilegedState.registrarServiceID = xs.serviceIndex → ∀ i : UInt32,
    i.toNat < 2 ^ 16 → x.u.serviceAccounts i = none → env.getService i = none

/-- The test of NEW on the balance `b`, the cost `c` and the threshold `t`, in numbers. -/
theorem not_short_iff {b c t : UInt64} : ¬ (b < c ∨ b - c < t) ↔ c.toNat + t.toNat ≤ b.toNat := by
  rw [not_or, UInt64.not_lt, UInt64.not_lt]
  constructor
  · rintro ⟨hcost, hrest⟩
    rw [UInt64.le_iff_toNat_le, UInt64.toNat_sub_of_le _ _ hcost] at hrest
    rw [le_iff_toNat_le] at hcost
    omega
  · intro h
    have hcost : c ≤ b := le_iff_toNat_le.mpr (by omega)
    refine ⟨hcost, ?_⟩
    rw [UInt64.le_iff_toNat_le, UInt64.toNat_sub_of_le _ _ hcost]
    omega

variable {c next : UInt32} {codeHash : Hash}

/-- Creating an account has to be paid. -/
theorem Creates.canPay {timeslot : UInt32} {args : NewArgs}
    (h : Creates x timeslot args xs codeHash c next) : x.CanPay xs := by
  have hsolvent := h.solvent
  rw [UInt64.not_lt] at hsolvent
  refine ⟨hsolvent, ?_⟩
  by_cases hmanager : x.u.privilegedState.managerServiceID = xs.serviceIndex
  · exact .inl hmanager
  · have hgratis : args.gratisOffset = 0 := by
      by_contra hne
      exact h.gratis ⟨hmanager, hne⟩
    have hbalance := toNat_balance_newAccountOf timeslot xs codeHash c h.length
    have hpays := not_short_iff.mp h.pays
    rw [hbalance, hgratis, UInt64.toNat_zero] at hpays
    exact .inr (by omega)

/-- The cheapest call of NEW, with a requested index. -/
def cheapestArgs (x : IndexedContext) (xs : ServiceAccount) (requested : UInt64) : NewArgs where
  codeHash := some 0
  codeLen := 0
  minItemGas := 0
  minMemoGas := 0
  gratisOffset := if x.u.privilegedState.managerServiceID = xs.serviceIndex then 201 else 0
  requestedServiceIndex := requested

/-- A service that can pay creates an account at the selected index. -/
theorem creates_of_canPay (hown : x.u.serviceAccounts x.serviceIndex = some xs)
    (hpay : x.CanPay xs) {requested : UInt64}
    (hfree : ¬ (x.namesIndex xs (cheapestArgs x xs requested) = true ∧
      (x.u.serviceAccounts requested.toUInt32).isSome = true))
    (hselect : x.selectIndex xs (cheapestArgs x xs requested) = some (c, next)) :
    Creates x 0 (cheapestArgs x xs requested) xs 0 c next := by
  have hlen : ¬ maxUint32 < (cheapestArgs x xs requested).codeLen := by
    show ¬ maxUint32 < 0
    decide
  have hbalance := toNat_balance_newAccountOf 0 xs 0 c hlen
  have hcost : (newAccountOf 0 xs 0 (cheapestArgs x xs requested) c).balance.toNat +
      xs.computeThreshold.toNat ≤ xs.balance.toNat := by
    obtain ⟨hsolvent, hmanager⟩ := hpay
    rw [le_iff_toNat_le] at hsolvent
    rw [hbalance]
    show 201 + (0 : UInt64).toNat - (if x.u.privilegedState.managerServiceID = xs.serviceIndex
      then (201 : UInt64) else 0).toNat + _ ≤ _
    rcases hmanager with hmanager | hmanager
    · rw [if_pos hmanager, show (201 : UInt64).toNat = 201 from rfl, UInt64.toNat_zero]
      omega
    · rw [UInt64.toNat_zero]
      omega
  exact ⟨hown, rfl, hlen, fun h => h.2 (if_neg h.1), UInt64.not_lt.mpr hpay.1, hfree, hselect,
    not_short_iff.mpr hcost⟩

/-- An index that NEW selects names no account of the partial state. -/
theorem Creates.not_in_partial {timeslot : UInt32} {args : NewArgs}
    (h : Creates x timeslot args xs codeHash c next) : x.u.serviceAccounts c = none := by
  rcases selectIndex_spec h.select with ⟨hnames, rfl, -⟩ | ⟨-, hcheck, -⟩
  · by_contra hsome
    exact h.free ⟨hnames, isSome_iff_ne_none.mpr hsome⟩
  · exact (newCheck_spec (publicIndex_clampServiceIndex _) hcheck).2

/-- A requested index is small exactly when it is below `2 ^ 16`. -/
theorem namesIndex_eq_true {args : NewArgs} : x.namesIndex xs args = true ↔
    x.u.privilegedState.registrarServiceID = xs.serviceIndex ∧
      args.requestedServiceIndex.toNat < 2 ^ 16 := by
  have hsmall : args.requestedServiceIndex < 65536 ↔
      args.requestedServiceIndex.toNat < 2 ^ 16 := lt_iff_toNat_lt
  simp [namesIndex, hsmall]

/-- **When NEW only creates accounts where none is.** -/
theorem createsFresh_iff (hown : x.u.serviceAccounts x.serviceIndex = some xs) :
    CreatesFresh env x ↔ (x.CanPay xs → NoHiddenAccount env x xs) := by
  constructor
  · refine fun hfresh hpay => ⟨fun c hc => ?_, fun hregistrar i hsmall hnone => ?_⟩
    · -- A request of `2 ^ 16` leaves the choice to NEW, also for the registrar.
      have hnames : x.namesIndex xs (cheapestArgs x xs 65536) ≠ true := by
        rw [ne_eq, namesIndex_eq_true]
        exact fun h => absurd h.2 (show ¬ (65536 : UInt64).toNat < 2 ^ 16 by decide)
      have hpublic := newCheck_spec (publicIndex_clampServiceIndex _) hc
      obtain ⟨next, hnext⟩ := exists_newCheck (publicIndex_bumpServiceIndex 42 c) ⟨c, hpublic⟩
      have hselect : x.selectIndex xs (cheapestArgs x xs 65536) = some (c, next) := by
        rw [selectIndex, if_neg hnames, hc]
        simp only [hnext]
        rfl
      obtain ⟨x', hnew⟩ := (creates_of_canPay hown hpay (fun h => hnames h.1) hselect).hostNew
      exact (hfresh _ _ _ _ hnew).2
    · have hround : i.toUInt64.toUInt32 = i := UInt32.toUInt32_toUInt64 i
      have hnames : x.namesIndex xs (cheapestArgs x xs i.toUInt64) = true :=
        namesIndex_eq_true.mpr ⟨hregistrar, by
          show i.toUInt64.toNat < 2 ^ 16
          rwa [UInt32.toNat_toUInt64]⟩
      have hselect : x.selectIndex xs (cheapestArgs x xs i.toUInt64) =
          some (i, x.newServiceIndex) := by
        rw [selectIndex, if_pos hnames]
        show some (i.toUInt64.toUInt32, _) = _
        rw [hround]
      obtain ⟨x', hnew⟩ := (creates_of_canPay hown hpay
        (fun h => by simp [hround, hnone] at h) hselect).hostNew
      exact (hfresh _ _ _ _ hnew).2
  · intro h timeslot args c x' hnew
    obtain ⟨xs', codeHash, next, hcreates⟩ := hostNew_eq_ok hnew
    obtain rfl : xs = xs' := some.inj (hown.symm.trans hcreates.own)
    refine ⟨hcreates.not_in_partial, ?_⟩
    have hhidden := h hcreates.canPay
    rcases selectIndex_spec hcreates.select with ⟨hnames, rfl, -⟩ | ⟨-, hcheck, -⟩
    · obtain ⟨hregistrar, hsmall⟩ := namesIndex_eq_true.mp hnames
      refine hhidden.named hregistrar _ ?_ hcreates.not_in_partial
      rw [toNat_toUInt32]
      omega
    · exact hhidden.proposed c hcheck

/-- **Indices of new services.** Every accumulation gets a proposed index in
`[2 ^ 16, 2 ^ 32 - 2 ^ 8)`, if the trie leaves one free there; the index stays in that range
over the whole run; NEW returns if the partial state leaves one free; and NEW only creates
accounts where none is, exactly when the running service cannot pay for one or no account of
the trie is hidden from it. -/
theorem new_service_indices (blake2 : Bytes → Hash) (env : HostEnv) (o : PartialState)
    (s : UInt32) (account : ServiceAccount) (entropy : Hash) (timeslot : UInt32) :
    ((∃ i, PublicIndex i ∧ env.getService i = none) →
      ∃ x, newIndexedContext blake2 env o s account entropy timeslot = some x ∧
        PublicIndex x.newServiceIndex ∧ env.getService x.newServiceIndex = none) ∧
    (∀ x x', newIndexedContext blake2 env o s account entropy timeslot = some x →
      Relation.ReflTransGen (ContextStep blake2 env timeslot) x x' →
        PublicIndex x'.newServiceIndex) ∧
    (∀ x xs, x.u.serviceAccounts x.serviceIndex = some xs →
      ((∃ i, PublicIndex i ∧ x.u.serviceAccounts i = none) →
        ∀ args, (x.hostNew timeslot args).isSome) ∧
      (CreatesFresh env x ↔ (x.CanPay xs → NoHiddenAccount env x xs))) := by
  have hseed := publicIndex_seed blake2 s entropy timeslot
  refine ⟨fun ⟨i, hi, hnone⟩ => ?_, fun x x' hx hrun => publicIndex_of_run hrun ?_, fun x xs hown =>
    ⟨fun hfree => isSome_hostNew hown hfree timeslot, createsFresh_iff hown⟩⟩
  · have hfree : ∃ j, PublicIndex j ∧ (env.getService j).isSome = false := ⟨i, hi, by simp [hnone]⟩
    obtain ⟨j, hj⟩ := exists_findFreeIndex hseed hfree
    obtain ⟨hpublic, hfree⟩ := findFreeIndex_spec hseed hj
    refine ⟨_, map_eq_some_iff.mpr ⟨j, hj, rfl⟩, hpublic, ?_⟩
    simpa using hfree
  · obtain ⟨i, hi, rfl⟩ := map_eq_some_iff.mp hx
    exact (findFreeIndex_spec hseed hi).1

/-- A trie with service 7 and the service that is 42 after the first index. -/
def spacedEnv : HostEnv where
  getService i := if i = 7 ∨ i = 65578 then some { serviceIndex := i, balance := 100000 } else none
  readServicePreimageBlob _ _ := none
  readServicePreimageLookup _ _ _ := none

/-- A partial state without accounts, in which service 1 has all privileges. -/
def noAccounts : PartialState where
  serviceAccounts _ := none
  upcomingValidators := []
  upcomingDirty := false
  queueWorkReport _ := Vector.replicate _ 0
  queueDirty := false
  privilegedState := ⟨1, fun _ => 1, 1, 1, fun _ => none⟩
  privilegedDirty := false

/-- The indices that two calls of NEW return, from the fresh context of service 7 on. -/
def newTwice : Option (NewResult × NewResult) := do
  let x ← newIndexedContext (fun _ => 0) spacedEnv noAccounts 7
    { serviceIndex := 7, balance := 100000 } 0 1
  let y ← x.hostNew 1 (cheapestArgs x { serviceIndex := 7 } 0)
  let z ← y.2.hostNew 1 (cheapestArgs x { serviceIndex := 7 } 0)
  pure (y.1, z.1)

/-- The second call of NEW in a run takes an index that has an account in the trie. -/
theorem second_new_takes_existing_index :
    newTwice = some (.ok 65536, .ok 65578) ∧ (spacedEnv.getService 65578).isSome := by
  decide +kernel

end JamDuna.Accumulation
