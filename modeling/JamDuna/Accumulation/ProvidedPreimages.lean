/-
# Integrating the provided preimages

The last part of `ParallelizedAccumulate` (`statedb/accumulate.go`). The blobs that
the services of a batch provided are regrouped in a map with one blob for a service,
and the blob of each service is written when the account is in the merged partial
state, is dirty or new, and requests it.

`integrate_iff` is the step for one account. A blob of the batch is integrated
only if it is the last one for its service, is not empty (`WritePreimage` takes the
empty blob for a deletion) and the account has been merged as dirty; an account that
is only in the trie is skipped (`parallelizedAccumulate_provided_iff`).
-/

import JamDuna.Accumulation.QueueMerge

namespace JamDuna.Accumulation

open JamDuna.Types JamDuna.Basis Option ServiceAccount

section

variable (blake2 : Bytes → Hash) (env : HostEnv)

/-- The account of a service: the one of the partial state unless it is deleted
there, or the one of the trie. -/
def accountOf (accounts : Accounts) (s : UInt32) : Option ServiceAccount :=
  match accounts s with
  | some a => if a.deletedAccount then none else some a
  | none => env.getService s

/-- The service exists and has an unfulfilled request for the blob. -/
def Outstanding (accounts : Accounts) (s : UInt32) (blob : Bytes) : Prop :=
  ∃ a ∈ accountOf env accounts s,
    a.lookupTimeslots env (blake2 blob) (UInt32.ofNat blob.length) = some []

/-- The account holds the blob, and its request the timeslot. -/
def ServiceAccount.HasPreimage (a : ServiceAccount) (timeslot : UInt32) (blob : Bytes) : Prop :=
  a.preimageBlob env (blake2 blob) = some blob ∧
    a.lookupTimeslots env (blake2 blob) (UInt32.ofNat blob.length) = some [timeslot]

/-- The service exists, holds the blob, and its request the timeslot. -/
def Integrated (timeslot : UInt32) (accounts : Accounts) (s : UInt32) (blob : Bytes) : Prop :=
  ∃ a ∈ accountOf env accounts s, a.HasPreimage blake2 env timeslot blob

instance decidableOutstanding (accounts : Accounts) (s : UInt32) (blob : Bytes) :
    Decidable (Outstanding blake2 env accounts s blob) :=
  inferInstanceAs (Decidable (∃ a ∈ accountOf env accounts s,
    a.lookupTimeslots env (blake2 blob) (UInt32.ofNat blob.length) = some []))

instance decidableIntegrated (timeslot : UInt32) (accounts : Accounts) (s : UInt32)
    (blob : Bytes) : Decidable (Integrated blake2 env timeslot accounts s blob) :=
  inferInstanceAs (Decidable (∃ a ∈ accountOf env accounts s,
    a.preimageBlob env (blake2 blob) = some blob ∧
      a.lookupTimeslots env (blake2 blob) (UInt32.ofNat blob.length) = some [timeslot]))

variable {env}

theorem accountOf_eq_some {accounts : Accounts} {s : UInt32} {a : ServiceAccount} :
    accountOf env accounts s = some a ↔ (accounts s = some a ∧ a.deletedAccount = false) ∨
        (accounts s = none ∧ env.getService s = some a) := by
  unfold accountOf
  cases accounts s with
  | none => simp
  | some a' =>
    simp only [some.injEq, reduceCtorEq, false_and, or_false]
    split_ifs with hdel
    · refine ⟨nofun, ?_⟩
      rintro ⟨rfl, hdel'⟩
      exact absurd hdel (by simp [hdel'])
    · refine ⟨fun h => ?_, fun h => congrArg some h.1⟩
      cases h
      exact ⟨rfl, by simpa using hdel⟩

end

section

variable {blake2 : Bytes → Hash} {env : HostEnv} {a : ServiceAccount} {timeslot : UInt32}

theorem deletedAccount_integrate (blob : Bytes) :
    (a.integrate blake2 env timeslot blob).deletedAccount = a.deletedAccount := by
  unfold integrate
  dsimp only
  split_ifs
  all_goals exact deletedAccount_cacheLookup env a _ _

/-- An account whose request is open does not have the preimage on record. -/
theorem not_hasPreimage_of_outstanding {blob : Bytes}
    (h : a.lookupTimeslots env (blake2 blob) (UInt32.ofNat blob.length) = some []) :
    ¬ a.HasPreimage blake2 env timeslot blob := by
  rintro ⟨-, ht⟩
  rw [h] at ht
  exact absurd ht (by simp)

/-- A blob with another hash does not touch the request. -/
theorem lookupTimeslots_integrate_of_ne {blob : Bytes} {h : Hash} (hne : h ≠ blake2 blob)
    (z : UInt32) :
    (a.integrate blake2 env timeslot blob).lookupTimeslots env h z = a.lookupTimeslots env h z := by
  unfold integrate
  dsimp only
  split_ifs
  · rw [lookupTimeslots_writeLookup_of_ne env _ _ _ hne, lookupTimeslots_writePreimage,
      lookupTimeslots_cacheLookup_of_ne env _ _ _ hne]
  · exact lookupTimeslots_cacheLookup_of_ne env _ _ _ hne z

/-- **The step for one account.** For an account that is not deleted and has an open
request for `blob`, writing `blob'` integrates `blob` precisely if it is the same
blob, is not empty, and the account is dirty or new. -/
theorem integrate_iff {blob blob' : Bytes} (hdel : a.deletedAccount = false)
    (hopen : a.lookupTimeslots env (blake2 blob) (UInt32.ofNat blob.length) = some [])
    (hblake : blake2 blob = blake2 blob' → blob = blob') :
    (a.integrate blake2 env timeslot blob').HasPreimage blake2 env timeslot blob ↔
      blob' = blob ∧ blob ≠ [] ∧ (a.newAccount || a.dirty) = true := by
  by_cases hsame : blob' = blob
  · subst hsame
    unfold integrate
    by_cases hdirty : (a.newAccount || a.dirty) = true
    · rw [if_pos ⟨hopen, hdirty, by simp [hdel]⟩]
      unfold HasPreimage
      rw [preimageBlob_writeLookup, lookupTimeslots_writeLookup]
      by_cases hnil : blob' = []
      · subst hnil
        simp [preimageBlob_writePreimage_nil]
      · simp [preimageBlob_writePreimage env _ _ hnil, hnil, hdirty]
    · rw [if_neg fun h => hdirty h.2.1]
      refine ⟨fun h => absurd h ?_, fun h => absurd h.2.2 hdirty⟩
      apply not_hasPreimage_of_outstanding
      rw [lookupTimeslots_cacheLookup_self]
      exact hopen
  · simp only [hsame, false_and, iff_false]
    apply not_hasPreimage_of_outstanding
    rw [lookupTimeslots_integrate_of_ne fun h => hsame (hblake h).symm]
    exact hopen

end

section

variable {o : PartialState}

/-- A service of the batch has provided the blob for service `s`. -/
def Batch.Provides (b : Batch o) (s : UInt32) (blob : Bytes) : Prop :=
  ∃ r ∈ b.results, ⟨s, blob⟩ ∈ r.xy.provided

instance decidableProvides (b : Batch o) (s : UInt32) (blob : Bytes) :
    Decidable (b.Provides s blob) :=
  inferInstanceAs (Decidable (∃ r ∈ b.results, ⟨s, blob⟩ ∈ r.xy.provided))

/-- The contexts on record after the batch: those of its results, and the earlier ones of
services that are not in it. -/
def Batch.contexts (b : Batch o) (partials : List (UInt32 × XContext)) :
    List (UInt32 × XContext) :=
  partials.filter (fun e => e.1 ∉ b.results.map (·.service)) ++
    b.results.map fun r => (r.service, r.xy)

/-- The blob is provided for the service, and no blob for it is behind this one, in
ascending order of the providing services. -/
def ProvidedLast (contexts : List (UInt32 × XContext)) (s : UInt32) (blob : Bytes) : Prop :=
  ∃ earlier later, allProvided contexts = earlier ++ ⟨s, blob⟩ :: later ∧
    ∀ d ∈ later, d.serviceIndex ≠ s

/-- The merge leaves these contexts on record. -/
theorem Batch.foldl_setPartial (b : Batch o) (partials : List (UInt32 × XContext)) :
    b.results.foldl (fun ps r => setPartial ps r.service r.xy) partials = b.contexts partials := by
  refine keyed_induction (P := fun l =>
    l.foldl (fun ps r => setPartial ps r.service r.xy) partials =
    partials.filter (fun e => e.1 ∉ l.map (·.service)) ++ l.map fun r => (r.service, r.xy))
    AccRes.service b.nodup (by simp) ?_
  intro l x _ hx ih
  have hothers : (l.map fun r => (r.service, r.xy)).filter (fun e => e.1 != x.service) =
      l.map fun r => (r.service, r.xy) := by
    refine List.filter_eq_self.mpr fun e he => ?_
    obtain ⟨r, hr, rfl⟩ := List.mem_map.mp he
    exact bne_iff_ne.mpr fun h => hx (h ▸ List.mem_map_of_mem hr)
  rw [List.foldl_concat, ih, setPartial, List.filter_append, List.filter_filter, hothers,
    List.append_assoc]
  congr 1
  · exact List.filter_congr fun e _ => by grind
  · simp

theorem mem_allProvided {partials : List (UInt32 × XContext)} {d : Provided} :
    d ∈ allProvided partials ↔ ∃ e ∈ partials, d ∈ e.2.provided := by
  simp [allProvided, List.mem_insertionSort]

theorem tmpProvide_eq_some {partials : List (UInt32 × XContext)} {s : UInt32} {blob : Bytes} :
    tmpProvide partials s = some blob ↔ ProvidedLast partials s blob := by
  rw [tmpProvide, List.getLast?_eq_head?_reverse, ← List.filter_reverse, List.head?_filter,
    map_eq_some_iff]
  simp only [List.find?_eq_some_iff_append, List.reverse_eq_append_iff, ProvidedLast]
  constructor
  · rintro ⟨⟨s', blob'⟩, ⟨hs, after, before, h, hnone⟩, rfl⟩
    obtain rfl := eq_of_beq hs
    exact ⟨before.reverse, after.reverse, by simpa using h, by simpa using hnone⟩
  · rintro ⟨earlier, later, h, hnone⟩
    exact ⟨⟨s, blob⟩, ⟨by simp, later.reverse, earlier.reverse, by simpa using h,
      by simpa using hnone⟩, rfl⟩

section

variable {blake2 : Bytes → Hash} {env : HostEnv} {timeslot : UInt32} {accounts : Accounts}
  {partials : List (UInt32 × XContext)} {s : UInt32}

/-- An account that is not in the merged partial state is skipped. -/
theorem integrateProvided_of_none (h : accounts s = none) :
    integrateProvided blake2 env timeslot accounts partials s = none := by
  unfold integrateProvided
  cases tmpProvide partials s <;> simp [h]

theorem integrateProvided_of_some {a : ServiceAccount} (h : accounts s = some a) :
    integrateProvided blake2 env timeslot accounts partials s =
      some (((tmpProvide partials s).map (a.integrate blake2 env timeslot)).getD a) := by
  unfold integrateProvided
  cases tmpProvide partials s <;> simp [h]

/-- **The account of one service after the integration**, when the request for a
blob was open before it. -/
theorem integrateProvided_iff {blob : Bytes} (hopen : Outstanding blake2 env accounts s blob)
    (hblake : ∀ blob', tmpProvide partials s = some blob' → blake2 blob = blake2 blob' →
      blob = blob') :
    Integrated blake2 env timeslot (integrateProvided blake2 env timeslot accounts partials) s
        blob ↔
      tmpProvide partials s = some blob ∧ blob ≠ [] ∧
        ∃ a, accounts s = some a ∧ (a.newAccount || a.dirty) = true := by
  obtain ⟨a, ha, hlookup⟩ := hopen
  rcases accountOf_eq_some.mp ha with ⟨hacc, hdel⟩ | ⟨hacc, htrie⟩
  · have hafter : Integrated blake2 env timeslot
        (integrateProvided blake2 env timeslot accounts partials) s blob ↔
          (((tmpProvide partials s).map (a.integrate blake2 env timeslot)).getD a).HasPreimage
            blake2 env timeslot blob := by
      simp only [Integrated, mem_def, accountOf_eq_some, integrateProvided_of_some hacc,
        some.injEq, reduceCtorEq, false_and, or_false]
      constructor
      · rintro ⟨_, ⟨rfl, -⟩, h⟩
        exact h
      · refine fun h => ⟨_, ⟨rfl, ?_⟩, h⟩
        cases tmpProvide partials s with
        | none => exact hdel
        | some blob' => exact (deletedAccount_integrate blob').trans hdel
    rw [hafter]
    cases htmp : tmpProvide partials s with
    | none => simpa using not_hasPreimage_of_outstanding hlookup
    | some blob' =>
      simp only [map_some, getD_some, hacc, some.injEq, exists_eq_left']
      exact integrate_iff hdel hlookup (hblake blob' htmp)
  · refine ⟨?_, fun ⟨_, _, a', ha', _⟩ => absurd (hacc.symm.trans ha') (by simp)⟩
    rintro ⟨a', ha', hpre⟩
    rcases accountOf_eq_some.mp ha' with ⟨hsome, -⟩ | ⟨-, htrie'⟩
    · rw [integrateProvided_of_none hacc] at hsome
      exact absurd hsome (by simp)
    · obtain rfl := some.inj (htrie.symm.trans htrie')
      exact absurd hpre (not_hasPreimage_of_outstanding hlookup)

end

end

section

variable (blake2 : Bytes → Hash) (env : HostEnv) (timeslot : UInt32) (o : PartialState)
  (transfersIn : List DeferredTransfer) (workReports : List WorkReport)
  (freeAccumulation : List (UInt32 × UInt64)) (partials : List (UInt32 × XContext))
  (run : UInt32 → ServiceRun)

/-- **The provided preimages of a batch.** All blobs that services of the batch
provided and that are requested after the merge are integrated, precisely when each
of them is the last one provided for its service, is not empty, and the account is
in the merged partial state and dirty or new. No two different blobs on record have
the same hash. -/
theorem parallelizedAccumulate_provided_iff
    (hblake : ∀ d ∈ allProvided (parallelizedAccumulate blake2 env timeslot o transfersIn
        workReports freeAccumulation partials run).partials,
      ∀ d' ∈ allProvided (parallelizedAccumulate blake2 env timeslot o transfersIn workReports
        freeAccumulation partials run).partials, blake2 d.data = blake2 d'.data → d.data = d'.data) :
    let b := batchOf blake2 env o transfersIn workReports freeAccumulation run
    let merged := mergeResults o b.results
    let out := parallelizedAccumulate blake2 env timeslot o transfersIn workReports
      freeAccumulation partials run
    (∀ s blob, b.Provides s blob → Outstanding blake2 env merged.serviceAccounts s blob →
        Integrated blake2 env timeslot out.o.serviceAccounts s blob) ↔
      ∀ s blob, b.Provides s blob → Outstanding blake2 env merged.serviceAccounts s blob →
        ProvidedLast (b.contexts partials) s blob ∧ blob ≠ [] ∧
          ∃ a, merged.serviceAccounts s = some a ∧ (a.newAccount || a.dirty) = true := by
  intro b merged out
  refine forall_congr' fun s => forall_congr' fun blob => forall_congr' fun hprov =>
    forall_congr' fun hopen => ?_
  obtain ⟨r, hr, hmem⟩ := hprov
  have hout : out = mergeBatch blake2 env timeslot o partials b.results := by
    have hservices : ¬ (batchServices transfersIn workReports freeAccumulation).isEmpty := by
      intro hnil
      simp [b, batchOf, runBatch, List.isEmpty_iff.mp hnil] at hr
    exact if_neg hservices
  have hpartials : out.partials = b.contexts partials := by
    rw [hout]
    exact b.foldl_setPartial partials
  have hblob : (⟨s, blob⟩ : Provided) ∈ allProvided out.partials := by
    rw [hpartials]
    exact mem_allProvided.mpr ⟨_, List.mem_append_right _ (List.mem_map_of_mem hr), hmem⟩
  have haccounts : out.o.serviceAccounts =
      integrateProvided blake2 env timeslot merged.serviceAccounts out.partials := by
    rw [hout]
    rfl
  rw [haccounts, ← hpartials, ← tmpProvide_eq_some]
  refine integrateProvided_iff hopen fun blob' htmp heq => ?_
  obtain ⟨earlier, later, hall, -⟩ := tmpProvide_eq_some.mp htmp
  have hblob' : (⟨s, blob'⟩ : Provided) ∈ allProvided out.partials := by simp [hall]
  exact hblake _ hblob _ hblob' heq

end

/-- A trie in which every service has an account with code and an open request for
every preimage. -/
def requestingEnv : HostEnv :=
  { populatedEnv with readServicePreimageLookup := fun _ _ _ => some [] }

/-- A hash that tells blobs of different lengths apart. -/
def lengthHash (blob : Bytes) : Hash := Fin.ofNat _ blob.length

/-- A transfer that makes the account of service 1 dirty. -/
def oneTransfer : DeferredTransfer := ⟨2, 1, 5, Vector.replicate _ 0, 0⟩

/-- When the services 1 and 2 provide a blob each for themselves, both are integrated. -/
theorem two_blobs_integrated :
    let transfers := [oneTransfer, { oneTransfer with receiverIndex := 2 }]
    let run := fun s : UInt32 => regularRun [.provide s.toUInt64 (.replicate s.toNat 7)]
    let b := batchOf lengthHash requestingEnv twoAssigners transfers [] [] run
    let out := parallelizedAccumulate lengthHash requestingEnv 3 twoAssigners transfers [] [] [] run
    b.Provides 1 [7] ∧ b.Provides 2 [7, 7] ∧ ∀ s blob, b.Provides s blob →
        Outstanding lengthHash requestingEnv (mergeResults twoAssigners b.results).serviceAccounts
          s blob →
        Integrated lengthHash requestingEnv 3 out.o.serviceAccounts s blob := by
  intro transfers run b out
  refine ⟨by decide +kernel, by decide +kernel, ?_⟩
  refine (parallelizedAccumulate_provided_iff lengthHash requestingEnv 3 twoAssigners
    transfers [] [] [] run (by decide +kernel)).mpr ?_
  have hall : allProvided (b.contexts []) = [⟨1, [7]⟩, ⟨2, [7, 7]⟩] := by decide +kernel
  have hdirty (s : UInt32) (hs : s = 1 ∨ s = 2) :
      ∃ a ∈ (mergeResults twoAssigners b.results).serviceAccounts s,
        (a.newAccount || a.dirty) = true := by
    rcases hs with rfl | rfl <;> decide +kernel
  rintro s blob ⟨r, hr, hmem⟩ -
  have hblob : (⟨s, blob⟩ : Provided) ∈ allProvided (b.contexts []) :=
    mem_allProvided.mpr ⟨_, List.mem_append_right _ (List.mem_map_of_mem hr), hmem⟩
  simp only [hall, List.mem_cons, List.not_mem_nil, or_false, Provided.mk.injEq] at hblob
  rcases hblob with ⟨rfl, rfl⟩ | ⟨rfl, rfl⟩
  · exact ⟨⟨[], _, hall, by simp⟩, by simp, hdirty 1 (.inl rfl)⟩
  · exact ⟨⟨[_], [], hall, by simp⟩, by simp, hdirty 2 (.inr rfl)⟩

/-- Service 1 provides the blobs `[7]` and `[8, 8]` for itself and `[9, 9, 9]` for
service 2. All three are requested; only the second one is integrated. -/
theorem earlier_blob_and_trie_account_lost :
    let run := fun _ => regularRun [.provide 1 [7], .provide 1 [8, 8], .provide 2 [9, 9, 9]]
    let b := batchOf lengthHash requestingEnv twoAssigners [oneTransfer] [] [] run
    let merged := mergeResults twoAssigners b.results
    let out := parallelizedAccumulate lengthHash requestingEnv 3 twoAssigners [oneTransfer] [] [] []
      run
    (b.Provides 1 [7] ∧ b.Provides 1 [8, 8] ∧ b.Provides 2 [9, 9, 9]) ∧
      (Outstanding lengthHash requestingEnv merged.serviceAccounts 1 [7] ∧
        Outstanding lengthHash requestingEnv merged.serviceAccounts 2 [9, 9, 9]) ∧
      ¬ Integrated lengthHash requestingEnv 3 out.o.serviceAccounts 1 [7] ∧
      ¬ Integrated lengthHash requestingEnv 3 out.o.serviceAccounts 2 [9, 9, 9] := by
  decide +kernel

end JamDuna.Accumulation
