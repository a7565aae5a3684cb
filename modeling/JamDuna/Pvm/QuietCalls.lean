/-
# Host calls with a quiet effect

Most host calls of an accumulation bring accounts in from the trie and change what accounts
store, and leave balances, privileges, queues and transfers alone (`Quiet`). Every call but
BLESS, ASSIGN, DESIGNATE, PROVIDE, NEW, TRANSFER and EJECT of
`statedb/pvm_hostfunctions.go` is of that kind, whatever registers and memory it finds.
-/

import JamDuna.Pvm.AccumulateCalls

namespace JamDuna.Pvm

open Accumulation Function Option ServiceAccount

section

/-- Two versions of an account that differ in what is stored and, for the running service, in
the code and the mark for changes. -/
structure SameHoldings (own : Prop) (a b : ServiceAccount) : Prop where
  serviceIndex : b.serviceIndex = a.serviceIndex
  balance : b.balance = a.balance
  gratisOffset : b.gratisOffset = a.gratisOffset
  deletedAccount : b.deletedAccount = a.deletedAccount
  newAccount : b.newAccount = a.newAccount
  marked : a.dirty = true → b.dirty = true
  codeHash : ¬ own → b.codeHash = a.codeHash
  dirty : ¬ own → b.dirty = a.dirty

variable {own : Prop} {env : HostEnv} {a b c : ServiceAccount}

theorem SameHoldings.refl (own : Prop) (a : ServiceAccount) : SameHoldings own a a :=
  ⟨rfl, rfl, rfl, rfl, rfl, id, fun _ => rfl, fun _ => rfl⟩

theorem SameHoldings.trans (h : SameHoldings own a b) (h' : SameHoldings own b c) :
    SameHoldings own a c :=
  ⟨h'.serviceIndex.trans h.serviceIndex, h'.balance.trans h.balance,
    h'.gratisOffset.trans h.gratisOffset, h'.deletedAccount.trans h.deletedAccount,
    h'.newAccount.trans h.newAccount, fun hd => h'.marked (h.marked hd),
    fun ho => (h'.codeHash ho).trans (h.codeHash ho), fun ho => (h'.dirty ho).trans (h.dirty ho)⟩

/-- For the running service it is enough that five fields agree and the change is marked. -/
theorem SameHoldings.of_own (ho : own) (hindex : b.serviceIndex = a.serviceIndex)
    (hbalance : b.balance = a.balance) (hgratis : b.gratisOffset = a.gratisOffset)
    (hdeleted : b.deletedAccount = a.deletedAccount) (hnew : b.newAccount = a.newAccount)
    (hmarked : a.dirty = true → b.dirty = true) : SameHoldings own a b :=
  ⟨hindex, hbalance, hgratis, hdeleted, hnew, hmarked, fun h => absurd ho h, fun h => absurd ho h⟩

theorem SameHoldings.cacheLookup (h : SameHoldings own a b) (k : Hash) (z : UInt32) :
    SameHoldings own a (b.cacheLookup env k z) := by
  refine h.trans ?_
  unfold ServiceAccount.cacheLookup
  split <;> exact ⟨rfl, rfl, rfl, rfl, rfl, id, fun _ => rfl, fun _ => rfl⟩

theorem SameHoldings.cachePreimage (h : SameHoldings own a b) (k : Hash) :
    SameHoldings own a (b.cachePreimage env k) := by
  refine h.trans ?_
  unfold ServiceAccount.cachePreimage
  split <;> exact ⟨rfl, rfl, rfl, rfl, rfl, id, fun _ => rfl, fun _ => rfl⟩

section

variable (ho : own) (h : SameHoldings own a b)
include ho h

theorem SameHoldings.writeLookup (k : Hash) (z : UInt32)
    (t : Option (List UInt32)) : SameHoldings own a (b.writeLookup k z t) :=
  h.trans (.of_own ho rfl rfl rfl rfl rfl fun _ => rfl)

theorem SameHoldings.adjustNumStorageItems (delta : Int32) :
    SameHoldings own a (b.adjustNumStorageItems delta) :=
  h.trans (.of_own ho rfl rfl rfl rfl rfl id)

theorem SameHoldings.adjustStorageSize (delta : Int64) :
    SameHoldings own a (b.adjustStorageSize delta) := by
  refine h.trans ?_
  unfold ServiceAccount.adjustStorageSize
  split_ifs <;> exact .of_own ho rfl rfl rfl rfl rfl id

theorem SameHoldings.forgetRequest (k : Hash)
    (z : UInt64) : SameHoldings own a (b.forgetRequest k z) := by
  have hpreimage : SameHoldings own a ((b.writeLookup k z.toUInt32 none).writePreimage k []) :=
    h.trans (.of_own ho rfl rfl rfl rfl rfl fun _ => rfl)
  exact (hpreimage.adjustNumStorageItems ho _).adjustStorageSize ho _

end

theorem sameHoldings_hostSolicit (ho : own) (a : ServiceAccount) (timeslot : UInt32) (h : Hash)
    (z : UInt64) : SameHoldings own a (a.hostSolicit env timeslot h z).2 := by
  have hcached : SameHoldings own a (a.cacheLookup env h z.toUInt32) :=
    (SameHoldings.refl own a).cacheLookup h _
  unfold hostSolicit
  dsimp only
  split
  · split_ifs
    · exact ((hcached.writeLookup ho h _ _).adjustNumStorageItems ho _).adjustStorageSize ho _
    · exact hcached
  · split_ifs
    · exact hcached.writeLookup ho h _ _
    · exact hcached
  · exact hcached

theorem sameHoldings_hostForget (ho : own) (a : ServiceAccount) (timeslot : UInt32) (h : Hash)
    (z : UInt64) : SameHoldings own a (a.hostForget env timeslot h z).2 := by
  have hcached : SameHoldings own a ((a.cacheLookup env h z.toUInt32).cachePreimage env h) :=
    ((SameHoldings.refl own a).cacheLookup h _).cachePreimage h
  unfold hostForget
  split
  · exact hcached
  · exact hcached.forgetRequest ho h z
  · exact hcached.writeLookup ho h _ _
  · split_ifs
    · exact hcached.forgetRequest ho h z
    · exact hcached
  · split_ifs
    · exact hcached.writeLookup ho h _ _
    · exact hcached
  · exact hcached

theorem sameHoldings_hostWrite {env : StorageEnv} (ho : own) (a : ServiceAccount)
    (args : WriteArgs) : SameHoldings own a (a.hostWrite env args).2 := by
  have hwritten : SameHoldings own a (a.writeStorage args.muK args.v (args.vz == 0)) :=
    .of_own ho rfl rfl rfl rfl rfl fun _ => rfl
  unfold hostWrite
  dsimp only
  split_ifs
  · exact .refl own a
  · exact (hwritten.adjustNumStorageItems ho _).adjustStorageSize ho _
  · exact hwritten.adjustStorageSize ho _
  · exact hwritten.adjustNumStorageItems ho _
  · exact hwritten

end

variable (env : StorageEnv)

/-- What a quiet call does to the entry under an index: an account keeps its holdings, and may
come in from the trie. -/
inductive EntryKept (s t : UInt32) : Option ServiceAccount → Option ServiceAccount → Prop
  | absent : EntryKept s t none none
  | kept {a b : ServiceAccount} : SameHoldings (t = s) a b → EntryKept s t (some a) (some b)
  | loaded {a b : ServiceAccount} :
      env.getService t = some a → SameHoldings (t = s) a b → EntryKept s t none (some b)

/-- A call that changes accounts only in what they store, and the yield. -/
structure Quiet (x x' : IndexedContext) : Prop where
  serviceIndex : x'.serviceIndex = x.serviceIndex
  partialState : x'.u = { x.u with serviceAccounts := x'.u.serviceAccounts }
  accounts : ∀ t, EntryKept env x.serviceIndex t (x.u.serviceAccounts t) (x'.u.serviceAccounts t)
  transfers : x'.transfers = x.transfers
  newServiceIndex : x'.newServiceIndex = x.newServiceIndex

variable {env} {x x' : IndexedContext} {s t : UInt32}

theorem EntryKept.refl (s t : UInt32) (e : Option ServiceAccount) : EntryKept env s t e e := by
  cases e with
  | none => exact .absent
  | some a => exact .kept (.refl _ a)

theorem EntryKept.trans {e e' e'' : Option ServiceAccount} (h : EntryKept env s t e e')
    (h' : EntryKept env s t e' e'') : EntryKept env s t e e'' := by
  cases h with
  | absent => exact h'
  | kept hab =>
    cases h' with
    | kept hbc => exact .kept (hab.trans hbc)
  | loaded ha hab =>
    cases h' with
    | kept hbc => exact .loaded ha (hab.trans hbc)

theorem Quiet.refl (x : IndexedContext) : Quiet env x x :=
  ⟨rfl, rfl, fun t => EntryKept.refl _ t _, rfl, rfl⟩

theorem Quiet.trans {x'' : IndexedContext} (h : Quiet env x x') (h' : Quiet env x' x'') :
    Quiet env x x'' := by
  refine ⟨h'.serviceIndex.trans h.serviceIndex, ?_, fun t => ?_,
    h'.transfers.trans h.transfers, h'.newServiceIndex.trans h.newServiceIndex⟩
  · rw [h'.partialState, h.partialState]
  · have hkept := h'.accounts t
    rw [h.serviceIndex] at hkept
    exact (h.accounts t).trans hkept

/-- An account that is entered, when its entry is kept. -/
theorem quiet_setAccount {b : ServiceAccount}
    (h : EntryKept env x.serviceIndex s (x.u.serviceAccounts s) (some b)) :
    Quiet env x { x with u := x.u.setAccount s b } := by
  refine ⟨rfl, rfl, fun t => ?_, rfl, rfl⟩
  show EntryKept env x.serviceIndex t (x.u.serviceAccounts t)
    (update x.u.serviceAccounts s (some b) t)
  by_cases hts : t = s
  · rw [hts, update_self]
    exact h
  · rw [update_of_ne hts]
    exact EntryKept.refl _ t _

variable (env)

/-- A host call with a quiet effect. -/
structure Calm (vm vm' : HostVM) : Prop where
  mode : vm'.mode = vm.mode
  timeslot : vm'.timeslot = vm.timeslot
  quiet : Quiet env vm.x vm'.x
  provided : vm'.x.provided = vm.x.provided

variable {env} {vm vm' vm'' : HostVM}

theorem Calm.refl (vm : HostVM) : Calm env vm vm := ⟨rfl, rfl, Quiet.refl vm.x, rfl⟩

section

variable (h : Calm env vm vm')
include h

theorem Calm.trans (h' : Calm env vm' vm'') : Calm env vm vm'' :=
  ⟨h'.mode.trans h.mode, h'.timeslot.trans h.timeslot, h.quiet.trans h'.quiet,
    h'.provided.trans h.provided⟩

/-- Registers, memory and the mark for a panic are not part of the effect. -/
theorem Calm.of_context (hx : vm''.x = vm'.x) (hmode : vm''.mode = vm'.mode)
    (htimeslot : vm''.timeslot = vm'.timeslot) : Calm env vm vm'' :=
  ⟨hmode.trans h.mode, htimeslot.trans h.timeslot, hx ▸ h.quiet, hx ▸ h.provided⟩

theorem Calm.writeRegister (i : Fin 13) (value : UInt64) :
    Calm env vm (vm'.writeRegister i value) := h.of_context rfl rfl rfl

theorem Calm.panic : Calm env vm vm'.panic := h.of_context rfl rfl rfl

theorem Calm.ends (hout : some vm' = some vm'') : Calm env vm vm'' :=
  some.inj hout ▸ h

end

/-- A call that only returns a code. -/
theorem calm_code {code : UInt64} (hout : some (vm.writeRegister 7 code) = some vm') :
    Calm env vm vm' := ((Calm.refl vm).writeRegister 7 code).ends hout

theorem calm_panic (hout : some vm.panic = some vm') : Calm env vm vm' :=
  (Calm.refl vm).panic.ends hout

/-- An account that `getXUDS` returns is entered, with caches. -/
theorem calm_of_getXUDS {i : UInt64} {a b : ServiceAccount} (ha : (vm.getXUDS env i).join = some a)
    (hab : SameHoldings (i.toUInt32 = vm.x.serviceIndex) a b) :
    Calm env vm (vm.setAccount i.toUInt32 b) := by
  refine ⟨rfl, rfl, quiet_setAccount ?_, rfl⟩
  have hx := join_eq_some_iff.mp ha
  unfold HostVM.getXUDS at hx
  dsimp only at hx
  split_ifs at hx
  · rw [some.inj hx]
    exact .kept hab
  · cases hs : vm.x.u.serviceAccounts i.toUInt32 with
    | some a' =>
      rw [hs] at hx
      obtain rfl := some.inj (some.inj hx)
      exact .kept hab
    | none =>
      rw [hs] at hx
      obtain ⟨a', ha', haa⟩ := map_eq_some_iff.mp hx
      cases haa
      exact .loaded ha' hab

/-- The account of the running service is entered again. -/
theorem calm_setOwn {a b : ServiceAccount} (ha : vm.serviceAccount = some a)
    (hab : SameHoldings (vm.x.serviceIndex = vm.x.serviceIndex) a b) :
    Calm env vm (vm.setAccount vm.x.serviceIndex b) := by
  refine ⟨rfl, rfl, quiet_setAccount ?_, rfl⟩
  have hentry : vm.x.u.serviceAccounts vm.x.serviceIndex = some a := ha
  rw [hentry]
  exact .kept hab

section

variable (h : Calm env vm vm')
include h

theorem Calm.copyOut {v : Bytes} {o f l : UInt64}
    (hout : vm'.copyOut v o f l = some vm'') : Calm env vm vm'' := by
  unfold HostVM.copyOut at hout
  split at hout
  · cases hout
  · split at hout
    · exact h.panic.ends hout
    · cases hout
      exact h.of_context rfl rfl rfl

theorem Calm.storePreimage (v w : Bytes) : Calm env vm (vm'.storePreimage v w) := by
  unfold HostVM.storePreimage
  split
  · exact h.panic
  · split_ifs <;> exact h.of_context rfl rfl rfl

theorem Calm.copyPreimage {found : Option Bytes}
    (hout : vm'.copyPreimage found = some vm'') : Calm env vm vm'' := by
  unfold HostVM.copyPreimage at hout
  dsimp only at hout
  split at hout
  · exact h.panic.ends hout
  · split at hout
    · exact (h.writeRegister 7 Code.none).ends hout
    · obtain ⟨w, -, rfl⟩ := map_eq_some_iff.mp hout
      exact h.storePreimage _ w

theorem Calm.readValue {a : ServiceAccount} {muK : Bytes}
    (hout : vm'.readValue env a muK = some vm'') : Calm env vm vm'' := by
  unfold HostVM.readValue at hout
  split at hout
  · exact (h.writeRegister 7 Code.none).ends hout
  · exact h.copyOut hout

end

theorem calm_hostFetch (hout : vm.hostFetch = some vm') : Calm env vm vm' := by
  unfold HostVM.hostFetch at hout
  generalize (if fetchAllowed vm.mode (vm.reg 10) = true
    then fetchValue vm.data (vm.reg 10) (vm.reg 11) (vm.reg 12) else some none) = value at hout
  match value, hout with
  | some none, hout =>
    exact calm_code hout
  | some (some v), hout => exact (Calm.refl vm).copyOut hout

theorem calm_hostHistoricalLookup (hout : vm.hostHistoricalLookup env = some vm') :
    Calm env vm vm' := by
  unfold HostVM.hostHistoricalLookup at hout
  dsimp only at hout
  generalize (if vm.reg 7 = Code.none then vm.x.serviceIndex else (vm.reg 7).toUInt32) = s at hout
  split at hout
  · exact calm_code hout
  · split at hout
    · exact calm_code hout
    · split at hout
      · exact calm_panic hout
      · exact (Calm.refl vm).copyOut hout

theorem calm_hostInfo (hout : vm.hostInfo env = some vm') : Calm env vm vm' := by
  unfold HostVM.hostInfo at hout
  dsimp only at hout
  generalize (if vm.reg 7 = Code.none then vm.x.serviceIndex.toUInt64 else vm.reg 7) = i at hout
  match hx : vm.getXUDS env i with
  | none =>
    rw [hx] at hout
    exact calm_code hout
  | some none =>
    rw [hx] at hout
    cases hout
  | some (some t) =>
    have hload : Calm env vm (vm.setAccount i.toUInt32 t) :=
      calm_of_getXUDS (by rw [hx]; rfl) (.refl _ t)
    rw [hx] at hout
    dsimp only at hout
    split at hout
    · exact hload.panic.ends hout
    · exact hload.copyOut hout

theorem calm_of_lookupAccount {i : UInt64} {a b : ServiceAccount}
    (ha : vm.lookupAccount env i = some (s, a)) (hab : ∀ own, SameHoldings own a b) :
    Calm env vm (vm.setAccount s b) := by
  unfold HostVM.lookupAccount at ha
  dsimp only at ha
  split at ha
  · next a' hown =>
    cases ha
    split_ifs at hown
    exact calm_setOwn hown (hab _)
  · obtain ⟨a', ha', hpair⟩ := map_eq_some_iff.mp ha
    cases hpair
    exact calm_of_getXUDS ha' (hab _)

theorem calm_hostLookup (hout : vm.hostLookup env = some vm') : Calm env vm vm' := by
  unfold HostVM.hostLookup at hout
  split at hout
  · exact calm_code hout
  · split at hout
    · exact calm_code hout
    · next s a ha =>
      split at hout
      · exact ((calm_of_lookupAccount ha fun own => SameHoldings.refl own a).panic).ends hout
      · refine Calm.copyPreimage ?_ hout
        exact calm_of_lookupAccount ha fun own => (SameHoldings.refl own a).cachePreimage _

/-- A guarded call is quiet if what follows the guard is. -/
theorem calm_of_guarded {read : Option Bytes} {rest : Bytes → Option HostVM}
    (hout : vm.guarded read rest = some vm')
    (hrest : ∀ b, rest b = some vm' → Calm env vm vm') : Calm env vm vm' := by
  rcases guarded_cases hout with rfl | rfl | ⟨b, -, hb⟩
  · exact (Calm.refl vm).writeRegister 7 Code.what
  · exact (Calm.refl vm).panic
  · exact hrest b hb

theorem calm_hostRead (hout : vm.hostRead env = some vm') : Calm env vm vm' := by
  unfold HostVM.hostRead at hout
  generalize (if vm.reg 7 = maxUint64 then vm.x.serviceIndex.toUInt64 else vm.reg 7) = i at hout
  refine calm_of_guarded hout fun muK hout => ?_
  split at hout
  · split at hout
    · cases hout
    · exact (Calm.refl vm).readValue hout
  · split at hout
    · exact calm_code hout
    · cases hout
    · next a hx =>
      refine Calm.readValue ?_ hout
      exact calm_of_getXUDS (by rw [hx]; rfl) (.refl _ a)

theorem calm_hostWrite (hout : vm.hostWrite env = some vm') : Calm env vm vm' := by
  refine calm_of_guarded hout fun _ hout => ?_
  obtain ⟨a, ha, hout⟩ := owned_cases hout
  split at hout
  · exact calm_panic hout
  · cases hout
    refine Calm.writeRegister ?_ 7 _
    exact calm_setOwn ha (sameHoldings_hostWrite rfl a _)

theorem calm_requestCall {call : ServiceAccount → Hash → UInt64 → RequestResult × ServiceAccount}
    (hcall : ∀ (own : Prop) (a : ServiceAccount) h z, own → SameHoldings own a (call a h z).2)
    (hout : vm.requestCall call = some vm') : Calm env vm vm' := by
  refine calm_of_guarded hout fun _ hout => ?_
  obtain ⟨a, ha, hout⟩ := owned_cases hout
  cases hout
  refine Calm.writeRegister ?_ 7 _
  exact calm_setOwn ha (hcall _ a _ _ rfl)

theorem calm_hostUpgrade (hout : vm.hostUpgrade = some vm') : Calm env vm vm' := by
  refine calm_of_guarded hout fun _ hout => ?_
  obtain ⟨a, ha, hout⟩ := owned_cases hout
  cases hout
  refine Calm.writeRegister ?_ 7 _
  exact calm_setOwn ha (.of_own rfl rfl rfl rfl rfl rfl fun _ => rfl)

theorem Calm.queryResult (h : Calm env vm vm') (t : Option (List UInt32)) :
    Calm env vm (vm'.queryResult t) := by
  unfold HostVM.queryResult
  split <;> exact h.of_context rfl rfl rfl

theorem calm_hostQuery (hout : vm.hostQuery env = some vm') : Calm env vm vm' := by
  refine calm_of_guarded hout fun _ hout => ?_
  obtain ⟨a, ha, hout⟩ := owned_cases hout
  cases hout
  refine Calm.queryResult ?_ _
  exact calm_setOwn ha ((SameHoldings.refl _ a).cacheLookup _ _)

theorem calm_hostYield (vm : HostVM) : Calm env vm vm.hostYield := by
  unfold HostVM.hostYield
  split
  · exact (Calm.refl vm).writeRegister 7 Code.what
  · split
    · exact (Calm.refl vm).panic
    · exact ⟨rfl, rfl, ⟨rfl, rfl, fun t => EntryKept.refl _ t _, rfl, rfl⟩, rfl⟩

theorem calm_hostLog (vm : HostVM) : Calm env vm vm.hostLog := by
  unfold HostVM.hostLog
  split
  · exact .refl vm
  · exact (Calm.refl vm).writeRegister 7 Code.what

end JamDuna.Pvm
