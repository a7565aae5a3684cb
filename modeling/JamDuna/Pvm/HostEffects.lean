/-
# What a host call does to the context

Every host call of an accumulation (`statedb/pvm_hostfunctions.go`), whatever registers and
memory it finds, does one of a few things to the context of the run: it is quiet, it is one
of BLESS, ASSIGN, DESIGNATE, PROVIDE and NEW, it defers a transfer, or it ejects a service
(`HostEffect`). `callEffect_of_hostFunction` goes through the calls once; what is said
about privileges and balances starts from there.

`HostEffect.hostCall` leads on to the calls of the contexts alone, in which a run is a
list of calls with their arguments.
-/

import JamDuna.Accumulation.FreshIndices
import JamDuna.Pvm.QuietCalls

namespace JamDuna.Pvm

open JamDuna.Types Accumulation Function Option HostVM Code SameHoldings Calm

section

/-- The context with a transfer deferred and its amount taken from the sender. -/
def deferTransfer (x : IndexedContext) (sender : ServiceAccount) (t : DeferredTransfer) :
    IndexedContext :=
  { x with
    u := x.u.setAccount x.serviceIndex
      { sender with balance := sender.balance - t.amount, dirty := true }
    transfers := x.transfers ++ [t] }

/-- The context with the balance of a service added to the running one. -/
def creditEjector (x : IndexedContext) (xs boldD : ServiceAccount) : PartialState :=
  x.u.setAccount x.serviceIndex { xs with balance := xs.balance + boldD.balance, dirty := true }

/-- The account of a service that is ejected, as it is left. -/
def ejectedAccount (a : ServiceAccount) (h : Hash) (l : UInt32) : ServiceAccount :=
  ({ a with deletedAccount := true }.writeLookup h l none).writePreimage h []

/-- The context after an EJECT. -/
def ejectService (x : IndexedContext) (d : UInt32) (xs boldD : ServiceAccount) (h : Hash)
    (l : UInt32) : IndexedContext :=
  let u := creditEjector x xs boldD
  { x with u := u.setAccount d (ejectedAccount ((u.serviceAccounts d).getD boldD) h l) }

variable (blake2 : Bytes → Hash) (env : StorageEnv)

/-- What a host call can do to the context. -/
inductive HostEffect (x : IndexedContext) : AccumulateFn → IndexedContext → Prop
  | quiet {x' : IndexedContext} (fn : AccumulateFn) :
      Quiet env x x' → x'.provided = x.provided → HostEffect x fn x'
  | bless (m v r : UInt64) (a : Fin totalCores → UInt32) (z : List (UInt32 × UInt64)) :
      HostEffect x .bless { x with toXContext := x.toXContext.hostBless m v r a z }
  | assign (c : UInt64) (q : CoreQueue) (a : UInt64) :
      HostEffect x .assign { x with toXContext := x.toXContext.hostAssign c q a }
  | designate (v : Vector Validator totalValidators) :
      HostEffect x .designate { x with toXContext := x.toXContext.hostDesignate v }
  | provide (target : UInt64) (blob : Bytes) : HostEffect x .provide
        { x with toXContext := x.toXContext.hostProvide blake2 env.toHostEnv target blob }
  | new {x' : IndexedContext} (timeslot : UInt32) (args : NewArgs) (result : NewResult) :
      x.hostNew timeslot args = some (result, x') → HostEffect x .new x'
  | transfer {x₁ : IndexedContext} {sender receiver : ServiceAccount} (t : DeferredTransfer) :
      Quiet env x x₁ → x₁.provided = x.provided →
      x₁.u.serviceAccounts t.receiverIndex = some receiver →
      x₁.u.serviceAccounts x₁.serviceIndex = some sender → t.amount ≤ sender.balance →
      HostEffect x (.host .transfer) (deferTransfer x₁ sender t)
  | eject {x₁ : IndexedContext} {xs boldD : ServiceAccount} (d : UInt32) (h : Hash) (l : UInt32) :
      Quiet env x x₁ → x₁.provided = x.provided → x₁.u.serviceAccounts d = some boldD →
      x₁.u.serviceAccounts x₁.serviceIndex = some xs → boldD.deletedAccount = false →
      boldD.codeHash = ejectorHash x₁.serviceIndex →
      HostEffect x (.host .eject) (ejectService x₁ d xs boldD h l)

/-- A host call that leaves mode and slot and has such an effect. -/
structure Advances (fn : AccumulateFn) (vm vm' : HostVM) : Prop where
  mode : vm'.mode = vm.mode
  timeslot : vm'.timeslot = vm.timeslot
  step : HostEffect blake2 env vm.x fn vm'.x

variable {blake2 env} {vm vm' : HostVM} {fn : AccumulateFn}

theorem Calm.advances (h : Calm env vm vm') : Advances blake2 env fn vm vm' :=
  ⟨h.mode, h.timeslot, .quiet fn h.quiet h.provided⟩

theorem advances_hostBless (vm : HostVM) : Advances blake2 env .bless vm vm.hostBless := by
  unfold hostBless
  split
  · exact ((refl vm).writeRegister 7 what).advances
  · split
    · exact (refl vm).panic.advances
    · split
      · exact (refl vm).panic.advances
      · exact ⟨rfl, rfl, .bless _ _ _ _ _⟩

/-- A guarded call has the effect of what follows the guard. -/
theorem advances_of_guarded {read : Option Bytes} {rest : Bytes → Option HostVM}
    (hout : vm.guarded read rest = some vm')
    (hrest : ∀ b, rest b = some vm' → Advances blake2 env fn vm vm') :
    Advances blake2 env fn vm vm' := by
  rcases guarded_cases hout with rfl | rfl | ⟨b, -, hb⟩
  · exact ((refl vm).writeRegister 7 what).advances
  · exact (refl vm).panic.advances
  · exact hrest b hb

theorem advances_hostAssign (hout : vm.hostAssign = some vm') :
    Advances blake2 env .assign vm vm' := by
  refine advances_of_guarded hout fun q hout => ?_
  split at hout
  · exact (calm_code hout).advances
  · obtain ⟨xs, -, hout⟩ := owned_cases hout
    split_ifs at hout
    · exact (calm_code hout).advances
    · exact (calm_code hout).advances
    · cases hout
      exact ⟨rfl, rfl, .assign _ _ _⟩

theorem advances_hostDesignate (hout : vm.hostDesignate = some vm') :
    Advances blake2 env .designate vm vm' := by
  refine advances_of_guarded hout fun v hout => ?_
  obtain ⟨xs, -, hout⟩ := owned_cases hout
  split_ifs at hout
  · exact (calm_code hout).advances
  · cases hout
    exact ⟨rfl, rfl, .designate _⟩

theorem advances_hostProvide (vm : HostVM) :
    Advances blake2 env .provide vm (vm.hostProvide blake2 env) := by
  unfold hostProvide
  split
  · exact ((refl vm).writeRegister 7 what).advances
  · split
    · exact (refl vm).panic.advances
    · dsimp only
      split
      · exact ((refl vm).writeRegister 7 who).advances
      · exact ⟨rfl, rfl, .provide _ _⟩

theorem advances_hostNew (hout : vm.hostNew = some vm') : Advances blake2 env .new vm vm' := by
  unfold hostNew at hout
  split at hout
  · exact (calm_code hout).advances
  · split at hout
    · cases hout
    · next result x hnew =>
      split at hout
      · exact (calm_panic hout).advances
      · cases hout
        exact ⟨rfl, rfl, .new _ _ result hnew⟩

/-- The receiver of a transfer is in the context once it is found, and the sender too. -/
theorem advances_transferFrom {sender receiver : ServiceAccount} {memo : Bytes}
    (hsender : vm.serviceAccount = some sender)
    (hreceiver : (vm.getXUDS env (vm.reg 7)).join = some receiver) :
    Advances blake2 env (.host .transfer) vm
      ((vm.setAccount (vm.reg 7).toUInt32 receiver).transferFrom sender memo) := by
  set loaded := vm.setAccount (vm.reg 7).toUInt32 receiver
  have hload : Calm env vm loaded :=
    calm_of_getXUDS hreceiver (refl _ receiver)
  unfold transferFrom
  dsimp only
  split_ifs with hcash
  · exact (hload.writeRegister 7 cash).advances
  · obtain ⟨hamount, -⟩ := not_or.mp hcash
    have hown : loaded.x.u.serviceAccounts vm.x.serviceIndex = some sender := by
      show update vm.x.u.serviceAccounts (vm.reg 7).toUInt32 (some receiver)
        vm.x.serviceIndex = some sender
      by_cases hself : vm.x.serviceIndex = (vm.reg 7).toUInt32
      · have hx := join_eq_some_iff.mp hreceiver
        unfold getXUDS at hx
        rw [if_pos (.inr hself.symm), ← hself] at hx
        rw [← hself, update_self, ← some.inj hx]
        exact hsender
      · rw [update_of_ne hself]
        exact hsender
    have hentry : loaded.x.u.serviceAccounts (vm.reg 7).toUInt32 = some receiver := update_self ..
    exact ⟨rfl, rfl, .transfer (loaded.deferredTransfer memo)
      hload.quiet hload.provided hentry hown (UInt64.not_lt.mp hamount)⟩

theorem advances_hostTransfer (hout : vm.hostTransfer env = some vm') :
    Advances blake2 env (.host .transfer) vm vm' := by
  refine advances_of_guarded hout fun memo hout => ?_
  split at hout
  · exact (calm_code hout).advances
  · next receiver hreceiver =>
    dsimp only at hout
    split at hout
    · cases hout
      refine (Calm.writeRegister ?_ 7 low).advances
      exact calm_of_getXUDS hreceiver (refl _ receiver)
    · obtain ⟨sender, hsender, hout⟩ := owned_cases hout
      cases hout
      exact advances_transferFrom hsender hreceiver

variable {boldD : ServiceAccount} {h : Hash} {vm₁ : HostVM} {out : Option HostVM}

/-- The end of EJECT, on an account that is in the context. -/
theorem advances_ejectAccount {d l : UInt32}
    (hload : Calm env vm vm₁) (hd : vm₁.x.u.serviceAccounts d = some boldD)
    (hlive : boldD.deletedAccount = false) (hcode : boldD.codeHash = ejectorHash vm₁.x.serviceIndex)
    (hout : vm₁.ejectAccount d boldD h l = some vm') : Advances blake2 env (.host .eject) vm vm' := by
  unfold ejectAccount at hout
  split at hout
  · cases hout
  · next xs hxs =>
    cases hout
    exact ⟨hload.mode, hload.timeslot, .eject d h l hload.quiet hload.provided hd hxs hlive hcode⟩

/-- EJECT on an account that is in the context. -/
theorem advances_ejectFound {d : UInt64}
    (hload : Calm env vm vm₁) (hd : vm₁.x.u.serviceAccounts d.toUInt32 = some boldD)
    (hout : vm₁.ejectFound env d boldD h = some vm') : Advances blake2 env (.host .eject) vm vm' := by
  unfold ejectFound at hout
  dsimp only at hout
  generalize (goMax accountLookupConst boldD.storageSize - accountLookupConst).toUInt32 = l at hout
  by_cases hdeleted : boldD.deletedAccount = true
  · rw [if_pos hdeleted] at hout
    exact ((hload.writeRegister 7 who).ends hout).advances
  rw [if_neg hdeleted] at hout
  by_cases hwho : d = vm₁.x.serviceIndex.toUInt64 ∨ boldD.codeHash ≠ ejectorHash vm₁.x.serviceIndex
  · rw [if_pos hwho] at hout
    exact ((hload.writeRegister 7 who).ends hout).advances
  rw [if_neg hwho] at hout
  set cached := boldD.cacheLookup env.toHostEnv h l
  have hsame : ∀ own, SameHoldings own boldD cached :=
    fun own => (refl own boldD).cacheLookup h l
  have hentry : EntryKept env vm₁.x.serviceIndex d.toUInt32
      (vm₁.x.u.serviceAccounts d.toUInt32) (some cached) := by
    rw [hd]
    exact .kept (hsame _)
  have hcached : Calm env vm (vm₁.setAccount d.toUInt32 cached) :=
    hload.trans ⟨rfl, rfl, quiet_setAccount hentry, rfl⟩
  have hlive : cached.deletedAccount = false := by
    rw [(hsame True).deletedAccount]
    exact Bool.not_eq_true _ ▸ hdeleted
  have hcode : cached.codeHash = ejectorHash vm₁.x.serviceIndex := by
    rw [(hsame False).codeHash not_false]
    exact not_not.mp (not_or.mp hwho).2
  -- the request has to be there, have two items and two timeslots, and be expired
  split at hout
  · exact ((hcached.writeRegister 7 huh).ends hout).advances
  · split at hout
    · exact ((hcached.writeRegister 7 huh).ends hout).advances
    · split at hout
      · split at hout
        · exact advances_ejectAccount hcached (update_self ..) hlive hcode hout
        · exact ((hcached.writeRegister 7 huh).ends hout).advances
      · exact ((hcached.writeRegister 7 huh).ends hout).advances

theorem advances_hostEject (hout : vm.hostEject env = some vm') :
    Advances blake2 env (.host .eject) vm vm' := by
  refine advances_of_guarded hout fun h hout => ?_
  split at hout
  · exact (calm_code hout).advances
  · cases hout
  · next boldD hx =>
    have hload : Calm env vm (vm.setAccount (vm.reg 7).toUInt32 boldD) :=
      calm_of_getXUDS (by rw [hx]; rfl) (refl _ boldD)
    exact advances_ejectFound hload (update_self ..) hout

/-- A call that is dispatched in one mode only. -/
theorem advances_dispatch {p : Prop} [Decidable p]
    (hout : (if p then out else some (vm.writeRegister 7 what)) = some vm')
    (hadvances : out = some vm' → Advances blake2 env fn vm vm') :
    Advances blake2 env fn vm vm' := by
  split_ifs at hout
  · exact hadvances hout
  · exact (calm_code hout).advances

/-- The calls of the host machine. -/
theorem advances_hostFunction {fn : HostFn} (hout : vm.hostFunction env fn = some vm') :
    Advances blake2 env (.host fn) vm vm' := by
  cases fn with
  | fetch =>
    dsimp only [hostFunction] at hout
    split_ifs at hout
    · exact (calm_code hout).advances
    · exact (calm_hostFetch hout).advances
  | historicalLookup =>
    exact advances_dispatch hout fun h => (calm_hostHistoricalLookup h).advances
  | read => exact advances_dispatch hout fun h => (calm_hostRead h).advances
  | write => exact advances_dispatch hout fun h => (calm_hostWrite h).advances
  | lookup => exact advances_dispatch hout fun h => (calm_hostLookup h).advances
  | info => exact advances_dispatch hout fun h => (calm_hostInfo h).advances
  | transfer => exact advances_dispatch hout advances_hostTransfer
  | eject => exact advances_dispatch hout advances_hostEject
  | solicit =>
    refine advances_dispatch hout fun h => (calm_requestCall ?_ h).advances
    exact fun own a k z ho => sameHoldings_hostSolicit ho a _ k z
  | forget =>
    refine advances_dispatch hout fun h => (calm_requestCall ?_ h).advances
    exact fun own a k z ho => sameHoldings_hostForget ho a _ k z

variable (blake2 env) in
/-- What a call of an accumulation does: CHECKPOINT copies the context, and every other call
leaves the copy and has one effect. -/
structure CallEffect (fn : AccumulateFn) (vm vm' : AccumulateVM) : Prop where
  mode : vm'.mode = vm.mode
  timeslot : vm'.timeslot = vm.timeslot
  contexts : (fn = .checkpoint ∧ vm'.x = vm.x ∧ vm'.y = { vm.x with u := vm.x.u.checkpoint }) ∨
      (fn ≠ .checkpoint ∧ vm'.y = vm.y ∧ HostEffect blake2 env vm.x fn vm'.x)

theorem Advances.callEffect {vm vm' : AccumulateVM} {host : HostVM}
    (h : Advances blake2 env fn vm.toHostVM host) (hfn : fn ≠ .checkpoint)
    (hout : some (vm.after host) = some vm') : CallEffect blake2 env fn vm vm' := by
  cases hout
  exact ⟨h.mode, h.timeslot, .inr ⟨hfn, rfl, h.step⟩⟩

/-- A call that may end in a run-time error. -/
theorem callEffect_map {vm vm' : AccumulateVM}
    (h : ∀ host, out = some host → Advances blake2 env fn vm.toHostVM host) (hfn : fn ≠ .checkpoint)
    (hout : out.map vm.after = some vm') : CallEffect blake2 env fn vm vm' := by
  obtain ⟨host, hhost, hafter⟩ := map_eq_some_iff.mp hout
  exact (h host hhost).callEffect hfn (congrArg some hafter)

/-- **What a host call does**, whatever registers and memory it finds. -/
theorem callEffect_of_hostFunction {vm vm' : AccumulateVM}
    (hout : vm.hostFunction blake2 env fn = some vm') : CallEffect blake2 env fn vm vm' := by
  cases fn with
  | gas => exact ((Calm.refl _).writeRegister 7 _).advances.callEffect nofun hout
  | bless => exact (advances_hostBless _).callEffect nofun hout
  | assign => exact callEffect_map (fun _ => advances_hostAssign) nofun hout
  | designate => exact callEffect_map (fun _ => advances_hostDesignate) nofun hout
  | checkpoint =>
    cases hout
    exact ⟨rfl, rfl, .inl ⟨rfl, rfl, rfl⟩⟩
  | new => exact callEffect_map (fun _ => advances_hostNew) nofun hout
  | upgrade => exact callEffect_map (fun _ h => (calm_hostUpgrade h).advances) nofun hout
  | query => exact callEffect_map (fun _ h => (calm_hostQuery h).advances) nofun hout
  | yield => exact (calm_hostYield _).advances.callEffect nofun hout
  | provide => exact (advances_hostProvide _).callEffect nofun hout
  | log => exact (calm_hostLog _).advances.callEffect nofun hout
  | host fn => exact callEffect_map (fun _ => advances_hostFunction) nofun hout
  | unknown => exact ((Calm.refl _).writeRegister 7 _).advances.callEffect nofun hout

end

variable {blake2 : Bytes → Hash} {env : StorageEnv} {x x' : IndexedContext} {fn : AccumulateFn}

/-- How NEW ends: without an account, or with a new one that is paid for. -/
theorem hostNew_cases {timeslot : UInt32} {args : NewArgs} {result : NewResult}
    (h : x.hostNew timeslot args = some (result, x')) :
    (∃ next, x' = { x with newServiceIndex := next } ∧ ∀ c, result ≠ .ok c) ∨
      ∃ xs codeHash c next, result = .ok c ∧ Creates x timeslot args xs codeHash c next ∧
        x' = { x with
          newServiceIndex := next
          u := (x.u.setAccount x.serviceIndex { xs with
              balance := xs.balance - (newAccountOf timeslot xs codeHash args c).balance
              dirty := true }).setAccount c
            ((newAccountOf timeslot xs codeHash args c).writeLookup codeHash
              args.codeLen.toUInt32 (some [])) } := by
  unfold IndexedContext.hostNew at h
  split at h
  · cases h
  · cases h
    exact .inl ⟨_, rfl, nofun⟩
  · next xs codeHash hown hhash =>
    split_ifs at h with hlen hgratis hpoor hfull
    iterate 4
      cases h
      exact .inl ⟨_, rfl, nofun⟩
    split at h
    · cases h
    · next c next hselect =>
      unfold IndexedContext.createAccount at h
      dsimp only at h
      split_ifs at h with hpay
      · cases h
        exact .inl ⟨next, rfl, nofun⟩
      · cases h
        exact .inr ⟨xs, codeHash, c, next, rfl,
          ⟨hown, hhash, hlen, hgratis, hpoor, hfull, hselect, hpay⟩, rfl⟩

/-- A context that differs in accounts, transfers and yield only is reached by a call of the
contexts. -/
theorem hostCall_other (y : XContext) (hindex : x'.serviceIndex = x.serviceIndex)
    (hu : x'.u = { x.u with serviceAccounts := x'.u.serviceAccounts })
    (hprovided : x'.provided = x.provided) :
    ((⟨x.toXContext, y⟩ : VM).hostCall blake2 env.toHostEnv
      (.other (fun _ => x'.u.serviceAccounts) (fun _ => x'.transfers) fun _ => x'.yield)) =
        ⟨x'.toXContext, y⟩ := by
  obtain ⟨⟨serviceIndex, u, transfers, yield, provided⟩, next⟩ := x'
  dsimp only at hindex hu hprovided ⊢
  subst hindex hprovided
  rw [hu]
  rfl

/-- **The effects are those of the calls on contexts.** -/
theorem HostEffect.hostCall (h : HostEffect blake2 env x fn x') (y : XContext) :
    ∃ call, (⟨x.toXContext, y⟩ : VM).hostCall blake2 env.toHostEnv call = ⟨x'.toXContext, y⟩ := by
  cases h with
  | quiet _ hquiet hprovided =>
    exact ⟨_, hostCall_other y hquiet.serviceIndex hquiet.partialState hprovided⟩
  | bless m v r a z => exact ⟨.bless m v r a z, rfl⟩
  | assign c q a => exact ⟨.assign c q a, rfl⟩
  | designate v => exact ⟨.designate v, rfl⟩
  | provide target blob => exact ⟨.provide target blob, rfl⟩
  | new timeslot args result hnew =>
    rcases hostNew_cases hnew with ⟨next, rfl, -⟩ | ⟨xs, codeHash, c, next, -, -, rfl⟩
    all_goals exact ⟨_, hostCall_other y rfl rfl rfl⟩
  | transfer t hquiet hprovided hreceiver hsender hamount =>
    refine ⟨_, hostCall_other y hquiet.serviceIndex ?_ hprovided⟩
    dsimp only [deferTransfer, PartialState.setAccount]
    rw [hquiet.partialState]
  | eject d k l hquiet hprovided hd hxs hlive hcode =>
    refine ⟨_, hostCall_other y hquiet.serviceIndex ?_ hprovided⟩
    dsimp only [ejectService, creditEjector, PartialState.setAccount]
    rw [hquiet.partialState]

theorem HostEffect.serviceIndex (h : HostEffect blake2 env x fn x') :
    x'.serviceIndex = x.serviceIndex := by
  obtain ⟨call, hcall⟩ := h.hostCall x.toXContext
  have hindex : ((⟨x.toXContext, x.toXContext⟩ : VM).hostCall blake2 env.toHostEnv
      call).x.serviceIndex = x.serviceIndex := (serviceIndex_hostCall _ call rfl).1
  rw [hcall] at hindex
  exact hindex

/-- PROVIDE is quiet, but for the blob. -/
theorem quiet_hostProvide (x : IndexedContext) (target : UInt64) (blob : Bytes) : Quiet env x
      { x with toXContext := x.toXContext.hostProvide blake2 env.toHostEnv target blob } := by
  unfold XContext.hostProvide
  dsimp only
  generalize (if target = maxUint64 then x.serviceIndex.toUInt64 else target) = i
  cases ha : x.toXContext.getXUDS env.toHostEnv i with
  | none => exact Quiet.refl x
  | some a =>
    dsimp only
    generalize hb : a.cacheLookup env.toHostEnv (blake2 blob) (UInt32.ofNat blob.length) = b
    have hab : SameHoldings (i.toUInt32 = x.serviceIndex) a b :=
      hb ▸ (refl _ a).cacheLookup _ _
    have hentry : EntryKept env x.serviceIndex i.toUInt32 (x.u.serviceAccounts i.toUInt32)
        (some b) := by
      unfold XContext.getXUDS at ha
      split at ha
      · next a' ha' =>
        rw [ha', some.inj ha]
        exact .kept hab
      · next hnone =>
        split_ifs at ha
        rw [hnone]
        exact .loaded ha hab
    have hset := quiet_setAccount hentry
    split_ifs
    · exact ⟨hset.serviceIndex, hset.partialState, hset.accounts, hset.transfers,
        hset.newServiceIndex⟩
    · exact hset

/-- An account stays under its index and keeps what it was granted. -/
def Stays (a b : ServiceAccount) : Prop :=
  b.serviceIndex = a.serviceIndex ∧ b.gratisOffset = a.gratisOffset

theorem SameHoldings.stays {own : Prop} {a b : ServiceAccount} (h : SameHoldings own a b) :
    Stays a b := ⟨h.serviceIndex, h.gratisOffset⟩

/-- Accounts stay where they are. -/
def AccountsStay (u u' : PartialState) : Prop :=
  ∀ t a, u.serviceAccounts t = some a → ∃ b, u'.serviceAccounts t = some b ∧ Stays a b

theorem AccountsStay.of_eq {u u' : PartialState} (h : u'.serviceAccounts = u.serviceAccounts) :
    AccountsStay u u' :=
  fun t a ha => ⟨a, (congrFun h t).trans ha, rfl, rfl⟩

theorem Quiet.accountsStay (h : Quiet env x x') : AccountsStay x.u x'.u := by
  intro t a ha
  have hentry := h.accounts t
  rw [ha] at hentry
  generalize x'.u.serviceAccounts t = e at hentry
  cases hentry with
  | kept hab => exact ⟨_, rfl, hab.stays⟩

/-- An account is replaced by one that stays in its place, or entered where none was. -/
theorem AccountsStay.setAccount {u u' : PartialState} {s : UInt32} {b : ServiceAccount}
    (h : AccountsStay u u') (hb : ∀ a, u'.serviceAccounts s = some a → Stays a b) :
    AccountsStay u (u'.setAccount s b) := by
  intro t a ha
  obtain ⟨c, hc, hac⟩ := h t a ha
  show ∃ b', update u'.serviceAccounts s (some b) t = some b' ∧ _
  by_cases hts : t = s
  · subst hts
    have hcb := hb c hc
    rw [update_self]
    exact ⟨b, rfl, hcb.1.trans hac.1, hcb.2.trans hac.2⟩
  · rw [update_of_ne hts]
    exact ⟨c, hc, hac⟩

/-- **No host call takes an account out of the context**, moves it or changes its grant. -/
theorem HostEffect.accountsStay (h : HostEffect blake2 env x fn x') : AccountsStay x.u x'.u := by
  cases h with
  | quiet _ hquiet _ => exact hquiet.accountsStay
  | bless m v r a z =>
    dsimp only [XContext.hostBless]
    split_ifs <;> exact AccountsStay.of_eq rfl
  | assign c q a =>
    dsimp only [XContext.hostAssign, XContext.assignCore]
    split_ifs <;> exact AccountsStay.of_eq rfl
  | designate v =>
    dsimp only [XContext.hostDesignate]
    split_ifs <;> exact AccountsStay.of_eq rfl
  | provide target blob => exact (quiet_hostProvide x target blob).accountsStay
  | new timeslot args result hnew =>
    rcases hostNew_cases hnew with ⟨next, rfl, -⟩ | ⟨xs, codeHash, c, next, -, hcreates, rfl⟩
    · exact AccountsStay.of_eq rfl
    · have hpaid : AccountsStay x.u (x.u.setAccount x.serviceIndex { xs with
            balance := xs.balance - (newAccountOf timeslot xs codeHash args c).balance
            dirty := true }) := by
        refine (AccountsStay.of_eq rfl).setAccount fun a ha => ?_
        obtain rfl := some.inj (hcreates.own.symm.trans ha)
        exact ⟨rfl, rfl⟩
      -- nothing is under the new index, and the running service is under another one
      refine hpaid.setAccount fun a ha => ?_
      have hnone := hcreates.not_in_partial
      have hne : c ≠ x.serviceIndex := by
        rintro rfl
        exact nomatch hnone.symm.trans hcreates.own
      have hentry : update x.u.serviceAccounts x.serviceIndex _ c = some a := ha
      rw [update_of_ne hne, hnone] at hentry
      cases hentry
  | transfer t hquiet _ _ hsender _ =>
    refine hquiet.accountsStay.setAccount fun a ha => ?_
    obtain rfl := some.inj (hsender.symm.trans ha)
    exact ⟨rfl, rfl⟩
  | @eject x₁ xs boldD d k l hquiet _ _ hxs _ _ =>
    have hcredited : AccountsStay x.u (creditEjector x₁ xs boldD) := by
      refine hquiet.accountsStay.setAccount fun a ha => ?_
      obtain rfl := some.inj (hxs.symm.trans ha)
      exact ⟨rfl, rfl⟩
    refine hcredited.setAccount fun a ha => ?_
    rw [ha]
    exact ⟨rfl, rfl⟩

theorem HostEffect.isSome_account (h : HostEffect blake2 env x fn x') {t : UInt32}
    (ht : (x.u.serviceAccounts t).isSome) : (x'.u.serviceAccounts t).isSome := by
  obtain ⟨a, ha⟩ := isSome_iff_exists.mp ht
  obtain ⟨b, hb, -⟩ := h.accountsStay t a ha
  rw [hb]
  rfl

end JamDuna.Pvm
