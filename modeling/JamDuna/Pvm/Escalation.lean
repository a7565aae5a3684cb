/-
# Privileges cannot be gained by host calls

BLESS of `statedb/pvm_hostfunctions.go` does not ask who calls it. It writes to the caller's
own copy of the privileges, and `ParallelizedAccumulate` of `statedb/accumulate.go` takes the
privileges of a copy over only from those who had them. But ASSIGN and NEW look at the
caller's copy: a service that has made itself the assigner of a core there may assign a
queue, and the merge takes over every queue that is marked as changed; one that has made
itself the manager or the registrar may create accounts with a grant or under a small index.

So an unprivileged service gains nothing exactly as long as it does not BLESS itself
(`noEscalation`).
-/

import JamDuna.Pvm.ServiceRuns

namespace JamDuna.Pvm

open JamDuna.Types JamDuna.Basis Accumulation Option XContext

section

variable (p : PrivilegedServiceState) (s : UInt32)

/-- The service is manager, registrar or an assigner. -/
def Holds : Prop :=
  p.managerServiceID = s ∨ p.registrarServiceID = s ∨ ∃ c, p.authQueueServiceID c = s

instance Holds.decidable : Decidable (Holds p s) := inferInstanceAs (Decidable (_ ∨ _ ∨ _))

/-- The service has no privilege at all. -/
def Unprivileged : Prop := ¬ Holds p s ∧ p.upcomingValidatorsServiceID ≠ s

instance Unprivileged.decidable : Decidable (Unprivileged p s) :=
  inferInstanceAs (Decidable (_ ∧ _))

/-- A BLESS after which the service is manager, registrar or an assigner in its own copy. -/
def BlessesItself (vm : AccumulateVM) (call : Call) : Prop :=
  call.fn = .bless ∧
    Holds (vm.prepare call).toHostVM.hostBless.x.u.privilegedState vm.x.serviceIndex

instance BlessesItself.decidable (vm : AccumulateVM) (call : Call) :
    Decidable (BlessesItself vm call) := inferInstanceAs (Decidable (_ ∧ _))

end

section

variable {o : PartialState} {s : UInt32}

/-- Two rounds of the merge that differ in the accounts only. -/
def SameButAccounts (st st' : PartialState × Mutated) : Prop :=
  st'.1 = { st.1 with serviceAccounts := st'.1.serviceAccounts } ∧ st'.2 = st.2

theorem SameButAccounts.mergeResult {p : PrivilegedServiceState} {st st' : PartialState × Mutated}
    (h : SameButAccounts st st') (r : AccRes) :
    SameButAccounts (mergeResult p st r) (mergeResult p st' r) := by
  obtain ⟨hu, hm⟩ := h
  unfold Accumulation.mergeResult
  rw [hu, hm]
  exact ⟨rfl, rfl⟩

theorem SameButAccounts.foldl {p : PrivilegedServiceState} (results : List AccRes) :
    ∀ {st st' : PartialState × Mutated}, SameButAccounts st st' →
      SameButAccounts (results.foldl (Accumulation.mergeResult p) st)
        (results.foldl (Accumulation.mergeResult p) st') := by
  induction results with
  | nil => exact fun h => h
  | cons r results ih => exact fun h => ih (h.mergeResult r)

/-- A service that was no assigner is the first assigner of no core. -/
theorem firstCore_eq_none {a : Fin totalCores → UInt32} (h : ¬ ∃ c, a c = s) :
    firstCore a s = none := by
  unfold firstCore
  rw [List.find?_eq_none]
  intro c _ hc
  exact h ⟨c, beq_iff_eq.mp hc⟩

/-- **The round of an unprivileged service** that has no queue to offer changes accounts
only. -/
theorem mergeResult_of_unprivileged {p : PrivilegedServiceState} (h : Unprivileged p s)
    {r : AccRes} (hs : r.service = s) (hown : r.xy.serviceIndex = s)
    (hqueue : r.xy.u.queueDirty = false) (st : PartialState × Mutated) :
    SameButAccounts (mergeResult p st r) st := by
  obtain ⟨hholds, hdesignator⟩ := h
  obtain ⟨hmanager, hrest⟩ := not_or.mp hholds
  obtain ⟨hregistrar, hassigner⟩ := not_or.mp hrest
  have hprivileges : mergePrivileges p (st.1.privilegedState, st.2) r =
      (st.1.privilegedState, st.2) := by
    unfold mergePrivileges
    split_ifs with hdirty hm
    · exact absurd (hm.symm.trans hs) hmanager
    · have hr : (s == p.registrarServiceID) = false := beq_false_of_ne (Ne.symm hregistrar)
      have hu : (s == p.upcomingValidatorsServiceID) = false :=
        beq_false_of_ne (Ne.symm hdesignator)
      unfold mergeOther
      rw [hs, firstCore_eq_none hassigner, hr, hu]
      cases st.2.a <;> simp
    · rfl
  have hupcoming : (r.xy.serviceIndex == p.upcomingValidatorsServiceID) = false := by
    rw [hown]
    exact beq_false_of_ne (Ne.symm hdesignator)
  unfold mergeResult
  rw [hprivileges, hqueue, hupcoming, Bool.and_false]
  exact ⟨rfl, rfl⟩

/-- What the merge makes of everything but the accounts does not depend on such a service. -/
theorem mergeResults_of_unprivileged (h : Unprivileged o.privilegedState s) {r : AccRes}
    (hs : r.service = s) (hown : r.xy.serviceIndex = s) (hqueue : r.xy.u.queueDirty = false)
    (before after : List AccRes) :
    mergeResults o (before ++ after) = { mergeResults o (before ++ r :: after) with
        serviceAccounts := (mergeResults o (before ++ after)).serviceAccounts } := by
  unfold mergeResults
  rw [List.foldl_append, List.foldl_append, List.foldl_cons]
  exact (SameButAccounts.foldl after (mergeResult_of_unprivileged h hs hown hqueue _)).1

end

section

variable (blake2 : Bytes → Hash) (env : StorageEnv)

/-- A call, and the accounts created so far. -/
def escalationStep (st : AccumulateVM × List UInt32) (call : Call)
    (st' : AccumulateVM × List UInt32) : Prop :=
  st.1.call blake2 env call = some st'.1 ∧ st'.2 = st.2 ++ (st.1.creates call).toList

/-- What holds of a service that has no say in its own copy of the privileges. -/
structure Harmless (s : UInt32) (st : AccumulateVM × List UInt32) : Prop where
  mode : st.1.mode = .accumulate
  index : st.1.x.serviceIndex = s
  indexY : st.1.y.serviceIndex = s
  own : ∃ a, st.1.x.u.serviceAccounts s = some a ∧ a.serviceIndex = s
  holds : ¬ Holds st.1.x.u.privilegedState s
  queue : st.1.x.u.queueDirty = false
  queueY : st.1.y.u.queueDirty = false
  checkpointed : ∀ t, (st.1.y.u.serviceAccounts t).isSome → (st.1.x.u.serviceAccounts t).isSome
  created : ∀ i ∈ st.2, 2 ^ 16 ≤ i.toNat ∧
    (∃ a, st.1.x.u.serviceAccounts i = some a ∧ a.gratisOffset = 0) ∧
      ∀ a, st.1.y.u.serviceAccounts i = some a → a.gratisOffset = 0

variable {blake2 env} {s : UInt32} {st st' : AccumulateVM × List UInt32} {call : Call}

/-- ASSIGN by a service that is no assigner. -/
theorem hostAssign_of_not_holds {x : XContext} {a : ServiceAccount}
    (hown : x.u.serviceAccounts x.serviceIndex = some a) (hindex : a.serviceIndex = s)
    (hholds : ¬ Holds x.u.privilegedState s) (c : UInt64) (q : CoreQueue) (b : UInt64) :
    x.hostAssign c q b = x := by
  unfold hostAssign
  split_ifs with hcore
  · have hassigner :
        x.ownIndex ≠ some (x.u.privilegedState.authQueueServiceID ⟨c.toNat, hcore⟩) := by
      intro h
      unfold ownIndex at h
      rw [hown, map_some, hindex] at h
      exact hholds (.inr (.inr ⟨_, (some.inj h).symm⟩))
    unfold assignCore
    rw [if_pos (.inl hassigner)]
  · rfl

/-- Privileges and the mark of the queues after a call that is no BLESS. -/
theorem HostEffect.privileges {x x' : IndexedContext} {fn : AccumulateFn} {a : ServiceAccount}
    (h : HostEffect blake2 env x fn x') (hfn : fn ≠ .bless)
    (hown : x.u.serviceAccounts x.serviceIndex = some a) (hindex : a.serviceIndex = s)
    (hholds : ¬ Holds x.u.privilegedState s) :
    x'.u.privilegedState = x.u.privilegedState ∧ x'.u.queueDirty = x.u.queueDirty := by
  cases h with
  | quiet _ hquiet _ =>
    rw [hquiet.partialState]
    exact ⟨rfl, rfl⟩
  | bless => exact absurd rfl hfn
  | assign c q b =>
    rw [hostAssign_of_not_holds hown hindex hholds]
    exact ⟨rfl, rfl⟩
  | designate v =>
    dsimp only [hostDesignate]
    split_ifs <;> exact ⟨rfl, rfl⟩
  | provide target blob =>
    rw [(quiet_hostProvide x target blob).partialState]
    exact ⟨rfl, rfl⟩
  | new timeslot args result hnew =>
    rcases hostNew_cases hnew with ⟨next, rfl, -⟩ | ⟨xs, codeHash, c, next, -, -, rfl⟩
    all_goals exact ⟨rfl, rfl⟩
  | transfer t hquiet _ _ _ _ =>
    dsimp only [deferTransfer, PartialState.setAccount]
    rw [hquiet.partialState]
    exact ⟨rfl, rfl⟩
  | eject d k l hquiet _ _ _ _ _ =>
    dsimp only [ejectService, creditEjector, PartialState.setAccount]
    rw [hquiet.partialState]
    exact ⟨rfl, rfl⟩

variable {vm vm' : AccumulateVM}

/-- The privileges after any call that does not bless the service itself. -/
theorem privileges_of_call (h : Harmless s st)
    (hcall : st.1.call blake2 env call = some vm') (hbless : ¬ BlessesItself st.1 call) :
    ¬ Holds vm'.x.u.privilegedState s ∧ vm'.x.u.queueDirty = false := by
  by_cases hfn : call.fn = .bless
  · unfold AccumulateVM.call at hcall
    rw [hfn] at hcall
    cases hcall
    refine ⟨fun hholds => hbless ⟨hfn, h.index ▸ hholds⟩, ?_⟩
    show (st.1.prepare call).toHostVM.hostBless.x.u.queueDirty = false
    have hqueue : (st.1.prepare call).x.u.queueDirty = false := h.queue
    unfold HostVM.hostBless
    split_ifs
    · exact hqueue
    · split
      · exact hqueue
      · split
        · exact hqueue
        · dsimp only [HostVM.writeRegister, HostVM.setContext, hostBless]
          split_ifs <;> exact hqueue
  · obtain ⟨a, hown, hindex⟩ := h.own
    rcases (callEffect_of_call hcall).contexts with ⟨-, hx, -⟩ | ⟨-, -, heffect⟩
    · rw [hx]
      exact ⟨h.holds, h.queue⟩
    · rw [← h.index] at hown
      obtain ⟨hprivileges, hqueue⟩ := heffect.privileges hfn hown hindex h.holds
      rw [hprivileges, hqueue]
      exact ⟨h.holds, h.queue⟩

/-- **An account that such a service creates** has no grant and a public index. -/
theorem created_of_creates {c : UInt32} (h : Harmless s st)
    (hcreates : st.1.creates call = some c) (hcall : st.1.call blake2 env call = some vm') :
    2 ^ 16 ≤ c.toNat ∧ st.1.x.u.serviceAccounts c = none ∧
      ∃ a, vm'.x.u.serviceAccounts c = some a ∧ a.gratisOffset = 0 := by
  obtain ⟨hfn, x', hnew⟩ := hostNew_of_creates hcreates
  rw [context_of_new h.mode hfn hnew hcall]
  rcases hostNew_cases hnew with ⟨-, -, hno⟩ | ⟨xs, codeHash, c', next, hc, hmade, rfl⟩
  · exact absurd rfl (hno c)
  obtain rfl := NewResult.ok.inj hc
  obtain ⟨a, hown, hindex⟩ := h.own
  rw [← h.index] at hown
  obtain rfl := some.inj (hmade.own.symm.trans hown)
  obtain ⟨hmanager, hrest⟩ := not_or.mp h.holds
  obtain ⟨hregistrar, -⟩ := not_or.mp hrest
  have hgratis : (st.1.prepare call).newArgs.gratisOffset = 0 := by
    by_contra hne
    exact hmade.gratis ⟨fun hm => hmanager (hm.trans hindex), hne⟩
  have hpublic : PublicIndex c := by
    rcases selectIndex_spec hmade.select with ⟨hnames, -, -⟩ | ⟨-, hcheck, -⟩
    · exact absurd ((namesIndex_eq_true.mp hnames).1.trans hindex) hregistrar
    · exact (newCheck_spec (publicIndex_clampServiceIndex _) hcheck).1
  exact ⟨hpublic.1, hmade.not_in_partial, _, Function.update_self .., hgratis⟩

/-- Accounts of a context stay through a call. -/
theorem accountsStay_of_call (h : CallEffect blake2 env call.fn vm vm') :
    AccountsStay vm.x.u vm'.x.u := by
  rcases h.contexts with ⟨-, hx, -⟩ | ⟨-, -, heffect⟩
  · rw [hx]
    exact AccountsStay.of_eq rfl
  · exact heffect.accountsStay

/-- The checkpoint after a call: as before, or a copy of the context. -/
theorem checkpoint_of_call (h : CallEffect blake2 env call.fn vm vm') :
    vm'.y = vm.y ∨ call.fn = .checkpoint ∧ vm'.x = vm.x ∧
      vm'.y = { vm.x with u := vm.x.u.checkpoint } := by
  rcases h.contexts with hcheckpoint | ⟨-, hy, -⟩
  · exact .inr hcheckpoint
  · exact .inl hy

/-- The accounts created so far, after a call. -/
theorem Harmless.created_step (h : Harmless s st) (hstep : escalationStep blake2 env st call st') :
    ∀ i ∈ st'.2, 2 ^ 16 ≤ i.toNat ∧
      (∃ a, st'.1.x.u.serviceAccounts i = some a ∧ a.gratisOffset = 0) ∧
        ∀ a, st'.1.y.u.serviceAccounts i = some a → a.gratisOffset = 0 := by
  obtain ⟨hcall, hlist⟩ := hstep
  have heffect := callEffect_of_call hcall
  intro i hi
  rw [hlist, List.mem_append, mem_toList] at hi
  rcases hi with hold | hnew
  · obtain ⟨hindex, ⟨a, ha, hgratis⟩, hy⟩ := h.created i hold
    obtain ⟨b, hb, -, hkept⟩ := accountsStay_of_call heffect i a ha
    refine ⟨hindex, ⟨b, hb, hkept.trans hgratis⟩, ?_⟩
    rcases checkpoint_of_call heffect with hsame | ⟨-, -, hcopy⟩
    · rw [hsame]
      exact hy
    · intro c hc
      rw [hcopy] at hc
      obtain ⟨a', ha', rfl⟩ := map_eq_some_iff.mp hc
      obtain rfl := some.inj (ha.symm.trans ha')
      exact hgratis
  · obtain ⟨hindex, hfree, hx⟩ := created_of_creates h hnew hcall
    refine ⟨hindex, hx, ?_⟩
    rcases checkpoint_of_call heffect with hsame | ⟨hfn, -, -⟩
    · -- the index was free in the context, so it is free in the checkpoint
      intro c hc
      rw [hsame] at hc
      have hsome := h.checkpointed i (by rw [hc]; rfl)
      rw [hfree] at hsome
      cases hsome
    · exact nomatch hfn.symm.trans (hostNew_of_creates hnew).1

/-- **A call keeps a service harmless**, unless it blesses the service itself. -/
theorem Harmless.step (h : Harmless s st) (hstep : escalationStep blake2 env st call st')
    (hbless : ¬ BlessesItself st.1 call) : Harmless s st' := by
  have hcreated := h.created_step hstep
  have heffect := callEffect_of_call hstep.1
  have hstay := accountsStay_of_call heffect
  obtain ⟨hholds, hqueue⟩ := privileges_of_call h hstep.1 hbless
  obtain ⟨a, ha, hindex⟩ := h.own
  obtain ⟨b, hb, hkept, -⟩ := hstay s a ha
  have hmode := heffect.mode.trans h.mode
  have hown := hkept.trans hindex
  rcases heffect.contexts with ⟨-, hx, hy⟩ | ⟨-, hy, hhost⟩
  · refine ⟨hmode, by rw [hx]; exact h.index, by rw [hy]; exact h.index, ⟨b, hb, hown⟩, hholds,
      hqueue, by rw [hy]; exact h.queue, fun t ht => ?_, hcreated⟩
    rw [hy] at ht
    rw [hx]
    exact (isSome_map ..).symm.trans ht
  · refine ⟨hmode, hhost.serviceIndex.trans h.index, by rw [hy]; exact h.indexY, ⟨b, hb, hown⟩,
      hholds, hqueue, by rw [hy]; exact h.queueY, fun t ht => ?_, hcreated⟩
    rw [hy] at ht
    exact hhost.isSome_account (h.checkpointed t ht)

/-- A service that holds nothing in the state that the batch starts from is harmless at
first. -/
theorem harmless_of_starts {o : PartialState} {account : ServiceAccount}
    (hunprivileged : Unprivileged o.privilegedState s) (haccount : account.serviceIndex = s)
    (h : Starts vm o s account) : Harmless s (vm, []) := by
  have hindex : vm.x.serviceIndex = s := congrArg serviceIndex h.x
  have hu : vm.x.u = o.resetDirtyFlags.setAccount s account := congrArg u h.x
  have hown : vm.x.u.serviceAccounts s = some account := by
    rw [hu]
    exact Function.update_self ..
  have hqueue : vm.x.u.queueDirty = false := by
    rw [hu]
    rfl
  refine ⟨h.mode, hindex, by rw [h.y]; exact hindex, ⟨account, hown, haccount⟩, ?_, hqueue,
    by rw [h.y]; exact hqueue, fun t ht => by rwa [h.y] at ht, nofun⟩
  show ¬ Holds vm.x.u.privilegedState s
  rw [hu]
  exact hunprivileged.1

variable (blake2 env)

/-- A call that does not bless the service itself. -/
def humbleStep (st : AccumulateVM × List UInt32) (call : Call)
    (st' : AccumulateVM × List UInt32) : Prop :=
  escalationStep blake2 env st call st' ∧ ¬ BlessesItself st.1 call

/-- **No privilege escalation.** A service that holds no privilege in the state that a batch
starts from, and never makes itself manager, registrar or assigner in its own copy, leaves
queues, upcoming validators and privileges of the merged state as they are without it, and
every account it created has no grant and an index of at least `2 ^ 16`. The result of its
run is the context, or the one of the last checkpoint if the run was exceptional. -/
theorem noEscalation (timeslot : UInt32) (o : PartialState) (s : UInt32) (account : ServiceAccount)
    (hunprivileged : Unprivileged o.privilegedState s) (haccount : account.serviceIndex = s)
    (vm₀ vm : AccumulateVM) (hstart : Starts vm₀ o s account) (calls : List Call)
    (created : List UInt32) (hrun : Run (humbleStep blake2 env) (vm₀, []) calls (vm, created))
    (r : AccRes) (hservice : r.service = s) (hxy : r.xy = vm.x.toXContext ∨ r.xy = vm.y.toXContext)
    (before after : List AccRes) (partials : List (UInt32 × XContext)) :
    ((mergeBatch blake2 env.toHostEnv timeslot o partials
          (before ++ r :: after)).o.queueWorkReport =
        (mergeBatch blake2 env.toHostEnv timeslot o partials (before ++ after)).o.queueWorkReport ∧
      (mergeBatch blake2 env.toHostEnv timeslot o partials
          (before ++ r :: after)).o.upcomingValidators =
        (mergeBatch blake2 env.toHostEnv timeslot o partials
          (before ++ after)).o.upcomingValidators ∧
      (mergeBatch blake2 env.toHostEnv timeslot o partials
          (before ++ r :: after)).o.privilegedState =
        (mergeBatch blake2 env.toHostEnv timeslot o partials (before ++ after)).o.privilegedState) ∧
      ∀ i ∈ created, 2 ^ 16 ≤ i.toNat ∧
        ∀ a, r.xy.u.serviceAccounts i = some a → a.gratisOffset = 0 := by
  have hharmless : Harmless s (vm, created) :=
    hrun.preserves (fun _ _ _ hstep h => h.step hstep.1 hstep.2)
      (harmless_of_starts hunprivileged haccount hstart)
  have hown : r.xy.serviceIndex = s := by
    rcases hxy with hx | hy
    · rw [hx]
      exact hharmless.index
    · rw [hy]
      exact hharmless.indexY
  have hqueue : r.xy.u.queueDirty = false := by
    rcases hxy with hx | hy
    · rw [hx]
      exact hharmless.queue
    · rw [hy]
      exact hharmless.queueY
  have hmerge := mergeResults_of_unprivileged hunprivileged hservice hown hqueue before after
  constructor
  · dsimp only [mergeBatch]
    rw [hmerge]
    exact ⟨rfl, rfl, rfl⟩
  · intro i hi
    obtain ⟨hindex, ⟨b, hb, hgratis⟩, hcheckpoint⟩ := hharmless.created i hi
    refine ⟨hindex, fun a ha => ?_⟩
    rcases hxy with hx | hy
    · rw [hx] at ha
      obtain rfl := some.inj (hb.symm.trans ha)
      exact hgratis
    · rw [hy] at ha
      exact hcheckpoint a ha

end

/-- Two writable pages with the number 1 at the addresses 0 and 4. -/
def onesRam : Ram where
  pages p := if p < 2 then some fun i => if i = 0 ∨ i = 4 then 1 else 0 else none
  memAccess p := if p < 2 then some .mutable else none

/-- The account of a service 1 without privileges. -/
def newcomer : ServiceAccount := { serviceIndex := 1, balance := 1000000 }

/-- The context that the newcomer starts with, where service 0 has every privilege. -/
def newcomerContext : IndexedContext where
  toXContext := newXContext (contextOf newcomer).u 1 newcomer
  newServiceIndex := 65536

def newcomerVM : AccumulateVM where
  toHostVM := { machineOf .accumulate newcomer [] with x := newcomerContext }
  y := newcomerContext
  gas := 100

/-- A call with values for the registers from 7 on. -/
def callOf (fn : AccumulateFn) (registers : List UInt64) : Call where
  fn := fn
  reg i := if i.val < 7 then 0 else registers.getD (i.val - 7) 0
  ram := onesRam
  gas := 100

theorem starts_newcomerVM : Starts newcomerVM (contextOf newcomer).u 1 newcomer := ⟨rfl, rfl, rfl⟩

/-- The newcomer creates a service, which gets the index 65536 and no grant. -/
theorem noEscalation_new : ∃ vm, Run (humbleStep (fun _ => 0) emptyTrie) (newcomerVM, [])
        [callOf .new [0, 10, 0, 0, 0, 0]] (vm, [65536]) ∧
      2 ^ 16 ≤ (65536 : UInt32).toNat ∧
        ∀ a, vm.x.u.serviceAccounts 65536 = some a → a.gratisOffset = 0 := by
  have hsome : (newcomerVM.call (fun _ => 0) emptyTrie
      (callOf .new [0, 10, 0, 0, 0, 0])).isSome := by decide +kernel
  have hcreates : newcomerVM.creates (callOf .new [0, 10, 0, 0, 0, 0]) = some 65536 := by
    decide +kernel
  obtain ⟨vm, hvm⟩ := isSome_iff_exists.mp hsome
  have hrun : Run (humbleStep (fun _ => 0) emptyTrie) (newcomerVM, [])
      [callOf .new [0, 10, 0, 0, 0, 0]] (vm, [65536]) := by
    refine .single ⟨⟨hvm, ?_⟩, fun h => nomatch h.1⟩
    show [65536] = [] ++ (newcomerVM.creates _).toList
    rw [hcreates]
    rfl
  have hresult := noEscalation (fun _ => 0) emptyTrie 0 (contextOf newcomer).u 1 newcomer
    (by decide) rfl newcomerVM vm starts_newcomerVM _ _ hrun ⟨1, 0, 0, vm.x.toXContext⟩ rfl
    (.inl rfl) [] [] []
  exact ⟨vm, hrun, hresult.2 65536 (.head _)⟩

/-- The newcomer makes itself the assigner of both cores in its copy and assigns a queue,
which the merge takes over. -/
theorem escalation_assign : Unprivileged (contextOf newcomer).u.privilegedState 1 ∧
      Starts newcomerVM (contextOf newcomer).u 1 newcomer ∧
      ∃ vm, Run (escalationStep (fun _ => 0) emptyTrie) (newcomerVM, [])
          [callOf .bless [5, 0, 5, 5, 0, 0], callOf .assign [0, 0, 1]] (vm, []) ∧
        (mergeBatch (fun _ => 0) emptyTrie.toHostEnv 0 (contextOf newcomer).u []
            [⟨1, 0, 0, vm.x.toXContext⟩]).o.queueWorkReport ≠
          (mergeBatch (fun _ => 0) emptyTrie.toHostEnv 0 (contextOf newcomer).u []
            []).o.queueWorkReport := by
  refine ⟨by decide, starts_newcomerVM, ?_⟩
  obtain ⟨vm₁, hbless, vm, hassign, hdiffers⟩ : ∃ vm₁,
      newcomerVM.call (fun _ => 0) emptyTrie (callOf .bless [5, 0, 5, 5, 0, 0]) = some vm₁ ∧
      ∃ vm, vm₁.call (fun _ => 0) emptyTrie (callOf .assign [0, 0, 1]) = some vm ∧
        (mergeBatch (fun _ => 0) emptyTrie.toHostEnv 0 (contextOf newcomer).u []
          [⟨1, 0, 0, vm.x.toXContext⟩]).o.queueWorkReport 0 ≠ Vector.replicate _ 0 := by
    decide +kernel
  have hblessed : Run (escalationStep (fun _ => 0) emptyTrie) (newcomerVM, [])
      [callOf .bless [5, 0, 5, 5, 0, 0]] (vm₁, []) := .single ⟨hbless, rfl⟩
  exact ⟨vm, hblessed.snoc ⟨hassign, rfl⟩, fun h => hdiffers (congrFun h 0)⟩

end JamDuna.Pvm
