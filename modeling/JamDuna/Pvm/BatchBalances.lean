/-
# Balances of a batch

All that the services hold, over a whole batch of `ParallelizedAccumulate`
(`statedb/accumulate.go`): the balances of the accounts that exist and the transfers that are
under way to one, before the batch with the transfers that it starts from, and after it with
the transfers that its services have deferred.

If all runs are safe, every call keeps the total of the copy it works on, and the merge adds
nothing (`balancesConserved`). A transfer to a service that was ejected before in the block is
accepted and takes the amount out of circulation (`transfer_lost`).
-/

import JamDuna.Pvm.Escalation
import JamDuna.Pvm.MergedAccounts
import JamDuna.Pvm.SafeRuns

namespace JamDuna.Pvm

open JamDuna.Basis Accumulation List

section

variable {env : StorageEnv} {o : PartialState} {results : List AccRes}

variable {u : PartialState} {services : List UInt32}

/-- The integration of provided blobs leaves what accounts hold. -/
theorem held_integrateProvided {blake2 : Bytes → Hash} {timeslot : UInt32} {u' : PartialState}
    {partials : List (UInt32 × XContext)} (hu : u'.serviceAccounts =
      integrateProvided blake2 env.toHostEnv timeslot u.serviceAccounts partials) (t : UInt32) :
    alive (accountAt env u' t) = alive (accountAt env u t) ∧
      held (accountAt env u' t) = held (accountAt env u t) := by
  have hsame : ∀ (blob : Bytes) (a : ServiceAccount),
      (a.integrate blake2 env.toHostEnv timeslot blob).deletedAccount = a.deletedAccount ∧
        (a.integrate blake2 env.toHostEnv timeslot blob).balance = a.balance := by
    intro blob a
    have hcached : (a.cacheLookup env.toHostEnv (blake2 blob)
        (UInt32.ofNat blob.length)).balance = a.balance := by
      unfold ServiceAccount.cacheLookup
      split <;> rfl
    unfold ServiceAccount.integrate
    dsimp only
    split_ifs
    all_goals exact ⟨deletedAccount_cacheLookup .., hcached⟩
  unfold accountAt
  rw [hu]
  unfold integrateProvided
  split
  · exact ⟨rfl, rfl⟩
  · next blob _ =>
    exact held_map (fun a => a.integrate blake2 env.toHostEnv timeslot blob)
      (fun a => (hsame blob a).1) fun a => (hsame blob a).2

/-- The transfers of all results, when no receiver comes into being by the merge. -/
theorem pending_flatMap_le
    (h : ∀ r ∈ results, ∀ t ∈ r.xy.transfers, alive (accountAt env u t.receiverIndex) = true →
      alive (accountAt env r.xy.u t.receiverIndex) = true) :
    pending env u (results.flatMap (·.xy.transfers)) ≤
      (results.map fun r => pending env r.xy.u r.xy.transfers).sum := by
  have hone : ∀ (u' : PartialState) (transfers : List DeferredTransfer),
      (∀ t ∈ transfers, alive (accountAt env u t.receiverIndex) = true →
        alive (accountAt env u' t.receiverIndex) = true) →
      pending env u transfers ≤ pending env u' transfers := by
    intro u' transfers hkept
    refine sum_le_sum fun t ht => ?_
    by_cases halive : alive (accountAt env u t.receiverIndex) = true
    · rw [if_pos halive, if_pos (hkept t ht halive)]
    · rw [if_neg halive]
      exact Nat.zero_le _
  induction results with
  | nil => exact Nat.le_refl _
  | cons r rs ih =>
    have hfirst := hone r.xy.u r.xy.transfers (h r (.head _))
    have hrest := ih fun r' hr' => h r' (.tail _ hr')
    have happend : pending env u (r.xy.transfers ++ rs.flatMap (·.xy.transfers)) =
        pending env u r.xy.transfers + pending env u (rs.flatMap (·.xy.transfers)) := by
      unfold pending
      rw [map_append, sum_append]
    rw [flatMap_cons, happend, map_cons, sum_cons]
    omega

/-- The transfer counts for at most one service. -/
theorem sum_ite_le (hdistinct : services.Nodup) (d : UInt32) (n : ℕ) :
    (services.map fun s => if d = s then n else 0).sum ≤ if d ∈ services then n else 0 := by
  induction services with
  | nil => exact Nat.le_refl _
  | cons s ss ih =>
    obtain ⟨hs, hss⟩ := nodup_cons.mp hdistinct
    have hrest := ih hss
    rw [map_cons, sum_cons]
    by_cases hd : d = s
    · subst hd
      rw [if_neg hs] at hrest
      rw [if_pos rfl, if_pos (.head _)]
      omega
    · have hmem : d ∈ s :: ss ↔ d ∈ ss := mem_cons.trans (or_iff_right hd)
      rw [if_neg hd]
      simp only [hmem]
      omega

/-- What is credited to all services of a batch was under way to them. -/
theorem sum_pendingTo_le (hdistinct : services.Nodup)
    (halive : ∀ s ∈ services, alive (accountAt env o s) = true)
    (transfers : List DeferredTransfer) :
    (services.map (pendingTo transfers)).sum ≤ pending env o transfers := by
  induction transfers with
  | nil =>
    have hzero : (services.map (pendingTo [])).sum = 0 :=
      sum_eq_zero fun n hn => by
        obtain ⟨s, -, rfl⟩ := mem_map.mp hn
        rfl
    rw [hzero]
    exact Nat.zero_le _
  | cons t ts ih =>
    have hsplit : (services.map (pendingTo (t :: ts))).sum =
        (services.map fun s => if t.receiverIndex = s then t.amount.toNat else 0).sum +
          (services.map (pendingTo ts)).sum := by
      rw [← sum_map_add]
      rfl
    have hpending : pending env o (t :: ts) =
        (if alive (accountAt env o t.receiverIndex) then t.amount.toNat else 0) +
          pending env o ts := rfl
    have hfirst := sum_ite_le hdistinct t.receiverIndex t.amount.toNat
    rw [hsplit, hpending]
    by_cases hmem : t.receiverIndex ∈ services
    · rw [if_pos hmem] at hfirst
      rw [if_pos (halive _ hmem)]
      omega
    · rw [if_neg hmem] at hfirst
      omega

/-- **The merge adds nothing to the total.** -/
theorem total_mergeBatch_le (blake2 : Bytes → Hash) (timeslot : UInt32)
    (partials : List (UInt32 × XContext)) {transfersIn : List DeferredTransfer}
    (hclean : CleanTrie env) (hledgers : Ledgers env o results) (hspares : Spares env o results)
    (hlive : ∀ r ∈ results, alive (accountAt env o r.service) = true)
    (htotals : ∀ r ∈ results, total env r.xy.u r.xy.transfers =
      balances env o + pendingTo transfersIn r.service) :
    total env (mergeBatch blake2 env.toHostEnv timeslot o partials results).o
        (mergeBatch blake2 env.toHostEnv timeslot o partials results).transfersOut ≤
      total env o transfersIn := by
  set merged := (mergeBatch blake2 env.toHostEnv timeslot o partials results).o with hm
  have hsame : ∀ t, alive (accountAt env merged t) =
        alive (accountAt env (mergeResults o results) t) ∧
      held (accountAt env merged t) = held (accountAt env (mergeResults o results) t) :=
    held_integrateProvided rfl
  have hbalances : (balances env merged : ℤ) ≤ balances env o +
      (results.map fun r => (balances env r.xy.u : ℤ) - balances env o).sum := by
    rw [balances_congr fun t => (hsame t).2]
    exact finsum_merge_le (held_merge_le hledgers hspares)
  have hpending : pending env merged (results.flatMap (·.xy.transfers)) ≤
      (results.map fun r => pending env r.xy.u r.xy.transfers).sum := by
    refine pending_flatMap_le fun r hr t ht halive => ?_
    rw [(hsame _).1] at halive
    exact alive_of_merged hclean hledgers hr ((hledgers.each r hr).receivers t ht) halive
  have hcredits : (results.map fun r => (balances env r.xy.u : ℤ) - balances env o).sum +
      ((results.map fun r => pending env r.xy.u r.xy.transfers).sum : ℕ) =
        ((results.map fun r => pendingTo transfersIn r.service).sum : ℕ) := by
    clear * - htotals
    induction results with
    | nil => rfl
    | cons r rs ih =>
      have hfirst := htotals r (.head _)
      have hrest := ih fun r' hr' => htotals r' (.tail _ hr')
      unfold total at hfirst
      simp only [map_cons, sum_cons]
      push_cast at hrest ⊢
      omega
  have hsum : (results.map fun r => pendingTo transfersIn r.service).sum ≤
      pending env o transfersIn := by
    have hservices : ((results.map (·.service)).map (pendingTo transfersIn)).sum ≤
        pending env o transfersIn := by
      refine sum_pendingTo_le hledgers.distinct (fun s hs => ?_) transfersIn
      obtain ⟨r, hr, rfl⟩ := mem_map.mp hs
      exact hlive r hr
    rw [map_map] at hservices
    exact hservices
  show balances env merged + pending env merged (results.flatMap (·.xy.transfers)) ≤
    balances env o + pending env o transfersIn
  omega

end

section

variable (blake2 : Bytes → Hash) (env : StorageEnv) (o : PartialState)
  (transfersIn : List DeferredTransfer)

/-- The result of a service whose calls were all safe: its context, or the one of the last
checkpoint if the run was exceptional. -/
structure SafeResult (r : AccRes) (account : ServiceAccount) (vm₀ vm : AccumulateVM)
    (calls : List Call) : Prop where
  endowed : Endowed env o transfersIn r.service account
  starts : Starts vm₀ o r.service (credited transfersIn account r.service)
  run : Run (safeStep blake2 env) vm₀ calls vm
  xy : r.xy = vm.x.toXContext ∨ r.xy = vm.y.toXContext

/-- **Balances are conserved.** Along safe runs every host call keeps the total of the copy,
and its additions and subtractions are exact; a batch of such runs, of which none spends the
balance of a service that another one ejects, does not hold more in the end than at first. -/
theorem balancesConserved (hclean : CleanTrie env) :
    (∀ (s : UInt32) (account : ServiceAccount) (vm₀ vm vm' : AccumulateVM) (calls : List Call)
        (call : Call), Endowed env o transfersIn s account →
      Starts vm₀ o s (credited transfersIn account s) → Run (safeStep blake2 env) vm₀ calls vm →
      safeStep blake2 env vm call vm' →
        total env vm'.x.u vm'.x.transfers = total env vm.x.u vm.x.transfers ∧
          BalanceExact env (vm.creates call) vm.x.toXContext vm'.x.toXContext) ∧
      ∀ (timeslot : UInt32) (partials : List (UInt32 × XContext)) (results : List AccRes),
        (results.map (·.service)).Nodup →
        (∀ r ∈ results, ∃ account vm₀ vm calls,
          SafeResult blake2 env o transfersIn r account vm₀ vm calls) →
        Spares env o results →
          total env (mergeBatch blake2 env.toHostEnv timeslot o partials results).o
              (mergeBatch blake2 env.toHostEnv timeslot o partials results).transfersOut ≤
            total env o transfersIn := by
  constructor
  · intro s account vm₀ vm vm' calls call hendowed hstart hrun hstep
    have hconserves := (solvent_of_run hclean hendowed hstart hrun).conserves hclean hstep
    exact ⟨hconserves.total, hconserves.exact⟩
  · intro timeslot partials results hdistinct hsafe hspares
    have hledger : ∀ r ∈ results, Ledger env o r.service r.xy ∧
        total env r.xy.u r.xy.transfers = balances env o + pendingTo transfersIn r.service := by
      intro r hr
      obtain ⟨account, vm₀, vm, calls, hresult⟩ := hsafe r hr
      have hsolvent := solvent_of_run hclean hresult.endowed hresult.starts hresult.run
      rcases hresult.xy with hx | hy
      · rw [hx]
        exact ⟨hsolvent.x, hsolvent.totalX⟩
      · rw [hy]
        exact ⟨hsolvent.y, hsolvent.totalY⟩
    refine total_mergeBatch_le blake2 timeslot partials hclean
      ⟨fun r hr => (hledger r hr).1, hdistinct⟩ hspares (fun r hr => ?_)
      fun r hr => (hledger r hr).2
    obtain ⟨account, vm₀, vm, calls, hresult⟩ := hsafe r hr
    rw [hresult.endowed.found, alive_some, hresult.endowed.live]
    rfl

end

variable {env : StorageEnv} {created : Option UInt32} {x x' : IndexedContext} {t : DeferredTransfer}

section

variable (h : BalanceEffect env created x x') (ht : x'.transfers = x.transfers ++ [t])
include h ht

/-- A call that defers a transfer is a TRANSFER. -/
theorem deferTransfer_of_transfers : created = none ∧ ∃ x₁ sender, Still env x x₁ ∧
      x₁.u.serviceAccounts x₁.serviceIndex = some sender ∧ t.amount ≤ sender.balance ∧
        x' = deferTransfer x₁ sender t := by
  cases h with
  | still _ hstill => exact absurd (hstill.transfers.symm.trans ht) (ne_append_singleton _ t)
  | new => exact absurd ht (ne_append_singleton _ t)
  | @transfer x₁ sender _ t' hcreated hstill _ hsender hamount =>
    have hsame : x₁.transfers ++ [t'] = x.transfers ++ [t] := ht
    rw [hstill.transfers] at hsame
    obtain rfl := singleton_inj.mp (append_cancel_left hsame)
    exact ⟨hcreated, x₁, sender, hstill, hsender, hamount, rfl⟩
  | @eject x₁ _ _ _ _ _ _ hstill =>
    have hsame : x₁.transfers = x.transfers ++ [t] := ht
    exact absurd (hstill.transfers.symm.trans hsame) (ne_append_singleton _ t)

/-- A TRANSFER to an account that exists is safe. -/
theorem balanceSafe_of_transfers (halive : alive (accountAt env x.u t.receiverIndex) = true) :
    BalanceSafe env created x.toXContext x'.toXContext := by
  obtain ⟨hcreated, x₁, sender, hstill, hsender, -, rfl⟩ := deferTransfer_of_transfers h ht
  refine ⟨fun c hc => (nomatch hcreated.symm.trans hc), fun t' ht' => ?_,
    fun d hbefore hafter => ?_⟩
  · obtain rfl := singleton_inj.mp (append_cancel_left (ht.symm.trans ht'))
    exact .inr halive
  · let taken : ServiceAccount :=
      { sender with balance := sender.balance - t.amount, dirty := true }
    have hsame : alive (accountAt env (deferTransfer x₁ sender t).u d) =
        alive (accountAt env x.u d) :=
      (alive_setAccount hsender (show taken.deletedAccount = sender.deletedAccount from rfl)
        d).trans (hstill.alive d)
    exact nomatch hbefore.symm.trans (hsame.symm.trans hafter)

end

theorem cleanTrie_emptyTrie : CleanTrie emptyTrie := fun _ _ h => nomatch h

/-- The newcomer transfers 10 to itself: the batch ends with no more than it had at first. -/
theorem balancesConserved_transfer : ∃ vm : AccumulateVM,
      newcomerVM.call (fun _ => 0) emptyTrie (callOf (.host .transfer) [1, 10, 0, 0]) = some vm ∧
        total emptyTrie vm.x.u vm.x.transfers =
          total emptyTrie newcomerVM.x.u newcomerVM.x.transfers ∧
        total emptyTrie (mergeBatch (fun _ => 0) emptyTrie.toHostEnv 0 (contextOf newcomer).u []
            [⟨1, 0, 0, vm.x.toXContext⟩]).o (mergeBatch (fun _ => 0) emptyTrie.toHostEnv 0
              (contextOf newcomer).u [] [⟨1, 0, 0, vm.x.toXContext⟩]).transfersOut ≤
          total emptyTrie (contextOf newcomer).u [] := by
  obtain ⟨vm, hvm, hreceiver⟩ : ∃ vm, newcomerVM.call (fun _ => 0) emptyTrie
      (callOf (.host .transfer) [1, 10, 0, 0]) = some vm ∧
      vm.x.transfers.map (·.receiverIndex) = [1] := by decide +kernel
  obtain ⟨t, htransfers, hone⟩ : ∃ t, vm.x.transfers = [t] ∧ t.receiverIndex = 1 :=
    map_eq_singleton_iff.mp hreceiver
  have hendowed : Endowed emptyTrie (contextOf newcomer).u [] 1 newcomer := ⟨rfl, rfl, by decide⟩
  have hsafe : safeStep (fun _ => 0) emptyTrie newcomerVM
      (callOf (.host .transfer) [1, 10, 0, 0]) vm := by
    refine ⟨hvm, balanceSafe_of_transfers (balanceEffect_of_call rfl hvm) htransfers ?_⟩
    rw [hone]
    decide
  have hconserved := balancesConserved (fun _ => 0) emptyTrie (contextOf newcomer).u []
    cleanTrie_emptyTrie
  have hcall := hconserved.1 1 newcomer newcomerVM newcomerVM vm [] _ hendowed starts_newcomerVM
    .refl hsafe
  have hspares : Spares emptyTrie (contextOf newcomer).u [⟨1, 0, 0, vm.x.toXContext⟩] := by
    intro r hr r' hr' hejects
    rw [mem_singleton] at hr hr'
    subst hr hr'
    exact absurd rfl hejects.1
  refine ⟨vm, hvm, hcall.1, hconserved.2 0 [] _ (nodup_singleton _) (fun r hr => ?_) hspares⟩
  rw [mem_singleton] at hr
  subst hr
  exact ⟨newcomer, newcomerVM, vm, _, hendowed, starts_newcomerVM, .single hsafe, .inl rfl⟩

/-- The accounts after service 2 was ejected in an earlier batch of the block. -/
def bereaved : PartialState :=
  (contextOf newcomer).u.setAccount 2 { serviceIndex := 2, dirty := true, deletedAccount := true }

def bereavedVM : AccumulateVM where
  toHostVM :=
    { machineOf .accumulate newcomer [] with x := ⟨newXContext bereaved 1 newcomer, 65536⟩ }
  y := ⟨newXContext bereaved 1 newcomer, 65536⟩
  gas := 100

/-- A TRANSFER of 10 to a service that was ejected is accepted, and the amount is lost. -/
theorem transfer_lost : CleanTrie emptyTrie ∧ Endowed emptyTrie bereaved [] 1 newcomer ∧
      Starts bereavedVM bereaved 1 (credited [] newcomer 1) ∧
      ∃ vm, bereavedVM.call (fun _ => 0) emptyTrie (callOf (.host .transfer) [2, 10, 0, 0]) =
          some vm ∧ vm.reg 7 = Code.ok ∧
        total emptyTrie vm.x.u vm.x.transfers + 10 =
          total emptyTrie bereavedVM.x.u bereavedVM.x.transfers := by
  refine ⟨cleanTrie_emptyTrie, ⟨rfl, rfl, by decide⟩, ⟨rfl, rfl, rfl⟩, ?_⟩
  obtain ⟨vm, hvm, hok, hlist⟩ : ∃ vm, bereavedVM.call (fun _ => 0) emptyTrie
      (callOf (.host .transfer) [2, 10, 0, 0]) = some vm ∧ vm.reg 7 = Code.ok ∧
      vm.x.transfers.map (fun t => (t.receiverIndex, t.amount)) = [(2, 10)] := by decide +kernel
  refine ⟨vm, hvm, hok, ?_⟩
  obtain ⟨t, htransfers, hpair⟩ := map_eq_singleton_iff.mp hlist
  obtain ⟨hreceiver, hamount⟩ := Prod.mk.inj hpair
  obtain ⟨-, x₁, sender, hstill, hsender, hle, hx⟩ :=
    deferTransfer_of_transfers (balanceEffect_of_call rfl hvm) htransfers
  have hdead : alive (accountAt emptyTrie x₁.u t.receiverIndex) = false := by
    rw [hstill.alive, hreceiver]
    decide
  have hlive : sender.deletedAccount = false := by
    have halive := hstill.alive x₁.serviceIndex
    rw [accountAt_of_some hsender, alive_some, hstill.serviceIndex] at halive
    have hexists : (!sender.deletedAccount) = true := halive.trans (by decide)
    rwa [Bool.not_eq_true'] at hexists
  have htotal : total emptyTrie (deferTransfer x₁ sender t).u (deferTransfer x₁ sender t).transfers
      + t.amount.toNat = total emptyTrie x₁.u x₁.transfers +
        if alive (accountAt emptyTrie x₁.u t.receiverIndex) then t.amount.toNat else 0 :=
    total_deferTransfer hsender hlive hle
  rw [hdead, hamount, hstill.total] at htotal
  rw [hx]
  exact htotal

end JamDuna.Pvm
