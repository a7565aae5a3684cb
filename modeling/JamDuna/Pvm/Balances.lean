/-
# Balances

The accounts of a context are an overlay over those of the state trie. What the services hold
is the sum of the balances of all accounts that exist, together with the amounts of the
deferred transfers that are under way to one (`total`).

NEW, TRANSFER and EJECT of `statedb/pvm_hostfunctions.go` move amounts between them; no other
host call does (`BalanceEffect`, `balanceEffect_of_call`). For each of the three there is an
equation that says what it does to the total, with the amounts that are lost:

* NEW under an index that the trie has an account for hides that account;
* TRANSFER to an account that is marked as deleted is under way to nobody;
* EJECT drops the transfers that are under way to the ejected service, and adds its balance
  modulo `2 ^ 64`.
-/

import JamDuna.Basis.Copies
import JamDuna.Basis.MapWeight
import JamDuna.Pvm.ServiceRuns

namespace JamDuna.Pvm

open JamDuna.Basis Accumulation List Function Option

/-- The account exists. -/
def alive (e : Option ServiceAccount) : Bool := e.any fun a => !a.deletedAccount

/-- The balance of an account that exists. -/
def held (e : Option ServiceAccount) : ℕ := if alive e then (e.map (·.balance.toNat)).getD 0 else 0

variable (env : StorageEnv) (u : PartialState)

/-- The account under an index, where the overlay takes precedence over the trie. -/
def accountAt (t : UInt32) : Option ServiceAccount := (u.serviceAccounts t).or (env.getService t)

/-- The sum of all balances. -/
noncomputable def balances : ℕ := ∑ᶠ t, held (accountAt env u t)

/-- The amounts that are under way to accounts that exist. -/
def pending (transfers : List DeferredTransfer) : ℕ :=
  (transfers.map fun t =>
    if alive (accountAt env u t.receiverIndex) then t.amount.toNat else 0).sum

/-- The amounts that are under way to an index. -/
def pendingTo (transfers : List DeferredTransfer) (d : UInt32) : ℕ :=
  (transfers.map fun t => if t.receiverIndex = d then t.amount.toNat else 0).sum

/-- All that the services hold. -/
noncomputable def total (transfers : List DeferredTransfer) : ℕ :=
  balances env u + pending env u transfers

variable {env u} {u' : PartialState}

variable {a : ServiceAccount} {s : UInt32}

theorem held_some (h : a.deletedAccount = false) : held (some a) = a.balance.toNat := by
  simp [held, alive, h]

theorem held_of_not_alive {e : Option ServiceAccount} (h : alive e = false) : held e = 0 := by
  unfold held
  rw [h]
  rfl

theorem alive_some (a : ServiceAccount) : alive (some a) = !a.deletedAccount := rfl

variable {t : UInt32} {b : ServiceAccount} {transfers : List DeferredTransfer}

theorem accountAt_of_some (h : u.serviceAccounts t = some a) : accountAt env u t = some a := by
  unfold accountAt
  rw [h]
  rfl

theorem accountAt_setAccount_self (s : UInt32) (a : ServiceAccount) :
    accountAt env (u.setAccount s a) s = some a :=
  accountAt_of_some (update_self ..)

theorem accountAt_setAccount_of_ne (h : t ≠ s) (a : ServiceAccount) :
    accountAt env (u.setAccount s a) t = accountAt env u t := by
  have hentry : (u.setAccount s a).serviceAccounts t = u.serviceAccounts t :=
    update_of_ne h ..
  unfold accountAt
  rw [hentry]

/-- **One account changes the balances** by the difference. -/
theorem balances_setAccount (s : UInt32) (a : ServiceAccount) :
    balances env (u.setAccount s a) + held (accountAt env u s) =
      balances env u + held (some a) := by
  have hupdate : (fun t => held (accountAt env (u.setAccount s a) t)) =
      update (fun t => held (accountAt env u t)) s (held (some a)) := by
    funext t
    by_cases hts : t = s
    · subst hts
      rw [update_self, accountAt_setAccount_self]
    · rw [update_of_ne hts, accountAt_setAccount_of_ne hts]
  unfold balances
  rw [hupdate]
  exact finsum_update_add (Set.toFinite _) s _

/-- The balance of an account that exists changes the balances. -/
theorem balances_setBalance (ha : u.serviceAccounts s = some a) (hlive : a.deletedAccount = false)
    (hlive' : b.deletedAccount = false) :
    balances env (u.setAccount s b) + a.balance.toNat = balances env u + b.balance.toNat := by
  have h : balances env (u.setAccount s b) + held (accountAt env u s) =
      balances env u + held (some b) := balances_setAccount s b
  rw [accountAt_of_some ha, held_some hlive, held_some hlive'] at h
  exact h

/-- Whether an account exists does not depend on its balance. -/
theorem alive_setAccount
    (ha : u.serviceAccounts s = some a) (hdeleted : b.deletedAccount = a.deletedAccount)
    (t : UInt32) : alive (accountAt env (u.setAccount s b) t) = alive (accountAt env u t) := by
  by_cases hts : t = s
  · subst hts
    rw [accountAt_setAccount_self, accountAt_of_some ha, alive_some, alive_some, hdeleted]
  · rw [accountAt_setAccount_of_ne hts]

theorem balances_congr (h : ∀ t, held (accountAt env u' t) = held (accountAt env u t)) :
    balances env u' = balances env u :=
  finsum_congr h

theorem pending_congr (h : ∀ t ∈ transfers, alive (accountAt env u' t.receiverIndex) =
      alive (accountAt env u t.receiverIndex)) :
    pending env u' transfers = pending env u transfers := by
  refine congrArg sum (map_congr_left fun t ht => ?_)
  rw [h t ht]

theorem pending_append (transfers : List DeferredTransfer) (t : DeferredTransfer) :
    pending env u (transfers ++ [t]) = pending env u transfers +
      if alive (accountAt env u t.receiverIndex) then t.amount.toNat else 0 := by
  unfold pending
  rw [map_append, sum_append]
  rfl

/-- The transfers to a service that goes are no longer under way. -/
theorem pending_of_ejected {d : UInt32}
    (halive : alive (accountAt env u d) = true) (hdead : alive (accountAt env u' d) = false)
    (hrest : ∀ t, t ≠ d → alive (accountAt env u' t) = alive (accountAt env u t)) :
    pending env u' transfers + pendingTo transfers d = pending env u transfers := by
  unfold pending pendingTo
  induction transfers with
  | nil => rfl
  | cons t ts ih =>
    simp only [map_cons, sum_cons]
    by_cases htd : t.receiverIndex = d
    · rw [htd, halive, hdead, if_pos rfl, if_pos rfl, if_neg Bool.false_ne_true]
      omega
    · rw [hrest _ htd, if_neg htd]
      omega

variable (env)

/-- Accounts keep their holdings or come in from the trie, and no transfer is deferred. -/
structure Still (x x' : IndexedContext) : Prop where
  serviceIndex : x'.serviceIndex = x.serviceIndex
  accounts : ∀ t, EntryKept env x.serviceIndex t (x.u.serviceAccounts t) (x'.u.serviceAccounts t)
  transfers : x'.transfers = x.transfers

/-- The context after a NEW. -/
def createService (x : IndexedContext) (xs n : ServiceAccount) (c next : UInt32) (h : Hash)
    (l : UInt32) : IndexedContext :=
  { x with
    newServiceIndex := next
    u := (x.u.setAccount x.serviceIndex
      { xs with balance := xs.balance - n.balance, dirty := true }).setAccount c
        (n.writeLookup h l (some [])) }

/-- What a host call does to balances, given the index of the account that it creates. -/
inductive BalanceEffect (created : Option UInt32) (x : IndexedContext) : IndexedContext → Prop
  | still {x' : IndexedContext} : created = none → Still env x x' → BalanceEffect created x x'
  | new {xs n : ServiceAccount} (c next : UInt32) (h : Hash) (l : UInt32) :
      created = some c → x.u.serviceAccounts x.serviceIndex = some xs →
      x.u.serviceAccounts c = none → n.balance ≤ xs.balance → n.deletedAccount = false →
      n.newAccount = true → BalanceEffect created x (createService x xs n c next h l)
  | transfer {x₁ : IndexedContext} {sender receiver : ServiceAccount} (t : DeferredTransfer) :
      created = none → Still env x x₁ → x₁.u.serviceAccounts t.receiverIndex = some receiver →
      x₁.u.serviceAccounts x₁.serviceIndex = some sender → t.amount ≤ sender.balance →
      BalanceEffect created x (deferTransfer x₁ sender t)
  | eject {x₁ : IndexedContext} {xs boldD : ServiceAccount} (d : UInt32) (h : Hash) (l : UInt32) :
      created = none → Still env x x₁ → x₁.u.serviceAccounts d = some boldD →
      x₁.u.serviceAccounts x₁.serviceIndex = some xs → boldD.deletedAccount = false →
      boldD.codeHash = ejectorHash x₁.serviceIndex →
      BalanceEffect created x (ejectService x₁ d xs boldD h l)

variable {env} {blake2 : Bytes → Hash} {x x' : IndexedContext}

theorem Quiet.still (h : Quiet env x x') : Still env x x' :=
  ⟨h.serviceIndex, h.accounts, h.transfers⟩

theorem Still.of_eq (hindex : x'.serviceIndex = x.serviceIndex)
    (haccounts : x'.u.serviceAccounts = x.u.serviceAccounts)
    (htransfers : x'.transfers = x.transfers) : Still env x x' := by
  refine ⟨hindex, fun t => ?_, htransfers⟩
  rw [haccounts]
  exact EntryKept.refl _ t _

/-- The effects other than NEW. -/
theorem HostEffect.balanceEffect {fn : AccumulateFn} (h : HostEffect blake2 env x fn x')
    (hfn : fn ≠ .new) : BalanceEffect env none x x' := by
  cases h with
  | quiet _ hquiet _ => exact .still rfl hquiet.still
  | bless m v r a z =>
    refine .still rfl (Still.of_eq ?_ ?_ ?_) <;>
      (dsimp only [XContext.hostBless]; split_ifs <;> rfl)
  | assign c q a =>
    refine .still rfl (Still.of_eq ?_ ?_ ?_) <;>
      (dsimp only [XContext.hostAssign, XContext.assignCore]; split_ifs <;> rfl)
  | designate v =>
    refine .still rfl (Still.of_eq ?_ ?_ ?_) <;>
      (dsimp only [XContext.hostDesignate]; split_ifs <;> rfl)
  | provide target blob => exact .still rfl (quiet_hostProvide x target blob).still
  | new => exact absurd rfl hfn
  | transfer t hquiet _ hreceiver hsender hamount =>
    exact .transfer t rfl hquiet.still hreceiver hsender hamount
  | eject d k l hquiet _ hd hxs hlive hcode =>
    exact .eject d k l rfl hquiet.still hd hxs hlive hcode

variable {vm vm' : AccumulateVM} {call : Call}

/-- NEW. -/
theorem balanceEffect_of_new (hmode : vm.mode = .accumulate) (hfn : call.fn = .new)
    (h : vm.call blake2 env call = some vm') : BalanceEffect env (vm.creates call) vm.x vm'.x := by
  unfold AccumulateVM.call at h
  rw [hfn] at h
  obtain ⟨host, hhost, rfl⟩ := map_eq_some_iff.mp h
  unfold HostVM.hostNew at hhost
  rw [if_neg (not_not.mpr (show (vm.prepare call).mode = .accumulate from hmode))] at hhost
  split at hhost
  · cases hhost
  · next result x₁ hnew =>
    have hnew' : vm.x.hostNew vm.timeslot (vm.prepare call).newArgs = some (result, x₁) := hnew
    rcases hostNew_cases hnew' with ⟨next, hx₁, hno⟩ | ⟨xs, codeHash, c, next, rfl, hmade, hx₁⟩
    · have hcreates : vm.creates call = none := by
        unfold AccumulateVM.creates
        rw [hfn, hnew']
        cases result with
        | ok c => exact absurd rfl (hno c)
        | _ => rfl
      refine .still hcreates ?_
      split at hhost
      · cases hhost
        exact Still.of_eq rfl rfl rfl
      · cases hhost
        show Still env vm.x x₁
        rw [hx₁]
        exact Still.of_eq rfl rfl rfl
    · have hcreates : vm.creates call = some c := by
        unfold AccumulateVM.creates
        rw [hfn, hnew']
      cases hhost
      have hpays : (newAccountOf vm.timeslot xs codeHash (vm.prepare call).newArgs c).balance ≤
          xs.balance := UInt64.not_lt.mp (not_or.mp hmade.pays).1
      show BalanceEffect env (vm.creates call) vm.x x₁
      rw [hx₁]
      exact .new c next codeHash _ hcreates hmade.own hmade.not_in_partial hpays rfl rfl

/-- **What a host call does to balances.** -/
theorem balanceEffect_of_call
    (hmode : vm.mode = .accumulate) (h : vm.call blake2 env call = some vm') :
    BalanceEffect env (vm.creates call) vm.x vm'.x := by
  by_cases hfn : call.fn = .new
  · exact balanceEffect_of_new hmode hfn h
  · have hcreates : vm.creates call = none := by
      cases hc : vm.creates call with
      | none => rfl
      | some c => exact absurd (hostNew_of_creates hc).1 hfn
    rw [hcreates]
    rcases (callEffect_of_call h).contexts with ⟨-, hx, -⟩ | ⟨-, -, heffect⟩
    · rw [hx]
      exact .still rfl (Still.of_eq rfl rfl rfl)
    · exact heffect.balanceEffect hfn

/-- An entry that is kept is the same account, as far as its holdings go. -/
theorem EntryKept.same {s t : UInt32} {e e' : Option ServiceAccount} (h : EntryKept env s t e e') :
    alive (e'.or (env.getService t)) = alive (e.or (env.getService t)) ∧
      held (e'.or (env.getService t)) = held (e.or (env.getService t)) := by
  have hsame : ∀ {a b : ServiceAccount}, SameHoldings (t = s) a b →
      alive (some b) = alive (some a) ∧ held (some b) = held (some a) := by
    intro a b hab
    have halive : alive (some b) = alive (some a) := by
      rw [alive_some, alive_some, hab.deletedAccount]
    refine ⟨halive, ?_⟩
    unfold held
    rw [halive, map_some, map_some, hab.balance]
  cases h with
  | absent => exact ⟨rfl, rfl⟩
  | kept hab => exact hsame hab
  | loaded ha hab =>
    rw [none_or, ha]
    exact hsame hab

theorem Still.alive (h : Still env x x') (t : UInt32) :
    alive (accountAt env x'.u t) = alive (accountAt env x.u t) := (h.accounts t).same.1

theorem Still.held (h : Still env x x') (t : UInt32) :
    held (accountAt env x'.u t) = held (accountAt env x.u t) := (h.accounts t).same.2

/-- A still call keeps the total. -/
theorem Still.total (h : Still env x x') :
    total env x'.u x'.transfers = total env x.u x.transfers := by
  unfold Pvm.total
  rw [h.transfers, balances_congr h.held, pending_congr fun t _ => h.alive t.receiverIndex]

/-- **TRANSFER** takes the amount from the sender, and has it under way if the receiver
exists. -/
theorem total_deferTransfer {sender : ServiceAccount} {t : DeferredTransfer}
    (hsender : x.u.serviceAccounts x.serviceIndex = some sender)
    (hlive : sender.deletedAccount = false) (hamount : t.amount ≤ sender.balance) :
    total env (deferTransfer x sender t).u (deferTransfer x sender t).transfers + t.amount.toNat =
      total env x.u x.transfers +
        if alive (accountAt env x.u t.receiverIndex) then t.amount.toNat else 0 := by
  set y := deferTransfer x sender t
  have halive : ∀ i, alive (accountAt env y.u i) =
      alive (accountAt env x.u i) := alive_setAccount hsender rfl
  have hbalances : balances env y.u + sender.balance.toNat =
      balances env x.u + (sender.balance - t.amount).toNat :=
    balances_setBalance hsender hlive hlive
  rw [UInt64.toNat_sub_of_le _ _ hamount] at hbalances
  have hle := UInt64.le_iff_toNat_le.mp hamount
  show balances env y.u + pending env y.u (x.transfers ++ [t]) + _ =
      balances env x.u + pending env x.u x.transfers + _
  rw [pending_append, halive, pending_congr fun i _ => halive i.receiverIndex]
  omega

variable {h : Hash} {l : UInt32}

variable {boldD xs : ServiceAccount} {d : UInt32}

/-- **NEW** takes the balance of the new account from the running service; an account that the
trie has under the new index is hidden. -/
theorem total_createService {n : ServiceAccount} {c next : UInt32}
    (hown : x.u.serviceAccounts x.serviceIndex = some xs) (hlive : xs.deletedAccount = false)
    (hfree : x.u.serviceAccounts c = none) (hpays : n.balance ≤ xs.balance)
    (hn : n.deletedAccount = false)
    (hreceivers : ∀ t ∈ x.transfers, (x.u.serviceAccounts t.receiverIndex).isSome) :
    total env (createService x xs n c next h l).u (createService x xs n c next h l).transfers +
        held (env.getService c) =
      total env x.u x.transfers := by
  let paid := x.u.setAccount x.serviceIndex
    { xs with balance := xs.balance - n.balance, dirty := true }
  let made := n.writeLookup h l (some [])
  have hne : c ≠ x.serviceIndex := by
    rintro rfl
    exact nomatch hfree.symm.trans hown
  have hbefore : accountAt env paid c = env.getService c := by
    rw [accountAt_setAccount_of_ne hne]
    unfold accountAt
    rw [hfree, none_or]
  have hpaid : balances env paid + xs.balance.toNat =
      balances env x.u + (xs.balance - n.balance).toNat :=
    balances_setBalance hown hlive hlive
  have hmade : balances env (paid.setAccount c made) + held (accountAt env paid c) =
      balances env paid + held (some made) :=
    balances_setAccount c made
  have hmadeHeld : held (some made) = n.balance.toNat := held_some hn
  have hpending : pending env (paid.setAccount c made) x.transfers =
      pending env x.u x.transfers := by
    refine pending_congr fun t ht => ?_
    have htc : t.receiverIndex ≠ c := by
      rintro rfl
      have hsome := hreceivers t ht
      rw [hfree] at hsome
      cases hsome
    rw [accountAt_setAccount_of_ne htc]
    exact alive_setAccount hown (by rfl) _
  rw [hbefore, hmadeHeld] at hmade
  rw [UInt64.toNat_sub_of_le _ _ hpays] at hpaid
  have hle := UInt64.le_iff_toNat_le.mp hpays
  show balances env (paid.setAccount c made) + pending env (paid.setAccount c made) x.transfers +
    _ = balances env x.u + pending env x.u x.transfers
  rw [hpending]
  omega

theorem ejectService_u (hd : x.u.serviceAccounts d = some boldD) (hne : d ≠ x.serviceIndex) :
    (ejectService x d xs boldD h l).u =
      (creditEjector x xs boldD).setAccount d (ejectedAccount boldD h l) := by
  have hentry : (creditEjector x xs boldD).serviceAccounts d = some boldD :=
    (update_of_ne hne ..).trans hd
  unfold ejectService
  dsimp only
  rw [hentry, getD_some]

/-- **EJECT** of another service adds its balance to that of the running service, modulo
`2 ^ 64`, and drops the transfers to it. -/
theorem total_ejectService (hd : x.u.serviceAccounts d = some boldD)
    (hown : x.u.serviceAccounts x.serviceIndex = some xs) (hne : d ≠ x.serviceIndex)
    (hlive : xs.deletedAccount = false) (hliveD : boldD.deletedAccount = false) :
    total env (ejectService x d xs boldD h l).u (ejectService x d xs boldD h l).transfers +
        boldD.balance.toNat + xs.balance.toNat + pendingTo x.transfers d =
      total env x.u x.transfers + (xs.balance + boldD.balance).toNat := by
  have hcredited : balances env (creditEjector x xs boldD) + xs.balance.toNat =
      balances env x.u + (xs.balance + boldD.balance).toNat :=
    balances_setBalance hown hlive hlive
  have hbefore : accountAt env (creditEjector x xs boldD) d = some boldD :=
    accountAt_of_some ((update_of_ne hne ..).trans hd)
  have hdead : alive (some (ejectedAccount boldD h l)) = false := rfl
  have hgone := @balances_setAccount env (creditEjector x xs boldD) d (ejectedAccount boldD h l)
  rw [hbefore, held_some hliveD, held_of_not_alive hdead] at hgone
  have hpending : pending env (ejectService x d xs boldD h l).u x.transfers +
      pendingTo x.transfers d = pending env x.u x.transfers := by
    rw [ejectService_u hd hne]
    refine pending_of_ejected ?_ ?_ fun t htd => ?_
    · rw [accountAt_of_some hd, alive_some, hliveD]
      rfl
    · rw [accountAt_setAccount_self]
      exact hdead
    · rw [accountAt_setAccount_of_ne htd]
      exact alive_setAccount hown (by rfl) t
  rw [← ejectService_u hd hne] at hgone
  show balances env (ejectService x d xs boldD h l).u +
    pending env (ejectService x d xs boldD h l).u x.transfers + _ + _ + _ =
      balances env x.u + pending env x.u x.transfers + _
  omega

end JamDuna.Pvm
