/-
# Runs that lose nothing

`SingleAccumulate` of `statedb/accumulate.go` credits the transfers to a service, makes a copy
of the accounts and runs the service on it; the result is the copy, or the one that the last
CHECKPOINT put aside.

A run that starts with an account that exists, whose credited balance fits, and whose calls are
all safe keeps both copies related to the base and keeps their totals: what all services hold
at first, with what is credited (`Solvent`, `solvent_of_run`).
-/

import JamDuna.Pvm.BalanceRuns

namespace JamDuna.Pvm

open JamDuna.Basis Accumulation List ServiceAccount

section

variable {env : StorageEnv} {o : PartialState} {s : UInt32} {x : XContext}

/-- An account that a change of flags leaves as it is, as far as its holdings go. -/
theorem held_map (f : ServiceAccount → ServiceAccount) {e rest : Option ServiceAccount}
    (hdeleted : ∀ a, (f a).deletedAccount = a.deletedAccount)
    (hbalance : ∀ a, (f a).balance = a.balance) :
    alive ((e.map f).or rest) = alive (e.or rest) ∧
      held ((e.map f).or rest) = held (e.or rest) := by
  cases e with
  | none => exact ⟨rfl, rfl⟩
  | some a =>
    have halive : alive (some (f a)) = alive (some a) := by
      rw [alive_some, alive_some, hdeleted]
    refine ⟨halive, ?_⟩
    show held (some (f a)) = held (some a)
    unfold held
    rw [halive, Option.map_some, Option.map_some, hbalance]

theorem total_checkpoint (u : PartialState) (transfers : List DeferredTransfer) :
    total env u.checkpoint transfers = total env u transfers := by
  have hsame : ∀ t, alive (accountAt env u.checkpoint t) = alive (accountAt env u t) ∧
      held (accountAt env u.checkpoint t) = held (accountAt env u t) :=
    fun _ => held_map (fun a => { a with dirty := a.newAccount || a.dirty }) (fun _ => rfl)
      fun _ => rfl
  unfold total
  rw [balances_congr fun t => (hsame t).2, pending_congr fun t _ => (hsame t.receiverIndex).1]

/-- CHECKPOINT marks accounts that are new, which were marked before. -/
theorem Ledger.checkpoint (h : Ledger env o s x) :
    Ledger env o s { x with u := x.u.checkpoint } := by
  obtain ⟨a, ha, hown⟩ := h.own
  refine ⟨h.index, ⟨{ a with dirty := a.newAccount || a.dirty }, ?_, hown.live, fun hdirty => ?_⟩,
    fun t hts => ?_, fun t ht => ?_⟩
  · show (x.u.serviceAccounts s).map _ = _
    rw [ha]
    rfl
  · exact hown.unmarked (Bool.or_eq_false_iff.mp hdirty).2
  · have hfate := h.fates t hts
    show Fate env s t _ ((x.u.serviceAccounts t).map _)
    generalize x.u.serviceAccounts t = e at hfate
    cases hfate with
    | absent hbase => exact .absent hbase
    | kept hbase hbalance hdeleted hcode hdirty hnew =>
      exact .kept hbase hbalance hdeleted hcode (Bool.or_eq_false_iff.mpr ⟨hnew, hdirty⟩) hnew
    | ejected hbase hlive hcode hdeleted hdirty =>
      exact .ejected hbase hlive hcode hdeleted (Bool.or_eq_true_iff.mpr (.inr hdirty))
    | created hbase hzero hdirty =>
      exact .created hbase hzero (Bool.or_eq_true_iff.mpr (.inr hdirty))
  · show ((x.u.serviceAccounts t.receiverIndex).map _).isSome
    rw [Option.isSome_map]
    exact h.receivers t ht

end

section

variable {env : StorageEnv} {o : PartialState} {s : UInt32} {account : ServiceAccount}

/-- The amounts that are credited. -/
theorem toNat_foldl_amount (selected : List DeferredTransfer) (b : UInt64)
    (hfits : b.toNat + (selected.map (·.amount.toNat)).sum < 2 ^ 64) :
    (selected.foldl (fun b t => b + t.amount) b).toNat =
      b.toNat + (selected.map (·.amount.toNat)).sum := by
  induction selected generalizing b with
  | nil => rfl
  | cons t ts ih =>
    rw [map_cons, sum_cons] at hfits ⊢
    have hadd : (b + t.amount).toNat = b.toNat + t.amount.toNat := by
      rw [UInt64.toNat_add, Nat.mod_eq_of_lt (by omega)]
    rw [foldl_cons, ih _ (by omega), hadd]
    omega

theorem sum_selected (transfersIn : List DeferredTransfer) (s : UInt32) :
    ((transfersIn.filter (·.receiverIndex == s)).map (·.amount.toNat)).sum =
      pendingTo transfersIn s := by
  unfold pendingTo
  induction transfersIn with
  | nil => rfl
  | cons t ts ih =>
    rw [map_cons, sum_cons, filter_cons, ← ih]
    by_cases hts : t.receiverIndex = s
    · rw [if_pos (beq_iff_eq.mpr hts), if_pos hts, map_cons, sum_cons]
    · rw [if_neg (mt beq_iff_eq.mp hts), if_neg hts, Nat.zero_add]

variable (transfersIn : List DeferredTransfer)

/-- The account of a service with the transfers of the batch to it credited. -/
def credited (account : ServiceAccount) (s : UInt32) : ServiceAccount :=
  account.credit (transfersIn.filter (·.receiverIndex == s))

variable {transfersIn}

theorem deletedAccount_credited :
    (credited transfersIn account s).deletedAccount = account.deletedAccount := by
  unfold credited credit
  split_ifs <;> rfl

theorem toNat_balance_credited (hfits : account.balance.toNat + pendingTo transfersIn s < 2 ^ 64) :
    (credited transfersIn account s).balance.toNat =
      account.balance.toNat + pendingTo transfersIn s := by
  rw [← sum_selected] at hfits ⊢
  unfold credited credit
  split_ifs with hempty
  · rw [isEmpty_iff.mp hempty]
    rfl
  · exact toNat_foldl_amount _ _ hfits

/-- What a service starts from. -/
structure Endowed (env : StorageEnv) (o : PartialState) (transfersIn : List DeferredTransfer)
    (s : UInt32) (account : ServiceAccount) : Prop where
  found : accountAt env o s = some account
  live : account.deletedAccount = false
  fits : account.balance.toNat + pendingTo transfersIn s < 2 ^ 64

theorem ledger_newXContext (h : Endowed env o transfersIn s account) :
    Ledger env o s (newXContext o s (credited transfersIn account s)) := by
  refine ⟨rfl, ⟨_, Function.update_self .., deletedAccount_credited.trans h.live, fun hdirty => ?_⟩,
    fun t hts => ?_, nofun⟩
  · rw [h.found, held_some h.live]
    unfold credited credit at hdirty ⊢
    split_ifs at hdirty ⊢
    rfl
  · have hentry : (newXContext o s (credited transfersIn account s)).u.serviceAccounts t =
        (o.serviceAccounts t).map (·.resetDirtyFlags) := Function.update_of_ne hts ..
    rw [hentry]
    cases o.serviceAccounts t with
    | none => exact .absent rfl
    | some a => exact .kept rfl rfl rfl rfl rfl rfl

/-- The copy of a service holds what all services do, and what is credited. -/
theorem total_newXContext (h : Endowed env o transfersIn s account) :
    total env (newXContext o s (credited transfersIn account s)).u [] =
      balances env o + pendingTo transfersIn s := by
  have hsame : ∀ t, held (accountAt env o.resetDirtyFlags t) = held (accountAt env o t) :=
    fun t => (held_map resetDirtyFlags (fun _ => rfl) fun _ => rfl).2
  have hset : balances env (o.resetDirtyFlags.setAccount s (credited transfersIn account s)) +
      held (accountAt env o.resetDirtyFlags s) = balances env o.resetDirtyFlags +
        held (some (credited transfersIn account s)) := balances_setAccount s _
  rw [hsame, h.found, held_some h.live, balances_congr hsame,
    held_some (deletedAccount_credited.trans h.live), toNat_balance_credited h.fits] at hset
  show balances env (o.resetDirtyFlags.setAccount s (credited transfersIn account s)) + 0 = _
  omega

end

variable (blake2 : Bytes → Hash) (env : StorageEnv)

/-- A call that loses nothing. -/
def safeStep (vm : AccumulateVM) (call : Call) (vm' : AccumulateVM) : Prop :=
  vm.call blake2 env call = some vm' ∧
    BalanceSafe env (vm.creates call) vm.x.toXContext vm'.x.toXContext

/-- Both contexts of a machine that has lost nothing of an amount. -/
structure Solvent (o : PartialState) (s : UInt32) (amount : ℕ) (vm : AccumulateVM) : Prop where
  mode : vm.mode = .accumulate
  x : Ledger env o s vm.x.toXContext
  y : Ledger env o s vm.y.toXContext
  totalX : total env vm.x.u vm.x.transfers = amount
  totalY : total env vm.y.u vm.y.transfers = amount

variable {blake2 env} {o : PartialState} {s : UInt32} {amount : ℕ} {vm vm' : AccumulateVM}
  {call : Call}

section

variable (hclean : CleanTrie env) (h : Solvent env o s amount vm)
  (hstep : safeStep blake2 env vm call vm')
include hclean h hstep

theorem Solvent.conserves : Conserves env o s (vm.creates call) vm.x.toXContext vm'.x.toXContext :=
  (balanceEffect_of_call h.mode hstep.1).conserves hclean h.x hstep.2

/-- **A safe call keeps a machine solvent.** -/
theorem Solvent.step : Solvent env o s amount vm' := by
  have hconserves := h.conserves hclean hstep
  have heffect := callEffect_of_call hstep.1
  have hmode := heffect.mode.trans h.mode
  have htotal := hconserves.total.trans h.totalX
  rcases heffect.contexts with ⟨-, -, hy⟩ | ⟨-, hy, -⟩
  · refine ⟨hmode, hconserves.ledger, ?_, htotal, ?_⟩
    · rw [hy]
      exact h.x.checkpoint
    · rw [hy]
      exact (total_checkpoint _ _).trans h.totalX
  · refine ⟨hmode, hconserves.ledger, ?_, htotal, ?_⟩
    · rw [hy]
      exact h.y
    · rw [hy]
      exact h.totalY

end

/-- **A safe run keeps the totals of both contexts.** -/
theorem solvent_of_run (hclean : CleanTrie env) {transfersIn : List DeferredTransfer}
    {account : ServiceAccount} {vm₀ : AccumulateVM} {calls : List Call}
    (hendowed : Endowed env o transfersIn s account)
    (hstart : Starts vm₀ o s (credited transfersIn account s))
    (hrun : Run (safeStep blake2 env) vm₀ calls vm) :
    Solvent env o s (balances env o + pendingTo transfersIn s) vm := by
  refine hrun.preserves (fun _ _ _ hstep h => h.step hclean hstep) ?_
  have hledger : Ledger env o s vm₀.x.toXContext := by
    rw [hstart.x]
    exact ledger_newXContext hendowed
  have htotal : total env vm₀.x.u vm₀.x.transfers = balances env o + pendingTo transfersIn s := by
    rw [hstart.x]
    exact total_newXContext hendowed
  refine ⟨hstart.mode, hledger, ?_, htotal, ?_⟩
  · rw [hstart.y]
    exact hledger
  · rw [hstart.y]
    exact htotal

end JamDuna.Pvm
