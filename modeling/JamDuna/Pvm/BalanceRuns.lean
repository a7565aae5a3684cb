/-
# Balances along a run

A service starts with a copy of the accounts of the batch, its own with the transfers to it
credited (`SingleAccumulate` of `statedb/accumulate.go`). Along a run its copy differs from
the base in a few ways only (`Fate`): it may have loaded accounts from the trie, ejected
accounts that name it as their ejector, and created accounts under free indices; its own
account is the only other one whose balance changes.

A call is safe (`BalanceSafe`) if it loses nothing: a new account hides none of the trie that
has a balance, the receiver of a transfer exists, and an ejected service is another one, to
which no amount is under way and whose balance fits. A safe call keeps the total, adds and
subtracts exactly, and keeps the copy in such a relation to the base
(`BalanceEffect.conserves`).
-/

import JamDuna.Pvm.Balances

namespace JamDuna.Pvm

open Accumulation List Function

variable (env : StorageEnv)

/-- What the running service holds. -/
def ownHeld (x : XContext) : ℕ := held (accountAt env x.u x.serviceIndex)

/-- A call from one context to another loses nothing, given the index of the account that it
creates. -/
structure BalanceSafe (created : Option UInt32) (x x' : XContext) : Prop where
  created : ∀ c, created = some c → held (env.getService c) = 0
  received : ∀ t : DeferredTransfer, x'.transfers = x.transfers ++ [t] →
    t.amount = 0 ∨ alive (accountAt env x.u t.receiverIndex) = true
  ejected : ∀ d, alive (accountAt env x.u d) = true → alive (accountAt env x'.u d) = false →
    d ≠ x.serviceIndex ∧ pendingTo x.transfers d = 0 ∧
      ownHeld env x + held (accountAt env x.u d) < 2 ^ 64

/-- The additions and subtractions of a call are exact. -/
structure BalanceExact (created : Option UInt32) (x x' : XContext) : Prop where
  created : ∀ c, created = some c → ownHeld env x' + held (accountAt env x'.u c) = ownHeld env x
  transferred : ∀ t : DeferredTransfer, x'.transfers = x.transfers ++ [t] →
    ownHeld env x' + t.amount.toNat = ownHeld env x
  ejected : ∀ d, alive (accountAt env x.u d) = true → alive (accountAt env x'.u d) = false →
    ownHeld env x' = ownHeld env x + held (accountAt env x.u d)

/-- The accounts of the trie are as they are read. -/
def CleanTrie : Prop := ∀ t a, env.getService t = some a →
  a.deletedAccount = false ∧ a.dirty = false ∧ a.newAccount = false

/-- What has become of the account under an index in the copy of service `s`, another one. -/
inductive Fate (s t : UInt32) (base : Option ServiceAccount) : Option ServiceAccount → Prop
  | absent : base = none → Fate s t base none
  | kept {a b : ServiceAccount} : base.or (env.getService t) = some a →
      b.balance = a.balance → b.deletedAccount = a.deletedAccount → b.codeHash = a.codeHash →
      b.dirty = false → b.newAccount = false → Fate s t base (some b)
  | ejected {a b : ServiceAccount} : base.or (env.getService t) = some a →
      a.deletedAccount = false → a.codeHash = ejectorHash s → b.deletedAccount = true →
      b.dirty = true → Fate s t base (some b)
  | created {b : ServiceAccount} : base = none → held (env.getService t) = 0 → b.dirty = true →
      Fate s t base (some b)

/-- The account of the running service, against what it held before. -/
structure OwnAccount (before : ℕ) (a : ServiceAccount) : Prop where
  live : a.deletedAccount = false
  unmarked : a.dirty = false → a.balance.toNat = before

/-- The copy of service `s`, against the base of the batch. -/
structure Ledger (o : PartialState) (s : UInt32) (x : XContext) : Prop where
  index : x.serviceIndex = s
  own : ∃ a, x.u.serviceAccounts s = some a ∧ OwnAccount (held (accountAt env o s)) a
  fates : ∀ t, t ≠ s → Fate env s t (o.serviceAccounts t) (x.u.serviceAccounts t)
  receivers : ∀ t ∈ x.transfers, (x.u.serviceAccounts t.receiverIndex).isSome

variable {env} {o : PartialState} {s : UInt32} {x x' : IndexedContext}

variable {t : UInt32} {before : ℕ} {a b : ServiceAccount}

/-- An account that is loaded or kept has the same fate. -/
theorem Fate.entryKept (hclean : CleanTrie env) {base e e' : Option ServiceAccount}
    (hts : t ≠ s) (h : Fate env s t base e) (hkept : EntryKept env s t e e') :
    Fate env s t base e' := by
  cases hkept with
  | absent => exact h
  | loaded ha hab =>
    cases h with
    | absent hbase =>
      obtain ⟨-, hdirty, hnew⟩ := hclean t _ ha
      refine .kept ?_ hab.balance hab.deletedAccount (hab.codeHash hts)
        ((hab.dirty hts).trans hdirty) (hab.newAccount.trans hnew)
      rw [hbase, Option.none_or]
      exact ha
  | kept hab =>
    cases h with
    | kept ha hbalance hdeleted hcode hdirty hnew =>
      exact .kept ha (hab.balance.trans hbalance) (hab.deletedAccount.trans hdeleted)
        ((hab.codeHash hts).trans hcode) ((hab.dirty hts).trans hdirty)
        (hab.newAccount.trans hnew)
    | ejected ha hlive hcode hdeleted hdirty =>
      exact .ejected ha hlive hcode (hab.deletedAccount.trans hdeleted) (hab.marked hdirty)
    | created hbase hzero hdirty => exact .created hbase hzero (hab.marked hdirty)

theorem OwnAccount.same {own : Prop}
    (h : OwnAccount before a) (hab : SameHoldings own a b) : OwnAccount before b := by
  refine ⟨hab.deletedAccount.trans h.live, fun hdirty => ?_⟩
  rw [hab.balance]
  refine h.unmarked (Bool.eq_false_iff.mpr fun hmarked => ?_)
  exact nomatch (hab.marked hmarked).symm.trans hdirty

/-- An account that is changed and marked. -/
theorem OwnAccount.of_marked (hlive : a.deletedAccount = false)
    (hdirty : a.dirty = true) : OwnAccount before a :=
  ⟨hlive, fun hclean => nomatch hdirty.symm.trans hclean⟩

theorem Still.ledger (hclean : CleanTrie env) (h : Still env x x')
    (hl : Ledger env o s x.toXContext) : Ledger env o s x'.toXContext := by
  have hindex : x.serviceIndex = s := hl.index
  have hkept : ∀ t, EntryKept env s t (x.u.serviceAccounts t) (x'.u.serviceAccounts t) :=
    hindex ▸ h.accounts
  have hsome : ∀ t, (x.u.serviceAccounts t).isSome → (x'.u.serviceAccounts t).isSome := by
    intro t ht
    have hentry := hkept t
    generalize x.u.serviceAccounts t = e, x'.u.serviceAccounts t = e' at hentry ht
    cases hentry with
    | absent => cases ht
    | kept | loaded => rfl
  refine ⟨h.serviceIndex.trans hindex, ?_, fun t hts => ?_, fun t ht => ?_⟩
  · obtain ⟨a, ha, hown⟩ := hl.own
    have hentry := hkept s
    rw [show x.u.serviceAccounts s = some a from ha] at hentry
    show ∃ a, x'.u.serviceAccounts s = some a ∧ _
    generalize x'.u.serviceAccounts s = e' at hentry
    cases hentry with
    | kept hab => exact ⟨_, rfl, hown.same hab⟩
  · exact (hl.fates t hts).entryKept hclean hts (hkept t)
  · have ht' : t ∈ x.transfers := by
      rw [← h.transfers]
      exact ht
    exact hsome _ (hl.receivers t ht')

theorem isSome_setAccount {u : PartialState} (d : UInt32) (b : ServiceAccount)
    (h : (u.serviceAccounts t).isSome) : ((u.setAccount d b).serviceAccounts t).isSome := by
  show (update u.serviceAccounts d (some b) t).isSome
  by_cases htd : t = d
  · rw [htd, update_self]
    rfl
  · rwa [update_of_ne htd]

/-- A changed account of the running service. -/
theorem Ledger.setOwn {x : XContext} (h : Ledger env o s x)
    (hlive : b.deletedAccount = false) (hdirty : b.dirty = true) :
    Ledger env o s { x with u := x.u.setAccount s b } := by
  refine ⟨h.index, ⟨b, update_self .., .of_marked hlive hdirty⟩, fun t hts => ?_,
    fun t ht => isSome_setAccount s b (h.receivers t ht)⟩
  show Fate env s t _ (update x.u.serviceAccounts s (some b) t)
  rw [update_of_ne hts]
  exact h.fates t hts

/-- Another account that has met its fate. -/
theorem Ledger.setOther {x : XContext} {d : UInt32} (h : Ledger env o s x)
    (hds : d ≠ s) (hfate : Fate env s d (o.serviceAccounts d) (some b)) :
    Ledger env o s { x with u := x.u.setAccount d b } := by
  obtain ⟨a, ha, hown⟩ := h.own
  refine ⟨h.index, ⟨a, (update_of_ne hds.symm ..).trans ha, hown⟩, fun t hts => ?_,
    fun t ht => isSome_setAccount d b (h.receivers t ht)⟩
  show Fate env s t _ (update x.u.serviceAccounts d (some b) t)
  by_cases htd : t = d
  · rw [htd, update_self]
    exact hfate
  · rw [update_of_ne htd]
    exact h.fates t hts

variable (env o s)

/-- What a safe call leaves. -/
structure Conserves (created : Option UInt32) (x x' : XContext) : Prop where
  total : total env x'.u x'.transfers = total env x.u x.transfers
  exact : BalanceExact env created x x'
  ledger : Ledger env o s x'

variable {env o s} {created : Option UInt32} {x x' : IndexedContext}

/-- A list is not longer than itself. -/
theorem ne_append_singleton (ts : List DeferredTransfer) (t : DeferredTransfer) :
    ts ≠ ts ++ [t] := by
  intro h
  have hlength := congrArg length h
  rw [length_append, length_singleton] at hlength
  omega

variable {a xs : ServiceAccount} {h : Hash} {l : UInt32}

theorem ownHeld_eq {x : XContext}
    (ha : x.u.serviceAccounts x.serviceIndex = some a) (hlive : a.deletedAccount = false) :
    ownHeld env x = a.balance.toNat := by
  unfold ownHeld
  rw [accountAt_of_some ha, held_some hlive]

theorem Still.ownHeld (h : Still env x x') :
    ownHeld env x'.toXContext = ownHeld env x.toXContext := by
  unfold Pvm.ownHeld
  rw [h.serviceIndex]
  exact h.held x.serviceIndex

/-- The account of the running service, as the ledger has it. -/
theorem Ledger.live (h : Ledger env o s x.toXContext)
    (ha : x.u.serviceAccounts x.serviceIndex = some a) : a.deletedAccount = false := by
  obtain ⟨b, hb, hown⟩ := h.own
  have hindex : x.serviceIndex = s := h.index
  rw [hindex] at ha
  obtain rfl := Option.some.inj (hb.symm.trans ha)
  exact hown.live

theorem conserves_still (hclean : CleanTrie env) (hl : Ledger env o s x.toXContext)
    (hcreated : created = none) (h : Still env x x') :
    Conserves env o s created x.toXContext x'.toXContext := by
  refine ⟨h.total, ⟨fun c hc => ?_, fun t ht => ?_, fun d halive hdead => ?_⟩, h.ledger hclean hl⟩
  · exact nomatch hcreated.symm.trans hc
  · exact absurd (h.transfers.symm.trans ht) (ne_append_singleton _ t)
  · exact nomatch halive.symm.trans ((h.alive d).symm.trans hdead)

section

variable (hl : Ledger env o s x.toXContext)
include hl

theorem conserves_transfer {sender receiver : ServiceAccount} {t : DeferredTransfer}
    (hcreated : created = none)
    (hreceiver : x.u.serviceAccounts t.receiverIndex = some receiver)
    (hsender : x.u.serviceAccounts x.serviceIndex = some sender)
    (hamount : t.amount ≤ sender.balance)
    (hsafe : t.amount = 0 ∨ alive (accountAt env x.u t.receiverIndex) = true) :
    Conserves env o s created x.toXContext (deferTransfer x sender t).toXContext := by
  set y := deferTransfer x sender t
  have hlive := hl.live hsender
  have hindex : x.serviceIndex = s := hl.index
  have hle := UInt64.le_iff_toNat_le.mp hamount
  let taken : ServiceAccount := { sender with balance := sender.balance - t.amount, dirty := true }
  have htotal : total env y.u y.transfers + t.amount.toNat = total env x.u x.transfers +
        if alive (accountAt env x.u t.receiverIndex) then t.amount.toNat else 0 :=
    total_deferTransfer hsender hlive hamount
  have hown : y.u.serviceAccounts x.serviceIndex = some taken := update_self ..
  refine ⟨?_, ⟨fun c hc => ?_, fun t' ht' => ?_, fun d halive hdead => ?_⟩, ?_⟩
  · rcases hsafe with hzero | halive
    · have hnone : t.amount.toNat = 0 := by rw [hzero]; rfl
      rw [hnone, ite_self] at htotal
      exact htotal
    · rw [halive, if_pos rfl] at htotal
      exact Nat.add_right_cancel htotal
  · exact nomatch hcreated.symm.trans hc
  · have hsame : x.transfers ++ [t] = x.transfers ++ [t'] := ht'
    obtain rfl : t = t' := singleton_inj.mp (append_cancel_left hsame)
    have hafter : ownHeld env y.toXContext =
        (sender.balance - t.amount).toNat := ownHeld_eq hown hlive
    rw [hafter, ownHeld_eq hsender hlive, UInt64.toNat_sub_of_le _ _ hamount]
    omega
  · have hsame : alive (accountAt env y.u d) = alive (accountAt env x.u d) :=
      alive_setAccount hsender (by rfl) d
    exact nomatch halive.symm.trans (hsame.symm.trans hdead)
  · have hset := hl.setOwn (b := taken) hlive rfl
    rw [← hindex] at hset ⊢
    refine ⟨rfl, hset.own, hset.fates, fun t' ht' => ?_⟩
    rcases mem_append.mp ht' with hold | hnew
    · exact hset.receivers t' hold
    · obtain rfl := mem_singleton.mp hnew
      exact isSome_setAccount _ _ (by rw [hreceiver]; rfl)

theorem conserves_new {n : ServiceAccount} {c next : UInt32} (hcreated : created = some c)
    (hown : x.u.serviceAccounts x.serviceIndex = some xs)
    (hfree : x.u.serviceAccounts c = none) (hpays : n.balance ≤ xs.balance)
    (hn : n.deletedAccount = false) (hsafe : held (env.getService c) = 0) :
    Conserves env o s created x.toXContext (createService x xs n c next h l).toXContext := by
  set y := createService x xs n c next h l
  let paid : ServiceAccount := { xs with balance := xs.balance - n.balance, dirty := true }
  let made := n.writeLookup h l (some [])
  have hlive := hl.live hown
  have hindex : x.serviceIndex = s := hl.index
  have hle := UInt64.le_iff_toNat_le.mp hpays
  have hcs : c ≠ x.serviceIndex := by
    rintro rfl
    exact nomatch hfree.symm.trans hown
  have htotal : total env y.u y.transfers + held (env.getService c) =
        total env x.u x.transfers := total_createService hown hlive hfree hpays hn hl.receivers
  have hmade : y.u.serviceAccounts c = some made := update_self ..
  have hpaid : y.u.serviceAccounts x.serviceIndex = some paid :=
    (update_of_ne hcs.symm ..).trans (update_self ..)
  refine ⟨?_, ⟨fun c' hc' => ?_, fun t ht => ?_, fun d halive hdead => ?_⟩, ?_⟩
  · rw [hsafe, Nat.add_zero] at htotal
    exact htotal
  · obtain rfl := Option.some.inj (hcreated.symm.trans hc')
    have hafter : ownHeld env y.toXContext =
        (xs.balance - n.balance).toNat := ownHeld_eq hpaid hlive
    have hnew : held (accountAt env y.u c) = n.balance.toNat := by
      rw [accountAt_of_some hmade]
      exact held_some hn
    rw [hafter, hnew, ownHeld_eq hown hlive, UInt64.toNat_sub_of_le _ _ hpays]
    omega
  · exact absurd ht (ne_append_singleton _ t)
  · by_cases hdc : d = c
    · rw [hdc, accountAt_of_some hmade, alive_some, show made.deletedAccount = false from hn]
        at hdead
      cases hdead
    · have hsame : alive (accountAt env y.u d) = alive (accountAt env x.u d) :=
        (congrArg alive (accountAt_setAccount_of_ne hdc made)).trans
          (alive_setAccount hown (by rfl) d)
      exact nomatch halive.symm.trans (hsame.symm.trans hdead)
  · have hbase : o.serviceAccounts c = none := by
      have hfate := hl.fates c (hindex ▸ hcs)
      rw [show x.toXContext.u.serviceAccounts c = none from hfree] at hfate
      cases hfate with
      | absent hbase => exact hbase
    have hset := hl.setOwn (b := paid) hlive rfl
    have hboth := hset.setOther (b := made) (hindex ▸ hcs) (.created hbase hsafe rfl)
    rw [← hindex] at hboth ⊢
    exact ⟨rfl, hboth.own, hboth.fates, hboth.receivers⟩

theorem conserves_eject {boldD : ServiceAccount} {d : UInt32} (hcreated : created = none)
    (hd : x.u.serviceAccounts d = some boldD) (hown : x.u.serviceAccounts x.serviceIndex = some xs)
    (hliveD : boldD.deletedAccount = false) (hcode : boldD.codeHash = ejectorHash x.serviceIndex)
    (hne : d ≠ x.serviceIndex) (hpending : pendingTo x.transfers d = 0)
    (hfits : xs.balance.toNat + boldD.balance.toNat < 2 ^ 64) :
    Conserves env o s created x.toXContext (ejectService x d xs boldD h l).toXContext := by
  let credited : ServiceAccount := { xs with balance := xs.balance + boldD.balance, dirty := true }
  have hlive := hl.live hown
  have hindex : x.serviceIndex = s := hl.index
  have hsum : (xs.balance + boldD.balance).toNat = xs.balance.toNat + boldD.balance.toNat := by
    rw [UInt64.toNat_add, Nat.mod_eq_of_lt hfits]
  have htotal := @total_ejectService env x h l boldD xs d hd hown hne hlive hliveD
  set y := ejectService x d xs boldD h l
  have hu : y.u =
      (creditEjector x xs boldD).setAccount d (ejectedAccount boldD h l) := ejectService_u hd hne
  have hcredited : y.u.serviceAccounts x.serviceIndex = some credited := by
    rw [hu]
    exact (update_of_ne hne.symm ..).trans (update_self ..)
  refine ⟨?_, ⟨fun c hc => ?_, fun t ht => ?_, fun d' halive hdead => ?_⟩, ?_⟩
  · rw [hpending, hsum] at htotal
    show total env y.u y.transfers = total env x.u x.transfers
    omega
  · exact nomatch hcreated.symm.trans hc
  · exact absurd ht (ne_append_singleton _ t)
  · by_cases hd' : d' = d
    · have hafter : ownHeld env y.toXContext =
          (xs.balance + boldD.balance).toNat := ownHeld_eq hcredited hlive
      rw [hafter, hsum, ownHeld_eq hown hlive, hd', accountAt_of_some hd, held_some hliveD]
    · have hsame : alive (accountAt env y.u d') = alive (accountAt env x.u d') := by
        rw [hu, accountAt_setAccount_of_ne hd']
        exact alive_setAccount hown (by rfl) d'
      exact nomatch halive.symm.trans (hsame.symm.trans hdead)
  · have hfate : Fate env s d (o.serviceAccounts d) (some (ejectedAccount boldD h l)) := by
      have hbefore := hl.fates d (hindex ▸ hne)
      rw [show x.toXContext.u.serviceAccounts d = some boldD from hd] at hbefore
      cases hbefore with
      | kept ha hbalance hdeleted hcodeA hdirty hnew =>
        exact .ejected ha (hdeleted.symm.trans hliveD)
          (hcodeA.symm.trans (hcode.trans (congrArg ejectorHash hindex))) rfl rfl
      | ejected ha hliveA hcodeA hdeleted hdirty => exact nomatch hdeleted.symm.trans hliveD
      | created hbase hzero hdirty => exact .created hbase hzero rfl
    have hset := hl.setOwn (b := credited) hlive rfl
    have hboth := hset.setOther (hindex ▸ hne) hfate
    rw [← hindex] at hboth ⊢
    refine ⟨rfl, ?_, fun t ht => ?_, fun t ht => ?_⟩
    · rw [hu]
      exact hboth.own
    · rw [hu]
      exact hboth.fates t ht
    · rw [hu]
      exact hboth.receivers t ht

end

/-- What a still call leads up to. -/
theorem Conserves.of_still {x₁ : IndexedContext} (h : Still env x x₁)
    (hc : Conserves env o s created x₁.toXContext x'.toXContext) :
    Conserves env o s created x.toXContext x'.toXContext := by
  have hheld : ownHeld env x₁.toXContext = ownHeld env x.toXContext := h.ownHeld
  refine ⟨hc.total.trans h.total, ⟨fun c hcreated => ?_, fun t ht => ?_, fun d halive hdead => ?_⟩,
    hc.ledger⟩
  · rw [← hheld]
    exact hc.exact.created c hcreated
  · rw [← hheld]
    refine hc.exact.transferred t ?_
    rw [h.transfers]
    exact ht
  · rw [← hheld, ← h.held d]
    exact hc.exact.ejected d ((h.alive d).trans halive) hdead

/-- **A safe call conserves.** -/
theorem BalanceEffect.conserves (hclean : CleanTrie env) (hl : Ledger env o s x.toXContext)
    (h : BalanceEffect env created x x')
    (hsafe : BalanceSafe env created x.toXContext x'.toXContext) :
    Conserves env o s created x.toXContext x'.toXContext := by
  cases h with
  | still hcreated hstill => exact conserves_still hclean hl hcreated hstill
  | new c next k l hcreated hown hfree hpays hlive hnew =>
    exact conserves_new hl hcreated hown hfree hpays hlive (hsafe.created c hcreated)
  | @transfer x₁ sender receiver t hcreated hstill hreceiver hsender hamount =>
    refine .of_still hstill (conserves_transfer (hstill.ledger hclean hl) hcreated hreceiver
      hsender hamount ?_)
    rw [hstill.alive]
    refine hsafe.received t ?_
    show x₁.transfers ++ [t] = x.transfers ++ [t]
    rw [hstill.transfers]
  | @eject x₁ xs boldD d k l hcreated hstill hd hown hlive hcode =>
    have hbefore : alive (accountAt env x.u d) = true := by
      rw [← hstill.alive, accountAt_of_some hd, alive_some, hlive]
      rfl
    have hgone : alive (accountAt env (ejectService x₁ d xs boldD k l).u d) = false := by
      rw [show (ejectService x₁ d xs boldD k l).u = (creditEjector x₁ xs boldD).setAccount d
        (ejectedAccount (((creditEjector x₁ xs boldD).serviceAccounts d).getD boldD) k l) from rfl,
        accountAt_setAccount_self]
      rfl
    obtain ⟨hne, hpending, hfits⟩ := hsafe.ejected d hbefore hgone
    have hledger := hstill.ledger hclean hl
    refine .of_still hstill (conserves_eject hledger hcreated hd hown hlive hcode ?_ ?_ ?_)
    · rw [hstill.serviceIndex]
      exact hne
    · rw [hstill.transfers]
      exact hpending
    · have hheld : ownHeld env x₁.toXContext = ownHeld env x.toXContext := hstill.ownHeld
      rw [← hheld, ownHeld_eq hown (hledger.live hown), ← hstill.held d, accountAt_of_some hd,
        held_some hlive] at hfits
      exact hfits

end JamDuna.Pvm
