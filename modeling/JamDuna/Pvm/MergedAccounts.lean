/-
# Merged accounts

`ParallelizedAccumulate` of `statedb/accumulate.go` merges the copies of the services account
by account: of the services that marked an account the last one decides about the balance, and
an account that one of them marked as deleted stays deleted (`MergedEntry`).

Different copies change different accounts: a service changes its own, those that name it as
their ejector, and those that it creates. So the merged balance of an account exceeds the
former one by no more than the copies did together (`held_merge_le`), except that a service may
spend its balance while another one ejects it and takes the same balance over; such a service
has to keep its balance (`Spares`).
-/

import JamDuna.Pvm.BalanceRuns

namespace JamDuna.Pvm

open JamDuna.Basis Accumulation List Option Bool

/-- The account that a copy has marked under an index. -/
def written (u : PartialState) (t : UInt32) : Option ServiceAccount :=
  (u.serviceAccounts t).filter (·.dirty)

/-- `MergeUpdates` of one entry by a marked account. -/
def mergeEntry (e : Option ServiceAccount) : Option ServiceAccount → Option ServiceAccount
  | none => e
  | some sa => some ((e.map fun existing =>
      { existing.mergeUpdates sa with dirty := true }).getD sa)

theorem mergeAccounts_eq (accounts : Accounts) (u : PartialState) (t : UInt32) :
    mergeAccounts accounts u.serviceAccounts t = mergeEntry (accounts t) (written u t) := by
  unfold mergeAccounts written
  cases u.serviceAccounts t with
  | none => rfl
  | some sa =>
    by_cases hdirty : sa.dirty = true
    · rw [filter_some_pos hdirty]
      show (if sa.dirty = true then _ else _) = _
      rw [if_pos hdirty]
      cases accounts t with
      | none | some existing => rfl
    · rw [filter_some_neg (eq_false_iff.mpr hdirty)]
      show (if sa.dirty = true then _ else _) = _
      rw [if_neg hdirty]
      rfl

/-- **The merge, entry by entry.** -/
theorem serviceAccounts_mergeResults (o : PartialState) (results : List AccRes) (t : UInt32) :
    (mergeResults o results).serviceAccounts t =
      results.foldl (fun e r => mergeEntry e (written r.xy.u t)) (o.serviceAccounts t) := by
  have hfold : ∀ (results : List AccRes) (st : PartialState × Mutated),
      (results.foldl (mergeResult o.privilegedState) st).1.serviceAccounts t =
        results.foldl (fun e r => mergeEntry e (written r.xy.u t)) (st.1.serviceAccounts t) := by
    intro results
    induction results with
    | nil => exact fun _ => rfl
    | cons r rs ih =>
      intro st
      rw [foldl_cons, foldl_cons, ih]
      exact congrArg (fun e => rs.foldl _ e) (mergeAccounts_eq st.1.serviceAccounts r.xy.u t)
  exact hfold results _

/-- The account is marked as deleted. -/
def deletedIn (e : Option ServiceAccount) : Bool := e.any (·.deletedAccount)

theorem alive_of_deletedIn {e rest : Option ServiceAccount} (h : deletedIn e = true) :
    alive (e.or rest) = false := by
  cases e with
  | none => cases h
  | some a =>
    show alive (some a) = false
    rw [alive_some, show a.deletedAccount = true from h]
    rfl

/-- What the results make of an entry. -/
structure MergedEntry (t : UInt32) (base : Option ServiceAccount) (results : List AccRes)
    (e : Option ServiceAccount) : Prop where
  untouched : (∀ r ∈ results, written r.xy.u t = none) → e = base
  balance : (∃ r ∈ results, (written r.xy.u t).isSome) → ∃ a r sa, e = some a ∧ r ∈ results ∧
    written r.xy.u t = some sa ∧ a.balance = sa.balance
  deleted : (deletedIn base = true ∨ ∃ r ∈ results, deletedIn (written r.xy.u t) = true) →
    deletedIn e = true

/-- A marked account brings its balance, and deletion stays. -/
theorem mergeEntry_written {e : Option ServiceAccount} {sa : ServiceAccount}
    (hdirty : sa.dirty = true) :
    ∃ a, mergeEntry e (some sa) = some a ∧ a.balance = sa.balance ∧
      (deletedIn e = true ∨ sa.deletedAccount = true → a.deletedAccount = true) := by
  cases e with
  | none =>
    refine ⟨sa, rfl, rfl, fun h => ?_⟩
    rcases h with h | h
    · cases h
    · exact h
  | some existing =>
    refine ⟨{ existing.mergeUpdates sa with dirty := true }, rfl, if_pos hdirty, fun h => ?_⟩
    exact or_eq_true_iff.mpr h

theorem dirty_of_written {u : PartialState} {t : UInt32} {sa : ServiceAccount}
    (h : written u t = some sa) : u.serviceAccounts t = some sa ∧ sa.dirty = true :=
  filter_eq_some_iff.mp h

theorem mergedEntry_foldl (t : UInt32) (results : List AccRes) (base : Option ServiceAccount) :
    MergedEntry t base results
      (results.foldl (fun e r => mergeEntry e (written r.xy.u t)) base) := by
  induction results generalizing base with
  | nil => exact ⟨fun _ => rfl, nofun, fun h => h.elim id nofun⟩
  | cons r rs ih =>
    rw [foldl_cons]
    cases hw : written r.xy.u t with
    | none =>
      have hrest : MergedEntry t base rs _ := ih base
      refine ⟨fun h => hrest.untouched fun r' hr' => h r' (.tail _ hr'), ?_, ?_⟩
      · rintro ⟨r', hr', hsome⟩
        rcases mem_cons.mp hr' with rfl | hmem
        · rw [hw] at hsome
          cases hsome
        · obtain ⟨a, r'', sa, ha, hr'', hrest⟩ := hrest.balance ⟨r', hmem, hsome⟩
          exact ⟨a, r'', sa, ha, .tail _ hr'', hrest⟩
      · rintro (hbase | ⟨r', hr', hdeleted⟩)
        · exact hrest.deleted (.inl hbase)
        · rcases mem_cons.mp hr' with rfl | hmem
          · rw [hw] at hdeleted
            cases hdeleted
          · exact hrest.deleted (.inr ⟨r', hmem, hdeleted⟩)
    | some sa =>
      obtain ⟨a, ha, hbalance, hstays⟩ := mergeEntry_written (e := base) (dirty_of_written hw).2
      rw [ha]
      have hrest : MergedEntry t (some a) rs _ := ih (some a)
      refine ⟨fun h => (nomatch (h r (.head _)).symm.trans hw), fun _ => ?_, fun h => ?_⟩
      · by_cases hlater : ∃ r' ∈ rs, (written r'.xy.u t).isSome
        · obtain ⟨a', r'', sa', ha', hr'', hrest⟩ := hrest.balance hlater
          exact ⟨a', r'', sa', ha', .tail _ hr'', hrest⟩
        · refine ⟨a, r, sa, hrest.untouched fun r' hr' => ?_, .head _, hw, hbalance⟩
          by_contra hne
          exact hlater ⟨r', hr', isSome_iff_ne_none.mpr hne⟩
      · rcases h with hbase | ⟨r', hr', hdeleted⟩
        · exact hrest.deleted (.inl (hstays (.inl hbase)))
        · rcases mem_cons.mp hr' with rfl | hmem
          · rw [hw] at hdeleted
            exact hrest.deleted (.inl (hstays (.inr hdeleted)))
          · exact hrest.deleted (.inr ⟨r', hmem, hdeleted⟩)

theorem mergedEntry_mergeResults (o : PartialState) (results : List AccRes) (t : UInt32) :
    MergedEntry t (o.serviceAccounts t) results ((mergeResults o results).serviceAccounts t) := by
  rw [serviceAccounts_mergeResults]
  exact mergedEntry_foldl t results _

variable {env : StorageEnv} {o : PartialState} {s t : UInt32} {x : XContext}

theorem ejectorHash_inj {s s' : UInt32} (h : ejectorHash s = ejectorHash s') : s = s' := by
  have hsmall : ∀ s : UInt32, ofLE (toLE 32 s.toNat).reverse < 2 ^ 256 := by
    intro s
    have hlt := ofLE_lt (toLE 32 s.toNat).reverse
    rw [length_reverse, length_toLE] at hlt
    exact lt_of_lt_of_eq hlt (by norm_num)
  have hval : ∀ s : UInt32, (ejectorHash s).val = ofLE (toLE 32 s.toNat).reverse :=
    fun s => Nat.mod_eq_of_lt (hsmall s)
  have hofLE : ofLE (toLE 32 s.toNat).reverse = ofLE (toLE 32 s'.toNat).reverse := by
    rw [← hval, ← hval, h]
  have hbytes : toLE 32 s.toNat = toLE 32 s'.toNat := by
    refine reverse_injective (ofLE_inj ?_ hofLE)
    rw [length_reverse, length_reverse, length_toLE, length_toLE]
  have hlt : ∀ s : UInt32, s.toNat < 256 ^ 32 := fun s => s.toNat_lt.trans (by norm_num)
  have hnat := congrArg ofLE hbytes
  rw [ofLE_toLE_of_lt (hlt s), ofLE_toLE_of_lt (hlt s')] at hnat
  exact UInt32.toNat_inj.mp hnat

/-- An account that a service has not marked is as before. -/
theorem Ledger.held_of_unwritten (h : Ledger env o s x) (hw : written x.u t = none) :
    held (accountAt env x.u t) = held (accountAt env o t) := by
  have hclean : ∀ a, x.u.serviceAccounts t = some a → a.dirty = false := by
    intro a ha
    by_contra hdirty
    unfold written at hw
    rw [ha, filter_some_pos (eq_true_of_not_eq_false hdirty)] at hw
    cases hw
  by_cases hts : t = s
  · obtain ⟨a, ha, hown⟩ := h.own
    subst hts
    rw [accountAt_of_some ha, held_some hown.live]
    exact hown.unmarked (hclean a ha)
  · have hfate := h.fates t hts
    unfold accountAt
    generalize x.u.serviceAccounts t = e at hfate hclean
    cases hfate with
    | absent hbase => rw [hbase]
    | @kept a b hbase hbalance hdeleted =>
      rw [hbase]
      show held (some b) = held (some a)
      unfold held
      rw [alive_some, alive_some, hdeleted, map_some, map_some, hbalance]
    | ejected _ _ _ _ hdirty | created _ _ hdirty => exact nomatch hdirty.symm.trans (hclean _ rfl)

/-- What an account is to a service that has marked it. -/
theorem Ledger.written_cases {sa : ServiceAccount} (h : Ledger env o s x)
    (hw : written x.u t = some sa) :
    t = s ∧ sa.deletedAccount = false ∨
      (t ≠ s ∧ sa.deletedAccount = true ∧ ∃ a, accountAt env o t = some a ∧
        a.deletedAccount = false ∧ a.codeHash = ejectorHash s) ∨
      t ≠ s ∧ held (accountAt env o t) = 0 := by
  obtain ⟨hentry, hdirty⟩ := dirty_of_written hw
  by_cases hts : t = s
  · obtain ⟨a, ha, hown⟩ := h.own
    subst hts
    obtain rfl := some.inj (ha.symm.trans hentry)
    exact .inl ⟨rfl, hown.live⟩
  · have hfate := h.fates t hts
    rw [hentry] at hfate
    cases hfate with
    | kept _ _ _ _ hclean => exact nomatch hdirty.symm.trans hclean
    | ejected hbase hlive hcode hdeleted =>
      exact .inr (.inl ⟨hts, hdeleted, _, hbase, hlive, hcode⟩)
    | created hbase hzero =>
      refine .inr (.inr ⟨hts, ?_⟩)
      unfold accountAt
      rw [hbase]
      exact hzero

variable (env o)

/-- The results of a batch, each against the base. -/
structure Ledgers (results : List AccRes) : Prop where
  each : ∀ r ∈ results, Ledger env o r.service r.xy
  distinct : (results.map (·.service)).Nodup

/-- What a copy has gained under an index. -/
def gain (t : UInt32) (r : AccRes) : ℤ := held (accountAt env r.xy.u t) - held (accountAt env o t)

/-- A service has ejected another one. -/
def Ejects (r : AccRes) (t : UInt32) : Prop :=
  r.service ≠ t ∧ alive (accountAt env o t) = true ∧ alive (accountAt env r.xy.u t) = false

/-- A service of the batch that another one ejects ends with at least its former balance. -/
def Spares (results : List AccRes) : Prop :=
  ∀ r ∈ results, ∀ r' ∈ results, Ejects env o r' r.service → 0 ≤ gain env o r.service r

variable {env o} {results : List AccRes} {t : UInt32} {r : AccRes}

/-- A service of the batch is in one place. -/
theorem Ledgers.ne_of_mem {before after : List AccRes} {r' : AccRes}
    (h : Ledgers env o (before ++ r :: after)) (hr' : r' ∈ before ++ after) :
    r'.service ≠ r.service := by
  have hdistinct := h.distinct
  rw [map_append, map_cons, nodup_middle, ← map_append] at hdistinct
  intro heq
  exact (nodup_cons.mp hdistinct).1 (heq ▸ mem_map_of_mem hr')

section

variable (h : Ledger env o r.service r.xy) (hown : r.service ≠ t) (hejects : ¬ Ejects env o r t)
include h hown hejects

/-- A service marks its own account, those it ejects, and some that had no balance. -/
theorem unwritten_of_not_ejects : written r.xy.u t = none ∨ held (accountAt env o t) = 0 := by
  cases hw : written r.xy.u t with
  | none => exact .inl rfl
  | some sa =>
    rcases h.written_cases hw with ⟨hts, -⟩ | ⟨-, hdeleted, a, ha, hlive, -⟩ | ⟨-, hzero⟩
    · exact absurd hts.symm hown
    · refine absurd ⟨hown, ?_, ?_⟩ hejects
      · rw [ha, alive_some, hlive]
        rfl
      · rw [accountAt_of_some (dirty_of_written hw).1, alive_some, hdeleted]
        rfl
    · exact .inr hzero

/-- Only its own account and those it ejects lose anything in the copy of a service. -/
theorem gain_nonneg : 0 ≤ gain env o t r := by
  unfold gain
  rcases unwritten_of_not_ejects h hown hejects with hw | hzero
  · rw [h.held_of_unwritten hw, Int.sub_self]
  · rw [hzero]
    omega

end

/-- An account with a balance names the service that ejects it. -/
theorem Ejects.codeHash (h : Ledger env o r.service r.xy) (hejects : Ejects env o r t)
    (hpos : held (accountAt env o t) ≠ 0) :
    ∃ a, accountAt env o t = some a ∧ a.codeHash = ejectorHash r.service ∧
      deletedIn (written r.xy.u t) = true := by
  obtain ⟨hown, halive, hdead⟩ := hejects
  cases hw : written r.xy.u t with
  | none =>
    have hsame := h.held_of_unwritten hw
    rw [held_of_not_alive hdead] at hsame
    exact absurd hsame.symm hpos
  | some sa =>
    rcases h.written_cases hw with ⟨hts, -⟩ | ⟨-, hdeleted, a, ha, -, hcode⟩ | ⟨-, hzero⟩
    · exact absurd hts.symm hown
    · exact ⟨a, ha, hcode, hdeleted⟩
    · exact absurd hzero hpos

variable (env) in
/-- The merged balance is one that a service has left, or nothing. -/
theorem MergedEntry.held_le {base e : Option ServiceAccount} (h : MergedEntry t base results e)
    (hsome : ∃ r ∈ results, (written r.xy.u t).isSome) :
    ∃ r ∈ results, (written r.xy.u t).isSome ∧
      held (e.or (env.getService t)) ≤ held (accountAt env r.xy.u t) := by
  obtain ⟨a, r, sa, rfl, hr, hw, hbalance⟩ := h.balance hsome
  refine ⟨r, hr, by rw [hw]; rfl, ?_⟩
  show held (some a) ≤ _
  by_cases hlive : a.deletedAccount = false
  · have hliveCopy : sa.deletedAccount = false := by
      by_contra hdeleted
      have hgone : deletedIn (some a) = true := h.deleted (.inr ⟨r, hr, by
        rw [hw]
        exact eq_true_of_not_eq_false hdeleted⟩)
      exact nomatch hlive.symm.trans hgone
    rw [accountAt_of_some (dirty_of_written hw).1, held_some hlive, held_some hliveCopy, hbalance]
  · have hdead : alive (some a) = false := by
      rw [alive_some, eq_true_of_not_eq_false hlive]
      rfl
    rw [held_of_not_alive hdead]
    exact Nat.zero_le _

/-- **An account gains no more by the merge** than in all copies together. -/
theorem held_merge_le (hledgers : Ledgers env o results) (hspares : Spares env o results)
    (t : UInt32) :
    (held (accountAt env (mergeResults o results) t) : ℤ) ≤ held (accountAt env o t) +
      (results.map (gain env o t)).sum := by
  have hmerged := mergedEntry_mergeResults o results t
  by_cases hwriters : ∃ r ∈ results, (written r.xy.u t).isSome
  · by_cases hejected : held (accountAt env o t) ≠ 0 ∧ ∃ r ∈ results, Ejects env o r t
    · -- the account is gone, and only its ejector has written off its balance
      obtain ⟨hpos, r, hr, hejects⟩ := hejected
      obtain ⟨a, ha, hcode, hdeleted⟩ := hejects.codeHash (hledgers.each r hr) hpos
      have hgone : held (accountAt env (mergeResults o results) t) = 0 :=
        held_of_not_alive (alive_of_deletedIn (hmerged.deleted (.inr ⟨r, hr, hdeleted⟩)))
      have hlost : gain env o t r = - held (accountAt env o t) := by
        unfold gain
        rw [held_of_not_alive hejects.2.2]
        omega
      obtain ⟨before, after, rfl⟩ := append_of_mem hr
      have hsum := le_sum_of_mem (f := gain env o t) (r := r) fun r' hr' => by
        have hne := hledgers.ne_of_mem hr'
        have hmem : r' ∈ before ++ r :: after :=
          mem_append.mpr ((mem_append.mp hr').imp id (.tail _))
        by_cases hown : r'.service = t
        · subst hown
          exact hspares r' hmem r hr hejects
        · refine gain_nonneg (hledgers.each r' hmem) hown fun hejects' => hne ?_
          obtain ⟨a', ha', hcode', -⟩ := hejects'.codeHash (hledgers.each r' hmem) hpos
          obtain rfl := some.inj (ha.symm.trans ha')
          exact ejectorHash_inj (hcode'.symm.trans hcode)
      rw [hgone]
      omega
    · -- the balance is that of one copy, and no other copy has lost anything
      obtain ⟨r, hr, hsome, hle⟩ := hmerged.held_le env hwriters
      obtain ⟨before, after, rfl⟩ := append_of_mem hr
      have hsum := le_sum_of_mem (f := gain env o t) (r := r) fun r' hr' => by
        have hmem : r' ∈ before ++ r :: after :=
          mem_append.mpr ((mem_append.mp hr').imp id (.tail _))
        by_cases hzero : held (accountAt env o t) = 0
        · unfold gain
          omega
        · have hnone : ∀ r' ∈ before ++ r :: after, ¬ Ejects env o r' t :=
            fun r' hr' hejects => hejected ⟨hzero, r', hr', hejects⟩
          have hown : r.service = t := by
            by_contra hne
            rcases unwritten_of_not_ejects (hledgers.each r hr) hne (hnone r hr) with hw | hnothing
            · rw [hw] at hsome
              cases hsome
            · exact hzero hnothing
          exact gain_nonneg (hledgers.each r' hmem) (hown ▸ hledgers.ne_of_mem hr') (hnone r' hmem)
      have hgain : gain env o t r = held (accountAt env r.xy.u t) - held (accountAt env o t) := rfl
      have hle' : held (accountAt env (mergeResults o (before ++ r :: after)) t) ≤
        held (accountAt env r.xy.u t) := hle
      omega
  · have hunwritten : ∀ r ∈ results, written r.xy.u t = none := fun r hr =>
      not_isSome_iff_eq_none.mp fun hsome => hwriters ⟨r, hr, hsome⟩
    have hsame : accountAt env (mergeResults o results) t = accountAt env o t := by
      unfold accountAt
      rw [hmerged.untouched hunwritten]
    have hsum : 0 ≤ (results.map (gain env o t)).sum := sum_nonneg_of_forall fun r hr => by
      unfold gain
      rw [(hledgers.each r hr).held_of_unwritten (hunwritten r hr), Int.sub_self]
    rw [hsame]
    omega

/-- **A receiver that exists after the merge** exists in the copy of the sender. -/
theorem alive_of_merged (hclean : CleanTrie env) (hledgers : Ledgers env o results)
    (hr : r ∈ results) (hentry : (r.xy.u.serviceAccounts t).isSome)
    (h : alive (accountAt env (mergeResults o results) t) = true) :
    alive (accountAt env r.xy.u t) = true := by
  have hmerged := mergedEntry_mergeResults o results t
  obtain ⟨b, hb⟩ := isSome_iff_exists.mp hentry
  by_contra hdead
  rw [accountAt_of_some hb, alive_some, not_eq_true', not_eq_false] at hdead
  -- a deleted account of the copy was deleted in the base, or is marked
  have hgone : deletedIn (o.serviceAccounts t) = true ∨
      ∃ r ∈ results, deletedIn (written r.xy.u t) = true := by
    by_cases hdirty : b.dirty = true
    · refine .inr ⟨r, hr, ?_⟩
      unfold written
      rw [hb, filter_some_pos hdirty]
      exact hdead
    · by_cases hts : t = r.service
      · obtain ⟨a, ha, hown⟩ := (hledgers.each r hr).own
        rw [← hts] at ha
        obtain rfl := some.inj (ha.symm.trans hb)
        exact nomatch hdead.symm.trans hown.live
      · have hfate := (hledgers.each r hr).fates t hts
        rw [hb] at hfate
        cases hfate with
        | @kept a _ hbase _ hdeleted =>
          cases ho : o.serviceAccounts t with
          | none =>
            rw [ho, none_or] at hbase
            exact nomatch hdead.symm.trans (hdeleted.trans (hclean t a hbase).1)
          | some a' =>
            rw [ho] at hbase
            cases hbase
            exact .inl (hdeleted.symm.trans hdead)
        | ejected _ _ _ _ hmarked | created _ _ hmarked => exact absurd hmarked hdirty
  exact nomatch h.symm.trans (alive_of_deletedIn (hmerged.deleted hgone))

end JamDuna.Pvm
