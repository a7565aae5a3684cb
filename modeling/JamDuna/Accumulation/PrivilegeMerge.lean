/-
# Merging the privileges of a batch

The merge loop of `ParallelizedAccumulate` (`statedb/accumulate.go`) on manager,
designator, registrar, assigners and always-accumulate map. Only results with
`PrivilegedDirty` set, that is after a BLESS, take part. `MergedAs` says what the
loop has computed from the dirty results processed so far; it holds at the start
and every round keeps it, whatever the order of the services.

`Chosen` is what the privileges are to become: the manager's choice, and where the
manager left a role as it was, the choice of the service that holds the role.
`parallelizedAccumulate_privileges_iff` compares the two.
-/

import JamDuna.Accumulation.QueueMerge

namespace JamDuna.Accumulation

open JamDuna.Types JamDuna.Basis Function Option

section

variable (p : PrivilegedServiceState) (dirty : UInt32 → Option PrivilegedServiceState)

/-- The manager among the dirty results has changed the field `f`. -/
def managerMoved {β : Type} [DecidableEq β] (f : PrivilegedServiceState → β) : Bool :=
  (dirty p.managerServiceID).any fun q => decide (f p ≠ f q)

/-- The field `f` names a service; what the merge makes of it when the dirty
results are `dirty`. -/
def mergedRole (f : PrivilegedServiceState → UInt32) : UInt32 :=
  if managerMoved p dirty f then ((dirty p.managerServiceID).map f).getD (f p)
  else if f p = p.managerServiceID then f p
  else ((dirty (f p)).map f).getD (f p)

/-- The assigner of core `c` that the merge yields: a service other than the manager
has a say about the first of its cores only. -/
def mergedAssigner (c : Fin totalCores) : UInt32 :=
  let s := p.authQueueServiceID c
  if managerMoved p dirty (·.authQueueServiceID) then
    ((dirty p.managerServiceID).map (·.authQueueServiceID c)).getD s
  else if s ≠ p.managerServiceID ∧ firstCore p.authQueueServiceID s = some c then
    ((dirty s).map (·.authQueueServiceID c)).getD s
  else s

/-- What the loop has computed from the dirty results it has met. -/
structure MergedAs (st : PrivilegedServiceState × Mutated) : Prop where
  mutA : st.2.a = managerMoved p dirty (·.authQueueServiceID)
  mutR : st.2.r = managerMoved p dirty (·.registrarServiceID)
  mutU : st.2.u = managerMoved p dirty (·.upcomingValidatorsServiceID)
  manager : st.1.managerServiceID =
    ((dirty p.managerServiceID).map (·.managerServiceID)).getD p.managerServiceID
  alwaysAcc : ∀ k, st.1.alwaysAccServiceID k =
    ((dirty p.managerServiceID).bind (·.alwaysAccServiceID k)).or (p.alwaysAccServiceID k)
  registrar : st.1.registrarServiceID = mergedRole p dirty (·.registrarServiceID)
  upcoming : st.1.upcomingValidatorsServiceID = mergedRole p dirty (·.upcomingValidatorsServiceID)
  assigner : ∀ c, st.1.authQueueServiceID c = mergedAssigner p dirty c

variable {p dirty} {st : PrivilegedServiceState × Mutated} {q : PrivilegedServiceState}

theorem MergedAs.start : MergedAs p (fun _ => none) (p, ⟨false, false, false⟩) where
  mutA := rfl
  mutR := rfl
  mutU := rfl
  manager := rfl
  alwaysAcc _ := rfl
  registrar := by simp [mergedRole, managerMoved]
  upcoming := by simp [mergedRole, managerMoved]
  assigner c := by simp [mergedAssigner, managerMoved]

variable {s : UInt32} {β : Type}

theorem firstCore_eq_some {a : Fin totalCores → UInt32} {c : Fin totalCores}
    (h : firstCore a s = some c) : a c = s := by
  simpa [firstCore] using List.find?_some h

/-- Before the manager is met no field has moved. -/
theorem managerMoved_of_none [DecidableEq β] {f : PrivilegedServiceState → β}
    (h : dirty p.managerServiceID = none) : managerMoved p dirty f = false := by
  simp [managerMoved, h]

theorem managerMoved_update_self [DecidableEq β] (f : PrivilegedServiceState → β) :
    managerMoved p (update dirty p.managerServiceID (some q)) f = decide (f p ≠ f q) := by
  simp [managerMoved]

theorem managerMoved_update_of_ne [DecidableEq β] (f : PrivilegedServiceState → β)
    (hs : s ≠ p.managerServiceID) (v : Option PrivilegedServiceState) :
    managerMoved p (update dirty s v) f = managerMoved p dirty f := by
  unfold managerMoved
  rw [update_of_ne hs.symm]

/-- A role after the manager's round: its own choice if it differs, and what the
round found otherwise. -/
theorem mergedRole_manager (h : dirty p.managerServiceID = none)
    (f : PrivilegedServiceState → UInt32) :
    (if decide (f p ≠ f q) then f q else mergedRole p dirty f) =
      mergedRole p (update dirty p.managerServiceID (some q)) f := by
  unfold mergedRole
  rw [managerMoved_update_self, managerMoved_of_none h]
  by_cases hf : f p = f q
  · have hd : decide (f p ≠ f q) = false := by simpa using hf
    rw [hd]
    by_cases hm : f p = p.managerServiceID
    · simp [hm]
    · rw [update_of_ne hm]
      rfl
  · simp [hf]

/-- A role after the round of another service: the service decides if the role is
its own and the manager has not moved it. -/
theorem mergedRole_other (hs : s ≠ p.managerServiceID) (h : dirty s = none)
    (f : PrivilegedServiceState → UInt32) :
    (if !managerMoved p dirty f && s == f p then f q else mergedRole p dirty f) =
      mergedRole p (update dirty s (some q)) f := by
  unfold mergedRole
  rw [managerMoved_update_of_ne f hs, update_of_ne hs.symm]
  cases hmoved : managerMoved p dirty f with
  | true => simp
  | false =>
    by_cases hf : s = f p
    · subst hf
      simp [hs]
    · simp [hf, update_of_ne (Ne.symm hf)]

/-- **The round of the manager.** -/
theorem MergedAs.mergeManager (h : MergedAs p dirty st) (hnone : dirty p.managerServiceID = none) :
    MergedAs p (update dirty p.managerServiceID (some q)) (mergeManager p st q) where
  mutA := by
    rw [managerMoved_update_self]
    simp [Accumulation.mergeManager, h.mutA, managerMoved_of_none hnone]
  mutR := by
    rw [managerMoved_update_self]
    simp [Accumulation.mergeManager, h.mutR, managerMoved_of_none hnone]
  mutU := by
    rw [managerMoved_update_self]
    simp [Accumulation.mergeManager, h.mutU, managerMoved_of_none hnone]
  manager := by simp [Accumulation.mergeManager]
  alwaysAcc k := by
    simp only [Accumulation.mergeManager, h.alwaysAcc k, hnone, update_self]
    rfl
  registrar := by
    rw [← mergedRole_manager hnone, ← h.registrar]
    rfl
  upcoming := by
    rw [← mergedRole_manager hnone, ← h.upcoming]
    rfl
  assigner c := by
    have hc := h.assigner c
    unfold mergedAssigner at hc ⊢
    rw [managerMoved_of_none hnone] at hc
    rw [managerMoved_update_self]
    by_cases hA : p.authQueueServiceID = q.authQueueServiceID
    · rw [if_neg (by simp)] at hc
      rw [if_neg (by simpa using hA)]
      have hkeep : (Accumulation.mergeManager p st q).1.authQueueServiceID c =
          st.1.authQueueServiceID c := by
        simp [Accumulation.mergeManager, hA]
      rw [hkeep, hc]
      by_cases hm : p.authQueueServiceID c = p.managerServiceID
      · simp [hm]
      · rw [update_of_ne hm]
    · simp [Accumulation.mergeManager, hA]

/-- **The round of another service.** -/
theorem MergedAs.mergeOther (h : MergedAs p dirty st)
    (hs : s ≠ p.managerServiceID) (hnone : dirty s = none) :
    MergedAs p (update dirty s (some q)) (mergeOther p st s q) where
  mutA := h.mutA.trans (managerMoved_update_of_ne _ hs _).symm
  mutR := h.mutR.trans (managerMoved_update_of_ne _ hs _).symm
  mutU := h.mutU.trans (managerMoved_update_of_ne _ hs _).symm
  manager := by
    rw [update_of_ne hs.symm]
    exact h.manager
  alwaysAcc k := by
    rw [update_of_ne hs.symm]
    exact h.alwaysAcc k
  registrar := by
    rw [← mergedRole_other hs hnone, ← h.registrar, ← h.mutR]
    rfl
  upcoming := by
    rw [← mergedRole_other hs hnone, ← h.upcoming, ← h.mutU]
    rfl
  assigner c := by
    have hc := h.assigner c
    unfold mergedAssigner at hc ⊢
    rw [managerMoved_update_of_ne _ hs, update_of_ne hs.symm]
    cases hmoved : managerMoved p dirty (·.authQueueServiceID) with
    | true =>
      rw [hmoved] at hc
      simpa [Accumulation.mergeOther, h.mutA, hmoved] using hc
    | false =>
      rw [hmoved, if_neg (by simp)] at hc
      rw [if_neg (by simp)]
      have hround : (Accumulation.mergeOther p st s q).1.authQueueServiceID c =
          if firstCore p.authQueueServiceID s = some c then q.authQueueServiceID c
          else st.1.authQueueServiceID c := by
        simp only [Accumulation.mergeOther, h.mutA, hmoved]
        cases hfirst : firstCore p.authQueueServiceID s with
        | none => simp
        | some c₀ =>
          by_cases hcc : c = c₀
          · simp [hcc]
          · simp [hcc, Ne.symm hcc]
      rw [hround, hc]
      -- the round concerns core `c` only if the service is its assigner
      by_cases hown : p.authQueueServiceID c = s
      · rw [hown]
        by_cases hfirst : firstCore p.authQueueServiceID s = some c
        · simp [hfirst, hs]
        · simp [hfirst]
      · rw [update_of_ne hown, if_neg fun hfirst => hown (firstCore_eq_some hfirst)]

end

section

variable {o : PartialState}

/-- The privileges of the results with `PrivilegedDirty` set. -/
def dirtyOf (l : List AccRes) (s : UInt32) : Option PrivilegedServiceState :=
  ((byKey (·.service) l s).filter (·.xy.u.privilegedDirty)).map (·.xy.u.privilegedState)

theorem dirtyOf_concat {l : List AccRes} {r : AccRes} (hr : r.service ∉ l.map (·.service)) :
    dirtyOf (l ++ [r]) = if r.xy.u.privilegedDirty then
        Function.update (dirtyOf l) r.service (some r.xy.u.privilegedState)
      else dirtyOf l := by
  funext s
  have hnone : byKey (·.service) l r.service = none := (byKey_eq_none _).mpr hr
  unfold dirtyOf
  rw [byKey_concat _ hr]
  by_cases hs : r.service = s
  · subst hs
    cases hd : r.xy.u.privilegedDirty <;> simp [hd, hnone, Option.filter]
  · cases hd : r.xy.u.privilegedDirty <;> simp [hs, Ne.symm hs]

/-- One round of the loop extends the dirty results by its own. -/
theorem MergedAs.mergePrivileges {p : PrivilegedServiceState} {l : List AccRes} {r : AccRes}
    {st : PrivilegedServiceState × Mutated} (h : MergedAs p (dirtyOf l) st)
    (hr : r.service ∉ l.map (·.service)) :
    MergedAs p (dirtyOf (l ++ [r])) (mergePrivileges p st r) := by
  have hnone : dirtyOf l r.service = none := by
    simp [dirtyOf, (byKey_eq_none _).mpr hr]
  rw [dirtyOf_concat hr]
  unfold Accumulation.mergePrivileges
  split_ifs with hd hm
  · rw [hm] at hnone ⊢
    exact h.mergeManager hnone
  · exact h.mergeOther hm hnone
  · exact h

/-- **What the merge does to the privileges**, for the results of any batch. -/
theorem mergedAs_mergeResults (b : Batch o) : ∃ flags,
    MergedAs o.privilegedState (dirtyOf b.results)
      ((mergeResults o b.results).privilegedState, flags) := by
  have hrun : MergedAs o.privilegedState (dirtyOf b.results)
      ((mergeResults o b.results).privilegedState, _) :=
    keyed_induction (P := fun l => MergedAs o.privilegedState (dirtyOf l)
      ((l.foldl (mergeResult o.privilegedState) (o, ⟨false, false, false⟩)).1.privilegedState,
        (l.foldl (mergeResult o.privilegedState) (o, ⟨false, false, false⟩)).2))
      AccRes.service b.nodup MergedAs.start (fun l r _ hr ih => by
        rw [List.foldl_concat]
        exact ih.mergePrivileges hr)
  exact ⟨_, hrun⟩

variable (b : Batch o)

/-- The field `f` of the privileges as service `s` left it; unchanged if it did not
run. -/
def Batch.leaves {β : Type} (s : UInt32) (f : PrivilegedServiceState → β) : β :=
  ((b.partialOf s).map fun u => f u.privilegedState).getD (f o.privilegedState)

/-- Who is to hold the role `f` after the batch: the manager decides, and if it
leaves the role as it was, the service that holds it. -/
def Batch.choice (f : PrivilegedServiceState → UInt32) : UInt32 :=
  if b.leaves o.privilegedState.managerServiceID f ≠ f o.privilegedState then
    b.leaves o.privilegedState.managerServiceID f
  else b.leaves (f o.privilegedState) f

/-- The privileges are those that the privileged services of the batch decided on. -/
structure Batch.Chosen (q : PrivilegedServiceState) : Prop where
  manager : q.managerServiceID = b.leaves o.privilegedState.managerServiceID (·.managerServiceID)
  alwaysAcc : ∀ k, q.alwaysAccServiceID k =
    b.leaves o.privilegedState.managerServiceID (·.alwaysAccServiceID k)
  registrar : q.registrarServiceID = b.choice (·.registrarServiceID)
  upcoming : q.upcomingValidatorsServiceID = b.choice (·.upcomingValidatorsServiceID)
  assigner : ∀ c, q.authQueueServiceID c = b.choice (·.authQueueServiceID c)

/-- The manager ran BLESS and changed the assigner of some core. -/
def Batch.MovesAssigners : Prop :=
  ∃ u, b.partialOf o.privilegedState.managerServiceID = some u ∧ u.privilegedDirty = true ∧
    u.privilegedState.authQueueServiceID ≠ o.privilegedState.authQueueServiceID

/-- The batches that the merge handles as intended. -/
structure Batch.Mergeable : Prop where
  /-- A manager that ran BLESS removed no entry of the always-accumulate map. -/
  alwaysAcc : ∀ u, b.partialOf o.privilegedState.managerServiceID = some u →
    u.privilegedDirty = true → ∀ k, u.privilegedState.alwaysAccServiceID k = none →
      o.privilegedState.alwaysAccServiceID k = none
  /-- If the manager changed assigners by BLESS, it changed all those that are to
  change. -/
  moved : b.MovesAssigners → ∀ c,
    b.choice (·.authQueueServiceID c) ≠ o.privilegedState.authQueueServiceID c →
      b.leaves o.privilegedState.managerServiceID (·.authQueueServiceID c) ≠
        o.privilegedState.authQueueServiceID c
  /-- If not, every assigner that is to change is replaced by a service that holds
  this core as the first one, is not the manager, and ran BLESS. -/
  handed : ¬ b.MovesAssigners → ∀ c,
    b.choice (·.authQueueServiceID c) ≠ o.privilegedState.authQueueServiceID c →
      o.privilegedState.authQueueServiceID c ≠ o.privilegedState.managerServiceID ∧
      firstCore o.privilegedState.authQueueServiceID (o.privilegedState.authQueueServiceID c) =
        some c ∧
      ∃ u, b.partialOf (o.privilegedState.authQueueServiceID c) = some u ∧
        u.privilegedDirty = true ∧
        u.privilegedState.authQueueServiceID c = b.choice (·.authQueueServiceID c)

theorem dirtyOf_results (s : UInt32) : dirtyOf b.results s =
    ((b.partialOf s).filter (·.privilegedDirty)).map (·.privilegedState) := by
  unfold dirtyOf Batch.partialOf
  cases byKey (·.service) b.results s with
  | none => rfl
  | some r => cases hd : r.xy.u.privilegedDirty <;> simp [Option.filter, hd]

theorem dirtyOf_eq_some {s : UInt32} {q : PrivilegedServiceState} : dirtyOf b.results s = some q ↔
      ∃ u, b.partialOf s = some u ∧ u.privilegedDirty = true ∧ u.privilegedState = q := by
  rw [dirtyOf_results]
  simp [filter_eq_some_iff, and_assoc]

/-- For a field that only BLESS changes, the dirty results tell how a service left
it. -/
theorem dirtyOf_leaves {β : Type} {f : PrivilegedServiceState → β}
    (hf : ∀ u, Kept o u → u.privilegedDirty = false → f u.privilegedState = f o.privilegedState)
    (s : UInt32) : ((dirtyOf b.results s).map f).getD (f o.privilegedState) = b.leaves s f := by
  rw [dirtyOf_results]
  unfold Batch.leaves
  cases hu : b.partialOf s with
  | none => rfl
  | some u =>
    cases hd : u.privilegedDirty with
    | true => simp [Option.filter, hd]
    | false => simpa [Option.filter, hd] using (hf u (b.kept_partialOf hu) hd).symm

theorem managerMoved_eq_leaves {β : Type} [DecidableEq β] {f : PrivilegedServiceState → β}
    (hf : ∀ u, Kept o u → u.privilegedDirty = false → f u.privilegedState = f o.privilegedState) :
    managerMoved o.privilegedState (dirtyOf b.results) f = true ↔
      b.leaves o.privilegedState.managerServiceID f ≠ f o.privilegedState := by
  rw [← dirtyOf_leaves b hf]
  unfold managerMoved
  cases dirtyOf b.results o.privilegedState.managerServiceID with
  | none => simp
  | some q => simpa using ne_comm

/-- **The roles of designator and registrar are merged as intended.** -/
theorem mergedRole_eq_choice {f : PrivilegedServiceState → UInt32}
    (hf : ∀ u, Kept o u → u.privilegedDirty = false → f u.privilegedState = f o.privilegedState) :
    mergedRole o.privilegedState (dirtyOf b.results) f = b.choice f := by
  unfold mergedRole Batch.choice
  simp only [dirtyOf_leaves b hf, managerMoved_eq_leaves b hf]
  split_ifs with hmoved hown
  · rfl
  · calc f o.privilegedState
        = b.leaves o.privilegedState.managerServiceID f := (not_not.mp hmoved).symm
      _ = b.leaves (f o.privilegedState) f := by rw [hown]
  · rfl

theorem managerMoved_eq_movesAssigners :
    managerMoved o.privilegedState (dirtyOf b.results) (·.authQueueServiceID) = true ↔
      b.MovesAssigners := by
  unfold managerMoved Batch.MovesAssigners
  rw [dirtyOf_results]
  cases b.partialOf o.privilegedState.managerServiceID with
  | none => simp
  | some u =>
    cases hd : u.privilegedDirty with
    | false => simp [Option.filter, hd]
    | true => simpa [Option.filter, hd] using ne_comm

/-- The always-accumulate map is the manager's one precisely if nothing was removed
from it. -/
theorem mergedAlwaysAcc_iff : (∀ k, ((dirtyOf b.results o.privilegedState.managerServiceID).bind
        (·.alwaysAccServiceID k)).or (o.privilegedState.alwaysAccServiceID k) =
      b.leaves o.privilegedState.managerServiceID (·.alwaysAccServiceID k)) ↔
    ∀ u, b.partialOf o.privilegedState.managerServiceID = some u → u.privilegedDirty = true →
      ∀ k, u.privilegedState.alwaysAccServiceID k = none →
        o.privilegedState.alwaysAccServiceID k = none := by
  rw [dirtyOf_results]
  unfold Batch.leaves
  cases hu : b.partialOf o.privilegedState.managerServiceID with
  | none => simp
  | some u =>
    cases hd : u.privilegedDirty with
    | false => simp [Option.filter, hd, (b.kept_partialOf hu).alwaysAcc hd]
    | true =>
      simp only [Option.filter, hd, Option.some.injEq, forall_eq', if_true, Option.map_some,
        bind_some, getD_some, true_implies]
      refine forall_congr' fun k => ?_
      cases u.privilegedState.alwaysAccServiceID k <;> simp

theorem choice_of_kept {f : PrivilegedServiceState → UInt32}
    (h : b.choice f = f o.privilegedState) :
    b.leaves o.privilegedState.managerServiceID f = f o.privilegedState ∧
      b.leaves (f o.privilegedState) f = f o.privilegedState := by
  unfold Batch.choice at h
  split_ifs at h with hm
  · exact absurd h hm
  · exact ⟨not_not.mp hm, h⟩

/-- When the manager has changed assigners, the merged assigner of a core is the
intended one if the manager changed it, or it is to stay. -/
theorem mergedAssigner_of_moved (h : b.MovesAssigners) (c : Fin totalCores) :
    mergedAssigner o.privilegedState (dirtyOf b.results) c = b.choice (·.authQueueServiceID c) ↔
      (b.choice (·.authQueueServiceID c) ≠ o.privilegedState.authQueueServiceID c →
        b.leaves o.privilegedState.managerServiceID (·.authQueueServiceID c) ≠
          o.privilegedState.authQueueServiceID c) := by
  have hmerged : mergedAssigner o.privilegedState (dirtyOf b.results) c =
      b.leaves o.privilegedState.managerServiceID (·.authQueueServiceID c) := by
    unfold mergedAssigner
    rw [if_pos ((managerMoved_eq_movesAssigners b).mpr h)]
    obtain ⟨u, hu, hd, -⟩ := h
    rw [(dirtyOf_eq_some b).mpr ⟨u, hu, hd, rfl⟩]
    simp [Batch.leaves, hu]
  rw [hmerged]
  constructor
  · intro heq hne
    rwa [heq]
  · intro himp
    by_cases hstay : b.choice (·.authQueueServiceID c) = o.privilegedState.authQueueServiceID c
    · rw [hstay]
      exact (choice_of_kept b hstay).1
    · exact (if_pos (himp hstay)).symm

/-- When it has not, the merged assigner is the intended one if it is to stay, or
was changed by BLESS by another service that holds this core as its first. -/
theorem mergedAssigner_of_not_moved (h : ¬ b.MovesAssigners) (c : Fin totalCores) :
    mergedAssigner o.privilegedState (dirtyOf b.results) c = b.choice (·.authQueueServiceID c) ↔
      (b.choice (·.authQueueServiceID c) ≠ o.privilegedState.authQueueServiceID c →
        o.privilegedState.authQueueServiceID c ≠ o.privilegedState.managerServiceID ∧
        firstCore o.privilegedState.authQueueServiceID (o.privilegedState.authQueueServiceID c) =
          some c ∧
        ∃ u, b.partialOf (o.privilegedState.authQueueServiceID c) = some u ∧
          u.privilegedDirty = true ∧
          u.privilegedState.authQueueServiceID c = b.choice (·.authQueueServiceID c)) := by
  unfold mergedAssigner
  rw [if_neg (fun hm => h ((managerMoved_eq_movesAssigners b).mp hm))]
  by_cases hown : o.privilegedState.authQueueServiceID c ≠ o.privilegedState.managerServiceID ∧
      firstCore o.privilegedState.authQueueServiceID (o.privilegedState.authQueueServiceID c) =
        some c
  · rw [if_pos hown]
    cases hq : dirtyOf b.results (o.privilegedState.authQueueServiceID c) with
    | none =>
      refine ⟨fun heq hne => absurd heq.symm hne, fun himp => ?_⟩
      by_contra hne
      obtain ⟨-, -, u, hu, hd, -⟩ := himp (Ne.symm hne)
      rw [(dirtyOf_eq_some b).mpr ⟨u, hu, hd, rfl⟩] at hq
      exact absurd hq (by simp)
    | some q =>
      obtain ⟨u, hu, hd, rfl⟩ := (dirtyOf_eq_some b).mp hq
      refine ⟨fun heq _ => ⟨hown.1, hown.2, u, hu, hd, heq⟩, fun himp => ?_⟩
      by_cases hstay : b.choice (·.authQueueServiceID c) = o.privilegedState.authQueueServiceID c
      · rw [hstay, ← (choice_of_kept b hstay).2]
        simp [Batch.leaves, hu]
      · obtain ⟨-, -, u', hu', -, heq⟩ := himp hstay
        obtain rfl := some.inj (hu.symm.trans hu')
        exact heq
  · rw [if_neg hown]
    refine ⟨fun heq hne => absurd heq.symm hne, fun himp => ?_⟩
    by_contra hne
    obtain ⟨h₁, h₂, -⟩ := himp (Ne.symm hne)
    exact hown ⟨h₁, h₂⟩

/-- **The merge of a batch.** The merged privileges are those that the privileged
services decided on precisely for the mergeable batches. -/
theorem chosen_mergeResults_iff :
    b.Chosen (mergeResults o b.results).privilegedState ↔ b.Mergeable := by
  obtain ⟨flags, hm⟩ := mergedAs_mergeResults b
  constructor
  · intro h
    refine ⟨(mergedAlwaysAcc_iff b).mp fun k => ?_, fun hmoved c => ?_, fun hmoved c => ?_⟩
    · rw [← hm.alwaysAcc]
      exact h.alwaysAcc k
    · rw [← mergedAssigner_of_moved b hmoved c, ← hm.assigner]
      exact h.assigner c
    · rw [← mergedAssigner_of_not_moved b hmoved c, ← hm.assigner]
      exact h.assigner c
  · intro h
    refine ⟨?_, fun k => ?_, ?_, ?_, fun c => ?_⟩
    · exact hm.manager.trans (dirtyOf_leaves b (fun u hu => hu.manager) _)
    · exact (hm.alwaysAcc k).trans ((mergedAlwaysAcc_iff b).mpr h.alwaysAcc k)
    · exact hm.registrar.trans (mergedRole_eq_choice b fun u hu => hu.registrar)
    · exact hm.upcoming.trans (mergedRole_eq_choice b fun u hu => hu.upcoming)
    · refine (hm.assigner c).trans ?_
      by_cases hmoved : b.MovesAssigners
      · exact (mergedAssigner_of_moved b hmoved c).mpr (h.moved hmoved c)
      · exact (mergedAssigner_of_not_moved b hmoved c).mpr (h.handed hmoved c)

variable (o) (blake2 : Bytes → Hash) (env : HostEnv) (timeslot : UInt32)
  (transfersIn : List DeferredTransfer) (workReports : List WorkReport)
  (freeAccumulation : List (UInt32 × UInt64)) (partials : List (UInt32 × XContext))
  (run : UInt32 → ServiceRun)

/-- **The privileges after a batch** are those that its privileged services decided
on precisely when the batch is mergeable: the manager removed no entry of the
always-accumulate map by BLESS, and every assigner that is to change was changed by
BLESS, by the manager, or, when it changed none, by another service for the first
of its cores. -/
theorem parallelizedAccumulate_privileges_iff :
    (batchOf blake2 env o transfersIn workReports freeAccumulation run).Chosen
        (parallelizedAccumulate blake2 env timeslot o transfersIn workReports freeAccumulation
          partials run).o.privilegedState ↔
      (batchOf blake2 env o transfersIn workReports freeAccumulation run).Mergeable := by
  obtain ⟨accounts, hout⟩ := parallelizedAccumulate_eq_merge blake2 env timeslot o transfersIn
    workReports freeAccumulation partials run
  rw [hout]
  exact chosen_mergeResults_iff _

end

/-- Manager 9 blesses the always-accumulate map `5 ↦ 1`; service 1 is the assigner
of both cores, blesses service 4 for both. -/
def blessAndHand (s : UInt32) : ServiceRun :=
  if s = 9 then regularRun [.bless 9 9 9 ![1, 1] [(5, 1)]]
  else regularRun [.bless 9 9 9 ![4, 4] []]

/-- A partial state with manager 9, assigner 1 for both cores and the
always-accumulate map `3 ↦ 1`. -/
def oneAssigner : PartialState :=
  { twoAssigners with
    privilegedState := ⟨9, ![1, 1], 9, 9, fun s => if s = 3 then some 1 else none⟩ }

/-- The entry that the manager removed is still there, and of the two cores that
their assigner gave to service 4 only the first changes hands. -/
theorem removed_entry_and_second_core_stay :
    let b := batchOf (fun _ => 0) populatedEnv oneAssigner [] [] [(1, 0), (9, 0)] blessAndHand
    let out := parallelizedAccumulate (fun _ => 0) populatedEnv 1 oneAssigner [] []
      [(1, 0), (9, 0)] [] blessAndHand
    b.leaves 9 (·.alwaysAccServiceID 3) = none ∧
      out.o.privilegedState.alwaysAccServiceID 3 = some 1 ∧
      b.choice (·.authQueueServiceID 0) = 4 ∧ b.choice (·.authQueueServiceID 1) = 4 ∧
      out.o.privilegedState.authQueueServiceID 0 = 4 ∧
      out.o.privilegedState.authQueueServiceID 1 = 1 := by
  decide +kernel

end JamDuna.Accumulation
