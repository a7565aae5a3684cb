/-
# When a host call stops the Go program

A host call of `statedb/pvm_hostfunctions.go` should end with a result code or a panic of
the guest, whatever the registers hold. Three of them can stop the Go program itself:

* LOOKUP writes `v[f:l]` with the clamped offset `f` and the clamped *length* `l`, which is
  no slice when the length is smaller than the offset;
* FETCH tests `int(i) < len` and indexes with the unsigned `i`, so an index of `2 ^ 63` or
  more passes the test; and it takes the imports of the current work item untested;
* EJECT of the index `2 ^ 64 - 1` gets a nil account from `getXUDS`, with the code `OK`,
  and reads a field of it.

`hostFunction_isSome_iff` says that there are no others, for a running service that has an
account.
-/

import JamDuna.Pvm.CopyWindow

namespace JamDuna.Pvm

open JamDuna.Types JamDuna.Basis Accumulation Option HostVM

/-- The index passes the signed test and is out of range. -/
def OutOfRange {α : Type} (l : List α) (i : UInt64) : Prop := 2 ^ 63 ≤ i.toNat ∧ l.length ≤ i.toNat

instance OutOfRange.decidable {α : Type} (l : List α) (i : UInt64) : Decidable (OutOfRange l i) :=
  inferInstanceAs (Decidable (_ ∧ _))

/-- The run-time errors of FETCH. -/
def FetchCrash (d : FetchData) (kind omega11 omega12 : UInt64) : Prop :=
  (kind.toNat = 3 ∧ OutOfRange d.extrinsics omega12) ∨
    (kind.toNat = 5 ∧ ∃ imports, d.imports = some imports ∧ (OutOfRange imports omega11 ∨
        ∃ segments, imports[omega11.toNat]? = some segments ∧ OutOfRange segments omega12)) ∨
    (kind.toNat = 6 ∧ (d.imports.getD []).length ≤ d.workItemIndex.toNat)

/-- The run-time error of LOOKUP: the preimage is there, its destination is writable, and
the length of the window is smaller than its offset. -/
def LookupCrash (env : StorageEnv) (vm : HostVM) : Prop :=
  ∃ s a k v, vm.lookupAccount env (vm.reg 7) = some (s, a) ∧
    vm.ram.readRAMBytes (vm.reg 8).toUInt32 32 = some k ∧
    a.preimageBlob env.toHostEnv (Hash.ofBytes k) = some v ∧
    vm.ram.canWrite (vm.reg 9).toUInt32 (clampedLength v (vm.reg 10) (vm.reg 11)).toUInt32 = true ∧
    (clampedLength v (vm.reg 10) (vm.reg 11)).toNat < (clampedOffset v (vm.reg 10)).toNat

/-- The run-time error of EJECT: the marker of the running service is taken as an index. -/
def EjectCrash (vm : HostVM) : Prop :=
  (vm.ram.readRAMBytes (vm.reg 8).toUInt32 32).isSome ∧ vm.reg 7 = maxUint64 ∧
    vm.x.u.serviceAccounts 0xffffffff = none

/-- The host calls that stop the Go program. -/
def Crashes (env : StorageEnv) (vm : HostVM) : HostFn → Prop
  | .fetch => vm.mode = .refine ∧ FetchCrash vm.data (vm.reg 10) (vm.reg 11) (vm.reg 12)
  | .lookup => vm.mode = .accumulate ∧ LookupCrash env vm
  | .eject => vm.mode = .accumulate ∧ EjectCrash vm
  | _ => False

theorem signedIndex_eq {α : Type} (l : List α) (i : UInt64) :
    signedIndex l i = if OutOfRange l i then none else some l[i.toNat]? := by
  have hsigned := toInt_toInt64 i
  have hlt := i.toNat_lt
  unfold signedIndex
  rcases Nat.lt_or_ge i.toNat l.length with hin | hout
  · have htest : i.toInt64.toInt < l.length := by
      rw [hsigned]
      split_ifs <;> omega
    have hrange : ¬ OutOfRange l i := fun h => Nat.not_le.mpr hin h.2
    rw [if_pos htest, if_neg hrange, List.getElem?_eq_getElem hin]
  · rw [List.getElem?_eq_none hout]
    by_cases hbig : 2 ^ 63 ≤ i.toNat
    · have htest : i.toInt64.toInt < l.length := by
        rw [hsigned, if_neg (by omega)]
        omega
      have hrange : OutOfRange l i := ⟨hbig, hout⟩
      rw [if_pos htest, if_pos hrange]
    · have htest : ¬ i.toInt64.toInt < l.length := by
        rw [hsigned, if_pos (by omega)]
        omega
      have hrange : ¬ OutOfRange l i := fun h => hbig h.1
      rw [if_neg htest, if_neg hrange]

theorem fetchSegment_eq_none_iff (d : FetchData) (i j : UInt64) :
    fetchSegment d i j = none ↔ ∃ imports, d.imports = some imports ∧ (OutOfRange imports i ∨
        ∃ segments, imports[i.toNat]? = some segments ∧ OutOfRange segments j) := by
  unfold fetchSegment
  cases himports : d.imports with
  | none => simp
  | some imports =>
    simp only [signedIndex_eq, some.injEq, exists_eq_left']
    by_cases hi : OutOfRange imports i
    · simp [hi]
    · rw [if_neg hi]
      cases hsegments : imports[i.toNat]? with
      | none => simp [hi]
      | some segments =>
        by_cases hj : OutOfRange segments j
        · simp [hj]
        · simp [hi, hj]

theorem fetchOwnSegment_eq_none_iff (d : FetchData) (i : UInt64) :
    fetchOwnSegment d i = none ↔ (d.imports.getD []).length ≤ d.workItemIndex.toNat := by
  unfold fetchOwnSegment
  rw [← List.getElem?_eq_none_iff]
  cases (d.imports.getD [])[d.workItemIndex.toNat]? <;> simp

/-- **When FETCH has no value to speak of.** -/
theorem fetchValue_eq_none_iff (d : FetchData) (kind i j : UInt64) :
    fetchValue d kind i j = none ↔ FetchCrash d kind i j := by
  unfold fetchValue FetchCrash
  split
  case h_4 hk =>
    rw [signedIndex_eq, hk]
    by_cases hj : OutOfRange d.extrinsics j <;> simp [hj]
  case h_6 hk =>
    rw [fetchSegment_eq_none_iff, hk]
    simp
  case h_7 hk =>
    rw [fetchOwnSegment_eq_none_iff, hk]
    simp
  case h_17 h0 h1 h2 h3 h4 h5 h6 _ _ _ _ _ _ _ _ _ =>
    simp only [reduceCtorEq, false_iff]
    rintro (⟨hk, -⟩ | ⟨hk, -⟩ | ⟨hk, -⟩)
    · exact h3 hk
    · exact h5 hk
    · exact h6 hk
  all_goals next hk => simp [hk]

theorem isSome_hostFetch_iff (vm : HostVM) :
    vm.hostFetch.isSome ↔ ¬ (fetchAllowed vm.mode (vm.reg 10) = true ∧
        FetchCrash vm.data (vm.reg 10) (vm.reg 11) (vm.reg 12)) := by
  rw [← fetchValue_eq_none_iff]
  unfold hostFetch
  by_cases hallowed : fetchAllowed vm.mode (vm.reg 10) = true
  · simp only [hallowed, if_true, true_and]
    cases fetchValue vm.data (vm.reg 10) (vm.reg 11) (vm.reg 12) with
    | none => simp
    | some value =>
      cases value with
      | none => simp
      | some v => simpa using isSome_copyOut vm v _ _ _
  · simp [hallowed]

/-- The kinds that can fail are those of a refinement. -/
theorem FetchCrash.allowed_iff {vm : HostVM}
    (h : FetchCrash vm.data (vm.reg 10) (vm.reg 11) (vm.reg 12)) :
    fetchAllowed vm.mode (vm.reg 10) = true ↔ vm.mode = .refine := by
  have hkind : vm.reg 10 = 3 ∨ vm.reg 10 = 5 ∨ vm.reg 10 = 6 := by
    rcases h with ⟨hk, -⟩ | ⟨hk, -⟩ | ⟨hk, -⟩
    · exact .inl (UInt64.toNat_inj.mp hk)
    · exact .inr (.inl (UInt64.toNat_inj.mp hk))
    · exact .inr (.inr (UInt64.toNat_inj.mp hk))
  rcases hkind with hk | hk | hk <;> rw [hk] <;> cases vm.mode <;> decide

section

variable {env : StorageEnv} {vm : HostVM}

theorem isSome_hostInfo (hown : vm.serviceAccount.isSome) : (vm.hostInfo env).isSome := by
  unfold hostInfo
  dsimp only
  have hmarker : (if vm.reg 7 = Code.none then vm.x.serviceIndex.toUInt64 else vm.reg 7) ≠
      maxUint64 := by
    split_ifs with h
    · exact toUInt64_ne_max _
    · exact h
  generalize (if vm.reg 7 = Code.none then vm.x.serviceIndex.toUInt64 else vm.reg 7) = i
    at hmarker ⊢
  have hnil := (getXUDS_eq_nil_iff env hown i).not.mpr fun h => hmarker h.1
  match hx : vm.getXUDS env i, hnil with
  | none, _ => rfl
  | some none, hnil => exact absurd rfl hnil
  | some (some t), _ =>
    dsimp only
    split_ifs
    · rfl
    · exact isSome_copyOut _ _ _ _ _

theorem isSome_readValue (a : ServiceAccount) (muK : Bytes) : (vm.readValue env a muK).isSome := by
  unfold readValue
  cases a.readStorage env muK with
  | none => rfl
  | some val => exact isSome_copyOut vm val _ _ _

section

variable (hown : vm.serviceAccount.isSome)
include hown

theorem isSome_hostRead : (vm.hostRead env).isSome := by
  by_cases hmode : vm.mode ≠ .accumulate
  · rw [hostRead, if_pos hmode]
    rfl
  · cases hk : vm.ram.readRAMBytes (vm.reg 8).toUInt32 (vm.reg 9).toUInt32 with
    | none =>
      rw [hostRead, if_neg hmode, hk]
      rfl
    | some muK =>
      rcases hostRead_of_key env (not_not.mp hmode) hk with ⟨-, hcall⟩ | ⟨a, vm₁, -, hcall, -⟩
      · rw [hcall hown]
        rfl
      · rw [hcall]
        exact isSome_readValue a muK

theorem isSome_hostWrite : (vm.hostWrite env).isSome := by
  obtain ⟨a, ha⟩ := isSome_iff_exists.mp hown
  unfold hostWrite
  split_ifs
  · rfl
  · cases vm.ram.readRAMBytes (vm.reg 7).toUInt32 (vm.reg 8).toUInt32 with
    | none => rfl
    | some muK =>
      rw [ha]
      cases vm.writeArgs <;> rfl

theorem isSome_hostTransfer : (vm.hostTransfer env).isSome := by
  obtain ⟨a, ha⟩ := isSome_iff_exists.mp hown
  unfold hostTransfer
  split_ifs
  · rfl
  · cases vm.ram.readRAMBytes (vm.reg 10).toUInt32 memoSize with
    | none => rfl
    | some memo =>
      cases (vm.getXUDS env (vm.reg 7)).join with
      | none => rfl
      | some receiver =>
        dsimp only
        split_ifs
        · rfl
        · rw [ha]
          rfl

theorem isSome_requestCall (call : ServiceAccount → Hash → UInt64 → RequestResult × ServiceAccount) :
    (vm.requestCall call).isSome := by
  obtain ⟨a, ha⟩ := isSome_iff_exists.mp hown
  unfold requestCall
  split_ifs
  · rfl
  · cases vm.ram.readRAMBytes (vm.reg 7).toUInt32 32 with
    | none => rfl
    | some h =>
      rw [ha]
      rfl

end

theorem isSome_hostHistoricalLookup : (vm.hostHistoricalLookup env).isSome := by
  unfold hostHistoricalLookup
  dsimp only
  split_ifs
  · rfl
  all_goals cases env.getService _ with
    | none => rfl
    | some a =>
      cases vm.ram.readRAMBytes (vm.reg 8).toUInt32 32 with
      | none => rfl
      | some h => exact isSome_copyOut vm _ _ _ _

/-- The end of LOOKUP, with the preimage that was found. -/
theorem isSome_copyPreimage_iff (found : Option Bytes) :
    (vm.copyPreimage found).isSome ↔ ¬ ∃ v, found = some v ∧ vm.ram.canWrite (vm.reg 9).toUInt32
          (clampedLength v (vm.reg 10) (vm.reg 11)).toUInt32 = true ∧
        (clampedLength v (vm.reg 10) (vm.reg 11)).toNat < (clampedOffset v (vm.reg 10)).toNat := by
  unfold copyPreimage
  cases found with
  | none =>
    dsimp only
    split_ifs <;> simp
  | some v =>
    have hslice := isSome_goSlice_clamped v (vm.reg 10) (vm.reg 11)
    simp only [getD_some, some.injEq, exists_eq_left']
    cases hw : vm.ram.canWrite (vm.reg 9).toUInt32
      (clampedLength v (vm.reg 10) (vm.reg 11)).toUInt32 with
    | false => simp
    | true =>
      simp only [Bool.true_eq_false, if_false, true_and, Nat.not_lt]
      rw [← hslice, isSome_map]

theorem isSome_hostLookup_iff (hmode : vm.mode = .accumulate) :
    (vm.hostLookup env).isSome ↔ ¬ LookupCrash env vm := by
  unfold hostLookup LookupCrash
  rw [if_neg (not_not.mpr hmode)]
  cases ha : vm.lookupAccount env (vm.reg 7) with
  | none => simp
  | some found =>
    obtain ⟨s, a⟩ := found
    cases hk : vm.ram.readRAMBytes (vm.reg 8).toUInt32 32 with
    | none => simp
    | some k =>
      refine (isSome_copyPreimage_iff _).trans (not_congr ?_)
      constructor
      · rintro ⟨v, hv, hrest⟩
        exact ⟨s, a, k, v, rfl, rfl, hv, hrest⟩
      · rintro ⟨s', a', k', v, hsa, hk', hv, hrest⟩
        cases hsa
        cases hk'
        exact ⟨v, hv, hrest⟩

theorem isSome_ejectFound (env : StorageEnv) (hown : vm.serviceAccount.isSome) (d : UInt64)
    (boldD : ServiceAccount) (h : Hash) : (vm.ejectFound env d boldD h).isSome := by
  have heject : ∀ s b l, ((vm.setAccount d.toUInt32 b).ejectAccount s b h l).isSome := by
    intro s b l
    obtain ⟨xs, hxs⟩ := isSome_iff_exists.mp (isSome_serviceAccount_setAccount hown d.toUInt32 b)
    unfold ejectAccount
    rw [hxs]
    rfl
  unfold ejectFound
  dsimp only
  cases boldD.lookupTimeslots env.toHostEnv h
      (goMax accountLookupConst boldD.storageSize - accountLookupConst).toUInt32 with
  | none => split_ifs <;> rfl
  | some timeslots =>
    match timeslots with
    | [] => split_ifs <;> rfl
    | [_] => split_ifs <;> rfl
    | [_, _] =>
      dsimp only
      split_ifs
      all_goals first | rfl | exact heject _ _ _
    | _ :: _ :: _ :: _ => split_ifs <;> rfl

theorem isSome_hostEject_iff (hmode : vm.mode = .accumulate) (hown : vm.serviceAccount.isSome) :
    (vm.hostEject env).isSome ↔ ¬ EjectCrash vm := by
  have hnil := getXUDS_eq_nil_iff env hown (vm.reg 7)
  unfold hostEject EjectCrash
  rw [if_neg (not_not.mpr hmode), ← hnil]
  cases vm.ram.readRAMBytes (vm.reg 8).toUInt32 32 with
  | none => simp
  | some h =>
    match hx : vm.getXUDS env (vm.reg 7) with
    | none => simp
    | some none => simp
    | some (some boldD) =>
      have hsome := isSome_ejectFound env
        (isSome_serviceAccount_setAccount hown (vm.reg 7).toUInt32 boldD) (vm.reg 7) boldD
        (Hash.ofBytes h)
      simpa using hsome

end

/-- **A host call returns, with a result code or a panic of the guest, exactly when it is not
one of the three that stop the Go program**, whatever the registers, the memory, the
context and the inputs are. -/
theorem hostFunction_isSome_iff (env : StorageEnv) (vm : HostVM) (hstart : vm.Started)
    (fn : HostFn) : (vm.hostFunction env fn).isSome ↔ ¬ Crashes env vm fn := by
  by_cases hmode : vm.mode = .accumulate
  · have hown := hstart hmode
    cases fn with
    | fetch =>
      have hfetch := isSome_hostFetch_iff vm
      simp only [hostFunction, Crashes, hmode, reduceCtorEq, if_false, false_and,
        not_false_eq_true, iff_true]
      rw [hfetch]
      rintro ⟨hallowed, hcrash⟩
      have hrefine := hcrash.allowed_iff.mp hallowed
      rw [hmode] at hrefine
      exact absurd hrefine (by decide)
    | historicalLookup => simp [hostFunction, Crashes, hmode]
    | read => simp [hostFunction, Crashes, hmode, isSome_hostRead hown]
    | write => simp [hostFunction, Crashes, hmode, isSome_hostWrite hown]
    | lookup =>
      simp only [hostFunction, Crashes, hmode, if_true, true_and]
      exact isSome_hostLookup_iff hmode
    | info => simp [hostFunction, Crashes, hmode, isSome_hostInfo hown]
    | transfer => simp [hostFunction, Crashes, hmode, isSome_hostTransfer hown]
    | eject =>
      simp only [hostFunction, Crashes, hmode, if_true, true_and]
      exact isSome_hostEject_iff hmode hown
    | solicit | forget =>
      simp only [hostFunction, Crashes, hmode, if_true, not_false_eq_true, iff_true]
      exact isSome_requestCall hown _
  · cases fn with
    | fetch =>
      by_cases hrefine : vm.mode = .refine
      · have hfetch := isSome_hostFetch_iff vm
        simp only [hostFunction, Crashes, hrefine, reduceCtorEq, if_false, true_and]
        rw [hfetch]
        refine not_congr ⟨fun h => h.2, fun h => ⟨h.allowed_iff.mpr hrefine, h⟩⟩
      · have hauth : vm.mode = .isAuthorized := by
          cases hm : vm.mode with
          | isAuthorized => rfl
          | refine => exact absurd hm hrefine
          | accumulate => exact absurd hm hmode
        simp [hostFunction, Crashes, hauth]
    | historicalLookup =>
      simp only [hostFunction, Crashes, not_false_eq_true, iff_true]
      split_ifs
      · exact isSome_hostHistoricalLookup
      · rfl
    | _ => simp [hostFunction, Crashes, hmode]

/-- A machine of service 1, which has the preimage `1, 2, 3` of the hash zero. -/
def holderVM (mode : Mode) (registers : List UInt64) : HostVM :=
  machineOf mode
    { serviceIndex := 1
      preimage := fun h => if h = 0 then some ⟨false, false, [1, 2, 3]⟩ else none } registers

theorem started_holderVM (mode : Mode) (registers : List UInt64) :
    (holderVM mode registers).Started := fun _ => rfl

/-- A READ of a key that is not there returns. -/
theorem hostFunction_isSome_read :
    ((holderVM .accumulate [maxUint64, 0, 1, 4096, 0, 8]).hostFunction emptyTrie .read).isSome :=
  (hostFunction_isSome_iff emptyTrie _ (started_holderVM _ _) .read).mpr fun h => h

/-- LOOKUP of the preimage `1, 2, 3` with offset 2 and length 8, FETCH of an extrinsic with
the index `2 ^ 63`, and EJECT of `2 ^ 64 - 1` do not return. -/
theorem hostFunction_not_total :
    (holderVM .accumulate [1, 0, 4096, 2, 8]).hostFunction emptyTrie .lookup = none ∧
      (holderVM .refine [4096, 0, 8, 3, 0, 9223372036854775808]).hostFunction emptyTrie .fetch = none ∧
      (holderVM .accumulate [maxUint64, 0]).hostFunction emptyTrie .eject = none := by
  decide +kernel

end JamDuna.Pvm
