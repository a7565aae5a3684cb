/-
# The footprint of an account

`NumStorageItems` and `StorageSize` of an account are moved along with its storage and
its requests by `hostWrite`, `hostSolicit` and `hostForget` of
`statedb/pvm_hostfunctions.go`.

Each call changes one entry of the contents and the counters by what that entry weighs,
so the counters stay exact (`footprint_exact_of_run`), with three exceptions in the
source: a WRITE whose length register is a non-zero multiple of `2 ^ 32` reads no byte
and so counts as a deletion, or as nothing, but stores an empty value; a FORGET
subtracts its 64-bit length register, where the request has the register modulo
`2 ^ 32`; and the overlay of requests answers for a hash whatever the length is.
Beyond that the counters have 32 and 64 bits.
-/

import JamDuna.Accumulation.Contents
import JamDuna.Basis.Runs

namespace JamDuna.Accumulation

open JamDuna.Types JamDuna.Basis UInt64 ServiceAccount
open UInt64 (ofNat toNat_add)

section

variable (env : StorageEnv) (a : ServiceAccount)

/-- A call that changes the footprint. -/
inductive FootprintCall where
  | write (args : WriteArgs)
  | solicit (timeslot : UInt32) (h : Hash) (z : UInt64)
  | forget (timeslot : UInt32) (h : Hash) (z : UInt64)

/-- The account after a call. -/
def ServiceAccount.footprintStep : FootprintCall → ServiceAccount
  | .write args => (a.hostWrite env args).2
  | .solicit timeslot h z => (a.hostSolicit env.toHostEnv timeslot h z).2
  | .forget timeslot h z => (a.hostForget env.toHostEnv timeslot h z).2

/-- The calls whose registers say the same in 64 and in 32 bits, on a hash that the
overlay has under no other length. -/
def FootprintCall.Clean : FootprintCall → Prop
  | .write args => args.vz = 0 ∨ args.v ≠ []
  | .solicit _ h z => a.OneLengthAt h z.toUInt32
  | .forget _ h z => a.OneLengthAt h z.toUInt32 ∧ z.toNat < 2 ^ 32

/-- A clean call whose result fits into the counters. -/
def CleanStep (a : ServiceAccount) (call : FootprintCall) (a' : ServiceAccount) : Prop :=
  a' = a.footprintStep env call ∧ call.Clean a ∧ FitsCounters env a'

end

section

variable {env : StorageEnv} {a : ServiceAccount} {args : WriteArgs}

/-- The entry that a write puts down. -/
def WriteArgs.entry (args : WriteArgs) : Option Bytes := if args.vz = 0 then none else some args.v

theorem readStorage_writeEntry (env : StorageEnv) (a : ServiceAccount) (args : WriteArgs) :
    (a.writeStorage args.muK args.v (args.vz == 0)).readStorage env =
      Function.update (a.readStorage env) args.muK args.entry := by
  simp [readStorage_writeStorage, WriteArgs.entry]

/-- What a write that is not refused does. -/
theorem hostWrite_of_le (hb : ¬ a.balance < a.writeThreshold env args) :
    (a.hostWrite env args).2.readStorage env =
        Function.update (a.readStorage env) args.muK args.entry ∧
      (a.hostWrite env args).2.requestMap env = a.requestMap env ∧
      (a.hostWrite env args).2.numStorageItems = (if (a.writeDelta env args).deltaItems ≠ 0 then
          (a.adjustNumStorageItems (a.writeDelta env args).deltaItems).numStorageItems
        else a.numStorageItems) ∧
      (a.hostWrite env args).2.storageSize =
        (a.adjustStorageSize (a.writeDelta env args).deltaSize).storageSize := by
  have hstorage := readStorage_writeEntry env a args
  unfold hostWrite
  rw [if_neg hb]
  generalize a.writeDelta env args = d
  dsimp only
  refine ⟨?_, ?_, ?_, ?_⟩
  · rw [← hstorage]
    funext k
    split_ifs <;> simp
  · funext p
    unfold adjustStorageSize
    split_ifs <;> rfl
  · unfold adjustStorageSize
    split_ifs <;> rfl
  · unfold adjustStorageSize
    split_ifs <;> first | rfl | contradiction

/-- The word for a sum of lengths. -/
theorem toNat_storageWord {m n : ℕ} (h : 34 + m + n < 2 ^ 64) :
    (accountStorageConst + ofNat m + ofNat n).toNat = 34 + m + n := by
  have hconst : accountStorageConst.toNat = 34 := rfl
  rw [toNat_add, toNat_add, hconst, UInt64.toNat_ofNat', UInt64.toNat_ofNat']
  omega

theorem WriteArgs.v_eq_nil (hvz : args.vz = 0) : args.v = [] := by
  have hlen := args.length_v
  rw [hvz] at hlen
  exact List.length_eq_zero_iff.mp hlen

theorem WriteArgs.length_v_lt (args : WriteArgs) : args.v.length < 2 ^ 32 := by
  rw [args.length_v]
  exact args.vz.toUInt32.toNat_lt

/-- The length of the value that was read, as a word. -/
theorem WriteArgs.toNat_valLen (args : WriteArgs) :
    (ofNat args.v.length).toNat = args.v.length := by
  have := args.length_v_lt
  rw [toNat_ofNat']
  omega

variable (hclean : args.vz = 0 ∨ args.v ≠ [])
include hclean

/-- The value of a clean write is empty exactly when the entry is deleted. -/
theorem WriteArgs.valLen_eq_zero_iff :
    ofNat args.v.length = 0 ↔ args.vz = 0 := by
  have hword : ofNat args.v.length = 0 ↔ args.v = [] := by
    rw [← UInt64.toNat_inj, args.toNat_valLen]
    exact List.length_eq_zero_iff
  rw [hword]
  exact ⟨fun hv => hclean.resolve_right fun h => h hv, WriteArgs.v_eq_nil⟩

/-- The four kinds of clean writes, by the old value and the deletion. -/
theorem writeDelta_cases (env : StorageEnv) (a : ServiceAccount) :
    (a.readStorage env args.muK = none ∧ args.entry = none ∧
      a.writeDelta env args = ⟨0, 0, maxUint64⟩) ∨
    (a.readStorage env args.muK = none ∧ args.entry = some args.v ∧
      a.writeDelta env args = ⟨1, (accountStorageConst + ofNat args.v.length +
        ofNat args.muK.length).toInt64, maxUint64⟩) ∨
    (∃ old, a.readStorage env args.muK = some old ∧ args.entry = none ∧
      a.writeDelta env args = ⟨-1, (-(accountStorageConst + ofNat old.length +
        ofNat args.muK.length)).toInt64, ofNat old.length⟩) ∨
    ∃ old, a.readStorage env args.muK = some old ∧ args.entry = some args.v ∧
      a.writeDelta env args = ⟨0, (ofNat args.v.length - ofNat old.length).toInt64,
        ofNat old.length⟩ := by
  have hzero := WriteArgs.valLen_eq_zero_iff hclean
  unfold ServiceAccount.writeDelta Accumulation.writeDelta WriteArgs.entry
  cases hold : a.readStorage env args.muK with
  | none =>
    by_cases hvz : args.vz = 0
    · refine .inl ⟨rfl, if_pos hvz, ?_⟩
      simp [hzero.mpr hvz]
    · have hpos : 0 < ofNat args.v.length := UInt64.pos_iff_ne_zero.mpr (mt hzero.mp hvz)
      refine .inr (.inl ⟨rfl, if_neg hvz, ?_⟩)
      simp [hpos]
  | some old =>
    by_cases hvz : args.vz = 0
    · refine .inr (.inr (.inl ⟨old, rfl, if_pos hvz, ?_⟩))
      rw [toInt64_neg]
      exact if_pos (hzero.mpr hvz)
    · refine .inr (.inr (.inr ⟨old, rfl, if_neg hvz, ?_⟩))
      rw [toInt64_sub]
      exact if_neg (mt hzero.mp hvz)

/-- The counter of items follows the entry. -/
theorem toNat_items_writeDelta {m : ℕ} (hlt : m < 2 ^ 32)
    (hm : m + entryWeight (fun _ _ => 1) args.muK (a.readStorage env args.muK) =
      a.numStorageItems.toNat + entryWeight (fun _ _ => 1) args.muK args.entry) :
    (if (a.writeDelta env args).deltaItems ≠ 0 then
      (a.adjustNumStorageItems (a.writeDelta env args).deltaItems).numStorageItems
      else a.numStorageItems).toNat = m := by
  rcases writeDelta_cases hclean env a with ⟨hold, hnew, hd⟩ | ⟨hold, hnew, hd⟩ |
    ⟨old, hold, hnew, hd⟩ | ⟨old, hold, hnew, hd⟩
  all_goals
    rw [hold, hnew] at hm
    simp only [entryWeight_none, entryWeight_some] at hm
    rw [hd]
  · rw [if_neg (not_not.mpr rfl)]
    omega
  · have hone : (1 : UInt32).toNat = 1 := rfl
    rw [if_pos (show (1 : Int32) ≠ 0 by decide)]
    exact toNat_adjustNumStorageItems a (u := 1) (by rw [hone]; omega) (by rw [hone]; omega)
  · have hone : (-1 : UInt32).toNat = 2 ^ 32 - 1 := rfl
    rw [if_pos (show (-1 : Int32) ≠ 0 by decide)]
    exact toNat_adjustNumStorageItems a (u := -1) (by rw [hone]; omega) (by rw [hone]; omega)
  · rw [if_neg (not_not.mpr rfl)]
    omega

/-- The counter of octets follows the entry. -/
theorem toNat_octets_writeDelta {m : ℕ} (hlt : m < 2 ^ 64)
    (hm : m + entryWeight storageOctets args.muK (a.readStorage env args.muK) =
      a.storageSize.toNat + entryWeight storageOctets args.muK args.entry)
    (hold : entryWeight storageOctets args.muK (a.readStorage env args.muK) ≤ a.storageSize.toNat) :
    (a.adjustStorageSize (a.writeDelta env args).deltaSize).storageSize.toNat = m := by
  have hS := a.storageSize.toNat_lt
  have hK := args.length_muK
  have hV := args.length_v_lt
  rcases writeDelta_cases hclean env a with ⟨hread, hnew, hd⟩ | ⟨hread, hnew, hd⟩ |
    ⟨old, hread, hnew, hd⟩ | ⟨old, hread, hnew, hd⟩
  all_goals
    rw [hread, hnew] at hm
    rw [hread] at hold
    simp only [entryWeight_none, entryWeight_some, storageOctets] at hm hold
    rw [hd]
  · have hzero : (0 : UInt64).toNat = 0 := rfl
    exact toNat_adjustStorageSize a (u := 0) (by rw [hzero]; omega) (by rw [hzero]; omega)
  · have hword := toNat_storageWord (m := args.v.length) (n := args.muK.length) (by omega)
    exact toNat_adjustStorageSize a (by rw [hword]; omega) (by rw [hword]; omega)
  · have hword := toNat_storageWord (m := old.length) (n := args.muK.length) (by omega)
    have hneg := toNat_neg_of_pos (u := accountStorageConst + ofNat old.length +
      ofNat args.muK.length) (by omega)
    rw [hword] at hneg
    exact toNat_adjustStorageSize a (by rw [hneg]; omega) (by rw [hneg]; omega)
  · have hprev : (ofNat old.length).toNat = old.length := by
      rw [toNat_ofNat']
      omega
    have hword : (ofNat args.v.length - ofNat old.length).toNat =
        (2 ^ 64 - old.length + args.v.length) % 2 ^ 64 := by
      rw [UInt64.toNat_sub, args.toNat_valLen, hprev]
    exact toNat_adjustStorageSize a (by rw [hword]; omega) (by rw [hword]; omega)

/-- **A clean write keeps the footprint exact.** -/
theorem FootprintExact.hostWrite (h : FootprintExact env a)
    (hfits : FitsCounters env (a.hostWrite env args).2) :
    FootprintExact env (a.hostWrite env args).2 := by
  by_cases hb : a.balance < a.writeThreshold env args
  · have hfull : (a.hostWrite env args).2 = a := by
      unfold ServiceAccount.hostWrite
      rw [if_pos hb]
    rw [hfull]
    exact h
  · obtain ⟨hstorage, hrequests, hnum, hsize⟩ := hostWrite_of_le hb
    obtain ⟨hitems, hoctets⟩ := contents_of_storage h.storage_finite hstorage hrequests
    have hle : entryWeight storageOctets args.muK (a.readStorage env args.muK) ≤
        a.storageSize.toNat := by
      have := entryWeight_le_mapWeight storageOctets h.storage_finite args.muK
      rw [h.octets_eq, octets]
      omega
    rw [← h.items_eq] at hitems
    rw [← h.octets_eq] at hoctets
    refine ⟨by rw [hstorage]; exact keys_update_finite h.storage_finite _ _,
      by rw [hrequests]; exact h.requests_finite, ?_, ?_⟩
    · rw [hnum]
      exact toNat_items_writeDelta hclean hfits.1 hitems
    · rw [hsize]
      exact toNat_octets_writeDelta hclean hfits.2 hoctets hle

end

section

variable {env : StorageEnv} {a b : ServiceAccount} {h : Hash}

section

variable (ha : FootprintExact env a)
include ha

/-- The footprint stays exact when one request changes and the counters follow. -/
theorem FootprintExact.of_request {p : Hash × UInt32} {t : Option (List UInt32)}
    (hstorage : b.readStorage env = a.readStorage env)
    (hrequests : b.requestMap env = Function.update (a.requestMap env) p t)
    (hnum : b.numStorageItems.toNat + entryWeight (fun _ _ => 2) p (a.requestMap env p) =
      a.numStorageItems.toNat + entryWeight (fun _ _ => 2) p t)
    (hsize : b.storageSize.toNat + entryWeight requestOctets p (a.requestMap env p) =
      a.storageSize.toNat + entryWeight requestOctets p t) :
    FootprintExact env b := by
  obtain ⟨hitems, hoctets⟩ := contents_of_request ha.requests_finite hstorage hrequests
  have hitems₀ := ha.items_eq
  have hoctets₀ := ha.octets_eq
  refine ⟨by rw [hstorage]; exact ha.storage_finite,
    by rw [hrequests]; exact keys_update_finite ha.requests_finite _ _, ?_, ?_⟩
  · omega
  · omega

/-- Reading requests and preimages changes no footprint. -/
theorem FootprintExact.of_reads (hstorage : b.readStorage env = a.readStorage env)
    (hrequests : b.requestMap env = a.requestMap env) (hnum : b.numStorageItems = a.numStorageItems)
    (hsize : b.storageSize = a.storageSize) : FootprintExact env b := by
  refine ⟨by rw [hstorage]; exact ha.storage_finite, by rw [hrequests]; exact ha.requests_finite,
    ?_, ?_⟩
  · rw [hnum, ha.items_eq, items, items, hstorage, hrequests]
  · rw [hsize, ha.octets_eq, octets, octets, hstorage, hrequests]

theorem FootprintExact.cacheLookup (z : UInt32) :
    FootprintExact env (a.cacheLookup env.toHostEnv h z) := by
  refine ha.of_reads ?_ (requestMap_cacheLookup env a h z) ?_ ?_
  · funext k
    exact readStorage_cacheLookup env a h z k
  all_goals
    unfold ServiceAccount.cacheLookup
    split <;> rfl

theorem FootprintExact.cachePreimage : FootprintExact env (a.cachePreimage env.toHostEnv h) := by
  refine ha.of_reads ?_ (requestMap_cachePreimage env a h) ?_ ?_
  · funext k
    exact readStorage_cachePreimage env a h k
  all_goals
    unfold ServiceAccount.cachePreimage
    split <;> rfl

/-- Other timeslots for a request that is there. -/
theorem FootprintExact.rewriteLookup {z : UInt32} (hone : a.OneLengthAt h z) {t : List UInt32}
    (ht : a.requestMap env (h, z) = some t) (t' : List UInt32) :
    FootprintExact env (a.writeLookup h z (some t')) := by
  refine ha.of_request (p := (h, z)) (t := some t') rfl
    (hone.requestMap_writeLookup env (some t')) ?_ ?_
  · rw [ht]
    rfl
  · rw [ht]
    rfl

end

/-- The word for the octets of a request. -/
theorem toNat_lookupWord {z : UInt64} (hz : z.toNat < 2 ^ 32) :
    (accountLookupConst + z).toNat = 81 + z.toNat := by
  have hconst : accountLookupConst.toNat = 81 := rfl
  rw [toNat_add, hconst]
  omega

/-- The contents of an account do not depend on its counters. -/
theorem requestMap_adjust (env : StorageEnv) (b : ServiceAccount) (items : Int32) (octets : Int64) :
    ((b.adjustNumStorageItems items).adjustStorageSize octets).requestMap env =
      b.requestMap env := by
  unfold adjustStorageSize
  split_ifs <;> rfl

theorem readStorage_adjust (env : StorageEnv) (b : ServiceAccount) (items : Int32)
    (octets : Int64) :
    ((b.adjustNumStorageItems items).adjustStorageSize octets).readStorage env =
      b.readStorage env := by
  funext k
  simp

theorem numStorageItems_adjustStorageSize (b : ServiceAccount) (octets : Int64) :
    (b.adjustStorageSize octets).numStorageItems = b.numStorageItems := by
  unfold adjustStorageSize
  split_ifs <;> rfl

section

variable (ha : FootprintExact env a)
include ha

/-- One request changes, and words are added to the counters. -/
theorem FootprintExact.adjust {p : Hash × UInt32} {t : Option (List UInt32)}
    (hstorage : b.readStorage env = a.readStorage env)
    (hrequests : b.requestMap env = Function.update (a.requestMap env) p t)
    (hnum : b.numStorageItems = a.numStorageItems) (hsize : b.storageSize = a.storageSize)
    {i : UInt32} {o : UInt64}
    (hi : (a.numStorageItems.toNat + i.toNat) % 2 ^ 32 +
      entryWeight (fun _ _ => 2) p (a.requestMap env p) =
        a.numStorageItems.toNat + entryWeight (fun _ _ => 2) p t)
    (hiclamp : 2 ^ 31 ≤ i.toNat → 2 ^ 32 ≤ a.numStorageItems.toNat + i.toNat)
    (ho : (a.storageSize.toNat + o.toNat) % 2 ^ 64 +
      entryWeight requestOctets p (a.requestMap env p) =
        a.storageSize.toNat + entryWeight requestOctets p t)
    (hoclamp : 2 ^ 63 ≤ o.toNat → 2 ^ 64 ≤ a.storageSize.toNat + o.toNat) :
    FootprintExact env ((b.adjustNumStorageItems i.toInt32).adjustStorageSize o.toInt64) := by
  have hitems := toNat_adjustNumStorageItems b (u := i)
    (m := (a.numStorageItems.toNat + i.toNat) % 2 ^ 32) (by rw [hnum]) (by rwa [hnum])
  have hoctets := toNat_adjustStorageSize (b.adjustNumStorageItems i.toInt32) (u := o)
    (m := (a.storageSize.toNat + o.toNat) % 2 ^ 64) (by rw [← hsize]; rfl)
    (by rw [← hsize] at hoclamp; exact hoclamp)
  refine ha.of_request (p := p) (t := t) ?_ ?_ ?_ ?_
  · rw [readStorage_adjust, hstorage]
  · rw [requestMap_adjust, hrequests]
  · rw [numStorageItems_adjustStorageSize, hitems]
    exact hi
  · rw [hoctets]
    exact ho

/-- A new request, with the counters moved. -/
theorem FootprintExact.createLookup {z : UInt32} (hone : a.OneLengthAt h z)
    (hnone : a.requestMap env (h, z) = none)
    (hfits : FitsCounters env (((a.writeLookup h z (some [])).adjustNumStorageItems
      2).adjustStorageSize (accountLookupConst + z.toUInt64).toInt64)) :
    FootprintExact env (((a.writeLookup h z (some [])).adjustNumStorageItems
      2).adjustStorageSize (accountLookupConst + z.toUInt64).toInt64) := by
  have hz := z.toNat_lt
  have hword : (accountLookupConst + z.toUInt64).toNat = 81 + z.toNat :=
    toNat_lookupWord (z := z.toUInt64) hz
  have htwo : (2 : UInt32).toNat = 2 := rfl
  have hread : (a.writeLookup h z (some [])).readStorage env = a.readStorage env := rfl
  have hitems := mapWeight_update (fun _ _ => 2) ha.requests_finite (h, z) (some [])
  have hoctets := mapWeight_update requestOctets ha.requests_finite (h, z) (some [])
  have hitems₀ := ha.items_eq
  have hoctets₀ := ha.octets_eq
  obtain ⟨hfitsItems, hfitsOctets⟩ := hfits
  unfold items at hitems₀ hfitsItems
  unfold octets at hoctets₀ hfitsOctets
  rw [readStorage_adjust, requestMap_adjust, hone.requestMap_writeLookup, hread]
    at hfitsItems hfitsOctets
  simp only [hnone, entryWeight_none, entryWeight_some, requestOctets] at hitems hoctets
  refine ha.adjust (p := (h, z)) (t := some []) (i := 2) hread
    (hone.requestMap_writeLookup env (some [])) rfl rfl ?_ ?_ ?_ ?_
  · rw [hnone, htwo, entryWeight_none, entryWeight_some]
    omega
  · rw [htwo]
    omega
  · simp only [hnone, hword, entryWeight_none, entryWeight_some, requestOctets]
    omega
  · rw [hword]
    omega

variable {z : UInt64}

/-- The end of a request, with the counters moved. -/
theorem FootprintExact.forgetRequest (hz : z.toNat < 2 ^ 32) (hone : a.OneLengthAt h z.toUInt32)
    {t : List UInt32} (ht : a.requestMap env (h, z.toUInt32) = some t) :
    FootprintExact env (a.forgetRequest h z) := by
  have hz' : z.toUInt32.toNat = z.toNat := by
    rw [toNat_toUInt32]
    exact Nat.mod_eq_of_lt hz
  have hpos := toNat_lookupWord hz
  have hword := toNat_neg_of_pos (u := accountLookupConst + z) (by omega)
  rw [hpos] at hword
  have htwo : (-2 : UInt32).toNat = 2 ^ 32 - 2 := rfl
  -- the request is counted, so the counters do not fall below zero
  have hitems := entryWeight_le_mapWeight (fun _ _ => 2) ha.requests_finite (h, z.toUInt32)
  have hoctets := entryWeight_le_mapWeight requestOctets ha.requests_finite (h, z.toUInt32)
  have hitems₀ := ha.items_eq
  have hoctets₀ := ha.octets_eq
  have hN := a.numStorageItems.toNat_lt
  have hS := a.storageSize.toNat_lt
  unfold items at hitems₀
  unfold octets at hoctets₀
  simp only [ht, entryWeight_some, requestOctets, hz'] at hitems hoctets
  unfold ServiceAccount.forgetRequest
  rw [← toInt64_neg]
  refine ha.adjust (b := (a.writeLookup h z.toUInt32 none).writePreimage h [])
    (p := (h, z.toUInt32)) (t := none) (i := -2) rfl
    (hone.requestMap_writeLookup env none) rfl rfl ?_ ?_ ?_ ?_
  · rw [ht, htwo, entryWeight_none, entryWeight_some]
    omega
  · rw [htwo]
    omega
  · simp only [ht, hword, entryWeight_none, entryWeight_some, requestOctets, hz']
    omega
  · rw [hword]
    omega

/-- **SOLICIT keeps the footprint exact.** -/
theorem FootprintExact.hostSolicit (timeslot : UInt32) (hone : a.OneLengthAt h z.toUInt32)
    (hfits : FitsCounters env (a.hostSolicit env.toHostEnv timeslot h z).2) :
    FootprintExact env (a.hostSolicit env.toHostEnv timeslot h z).2 := by
  have hxs : FootprintExact env (a.cacheLookup env.toHostEnv h z.toUInt32) := ha.cacheLookup _
  have hone' := hone.cacheLookup env
  have hread := hone.lookupTimeslots_eq env
  rw [← requestMap_cacheLookup env a h z.toUInt32] at hread
  unfold ServiceAccount.hostSolicit at hfits ⊢
  dsimp only at hfits ⊢
  generalize a.cacheLookup env.toHostEnv h z.toUInt32 = xs at *
  split at hfits
  · next hnone =>
    split_ifs at hfits ⊢
    · exact hxs.createLookup hone' (hread.symm.trans hnone) hfits
    · exact hxs
  · next x y hsome =>
    split_ifs
    · exact hxs.rewriteLookup hone' (hread.symm.trans hsome) _
    · exact hxs
  · exact hxs

/-- **FORGET keeps the footprint exact**, when its length register has 32 bits. -/
theorem FootprintExact.hostForget (timeslot : UInt32)
    (hone : a.OneLengthAt h z.toUInt32) (hz : z.toNat < 2 ^ 32) :
    FootprintExact env (a.hostForget env.toHostEnv timeslot h z).2 := by
  have hxs : FootprintExact env
      ((a.cacheLookup env.toHostEnv h z.toUInt32).cachePreimage env.toHostEnv h) :=
    (ha.cacheLookup _).cachePreimage
  have hone' := (hone.cacheLookup env).cachePreimage env
  have hread := hone.lookupTimeslots_eq env
  rw [← requestMap_cacheLookup env a h z.toUInt32,
    ← requestMap_cachePreimage env (a.cacheLookup env.toHostEnv h z.toUInt32) h] at hread
  unfold ServiceAccount.hostForget
  generalize (a.cacheLookup env.toHostEnv h z.toUInt32).cachePreimage env.toHostEnv h = xs at *
  split
  · exact hxs
  · next hnil => exact hxs.forgetRequest hz hone' (hread.symm.trans hnil)
  · next x hx => exact hxs.rewriteLookup hone' (hread.symm.trans hx) _
  · next x y hxy =>
    split_ifs
    · exact hxs.forgetRequest hz hone' (hread.symm.trans hxy)
    · exact hxs
  · next x y w hxyw =>
    split_ifs
    · exact hxs.rewriteLookup hone' (hread.symm.trans hxyw) _
    · exact hxs
  · exact hxs

end

end

/-- **The footprint of an account is exact after every clean run** of WRITE, SOLICIT and
FORGET: when no WRITE has a non-zero length register that is a multiple of `2 ^ 32`, no
FORGET a length register of more than 32 bits, no request is for a hash that the overlay
has under another length, and the contents fit into the counters. -/
theorem footprint_exact_of_run {env : StorageEnv} {a a' : ServiceAccount}
    {calls : List FootprintCall} (h : FootprintExact env a)
    (hrun : Run (CleanStep env) a calls a') : FootprintExact env a' := by
  refine hrun.preserves (P := FootprintExact env) ?_ h
  rintro b call b' ⟨rfl, hclean, hfits⟩ hb
  cases call with
  | write args => exact hb.hostWrite hclean hfits
  | solicit timeslot h z => exact hb.hostSolicit timeslot hclean hfits
  | forget timeslot h z => exact hb.hostForget timeslot hclean.1 hclean.2

/-- A trie without accounts, storage, requests and preimages. -/
def emptyStorage : StorageEnv :=
  ⟨⟨fun _ => none, fun _ _ => none, fun _ _ _ => none⟩, fun _ _ => none⟩

/-- An account without contents that can pay for some. -/
def bareAccount : ServiceAccount := { serviceIndex := 1, balance := 10000000000 }

theorem mapWeight_none {κ β : Type} (w : κ → β → ℕ) : mapWeight w (fun _ => none) = 0 := by
  simp [mapWeight]

theorem keys_none_finite {κ β : Type} : (keys fun _ : κ => (none : Option β)).Finite := by
  simp [keys]

theorem readStorage_bareAccount : bareAccount.readStorage emptyStorage = fun _ => none := rfl

theorem requestMap_bareAccount : bareAccount.requestMap emptyStorage = fun _ => none := rfl

theorem footprintExact_bareAccount : FootprintExact emptyStorage bareAccount where
  storage_finite := keys_none_finite
  requests_finite := keys_none_finite
  items_eq := by
    rw [items, readStorage_bareAccount, requestMap_bareAccount, mapWeight_none, mapWeight_none]
    rfl
  octets_eq := by
    rw [octets, readStorage_bareAccount, requestMap_bareAccount, mapWeight_none, mapWeight_none]
    rfl

/-- One byte under a key of one byte. -/
def smallWrite : WriteArgs := ⟨[1], 1, [2], by decide, by decide⟩

theorem footprint_exact_smallWrite :
    FootprintExact emptyStorage (bareAccount.hostWrite emptyStorage smallWrite).2 ∧
      (bareAccount.hostWrite emptyStorage smallWrite).2.numStorageItems = 1 ∧
      (bareAccount.hostWrite emptyStorage smallWrite).2.storageSize = 36 := by
  have hclean : FootprintCall.Clean bareAccount (.write smallWrite) := .inr (by decide)
  obtain ⟨hstorage, hrequests, -, -⟩ := hostWrite_of_le (show ¬ bareAccount.balance <
    bareAccount.writeThreshold emptyStorage smallWrite by decide)
  have hitems := mapWeight_update (fun _ _ => 1) footprintExact_bareAccount.storage_finite
    smallWrite.muK smallWrite.entry
  have hoctets := mapWeight_update storageOctets footprintExact_bareAccount.storage_finite
    smallWrite.muK smallWrite.entry
  rw [readStorage_bareAccount, mapWeight_none] at hitems hoctets
  have hfits : FitsCounters emptyStorage (bareAccount.hostWrite emptyStorage smallWrite).2 := by
    unfold FitsCounters items octets
    rw [hstorage, hrequests, requestMap_bareAccount, readStorage_bareAccount, mapWeight_none,
      mapWeight_none]
    simp [smallWrite, WriteArgs.entry, storageOctets] at hitems hoctets ⊢
    omega
  exact ⟨footprint_exact_of_run footprintExact_bareAccount
    (Run.single (a := .write smallWrite) ⟨rfl, hclean, hfits⟩), by decide, by decide⟩

/-- A key of one byte with a length register of `2 ^ 32`, for which nothing is read. -/
def wrappedWrite : WriteArgs := ⟨[1], 4294967296, [], by decide, by decide⟩

/-- The write of an empty value is not counted; and the end of a request of length 0 that
was made and ended with the register `2 ^ 32` takes another request's octets along. -/
theorem footprint_not_exact : FootprintExact emptyStorage bareAccount ∧
      ¬ FootprintExact emptyStorage (bareAccount.hostWrite emptyStorage wrappedWrite).2 ∧
      ¬ FootprintExact emptyStorage
        ([.solicit 0 1 5, .solicit 0 2 4294967296, .forget 0 2 4294967296].foldl
          (footprintStep emptyStorage) bareAccount) := by
  refine ⟨footprintExact_bareAccount, fun h => ?_, fun h => ?_⟩
  · have hle := entryWeight_le_mapWeight (fun _ _ => 1) h.storage_finite [1]
    have hentry : (bareAccount.hostWrite emptyStorage wrappedWrite).2.readStorage emptyStorage [1] =
        some [] := by decide
    have hnum : (bareAccount.hostWrite emptyStorage wrappedWrite).2.numStorageItems = 0 := by decide
    have hitems := h.items_eq
    rw [hnum, items] at hitems
    rw [hentry, entryWeight_some] at hle
    have hzero : (0 : UInt32).toNat = 0 := rfl
    omega
  · have hle := entryWeight_le_mapWeight requestOctets h.requests_finite (1, 5)
    have hentry : ([.solicit 0 1 5, .solicit 0 2 4294967296, .forget 0 2 4294967296].foldl
        (footprintStep emptyStorage) bareAccount).requestMap emptyStorage (1, 5) =
          some [] := by decide +kernel
    have hsize : ([.solicit 0 1 5, .solicit 0 2 4294967296, .forget 0 2 4294967296].foldl
        (footprintStep emptyStorage) bareAccount).storageSize = 0 := by
      decide +kernel
    have hoctets := h.octets_eq
    rw [hsize, octets] at hoctets
    rw [hentry, entryWeight_some, requestOctets] at hle
    have hzero : (0 : UInt64).toNat = 0 := rfl
    omega

end JamDuna.Accumulation
