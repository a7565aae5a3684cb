/-
# The contents of an account

What an account holds is the overlay over the trie: entries of storage by their key, and
requests for preimages by hash and length. `items` and `octets` say what the counters
`NumStorageItems` and `StorageSize` of `types/serviceaccount.go` are to count, and
`FootprintExact` that they do.

The overlay of requests has one entry for a hash. On a hash that it has under no other
length (`OneLengthAt`) `ReadLookup` reads the request of the pair, and `WriteLookup`
changes the request of the pair and no other.
-/

import JamDuna.Accumulation.RequestOverlay
import JamDuna.Accumulation.StorageWrites
import JamDuna.Basis.MapWeight
import JamDuna.Basis.SignedWords

namespace JamDuna.Accumulation

open JamDuna.Basis Function ServiceAccount

section

variable (a : ServiceAccount)

/-- `AdjustStorageSize` in unsigned terms: the word is added, unless as a negative number
it exceeds the counter. -/
theorem storageSize_adjustStorageSize (u : UInt64) :
    (a.adjustStorageSize u.toInt64).storageSize =
      if 2 ^ 63 ≤ u.toNat ∧ a.storageSize.toNat < 2 ^ 64 - u.toNat then 0
      else a.storageSize + u := by
  unfold adjustStorageSize
  by_cases hzero : u.toInt64 = 0
  · have hu : u = 0 := UInt64.toNat_inj.mp ((toInt64_eq_zero_iff u).mp hzero)
    subst hu
    simp
  · have hpos : 0 < u.toNat := Nat.pos_of_ne_zero fun h => hzero ((toInt64_eq_zero_iff u).mpr h)
    have hneg : (-u.toInt64).toUInt64.toNat = 2 ^ 64 - u.toNat := by
      rw [Int64.toUInt64_neg, UInt64.toUInt64_toInt64, toNat_neg_of_pos hpos]
    have hcond : (u.toInt64 < 0 ∧ a.storageSize < (-u.toInt64).toUInt64) ↔
        (2 ^ 63 ≤ u.toNat ∧ a.storageSize.toNat < 2 ^ 64 - u.toNat) := by
      rw [toInt64_lt_zero_iff, UInt64.lt_iff_toNat_lt, hneg]
    rw [if_neg hzero]
    simp only [hcond]
    rfl

/-- `AdjustNumStorageItems` in unsigned terms. -/
theorem numStorageItems_adjustNumStorageItems (u : UInt32) :
    (a.adjustNumStorageItems u.toInt32).numStorageItems =
      if 2 ^ 31 ≤ u.toNat ∧ a.numStorageItems.toNat < 2 ^ 32 - u.toNat then 0
      else a.numStorageItems + u := by
  have hcond : (u.toInt32 < 0 ∧ a.numStorageItems < (-u.toInt32).toUInt32) ↔
      (2 ^ 31 ≤ u.toNat ∧ a.numStorageItems.toNat < 2 ^ 32 - u.toNat) := by
    rw [toInt32_lt_zero_iff, UInt32.lt_iff_toNat_lt, Int32.toUInt32_neg, UInt32.toUInt32_toInt32]
    refine and_congr_right fun hneg => ?_
    rw [toNat_neg32_of_pos (by omega)]
  unfold adjustNumStorageItems
  simp only [hcond]
  rfl

/-- The counter of octets after a change from `a.storageSize` to `m`, when the word that
is added is the difference modulo `2 ^ 64` and a decrease stays above zero. -/
theorem toNat_adjustStorageSize {u : UInt64} {m : ℕ}
    (hmod : (a.storageSize.toNat + u.toNat) % 2 ^ 64 = m)
    (hclamp : 2 ^ 63 ≤ u.toNat → 2 ^ 64 ≤ a.storageSize.toNat + u.toNat) :
    (a.adjustStorageSize u.toInt64).storageSize.toNat = m := by
  rw [storageSize_adjustStorageSize, if_neg (by rintro ⟨h, h'⟩; have := hclamp h; omega),
    UInt64.toNat_add, hmod]

/-- The counter of items after a change to `m`. -/
theorem toNat_adjustNumStorageItems {u : UInt32} {m : ℕ}
    (hmod : (a.numStorageItems.toNat + u.toNat) % 2 ^ 32 = m)
    (hclamp : 2 ^ 31 ≤ u.toNat → 2 ^ 32 ≤ a.numStorageItems.toNat + u.toNat) :
    (a.adjustNumStorageItems u.toInt32).numStorageItems.toNat = m := by
  rw [numStorageItems_adjustNumStorageItems, if_neg (by rintro ⟨h, h'⟩; have := hclamp h; omega),
    UInt32.toNat_add, hmod]

end

section

variable (env : StorageEnv) (a : ServiceAccount)

/-- The requests of an account by hash and length: the overlay over the trie. -/
def ServiceAccount.requestMap : Hash × UInt32 → Option (List UInt32) :=
  (a.requests env.toHostEnv).timeslots

/-- What an entry of storage weighs. -/
def storageOctets (k v : Bytes) : ℕ := 34 + k.length + v.length

/-- What a request weighs. -/
def requestOctets (p : Hash × UInt32) (_ : List UInt32) : ℕ := 81 + p.2.toNat

/-- The number of storage entries plus twice the number of requests. -/
noncomputable def ServiceAccount.items : ℕ :=
  mapWeight (fun _ _ => 1) (a.readStorage env) + mapWeight (fun _ _ => 2) (a.requestMap env)

/-- The octets of all storage entries and all requests. -/
noncomputable def ServiceAccount.octets : ℕ :=
  mapWeight storageOctets (a.readStorage env) + mapWeight requestOctets (a.requestMap env)

/-- The contents of the account are finite, and its counters count them. -/
structure FootprintExact : Prop where
  storage_finite : (keys (a.readStorage env)).Finite
  requests_finite : (keys (a.requestMap env)).Finite
  items_eq : a.numStorageItems.toNat = a.items env
  octets_eq : a.storageSize.toNat = a.octets env

/-- The contents fit into the counters. -/
def FitsCounters : Prop := a.items env < 2 ^ 32 ∧ a.octets env < 2 ^ 64

/-- The overlay of requests has no entry of another length for the hash. -/
def ServiceAccount.OneLengthAt (h : Hash) (z : UInt32) : Prop := ∀ l, a.lookup h = some l → l.z = z

end

section

variable {env : StorageEnv} {a b : ServiceAccount}

/-- The footprint after a change of one entry of storage. -/
theorem contents_of_storage (hfin : (keys (a.readStorage env)).Finite) {k : Bytes}
    {v : Option Bytes} (hstorage : b.readStorage env = update (a.readStorage env) k v)
    (hrequests : b.requestMap env = a.requestMap env) :
    b.items env + entryWeight (fun _ _ => 1) k (a.readStorage env k) =
        a.items env + entryWeight (fun _ _ => 1) k v ∧
      b.octets env + entryWeight storageOctets k (a.readStorage env k) =
        a.octets env + entryWeight storageOctets k v := by
  have hitems := mapWeight_update (fun _ _ => 1) hfin k v
  have hoctets := mapWeight_update storageOctets hfin k v
  unfold items octets
  rw [hstorage, hrequests]
  constructor <;> omega

/-- The footprint after a change of one request. -/
theorem contents_of_request (hfin : (keys (a.requestMap env)).Finite) {p : Hash × UInt32}
    {t : Option (List UInt32)} (hstorage : b.readStorage env = a.readStorage env)
    (hrequests : b.requestMap env = update (a.requestMap env) p t) :
    b.items env + entryWeight (fun _ _ => 2) p (a.requestMap env p) =
        a.items env + entryWeight (fun _ _ => 2) p t ∧
      b.octets env + entryWeight requestOctets p (a.requestMap env p) =
        a.octets env + entryWeight requestOctets p t := by
  have hitems := mapWeight_update (fun _ _ => 2) hfin p t
  have hoctets := mapWeight_update requestOctets hfin p t
  unfold items octets
  rw [hstorage, hrequests]
  constructor <;> omega

end

variable (env : StorageEnv) (a : ServiceAccount)

theorem requestMap_cacheLookup (h : Hash) (z : UInt32) :
    (a.cacheLookup env.toHostEnv h z).requestMap env = a.requestMap env := by
  funext ⟨h', z'⟩
  unfold cacheLookup
  split
  · next t hnone ht =>
    by_cases hh : h' = h
    · subst hh
      by_cases hz : z = z'
      · subst hz
        simp [requestMap, requests, hnone, ht]
      · simp [requestMap, requests, hnone, hz]
    · simp [requestMap, requests, update_of_ne hh]
  · rfl

theorem requestMap_cachePreimage (h : Hash) :
    (a.cachePreimage env.toHostEnv h).requestMap env = a.requestMap env := by
  funext p
  simp [requestMap, requests]

variable {a}

variable {h : Hash} {z : UInt32}

section

variable (hone : a.OneLengthAt h z)
include hone

/-- What `ReadLookup` returns is the request of the pair. -/
theorem ServiceAccount.OneLengthAt.lookupTimeslots_eq :
    a.lookupTimeslots env.toHostEnv h z = a.requestMap env (h, z) := by
  cases hl : a.lookup h with
  | none => simp [lookupTimeslots, requestMap, requests, hl]
  | some l => simp [lookupTimeslots, requestMap, requests, hl, hone l hl]

/-- `WriteLookup` changes the request of the pair and no other. -/
theorem ServiceAccount.OneLengthAt.requestMap_writeLookup (t : Option (List UInt32)) :
    (a.writeLookup h z t).requestMap env = update (a.requestMap env) (h, z) t := by
  funext ⟨h', z'⟩
  by_cases hh : h' = h
  · subst hh
    by_cases hz : z = z'
    · subst hz
      cases t <;> simp [requestMap, requests, writeLookup]
    · have hne : (h', z') ≠ (h', z) := fun heq => hz (Prod.mk.inj heq).2.symm
      rw [update_of_ne hne]
      cases hl : a.lookup h' with
      | none => simp [requestMap, requests, writeLookup, hl, hz]
      | some l =>
        have hz' : l.z ≠ z' := by rw [hone l hl]; exact hz
        simp [requestMap, requests, writeLookup, hl, hz, hz']
  · have hne : (h', z') ≠ (h, z) := fun heq => hh (Prod.mk.inj heq).1
    rw [update_of_ne hne]
    simp [requestMap, requests, writeLookup, update_of_ne hh]

theorem ServiceAccount.OneLengthAt.cacheLookup :
    (a.cacheLookup env.toHostEnv h z).OneLengthAt h z := by
  unfold ServiceAccount.cacheLookup
  split
  · intro l hl
    simp only [update_self, Option.some.injEq] at hl
    rw [← hl]
  · exact hone

theorem ServiceAccount.OneLengthAt.cachePreimage :
    (a.cachePreimage env.toHostEnv h).OneLengthAt h z := by
  intro l hl
  rw [lookup_cachePreimage] at hl
  exact hone l hl

end

end JamDuna.Accumulation
