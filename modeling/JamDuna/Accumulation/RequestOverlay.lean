/-
# The overlay of requests and a map keyed by pairs

What the overlay of `types/serviceaccount.go` is for: a map from pairs of a hash and a length
to timeslots and from hashes to preimages (`RequestMap`), which starts as the overlay over the
trie (`ServiceAccount.requests`).

The overlay has one entry for a hash. So it is that map on a set of pairs exactly when no two
pairs of the set share a hash and the entries it starts with say what the map says
(`refinesMap_iff`). SOLICIT and FORGET touch the request and the preimage of their hash and
nothing else (`onlyAt_hostSolicit`, `onlyAt_hostForget`); a FORGET deletes the preimage of the
hash whatever its length is, so it spares the preimages of other pairs exactly when the stored
preimages of the set's hashes have the set's lengths.
-/

import JamDuna.Accumulation.Requests

namespace JamDuna.Accumulation

open JamDuna.Basis Function ServiceAccount

/-- Requests by hash and length, preimages by hash. -/
structure RequestMap where
  timeslots : Hash × UInt32 → Option (List UInt32)
  preimages : Hash → Option Bytes

/-- A map answers a call. -/
def RequestMap.call (m : RequestMap) : OverlayCall → Answer × RequestMap
  | .readLookup h z => (.timeslots (m.timeslots (h, z)), m)
  | .writeLookup h z t => (.done, { m with timeslots := update m.timeslots (h, z) t })
  | .readPreimage h => (.preimage (m.preimages h), m)
  | .writePreimage h p =>
    (.done, { m with
      preimages := update m.preimages h (if p.length = 0 then none else some p) })

/-- The map that an account stands for: an entry of the overlay is for the pair it was last
read or written for, and all else is in the trie. -/
def ServiceAccount.requests (env : HostEnv) (a : ServiceAccount) : RequestMap where
  timeslots p :=
    match a.lookup p.1 with
    | some l =>
      if l.z = p.2 then (if l.deleted then none else some l.timeslots)
      else env.readServicePreimageLookup a.serviceIndex p.1 p.2
    | none => env.readServicePreimageLookup a.serviceIndex p.1 p.2
  preimages h := a.preimageBlob env h

/-- The calls for pairs of `K`; a preimage is for its hash and its length. -/
def OverlayCall.Over (K : Set (Hash × UInt32)) : OverlayCall → Prop
  | .readLookup h z => (h, z) ∈ K
  | .writeLookup h z _ => (h, z) ∈ K
  | .readPreimage _ => True
  | .writePreimage h p => p = [] ∨ ∃ z, (h, z) ∈ K ∧ p.length = z.toNat

/-- The steps for pairs of `K`. -/
def RequestStep.Over (K : Set (Hash × UInt32)) : RequestStep → Prop
  | .call c => c.Over K
  | .solicit _ h z => (h, z.toUInt32) ∈ K
  | .forget _ h z => (h, z.toUInt32) ∈ K

section

variable (env : HostEnv) (a : ServiceAccount) (K : Set (Hash × UInt32))

/-- On the pairs of `K` the account answers as the map does. -/
def RefinesMap : Prop :=
  ∀ calls : List OverlayCall, (∀ c ∈ calls, c.Over K) →
    answers (call env) a calls = answers RequestMap.call (a.requests env) calls

/-- `a'` has the timeslots that `a` has for the pairs of `K` other than `(h, z)`, and the
preimages that are not of length `z` and hash `h`. -/
def SparesOthers (h : Hash) (z : UInt32) (a a' : ServiceAccount) : Prop :=
  (∀ h' z', (h', z') ∈ K → (h', z') ≠ (h, z) →
    a'.lookupTimeslots env h' z' = a.lookupTimeslots env h' z') ∧
  ∀ h' p, a.preimageBlob env h' = some p → ¬ (h' = h ∧ p.length = z.toNat) →
    a'.preimageBlob env h' = some p

/-- After any steps for pairs of `K`, SOLICIT and FORGET of a pair of `K` spare the others. -/
def KeepsOthers : Prop :=
  ∀ steps : List RequestStep, (∀ s ∈ steps, s.Over K) →
    ∀ (timeslot : UInt32) (h : Hash) (z : UInt64), (h, z.toUInt32) ∈ K →
      let a' := after (requestStep env) a steps
      SparesOthers env K h z.toUInt32 a' (a'.hostSolicit env timeslot h z).2 ∧
        SparesOthers env K h z.toUInt32 a' (a'.hostForget env timeslot h z).2

/-- No two pairs share a hash. -/
def OneLength : Prop := ∀ h z z', (h, z) ∈ K → (h, z') ∈ K → z = z'

/-- An entry of the overlay for another length says what the trie says. -/
def OverlayAgrees : Prop :=
  ∀ h z l, (h, z) ∈ K → a.lookup h = some l → l.z ≠ z →
    (if l.deleted then none else some l.timeslots) =
      env.readServicePreimageLookup a.serviceIndex h z

/-- The stored preimages of the hashes of `K` have the lengths of `K`. -/
def OwnPreimages : Prop := ∀ h z p, (h, z) ∈ K → a.preimageBlob env h = some p → p.length = z.toNat

end

variable {env : HostEnv} {a b c : ServiceAccount} {h : Hash}

/-- `b` differs from `a` in the request and the preimage of `h` at most, and the preimage is
kept or gone. -/
structure OnlyAt (env : HostEnv) (h : Hash) (a b : ServiceAccount) : Prop where
  timeslots : ∀ h' ≠ h, ∀ z, b.lookupTimeslots env h' z = a.lookupTimeslots env h' z
  preimage : ∀ h' ≠ h, b.preimageBlob env h' = a.preimageBlob env h'
  own : b.preimageBlob env h = a.preimageBlob env h ∨ b.preimageBlob env h = none

theorem OnlyAt.trans (hab : OnlyAt env h a b) (hbc : OnlyAt env h b c) : OnlyAt env h a c where
  timeslots h' hne z := (hbc.timeslots h' hne z).trans (hab.timeslots h' hne z)
  preimage h' hne := (hbc.preimage h' hne).trans (hab.preimage h' hne)
  own := by
    rcases hbc.own with hc | hc
    · rw [hc]
      exact hab.own
    · exact .inr hc

variable (env a h)

theorem onlyAt_cacheLookup (z : UInt32) : OnlyAt env h a (a.cacheLookup env h z) where
  timeslots _ hne z' := lookupTimeslots_cacheLookup_of_ne env a h z hne z'
  preimage h' _ := preimageBlob_cacheLookup env a h z h'
  own := .inl (preimageBlob_cacheLookup env a h z h)

theorem onlyAt_cachePreimage : OnlyAt env h a (a.cachePreimage env h) where
  timeslots h' _ z := lookupTimeslots_cachePreimage env a h z h'
  preimage h' _ := preimageBlob_cachePreimage env a h h'
  own := .inl (preimageBlob_cachePreimage env a h h)

theorem onlyAt_writeLookup (z : UInt32) (t : Option (List UInt32)) :
    OnlyAt env h a (a.writeLookup h z t) where
  timeslots _ hne z' := lookupTimeslots_writeLookup_of_ne env a h z hne t z'
  preimage h' _ := preimageBlob_writeLookup env a h z h' t
  own := .inl (preimageBlob_writeLookup env a h z h t)

theorem onlyAt_writePreimage_nil : OnlyAt env h a (a.writePreimage h []) where
  timeslots h' _ z := lookupTimeslots_writePreimage env a h z h' []
  preimage _ hne := preimageBlob_writePreimage_of_ne env a h hne []
  own := .inr (preimageBlob_writePreimage_nil env a h)

theorem onlyAt_adjust (items : Int32) (size : Int64) :
    OnlyAt env h a ((a.adjustNumStorageItems items).adjustStorageSize size) where
  timeslots _ _ _ := by simp
  preimage _ _ := by simp
  own := .inl (by simp)

theorem onlyAt_forgetRequest (z : UInt64) : OnlyAt env h a (a.forgetRequest h z) :=
  ((onlyAt_writeLookup env a h z.toUInt32 none).trans
    (onlyAt_writePreimage_nil env _ h)).trans (onlyAt_adjust env _ h _ _)

/-- SOLICIT touches its own hash only. -/
theorem onlyAt_hostSolicit (t : UInt32) (z : UInt64) :
    OnlyAt env h a (a.hostSolicit env t h z).2 := by
  have hread := onlyAt_cacheLookup env a h z.toUInt32
  unfold hostSolicit
  dsimp only
  split
  · split_ifs
    · exact (hread.trans (onlyAt_writeLookup env _ h _ _)).trans (onlyAt_adjust env _ h _ _)
    · exact hread
  · split_ifs
    · exact hread.trans (onlyAt_writeLookup env _ h _ _)
    · exact hread
  · exact hread

/-- FORGET touches its own hash only. -/
theorem onlyAt_hostForget (t : UInt32) (z : UInt64) :
    OnlyAt env h a (a.hostForget env t h z).2 := by
  have hread := (onlyAt_cacheLookup env a h z.toUInt32).trans (onlyAt_cachePreimage env _ h)
  have hwrite := fun t => hread.trans (onlyAt_writeLookup env _ h z.toUInt32 t)
  have hforget := hread.trans (onlyAt_forgetRequest env _ h z)
  unfold hostForget
  split
  · exact hread
  · exact hforget
  · exact hwrite _
  · split_ifs
    · exact hforget
    · exact hread
  · split_ifs
    · exact hwrite _
    · exact hread
  · exact hread

variable {env a} {K : Set (Hash × UInt32)}

/-- An account and a map that agree on the pairs of `K` and on all preimages. -/
structure AgreesOn (env : HostEnv) (K : Set (Hash × UInt32)) (a : ServiceAccount)
    (m : RequestMap) : Prop where
  timeslots : ∀ h z, (h, z) ∈ K → a.lookupTimeslots env h z = m.timeslots (h, z)
  preimages : ∀ h, a.preimageBlob env h = m.preimages h

theorem lookupTimeslots_writeLookup_self (a : ServiceAccount) (h : Hash) (z : UInt32)
    (t : Option (List UInt32)) : (a.writeLookup h z t).lookupTimeslots env h z = t := by
  cases t <;> simp [lookupTimeslots, writeLookup]

/-- Every call for pairs of `K` is answered alike and keeps the agreement. -/
theorem AgreesOn.call {m : RequestMap} (hK : OneLength K) (hm : AgreesOn env K a m)
    (c : OverlayCall) (hc : c.Over K) :
    (a.call env c).1 = (m.call c).1 ∧ AgreesOn env K (a.call env c).2 (m.call c).2 := by
  cases c with
  | readLookup h z =>
    refine ⟨congrArg Answer.timeslots (hm.timeslots h z hc), fun h' z' hz' => ?_, fun h' => ?_⟩
    · by_cases hne : h' = h
      · subst hne
        obtain rfl := hK h' z z' hc hz'
        exact (lookupTimeslots_cacheLookup_self env a h' z).trans (hm.timeslots h' z hz')
      · exact (lookupTimeslots_cacheLookup_of_ne env a h z hne z').trans (hm.timeslots h' z' hz')
    · exact (preimageBlob_cacheLookup env a h z h').trans (hm.preimages h')
  | writeLookup h z t =>
    refine ⟨rfl, fun h' z' hz' => ?_, fun h' => hm.preimages h'⟩
    by_cases hne : h' = h
    · subst hne
      obtain rfl := hK h' z z' hc hz'
      exact (lookupTimeslots_writeLookup_self a h' z t).trans
        (update_self (h', z) t m.timeslots).symm
    · have hpair : (h', z') ≠ (h, z) := fun e => hne (congrArg Prod.fst e)
      calc (a.writeLookup h z t).lookupTimeslots env h' z'
          = a.lookupTimeslots env h' z' := lookupTimeslots_writeLookup_of_ne env a h z hne t z'
        _ = m.timeslots (h', z') := hm.timeslots h' z' hz'
        _ = update m.timeslots (h, z) t (h', z') :=
            (update_of_ne hpair t m.timeslots).symm
  | readPreimage h =>
    refine ⟨congrArg Answer.preimage (hm.preimages h), fun h' z' hz' => ?_, fun h' => ?_⟩
    · exact (lookupTimeslots_cachePreimage env a h z' h').trans (hm.timeslots h' z' hz')
    · exact (preimageBlob_cachePreimage env a h h').trans (hm.preimages h')
  | writePreimage h p =>
    refine ⟨rfl, fun h' z' hz' => hm.timeslots h' z' hz', fun h' => ?_⟩
    by_cases hne : h' = h
    · subst hne
      by_cases hp : p = []
      · subst hp
        simp [ServiceAccount.call, RequestMap.call, preimageBlob_writePreimage_nil]
      · simp [ServiceAccount.call, RequestMap.call, preimageBlob_writePreimage env a h' hp, hp]
    · simp [ServiceAccount.call, RequestMap.call, preimageBlob_writePreimage_of_ne env a h hne,
        update_of_ne hne, hm.preimages]

/-- At the start the two agree if the overlay's entries for other lengths do. -/
theorem agreesOn_requests_iff : AgreesOn env K a (a.requests env) ↔ OverlayAgrees env a K := by
  constructor
  · intro hm h z l hz hl hne
    simpa [lookupTimeslots, requests, hl, hne] using hm.timeslots h z hz
  · intro hover
    refine ⟨fun h z hz => ?_, fun _ => rfl⟩
    cases hl : a.lookup h with
    | none => simp [lookupTimeslots, requests, hl]
    | some l =>
      by_cases hlz : l.z = z
      · simp [lookupTimeslots, requests, hl, hlz]
      · simpa [lookupTimeslots, requests, hl, hlz] using hover h z l hz hl hlz

/-- The overlay is the map exactly on sets of pairs with different hashes. -/
theorem refinesMap_iff : RefinesMap env a K ↔ OneLength K ∧ OverlayAgrees env a K := by
  constructor
  · intro hmap
    refine ⟨fun h z z' hz hz' => ?_, agreesOn_requests_iff.mp ⟨fun h z hz => ?_, fun _ => rfl⟩⟩
    · -- after a write for `z`, the read for `z'` sees it, whatever the map has there
      by_contra hne
      have hread : ∀ t : List UInt32, some t = (a.requests env).timeslots (h, z') := by
        intro t
        have hcalls := hmap [.writeLookup h z (some t), .readLookup h z'] (by
          simp [OverlayCall.Over, hz, hz'])
        have hpair : (h, z') ≠ (h, z) := fun e => hne (congrArg Prod.snd e).symm
        simpa [answers, call, RequestMap.call, lookupTimeslots_writeLookup,
          update_of_ne hpair] using hcalls
      exact absurd ((hread []).trans (hread [0]).symm) (by simp)
    · have hcalls := hmap [.readLookup h z] (by simpa [OverlayCall.Over] using hz)
      simpa [answers, call, RequestMap.call] using hcalls
  · rintro ⟨hK, hover⟩ calls hcalls
    exact answers_eq_of_simulation (R := AgreesOn env K)
      (fun _ _ c hc hm => hm.call hK c hc) (agreesOn_requests_iff.mpr hover) hcalls

/-- What touches one hash of `K` leaves the preimages with the lengths of `K`. -/
theorem OwnPreimages.of_onlyAt {b : ServiceAccount} {h : Hash} (hown : OwnPreimages env a K)
    (hb : OnlyAt env h a b) : OwnPreimages env b K := by
  intro h' z p hz hp
  by_cases hne : h' = h
  · subst hne
    rcases hb.own with hb | hb
    · exact hown h' z p hz (hb.symm.trans hp)
    · rw [hb] at hp
      exact absurd hp (by simp)
  · exact hown h' z p hz ((hb.preimage h' hne).symm.trans hp)

section

variable (hK : OneLength K) (hown : OwnPreimages env a K)
include hK hown

/-- Every step for pairs of `K` leaves the preimages with the lengths of `K`. -/
theorem OwnPreimages.requestStep (s : RequestStep) (hs : s.Over K) :
    OwnPreimages env (a.requestStep env s).2 K := by
  cases s with
  | solicit t h z => exact hown.of_onlyAt (onlyAt_hostSolicit env a h t z)
  | forget t h z => exact hown.of_onlyAt (onlyAt_hostForget env a h t z)
  | call c =>
    cases c with
    | readLookup h z => exact hown.of_onlyAt (onlyAt_cacheLookup env a h z)
    | writeLookup h z t => exact hown.of_onlyAt (onlyAt_writeLookup env a h z t)
    | readPreimage h => exact hown.of_onlyAt (onlyAt_cachePreimage env a h)
    | writePreimage h p =>
      rcases hs with rfl | ⟨z, hz, hlen⟩
      · exact hown.of_onlyAt (onlyAt_writePreimage_nil env a h)
      · intro h' z' p' hz' hp'
        change (a.writePreimage h p).preimageBlob env h' = some p' at hp'
        by_cases hne : h' = h
        · subst hne
          obtain rfl := hK h' z z' hz hz'
          by_cases hp : p = []
          · subst hp
            simp [preimageBlob_writePreimage_nil] at hp'
          · rw [preimageBlob_writePreimage env a h' hp] at hp'
            rw [← Option.some.inj hp', hlen]
        · rw [preimageBlob_writePreimage_of_ne env a h hne] at hp'
          exact hown h' z' p' hz' hp'

theorem SparesOthers.of_onlyAt {b : ServiceAccount} {h : Hash} {z : UInt32} (hz : (h, z) ∈ K)
    (hb : OnlyAt env h a b) : SparesOthers env K h z a b := by
  refine ⟨fun h' z' hz' hne => hb.timeslots h' (fun e => hne ?_) z', fun h' p hp hlen => ?_⟩
  · subst e
    rw [hK h' z' z hz' hz]
  · have hne : h' ≠ h := by
      rintro rfl
      exact hlen ⟨rfl, hown h' z p hz hp⟩
    exact (hb.preimage h' hne).trans hp

theorem keepsOthers : KeepsOthers env a K := by
  intro steps hsteps timeslot h z hz
  have hafter := after_invariant (I := fun b => OwnPreimages env b K)
    (fun _ s hs hb => OwnPreimages.requestStep hK hb s hs) hown hsteps
  exact ⟨.of_onlyAt hK hafter hz (onlyAt_hostSolicit env _ h timeslot z),
    .of_onlyAt hK hafter hz (onlyAt_hostForget env _ h timeslot z)⟩

end

/-- FORGET of a request without timeslots deletes the preimage of its hash. -/
theorem preimageBlob_hostForget_nil (timeslot : UInt32) {h : Hash} {z : UInt64}
    (hempty : a.lookupTimeslots env h z.toUInt32 = some []) :
    (a.hostForget env timeslot h z).2.preimageBlob env h = none := by
  simp [hostForget, hempty, forgetRequest, preimageBlob_writePreimage_nil]

theorem KeepsOthers.ownPreimages (hkeeps : KeepsOthers env a K) : OwnPreimages env a K := by
  intro h z p hz hp
  by_contra hlen
  have hz' : (h, z.toUInt64.toUInt32) ∈ K := by simpa using hz
  -- the request is solicited, so that FORGET deletes it
  have hspares := (hkeeps [.call (.writeLookup h z (some []))]
    (by simpa [RequestStep.Over, OverlayCall.Over] using hz) 0 h z.toUInt64 hz').2
  have hkept := hspares.2 h p hp (by simpa using hlen)
  have hgone : ((a.writeLookup h z (some [])).hostForget env 0 h z.toUInt64).2.preimageBlob env h
      = none := preimageBlob_hostForget_nil 0 (lookupTimeslots_writeLookup env a h z [] _)
  exact absurd (hgone.symm.trans hkept) (by simp)

/-- **The overlay of requests is a map keyed by pairs, and SOLICIT and FORGET of one pair spare
the others, exactly on the sets of pairs in which no hash has two lengths.** Besides, entries
that the overlay starts with for other lengths must say what the trie says, and preimages
stored for the hashes of the set must have the lengths of the set. -/
theorem requestOverlay_iff (env : HostEnv) (a : ServiceAccount) (K : Set (Hash × UInt32)) :
    (RefinesMap env a K ∧ KeepsOthers env a K) ↔
      OneLength K ∧ OverlayAgrees env a K ∧ OwnPreimages env a K := by
  constructor
  · rintro ⟨hmap, hkeeps⟩
    obtain ⟨hK, hover⟩ := refinesMap_iff.mp hmap
    exact ⟨hK, hover, hkeeps.ownPreimages⟩
  · rintro ⟨hK, hover, hown⟩
    exact ⟨refinesMap_iff.mpr ⟨hK, hover⟩, keepsOthers hK hown⟩

/-- A fresh account over an empty trie. Timeslots written for length 5 are read for length 7,
where nothing was written; a FORGET for length 7 then adds its timeslot to them. And once a
request for length 7 is made, its FORGET deletes a preimage of length 5. -/
theorem overlay_mixes_lengths :
    let env : HostEnv := ⟨fun _ => none, fun _ _ => none, fun _ _ _ => none⟩
    let a : ServiceAccount := { serviceIndex := 1 }
    answers (call env) a [.writeLookup 0 5 (some [1]), .readLookup 0 7] =
        [.done, .timeslots (some [1])] ∧
      answers RequestMap.call (a.requests env) [.writeLookup 0 5 (some [1]), .readLookup 0 7] =
        [.done, .timeslots none] ∧
      ((a.writeLookup 0 5 (some [1])).hostForget env 9 0 7).2.lookupTimeslots env 0 5 =
        some [1, 9] ∧
      let b := (a.writePreimage 0 [1, 2, 3, 4, 5]).writeLookup 0 7 (some [])
      b.preimageBlob env 0 = some [1, 2, 3, 4, 5] ∧
        (b.hostForget env 9 0 7).2.preimageBlob env 0 = none := by
  decide +kernel

end JamDuna.Accumulation
