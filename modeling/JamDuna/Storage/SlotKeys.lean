/-
# Where the storage slots of a contract lie in the unified binary tree

`storage/ubt_embedding.go` gives every leaf of an account a 32-byte input key: the basic data, the
code hash, the code chunks and the storage slots. The first 64 slots lie between the code hash and
the code; every other slot keeps its bytes, and only its first byte is raised by one, so that it
leaves the keys whose first byte is zero to the account. The sum is taken modulo 256: a slot that
starts with `0xff` comes back among them.

`slotsIsolated_iff` says which slots share their key with another leaf, and that
`applyStorageWrites` of `storage/witness.go` leaves the rest of the account alone when it writes
none of these.
-/

import JamDuna.Basis.BigEndian
import JamDuna.Basis.LittleEndian
import JamDuna.Types.Basic

namespace JamDuna.Storage.Ubt

open JamDuna.Basis List

/-- A 32-byte string: its first byte, and the big-endian number in the 31 bytes behind it. -/
@[ext]
structure InputKey where
  first : UInt8
  rest : BitVec 248
  deriving DecidableEq

/-- `TreeKey`. -/
structure TreeKey (Stem : Type) where
  stem : Stem
  subindex : UInt8
  deriving DecidableEq

/-- `EvmEntry`. -/
structure EvmEntry where
  keyH : InputKey
  value : Bytes

/-- The leaves of an account. -/
inductive Leaf
  | basicData
  | codeHash
  | codeChunk (chunkNumber : Fin (2 ^ 56))
  | slot (slot : InputKey)

/-- The input key of `GetStorageSlotKey`; a header slot is zero but for a last byte below 64. -/
def storageSlotInput (slot : InputKey) : InputKey :=
  if slot.first = 0 ∧ slot.rest < 64 then ⟨0, 64 + slot.rest⟩ else ⟨slot.first + 1, slot.rest⟩

/-- The input key of `GetCodeChunkKey`. -/
def codeChunkInput (chunkNumber : ℕ) : InputKey :=
  let pos := 128 + chunkNumber
  if pos < 256 then ⟨0, .ofNat 248 pos⟩ else ⟨0, .ofNat 248 (pos / 256 * 256 + pos % 256)⟩

/-- The input key of a leaf, as `GetBasicDataKey`, `GetCodeHashKey` and the two above take it. -/
def Leaf.input : Leaf → InputKey
  | basicData => ⟨0, 0⟩
  | codeHash => ⟨0, 1⟩
  | codeChunk n => codeChunkInput n
  | slot s => storageSlotInput s

/-- What is hashed for the stem: twelve zeros, the address and 31 bytes of the input key. -/
def payload (address : Bytes) (k : InputKey) : Bytes :=
  replicate 12 0 ++ address ++ k.first :: (toLE 30 (k.rest.toNat / 256)).reverse

variable {Stem : Type} (stemHash : Bytes → Stem) (address : Bytes)

/-- `GetBinaryTreeKey`, where the hash of the profile is cut to a stem. -/
def getBinaryTreeKey (k : InputKey) : TreeKey Stem :=
  ⟨stemHash (payload address k), UInt8.ofNat k.rest.toNat⟩

/-- `GetStorageSlotKey`. -/
def getStorageSlotKey (slot : InputKey) : TreeKey Stem :=
  getBinaryTreeKey stemHash address (storageSlotInput slot)

/-- The tree key of a leaf. -/
def Leaf.key (leaf : Leaf) : TreeKey Stem := getBinaryTreeKey stemHash address leaf.input

/-- The contents of a tree; `Get` does not see that a stem without values is removed. -/
abbrev Tree (Stem : Type) := TreeKey Stem → Option Bytes

variable [DecidableEq Stem]

/-- `Insert`: the zero value deletes. -/
def Tree.insert (t : Tree Stem) (key : TreeKey Stem) (value : Bytes) : Tree Stem :=
  Function.update t key (if value = replicate 32 0 then none else some value)

/-- 32 bytes as a slot. -/
def InputKey.ofBytes (b : Bytes) : InputKey :=
  ⟨b.headD 0, .ofNat 248 (ofBE b.tail)⟩

/-- `ParseShardPayload`. -/
def parseShardPayload (shardPayload : Bytes) : Except String (List EvmEntry) :=
  if shardPayload.length < 2 then
    .error ("shard payload too small: " ++ toString shardPayload.length ++ " bytes")
  else
    let entryCount := ofLE (shardPayload.take 2)
    let expectedLen := 2 + entryCount * 64
    if shardPayload.length < expectedLen then
      .error ("shard payload incomplete: got " ++ toString shardPayload.length ++
        " bytes, expected " ++ toString expectedLen)
    else .ok ((range entryCount).map fun i =>
      ⟨.ofBytes ((shardPayload.drop (2 + 64 * i)).take 32),
        (shardPayload.drop (2 + 64 * i + 32)).take 32⟩)

/-- `applyStorageWrites`. -/
def applyStorageWrites (shardPayload : Bytes) (t : Tree Stem) : Except String (Tree Stem) :=
  match parseShardPayload shardPayload with
  | .error e => .error ("failed to parse shard payload: " ++ e)
  | .ok entries => .ok (entries.foldl (fun t entry =>
      t.insert (getStorageSlotKey stemHash address entry.keyH) entry.value) t)

/-- **Slots are isolated**: the basic data, the code hash and the chunks have different keys, the
key of a written slot is that of no other leaf, and the writes leave every leaf alone but the
written slots. -/
def SlotsIsolated (entries : List EvmEntry) : Prop :=
  (∀ leaf leaf' : Leaf, (∀ s, leaf ≠ .slot s) → (∀ s, leaf' ≠ .slot s) → leaf ≠ leaf' →
    leaf.key stemHash address ≠ leaf'.key stemHash address) ∧
  (∀ entry ∈ entries, ∀ leaf : Leaf, leaf ≠ .slot entry.keyH →
    leaf.key stemHash address ≠ getStorageSlotKey stemHash address entry.keyH) ∧
  ∀ shardPayload, parseShardPayload shardPayload = .ok entries → ∀ t t' : Tree Stem,
    applyStorageWrites stemHash address shardPayload t = .ok t' →
    ∀ leaf : Leaf, (∀ entry ∈ entries, leaf ≠ .slot entry.keyH) →
      t' (leaf.key stemHash address) = t (leaf.key stemHash address)

/-- Another leaf of the account has the input key of the slot: always for the first 64 slots, and
for those that start with `0xff` when the other bytes are the place of a leaf. -/
def Shared (s : InputKey) : Prop :=
  s.first = 0 ∧ s.rest.toNat < 64 ∨
    s.first = 255 ∧ s.rest.toNat < 128 + 2 ^ 56 ∧ (s.rest.toNat < 2 ∨ 64 ≤ s.rest.toNat)

variable {stemHash address}

/-- The chunks follow each other from place 128 on. -/
theorem codeChunkInput_eq (n : ℕ) : codeChunkInput n = ⟨0, .ofNat 248 (128 + n)⟩ := by
  unfold codeChunkInput
  dsimp only
  rw [Nat.div_add_mod', ite_self]

theorem eq_of_input_eq {leaf leaf' : Leaf} (hleaf : ∀ s, leaf ≠ .slot s)
    (hleaf' : ∀ s, leaf' ≠ .slot s) (h : leaf.input = leaf'.input) : leaf = leaf' := by
  cases leaf <;> cases leaf' <;> simp only [Leaf.input, codeChunkInput_eq, InputKey.mk.injEq,
    true_and, ne_eq, Leaf.slot.injEq, forall_eq'] at h hleaf hleaf' ⊢
  case codeChunk.codeChunk n m => exact congrArg _ (Fin.ext (by bv_omega))
  all_goals bv_omega

theorem storageSlotInput_header {s : InputKey} (h : s.first = 0 ∧ s.rest.toNat < 64) :
    storageSlotInput s = ⟨0, 64 + s.rest⟩ :=
  if_pos h

theorem storageSlotInput_of_not {s : InputKey} (h : ¬(s.first = 0 ∧ s.rest.toNat < 64)) :
    storageSlotInput s = ⟨s.first + 1, s.rest⟩ :=
  if_neg h

theorem storageSlotInput_wraps (rest : BitVec 248) : storageSlotInput ⟨255, rest⟩ = ⟨0, rest⟩ := by
  have hne : (255 : UInt8) ≠ 0 := by decide
  rw [storageSlotInput_of_not fun h => hne h.1]
  exact congrArg (InputKey.mk · rest) (show (255 : UInt8) + 1 = 0 by decide)

/-- A slot at the place of another leaf. -/
theorem shared_of_input {s : InputKey} {place : BitVec 248} (h : ⟨0, place⟩ = storageSlotInput s)
    (hlt : place.toNat < 128 + 2 ^ 56) (hplace : place.toNat < 2 ∨ 64 ≤ place.toNat) :
    Shared s := by
  by_cases hheader : s.first = 0 ∧ s.rest.toNat < 64
  · exact .inl hheader
  · rw [storageSlotInput_of_not hheader] at h
    obtain ⟨hfirst, rfl⟩ := InputKey.mk.inj h
    have hwraps : s.first = 255 := (UInt8.add_left_inj 1).mp hfirst.symm
    exact .inr ⟨hwraps, hlt, hplace⟩

/-- **The slots that share their key.** -/
theorem exists_input_eq_iff (s : InputKey) :
    (∃ leaf : Leaf, leaf ≠ .slot s ∧ leaf.input = storageSlotInput s) ↔ Shared s := by
  constructor
  · rintro ⟨leaf, hne, heq⟩
    cases leaf with
    | basicData | codeHash => exact shared_of_input heq (by decide) (.inl (by decide))
    | codeChunk n =>
      rw [Leaf.input, codeChunkInput_eq] at heq
      exact shared_of_input heq (by bv_omega) (.inr (by bv_omega))
    | slot t =>
      rw [Leaf.input] at heq
      by_cases ht : t.first = 0 ∧ t.rest.toNat < 64
      · rw [storageSlotInput_header ht] at heq
        exact shared_of_input heq (by bv_omega) (.inr (by bv_omega))
      · by_cases hs : s.first = 0 ∧ s.rest.toNat < 64
        · exact .inl hs
        · rw [storageSlotInput_of_not ht, storageSlotInput_of_not hs] at heq
          obtain ⟨hfirst, hrest⟩ := InputKey.mk.inj heq
          have hsame : t = s := InputKey.ext ((UInt8.add_left_inj 1).mp hfirst) hrest
          exact absurd (congrArg Leaf.slot hsame) hne
  · obtain ⟨first, rest⟩ := s
    rintro (⟨hfirst, hrest⟩ | ⟨hfirst, hrest, hplace⟩)
    · subst hfirst
      refine ⟨.slot ⟨255, 64 + rest⟩, fun h => ?_, ?_⟩
      · cases h
      · exact (storageSlotInput_wraps _).trans (storageSlotInput_header ⟨rfl, hrest⟩).symm
    · subst hfirst
      simp only at hrest hplace
      rw [storageSlotInput_wraps]
      rcases lt_or_ge rest.toNat 128 with hless | hcode
      · rcases hplace with hplace | hplace
        · rcases (show rest = 0 ∨ rest = 1 by bv_omega) with rfl | rfl
          · exact ⟨.basicData, nofun, rfl⟩
          · exact ⟨.codeHash, nofun, rfl⟩
        · refine ⟨.slot ⟨0, rest - 64⟩, fun h => ?_, ?_⟩
          · cases h
          · rw [Leaf.input, storageSlotInput_header ⟨rfl, by bv_omega⟩]
            congr 1
            bv_omega
      · refine ⟨.codeChunk ⟨rest.toNat - 128, by omega⟩, nofun, ?_⟩
        rw [Leaf.input, codeChunkInput_eq, Nat.add_sub_cancel' hcode, BitVec.ofNat_toNat,
          BitVec.setWidth_eq]

theorem payload_inj {k k' : InputKey} (h : payload address k = payload address k') :
    k.first = k'.first ∧ k.rest.toNat / 256 = k'.rest.toNat / 256 := by
  obtain ⟨hfirst, hrest⟩ := cons.inj (append_cancel_left h)
  have hlt (k : InputKey) : k.rest.toNat / 256 < 256 ^ 30 := by
    omega
  have hnumber := congrArg ofLE (reverse_injective hrest)
  rw [ofLE_toLE_of_lt (hlt k), ofLE_toLE_of_lt (hlt k')] at hnumber
  exact ⟨hfirst, hnumber⟩

omit [DecidableEq Stem] in
/-- Without collisions leaves share a key if they share the input. -/
theorem getBinaryTreeKey_inj (hfree : Set.InjOn stemHash (Set.range (payload address)))
    {k k' : InputKey}
    (h : getBinaryTreeKey stemHash address k = getBinaryTreeKey stemHash address k') : k = k' := by
  obtain ⟨hstem, hsub⟩ := TreeKey.mk.inj h
  obtain ⟨hfirst, hrest⟩ := payload_inj (hfree ⟨k, rfl⟩ ⟨k', rfl⟩ hstem)
  have hlast := congrArg UInt8.toNat hsub
  rw [UInt8.toNat_ofNat', UInt8.toNat_ofNat'] at hlast
  exact InputKey.ext hfirst (BitVec.eq_of_toNat_eq (by omega))

/-- A write changes the leaves with the key of the slot only. -/
theorem foldl_insert_of_ne {entries : List EvmEntry} {key : TreeKey Stem}
    (h : ∀ entry ∈ entries, key ≠ getStorageSlotKey stemHash address entry.keyH) (t : Tree Stem) :
    entries.foldl (fun t entry => t.insert (getStorageSlotKey stemHash address entry.keyH)
      entry.value) t key = t key := by
  induction entries generalizing t with
  | nil => rfl
  | cons entry entries ih =>
    rw [forall_mem_cons] at h
    rw [foldl_cons, ih h.2]
    exact Function.update_of_ne h.1 _ _

/-- **When storage writes are isolated**: when they write none of the first 64 slots, which share
their keys with slots that start with `0xff`, and no slot that starts with `0xff` and has the place
of the basic data, the code hash, a header slot or a code chunk in its other bytes. -/
theorem slotsIsolated_iff (hfree : Set.InjOn stemHash (Set.range (payload address)))
    (entries : List EvmEntry) :
    SlotsIsolated stemHash address entries ↔ ∀ entry ∈ entries, ¬Shared entry.keyH := by
  constructor
  · intro h entry hentry hshared
    obtain ⟨leaf, hne, heq⟩ := (exists_input_eq_iff _).mpr hshared
    exact h.2.1 entry hentry leaf hne (congrArg _ heq)
  · intro h
    have hkeys : ∀ entry ∈ entries, ∀ leaf : Leaf, leaf ≠ .slot entry.keyH →
        leaf.key stemHash address ≠ getStorageSlotKey stemHash address entry.keyH :=
      fun entry hentry leaf hne heq => h entry hentry
        ((exists_input_eq_iff _).mp ⟨leaf, hne, getBinaryTreeKey_inj hfree heq⟩)
    refine ⟨fun leaf leaf' hleaf hleaf' hne heq => ?_, hkeys,
      fun shardPayload hparse t t' happly leaf hleaf => ?_⟩
    · exact hne (eq_of_input_eq hleaf hleaf' (getBinaryTreeKey_inj hfree heq))
    unfold applyStorageWrites at happly
    rw [hparse] at happly
    cases happly
    exact foldl_insert_of_ne (fun entry hentry => hkeys entry hentry leaf (hleaf entry hentry)) t

theorem slotsIsolated_slot64 : SlotsIsolated id (replicate 20 0) [⟨⟨0, 64⟩, replicate 32 1⟩] :=
  (slotsIsolated_iff (Set.injOn_id _) _).mpr (by simp [Shared])

/-- **A contract that writes the slot `0xff00…00` overwrites its balance and nonce.** -/
theorem wrappingSlot_overwrites : (applyStorageWrites id (replicate 20 0)
        (1 :: 0 :: 255 :: replicate 31 0 ++ replicate 32 1) fun _ => none).toOption.map
      (· (Leaf.basicData.key id (replicate 20 0))) = some (some (replicate 32 1)) ∧
    ¬SlotsIsolated id (replicate 20 0) [⟨⟨255, 0⟩, replicate 32 1⟩] := by
  refine ⟨by decide +kernel, fun h => ?_⟩
  exact h.2.1 _ (.head _) .basicData nofun (by decide +kernel)

end JamDuna.Storage.Ubt
