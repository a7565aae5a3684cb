/-
# History independence of the state trie

After any calls that end with a `Flush`, the trie should hold the map that the calls
describe, and its root should be the root of a trie built from that map at once
(`storage/trie.go`: `Insert`, `Delete`, `Flush`, `NewMerkleTree`).

`deleteNode` removes the leaf at the end of the descent of the key whatever key that
leaf has. `Delete` checks that the key exists, but a key that is only staged exists
for it; inserted and deleted before the next `Flush`, it is deleted from a trie that
never had it, and the leaf of another key can go (`foreign_leaf_removed`).

So a flush is right exactly when every leaf that its deletes remove has a staged key
(`flush_get_iff`), and runs of such flushes are independent of their history
(`root_and_values_of_clean_calls`).
-/

import JamDuna.Basis.EarlyExit
import JamDuna.Storage.BuildTrie
import JamDuna.Storage.SmallHash
import JamDuna.Storage.Staging

namespace JamDuna.Storage

open JamDuna.Basis List Session

section

/-- The key of the leaf that `deleteNode` removes. -/
def victim (m : Mem) (key : Bytes) : ℕ → Option ℕ → ℕ → Option Bytes
  | 0, _, _ => none
  | _ + 1, none, _ => none
  | n + 1, some p, depth =>
    if (m.node p).hash = zeroHash then none
    else match (m.node p).key with
      | some k => some k
      | none => victim m key n ((m.node p).child (trieBit key depth)) (depth + 1)

/-- Every leaf that the deletes remove, in their order, has a key in `staged`. -/
def cleanDeletes (H : HashFn) (staged : List Bytes) : List Key → Option ℕ × Mem → Bool
  | [], _ => true
  | k :: deletes, r => (victim r.2 k.norm (keyBits + 1) r.1 0).all (staged.contains ·) &&
      cleanDeletes H staged deletes (flushDelete H r k.norm)

variable {H : HashFn} {P : List (Key × Bytes)} {m : Mem} {root : Option ℕ} {t : StateTrie}
  {cells : List ℕ} {k : Key} {n d : ℕ}

/-- The leaf that goes is the one at the end of the descent. -/
theorem Rep.victim_eq (hr : Rep H m.heap t root cells) (hs : Solid H t) (hf : Fits k n d t) :
    victim m k.norm n root d = (t.descent Key.bit k d).map Key.norm := by
  induction hr generalizing n d with
  | nil =>
    obtain ⟨n, rfl⟩ := hf.exists_succ
    rfl
  | zero hp =>
    obtain ⟨n, rfl⟩ := hf.exists_succ
    rw [victim, Mem.node_eq hp, if_pos (show Node.zero.hash = zeroHash from rfl)]
    rfl
  | @single p k' v' hp =>
    obtain ⟨n, rfl⟩ := hf.exists_succ
    have hnz : (leafNode H k'.norm v').hash ≠ zeroHash := hs.hash_ne (by simp)
    rw [victim, Mem.node_eq hp, if_neg hnz]
    rfl
  | @branch p pl pr l r cl cr hp hl hr hnodup ihl ihr =>
    obtain ⟨n, rfl⟩ := hf.exists_succ
    have hnz : rootHash H (.node l r) ≠ zeroHash := hs.hash_ne (by simp)
    have hside := hf.side
    rw [victim, Mem.node_eq hp, if_neg hnz, child_branch, BitTrie.descent]
    show victim m k.norm n (some (if k.bit d then pr else pl)) (d + 1) = _
    cases hb : k.bit d <;> rw [hb] at hside
    · exact ihl (hs.side false) hside
    · exact ihr (hs.side true) hside

/-- The check on the nodes is the condition on the trie. -/
theorem cleanDeletes_iff (cf : CollisionFree H P) (va : ValuesApart H P) {staged deletes : List Key}
    (h : Laid H P m root t cells) :
    cleanDeletes H (staged.map Key.norm) deletes (root, m) = true ↔
      CleanErase staged deletes t := by
  induction deletes generalizing m root t cells with
  | nil => exact iff_of_true rfl trivial
  | cons k deletes ih =>
    obtain ⟨cells', happ, -⟩ := flushDelete_spec cf va h k
    rw [cleanDeletes, Bool.and_eq_true, CleanErase, ← ih happ.laid,
      h.rep.victim_eq (h.part.solid cf) (.root h.canon k)]
    refine and_congr_left fun _ => ?_
    cases t.descent Key.bit k 0 with
    | none => simp
    | some k' => simp [Key.norm_inj]

end

namespace Session

/-- The flush removes only leaves of staged keys. -/
def Clean (H : HashFn) (s : Session) : Op → Prop
  | .flush deletes _ => cleanDeletes H (s.tree.stagedDeletes ++ s.tree.stagedInserts.map Prod.fst)
      deletes (s.tree.root, s.mem) = true
  | _ => True

instance decidableClean (H : HashFn) (s : Session) (op : Op) : Decidable (s.Clean H op) :=
  match op with
  | .insert _ _ => inferInstanceAs (Decidable True)
  | .delete _ => inferInstanceAs (Decidable True)
  | .flush _ _ => inferInstanceAs (Decidable (_ = true))

/-- A call that is not a flush of another key's leaf. -/
def cleanStep (H : HashFn) (s : Session) (op : Op) : Option Session :=
  if s.Clean H op then s.step H op else none

/-- The calls lead from one session to the other, with clean flushes. -/
abbrev CleanCalls (H : HashFn) : Session → List Op → Session → Prop :=
  Run fun s op s' => s.cleanStep H op = some s'

theorem cleanStep_eq_some {H : HashFn} {s s' : Session} {op : Op} :
    s.cleanStep H op = some s' ↔ s.Clean H op ∧ s.step H op = some s' := by
  rw [cleanStep]
  split_ifs with h
  · exact (and_iff_right h).symm
  · simp [h]

end Session

variable {H : HashFn} {P : List (Key × Bytes)} {s s' : Session} {a : TrieState}

theorem Refines.staged_eq (h : Refines H P s a) :
    s.tree.stagedDeletes ++ s.tree.stagedInserts.map Prod.fst = a.staged.map Key.norm := by
  rw [h.deletes, h.inserts, TrieState.staged, map_append, map_map, map_map]
  rfl

variable {deletes : List Key}

section

variable (cf : CollisionFree H P) (va : ValuesApart H P)
include cf va

theorem Refines.clean_iff (h : Refines H P s a) {inserts : List (Key × Bytes)} :
    s.Clean H (.flush deletes inserts) ↔ CleanErase a.staged deletes a.trie := by
  obtain ⟨cells, hlaid⟩ := h.laid
  rw [Clean, h.staged_eq, cleanDeletes_iff cf va hlaid]

/-- **A flush keeps what `Get` returns exactly when it is clean.** -/
theorem flush_get_iff (h : Refines H P s a) (hord : s.Orders deletes inserts) :
    (∀ k, (s.flush H deletes inserts).get k = s.get k) ↔ s.Clean H (.flush deletes inserts) := by
  obtain ⟨hd, hi⟩ := h.orders_iff.mp hord
  obtain ⟨href, -, -⟩ := h.flush cf va deletes hi
  obtain ⟨cells, hlaid⟩ := h.laid
  rw [h.clean_iff cf va, ← TrieState.flush_view_iff hlaid.canon h.proper hd hi]
  refine forall_congr' fun k => ?_
  rw [href.get_eq, h.get_eq]
  exact ⟨Except.ok.inj, congrArg _⟩

/-- Clean calls are the calls on the map. -/
theorem cleanCalls_view {ops : List Op}
    (h : s.CleanCalls H ops s') (hops : ∀ e ∈ pairs ops, e ∈ P) (hs : Refines H P s a) :
    ∃ b, Refines H P s' b ∧ b.view = ops.foldl applyOp a.view := by
  refine Run.invariant (P := fun ops s' => (∀ e ∈ pairs ops, e ∈ P) →
    ∃ b, Refines H P s' b ∧ b.view = ops.foldl applyOp a.view) h ?_ ?_ hops
  · exact fun _ => ⟨a, hs, rfl⟩
  · intro ops s₁ op s₂ ih hstep hops
    obtain ⟨hclean, hstep⟩ := cleanStep_eq_some.mp hstep
    rw [pairs_snoc] at hops
    obtain ⟨b, hb, hview⟩ := ih fun e he => hops e (mem_append_left _ he)
    obtain ⟨c, hstep', hc, -, -⟩ := step_refines cf va hb
      (fun e he => hops e (mem_append_right _ he)) hstep
    obtain ⟨cells, hlaid⟩ := hb.laid
    refine ⟨c, hc, ?_⟩
    rw [hstep'.view_eq hlaid.canon hb.proper ?_, hview, foldl_append]
    · rfl
    · rintro deletes inserts rfl
      exact (hb.clean_iff cf va).mp hclean

end

/-- The pairs of a map, each once. -/
def Enumerates (kvs : List (Key × Bytes)) (M : Key → Option Bytes) : Prop :=
  (kvs.map Prod.fst).Nodup ∧ ∀ k v, (k, v) ∈ kvs ↔ M k = some v

theorem view_of_flushed (ha : a.deletes = [] ∧ a.inserts = []) (k : Key) :
    a.view k = a.trie.lookup Key.bit k 0 := by
  simp [TrieState.view, ha.1, ha.2]

/-- **History independence.** From any session, flushed or not, after calls whose
flushes remove only leaves of staged keys and that leave nothing staged, `Get` returns
the value that the calls give to the key, and the root is the root of a new trie of
these values. -/
theorem root_and_values_of_clean_calls {ops₀ ops : List Op} {s₀ s : Session}
    (cf : CollisionFree H (pairs (ops₀ ++ ops))) (va : ValuesApart H (pairs (ops₀ ++ ops)))
    (h₀ : new.Calls H ops₀ s₀) (h : s₀.CleanCalls H ops s) (hs : s.Flushed) :
    ∃ M₀ : Key → Option Bytes, (∀ k, s₀.get k = .ok (M₀ k)) ∧
      (∀ k, s.get k = .ok (ops.foldl applyOp M₀ k)) ∧
      (∃ kvs, Enumerates kvs (ops.foldl applyOp M₀)) ∧
      ∀ kvs, Enumerates kvs (ops.foldl applyOp M₀) →
        ∃ tree m, newMerkleTree H (kvs.map normPair) = some (tree, m) ∧
          s.root = getRoot m tree.root := by
  have hpairs := pairs_append ops₀ ops
  obtain ⟨a, -, ha, -, -⟩ := calls_refine cf va h₀
    (fun e he => hpairs ▸ mem_append_left _ he) (refines_new H _)
  obtain ⟨b, hb, hview⟩ := cleanCalls_view cf va h (fun e he => hpairs ▸ mem_append_right _ he) ha
  obtain ⟨cells, hlaid⟩ := hb.laid
  have hmem : ∀ k v, (k, v) ∈ b.trie.entries ↔ ops.foldl applyOp a.view k = some v := by
    intro k v
    rw [← hview, view_of_flushed (hb.flushed_iff.mp hs), hlaid.canon.lookup_eq_some]
  refine ⟨a.view, ha.get_eq, fun k => by rw [hb.get_eq, hview],
    ⟨b.trie.entries, hlaid.canon.entries_nodup, hmem⟩, fun kvs hkvs => ?_⟩
  rw [hb.root_eq]
  obtain ⟨tree, m, hnew, hroot⟩ := newMerkleTree_root (H := H) hkvs.1 hlaid.canon
    fun e => (hmem e.1 e.2).trans (hkvs.2 e.1 e.2).symm
  exact ⟨tree, m, hnew, hroot.symm⟩

/-- A key that differs from others in its first byte. -/
def keyAt (b : UInt8) : Key := ⟨b :: replicate 30 0, by simp⟩

/-- Two keys are inserted and flushed. -/
def twoKeys : List Op :=
  [.insert (keyAt 0x00) [1], .insert (keyAt 0x80) [2],
    .flush [] [(keyAt 0x00, [1]), (keyAt 0x80, [2])]]

/-- A third key replaces the first. -/
def replaceFirst : List Op :=
  [.insert (keyAt 0x40) [3], .delete (keyAt 0x00), .flush [keyAt 0x00] [(keyAt 0x40, [3])]]

theorem root_and_values_of_replaceFirst :
    ∃ s₀ s, new.Calls polyHash twoKeys s₀ ∧ s₀.CleanCalls polyHash replaceFirst s ∧
      s.Flushed ∧ ∃ M₀ : Key → Option Bytes, (∀ k, s₀.get k = .ok (M₀ k)) ∧
        (∀ k, s.get k = .ok (replaceFirst.foldl applyOp M₀ k)) ∧
        (∃ kvs, Enumerates kvs (replaceFirst.foldl applyOp M₀)) ∧
        ∀ kvs, Enumerates kvs (replaceFirst.foldl applyOp M₀) →
          ∃ tree m, newMerkleTree polyHash (kvs.map normPair) = some (tree, m) ∧
            s.root = getRoot m tree.root := by
  obtain ⟨s₀, hs₀, s, hs, hflushed⟩ : ∃ s₀, twoKeys.foldlM (step polyHash) .new = some s₀ ∧
      ∃ s, replaceFirst.foldlM (cleanStep polyHash) s₀ = some s ∧ s.Flushed := by decide +kernel
  have h₀ : new.Calls polyHash twoKeys s₀ := run_of_foldlM hs₀
  have h : s₀.CleanCalls polyHash replaceFirst s := run_of_foldlM hs
  have cf : CollisionFree polyHash (pairs (twoKeys ++ replaceFirst)) :=
    collisionFree_of_check (by decide +kernel)
  have na : NoAlias polyHash (pairs (twoKeys ++ replaceFirst)) :=
    noAlias_of_check (by decide +kernel)
  exact ⟨s₀, s, h₀, h, hflushed, root_and_values_of_clean_calls cf na.toValuesApart h₀ h hflushed⟩

/-- One key is inserted and flushed. -/
def oneKey : List Op := [.insert (keyAt 0x00) [1], .flush [] [(keyAt 0x00, [1])]]

/-- Another key is inserted and deleted again before the next flush. -/
def insertAndDelete : List Op :=
  [.insert (keyAt 0x80) [2], .delete (keyAt 0x80), .flush [keyAt 0x80] []]

/-- **A key that nobody deleted is lost.** Its trie has one leaf, and the staged delete
of a key that was never in the trie removes that leaf. -/
theorem foreign_leaf_removed : CollisionFree polyHash (pairs (oneKey ++ insertAndDelete)) ∧
      NoAlias polyHash (pairs (oneKey ++ insertAndDelete)) ∧
      ∃ s₀ s, new.Calls polyHash oneKey s₀ ∧ s₀.Flushed ∧
        s₀.Calls polyHash insertAndDelete s ∧ s.Flushed ∧
        s₀.get (keyAt 0x00) = .ok (some [1]) ∧
        (∀ M : Key → Option Bytes, insertAndDelete.foldl applyOp M (keyAt 0x00) = M (keyAt 0x00)) ∧
        s.get (keyAt 0x00) = .ok none := by
  refine ⟨collisionFree_of_check (by decide +kernel), noAlias_of_check (by decide +kernel), ?_⟩
  obtain ⟨s₀, hs₀, s, hs, hflushed₀, hflushed, hget₀, hget⟩ :
      ∃ s₀, oneKey.foldlM (step polyHash) .new = some s₀ ∧
      ∃ s, insertAndDelete.foldlM (step polyHash) s₀ = some s ∧ s₀.Flushed ∧ s.Flushed ∧
        s₀.get (keyAt 0x00) = .ok (some [1]) ∧ s.get (keyAt 0x00) = .ok none := by decide +kernel
  refine ⟨s₀, s, run_of_foldlM hs₀, hflushed₀,
    run_of_foldlM hs, hflushed, hget₀, fun M => ?_, hget⟩
  have hne : keyAt 0x00 ≠ keyAt 0x80 := by decide
  simp [insertAndDelete, applyOp, Function.update_of_ne hne]

end JamDuna.Storage
