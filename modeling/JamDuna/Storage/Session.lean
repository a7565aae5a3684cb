/-
# Sessions

A session is a trie with its staged operations (`storage/trie.go`), over the memory of
nodes and the store. `Insert` and `Delete` stage, `Flush` applies what is staged; the
orders in which Go iterates over the staged maps are part of the label of a step.

`TrieState` is the abstract session: a canonical trie, the staged deletes and the
staged inserts, with no pointers and no store. `step_refines` says that a step of a
session is a step of its abstract session.
-/

import JamDuna.Basis.Runs
import JamDuna.Storage.Flush

namespace JamDuna.Storage

open JamDuna.Basis List

/-- A pair as the trie stages it. -/
def normPair (e : Key × Bytes) : Bytes × Bytes := (e.1.norm, e.2)

/-- The calls on a session, with the orders of a `Flush`. -/
inductive Op where
  | insert (k : Key) (v : Bytes)
  | delete (k : Key)
  | flush (deletes : List Key) (inserts : List (Key × Bytes))
  deriving DecidableEq, Repr

/-- The pair that a call stages. -/
def Op.pair : Op → List (Key × Bytes)
  | .insert k v => [(k, v)]
  | _ => []

/-- The pairs that the calls stage. -/
def pairs (ops : List Op) : List (Key × Bytes) := ops.flatMap Op.pair

theorem pairs_append (ops ops' : List Op) : pairs (ops ++ ops') = pairs ops ++ pairs ops' := by
  simp [pairs]

theorem pairs_snoc (ops : List Op) (op : Op) : pairs (ops ++ [op]) = pairs ops ++ op.pair := by
  simp [pairs]

/-- A trie and the memory it is in. -/
structure Session where
  tree : MerkleTree
  mem : Mem

namespace Session

/-- The session before the first call. -/
def new : Session := ⟨⟨none, [], []⟩, ⟨[], fun _ => none⟩⟩

/-- Nothing is staged. -/
def Flushed (s : Session) : Prop := s.tree.stagedInserts = [] ∧ s.tree.stagedDeletes = []

instance decidableFlushed (s : Session) : Decidable s.Flushed := inferInstanceAs (Decidable (_ ∧ _))

/-- `Get`. -/
def get (s : Session) (k : Key) : Except TrieError (Option Bytes) := s.tree.get s.mem k.bytes

/-- `GetRoot`. -/
def root (s : Session) : Bytes := getRoot s.mem s.tree.root

/-- The orders of a `Flush` are orders of what is staged. -/
def Orders (s : Session) (deletes : List Key) (inserts : List (Key × Bytes)) : Prop :=
  (deletes.map Key.norm).Perm s.tree.stagedDeletes ∧
    (inserts.map normPair).Perm s.tree.stagedInserts

instance decidableOrders (s : Session) (deletes : List Key) (inserts : List (Key × Bytes)) :
    Decidable (s.Orders deletes inserts) :=
  inferInstanceAs (Decidable (_ ∧ _))

/-- `Flush` in the given orders. -/
def flush (H : HashFn) (s : Session) (deletes : List Key) (inserts : List (Key × Bytes)) :
    Session :=
  let r := Storage.flush H s.mem s.tree (deletes.map Key.norm) (inserts.map normPair)
  ⟨r.1, r.2⟩

/-- One call. A `Delete` that fails leaves the session as it is. -/
def step (H : HashFn) (s : Session) : Op → Option Session
  | .insert k v => some { s with tree := s.tree.insert k.bytes v }
  | .delete k => some (match s.tree.delete s.mem k.bytes with
    | .ok tree => { s with tree := tree }
    | .error _ => s)
  | .flush deletes inserts =>
    if s.Orders deletes inserts then some (s.flush H deletes inserts) else none

/-- The calls lead from one session to the other. -/
abbrev Calls (H : HashFn) : Session → List Op → Session → Prop :=
  Run fun s op s' => s.step H op = some s'

end Session

/-- The staged deletes applied to the trie. -/
def eraseKeys (t : StateTrie) (deletes : List Key) : StateTrie := deletes.foldl eraseKey t

/-- The staged inserts applied to the trie. -/
def putKeys (t : StateTrie) (inserts : List (Key × Bytes)) : StateTrie := inserts.foldl putKey t

/-- A session without pointers and store. -/
structure TrieState where
  trie : StateTrie
  deletes : List Key
  inserts : List (Key × Bytes)

namespace TrieState

/-- What `Get` returns. -/
def view (a : TrieState) (k : Key) : Option Bytes :=
  if k ∈ a.deletes then none
  else match a.inserts.find? fun e => e.1 = k with
    | some e => some e.2
    | none => a.trie.lookup Key.bit k 0

/-- The staging of an insert. -/
def stageInsert (a : TrieState) (k : Key) (v : Bytes) : TrieState :=
  { a with deletes := a.deletes.filter (· ≠ k)
           inserts := (k, v) :: a.inserts.filter fun e => e.1 ≠ k }

/-- The staging of a delete. -/
def stageDelete (a : TrieState) (k : Key) : TrieState :=
  { a with deletes := k :: a.deletes.filter (· ≠ k)
           inserts := a.inserts.filter fun e => e.1 ≠ k }

/-- The flushed state. -/
def flush (a : TrieState) (deletes : List Key) (inserts : List (Key × Bytes)) : TrieState :=
  ⟨putKeys (eraseKeys a.trie deletes) inserts, [], []⟩

/-- The steps of an abstract session. -/
inductive Step (a : TrieState) : Op → TrieState → Prop
  | insert (k : Key) (v : Bytes) : Step a (.insert k v) (a.stageInsert k v)
  | delete {k : Key} (hk : a.view k ≠ none) : Step a (.delete k) (a.stageDelete k)
  | reject {k : Key} (hk : a.view k = none) : Step a (.delete k) a
  | flush {deletes : List Key} {inserts : List (Key × Bytes)} (hd : deletes.Perm a.deletes)
      (hi : inserts.Perm a.inserts) : Step a (.flush deletes inserts) (a.flush deletes inserts)

/-- What holds of the staged operations: no key is staged twice, and what is staged
for insertion is in play. -/
structure Proper (P : List (Key × Bytes)) (a : TrieState) : Prop where
  nodup : (a.inserts.map Prod.fst).Nodup
  disjoint : ∀ e ∈ a.inserts, e.1 ∉ a.deletes
  pairs : ∀ e ∈ a.inserts, e ∈ P

variable {P : List (Key × Bytes)} {a b : TrieState} {op : Op}

theorem proper_flush (a : TrieState) (deletes : List Key) (inserts : List (Key × Bytes)) :
    (a.flush deletes inserts).Proper P :=
  ⟨nodup_nil, by simp [TrieState.flush], by simp [TrieState.flush]⟩

/-- A step keeps the staged operations proper. -/
theorem Step.proper (h : Step a op b) (hop : ∀ e ∈ op.pair, e ∈ P) (ha : a.Proper P) :
    b.Proper P := by
  cases h with
  | insert k v =>
    refine ⟨?_, ?_, ?_⟩
    · rw [stageInsert, map_cons, nodup_cons]
      refine ⟨?_, ha.nodup.sublist (filter_sublist.map _)⟩
      simp
    · intro e he hmem
      obtain ⟨hmem, hne⟩ := mem_filter.mp hmem
      rcases mem_cons.mp he with rfl | he
      · simp at hne
      · exact ha.disjoint e (mem_filter.mp he).1 hmem
    · intro e he
      rcases mem_cons.mp he with rfl | he
      · exact hop _ (.head _)
      · exact ha.pairs e (mem_filter.mp he).1
  | delete _ =>
    refine ⟨ha.nodup.sublist (filter_sublist.map _), fun e he hmem => ?_,
      fun e he => ha.pairs e (mem_filter.mp he).1⟩
    obtain ⟨he, hne⟩ := mem_filter.mp he
    rcases mem_cons.mp hmem with heq | hmem
    · simp [heq] at hne
    · exact ha.disjoint e he (mem_filter.mp hmem).1
  | reject _ => exact ha
  | flush _ _ => exact proper_flush _ _ _

end TrieState

variable {H : HashFn} {P : List (Key × Bytes)}

section

variable {m : Mem} {root : Option ℕ} {t : StateTrie} {cells : List ℕ}

/-- From a store with `t` to one with `t'` only records are put, and what could be loaded is
replaced by what can be. -/
structure Keeps (H : HashFn) (P : List (Key × Bytes)) (st st' : Store) (t t' : StateTrie) : Prop where
  puts : Puts H P st st'
  loadable : NoAlias H P → Loadable H st t → Loadable H st' t'

theorem Keeps.refl (st : Store) (t : StateTrie) : Keeps H P st st t t := ⟨.refl _, fun _ h => h⟩

theorem Keeps.trans {st st' st'' : Store} {t t' t'' : StateTrie} (h : Keeps H P st st' t t')
    (h' : Keeps H P st' st'' t' t'') : Keeps H P st st'' t t'' :=
  ⟨h.puts.trans h'.puts, fun na hl => h'.loadable na (h.loadable na hl)⟩

/-- The delete part of `Flush`. -/
theorem flushDeletes_spec (cf : CollisionFree H P) (va : ValuesApart H P) (deletes : List Key)
    (h : Laid H P m root t cells) :
    ∃ cells', Laid H P ((deletes.map Key.norm).foldl (flushDelete H) (root, m)).2
        ((deletes.map Key.norm).foldl (flushDelete H) (root, m)).1 (eraseKeys t deletes) cells' ∧
      Keeps H P m.store ((deletes.map Key.norm).foldl (flushDelete H) (root, m)).2.store
        t (eraseKeys t deletes) := by
  induction deletes generalizing m root t cells with
  | nil => exact ⟨cells, h, .refl _ _⟩
  | cons k deletes ih =>
    obtain ⟨cells₁, happ, -⟩ := flushDelete_spec cf va h k
    obtain ⟨cells', hlaid, hkeeps⟩ := ih happ.laid
    exact ⟨cells', hlaid, .trans ⟨happ.puts, happ.loadable⟩ hkeeps⟩

/-- The insert part of `Flush`. -/
theorem flushInserts_spec (cf : CollisionFree H P) (va : ValuesApart H P)
    {inserts : List (Key × Bytes)} (hin : ∀ e ∈ inserts, e ∈ P) (h : Laid H P m root t cells) :
    ∃ cells', Laid H P ((inserts.map normPair).foldl (flushInsert H) (root, m)).2
        ((inserts.map normPair).foldl (flushInsert H) (root, m)).1 (putKeys t inserts) cells' ∧
      Keeps H P m.store ((inserts.map normPair).foldl (flushInsert H) (root, m)).2.store
        t (putKeys t inserts) := by
  induction inserts generalizing m root t cells with
  | nil => exact ⟨cells, h, .refl _ _⟩
  | cons e inserts ih =>
    obtain ⟨cells₁, happ, -⟩ := flushInsert_spec cf va h (hin e mem_cons_self)
    obtain ⟨cells', hlaid, hkeeps⟩ := ih (fun e' he' => hin e' (.tail _ he')) happ.laid
    exact ⟨cells', hlaid, .trans ⟨happ.puts, happ.loadable⟩ hkeeps⟩

end

/-- The session `s` is an implementation of `a`. -/
structure Refines (H : HashFn) (P : List (Key × Bytes)) (s : Session) (a : TrieState) : Prop where
  laid : ∃ cells, Laid H P s.mem s.tree.root a.trie cells
  deletes : s.tree.stagedDeletes = a.deletes.map Key.norm
  inserts : s.tree.stagedInserts = a.inserts.map normPair
  proper : a.Proper P

variable {s s' : Session} {a : TrieState} {op : Op}

theorem refines_new (H : HashFn) (P : List (Key × Bytes)) :
    Refines H P Session.new ⟨.empty, [], []⟩ :=
  ⟨⟨[], laid_empty _⟩, rfl, rfl, nodup_nil, by simp, by simp⟩

/-- A flushed trie is a session with nothing staged. -/
theorem Laid.refines {m : Mem} {root : Option ℕ} {t : StateTrie} {cells : List ℕ}
    (h : Laid H P m root t cells) : Refines H P ⟨⟨root, [], []⟩, m⟩ ⟨t, [], []⟩ :=
  ⟨⟨cells, h⟩, rfl, rfl, nodup_nil, by simp, by simp⟩

theorem mem_map_norm {ks : List Key} {k : Key} : k.norm ∈ ks.map Key.norm ↔ k ∈ ks := by
  simp [Key.norm_inj]

theorem filter_map_norm (ks : List Key) (k : Key) :
    (ks.map Key.norm).filter (· ≠ k.norm) = (ks.filter (· ≠ k)).map Key.norm := by
  rw [filter_map]
  congr 1
  refine filter_congr fun k' _ => ?_
  simp [Key.norm_inj]

theorem filter_map_normPair (es : List (Key × Bytes)) (k : Key) :
    (es.map normPair).filter (fun e => e.1 ≠ k.norm) =
      (es.filter fun e => e.1 ≠ k).map normPair := by
  rw [filter_map]
  congr 1
  refine filter_congr fun e _ => ?_
  simp [normPair, Key.norm_inj]

theorem find?_map_normPair (es : List (Key × Bytes)) (k : Key) :
    (es.map normPair).find? (fun e => e.1 = k.norm) = (es.find? fun e => e.1 = k).map normPair := by
  rw [find?_map]
  congr 2
  funext e
  simp [normPair, Key.norm_inj]

theorem normPair_injective : Function.Injective normPair := by
  rintro ⟨k, v⟩ ⟨k', v'⟩ h
  obtain ⟨hk, hv⟩ := Prod.mk.inj h
  exact Prod.ext (Key.norm_inj.mp hk) hv

/-- **`Get` reads the view.** -/
theorem Refines.get_eq (h : Refines H P s a) (k : Key) : s.get k = .ok (a.view k) := by
  obtain ⟨cells, hlaid⟩ := h.laid
  have hnorm : trieNormalizeKey32 k.bytes = k.norm := rfl
  simp only [Session.get, MerkleTree.get, hnorm, h.deletes, h.inserts, mem_map_norm,
    find?_map_normPair, TrieState.view]
  by_cases hd : k ∈ a.deletes
  · rw [if_pos hd, if_pos hd]
  · rw [if_neg hd, if_neg hd]
    cases a.inserts.find? fun e => e.1 = k with
    | none => exact hlaid.get_eq k
    | some e => rfl

theorem Refines.root_eq (h : Refines H P s a) : s.root = rootHash H a.trie := by
  obtain ⟨cells, hlaid⟩ := h.laid
  exact hlaid.getRoot_eq

theorem Refines.flushed_iff (h : Refines H P s a) :
    s.Flushed ↔ a.deletes = [] ∧ a.inserts = [] := by
  rw [Session.Flushed, h.inserts, h.deletes, map_eq_nil_iff, map_eq_nil_iff, and_comm]

variable {inserts : List (Key × Bytes)}

theorem Refines.orders_iff (h : Refines H P s a) {deletes : List Key} :
    s.Orders deletes inserts ↔ deletes.Perm a.deletes ∧ inserts.Perm a.inserts := by
  rw [Session.Orders, h.deletes, h.inserts,
    map_perm_map_iff fun _ _ => Key.norm_inj.mp, map_perm_map_iff normPair_injective]

/-- What `Delete` does is decided by the view of the key. -/
theorem Refines.delete_eq (h : Refines H P s a) (k : Key) :
    s.tree.delete s.mem k.bytes = if a.view k = none then .error (.cannotDelete k.norm)
      else .ok { s.tree with
        stagedInserts := s.tree.stagedInserts.filter fun kv => kv.1 ≠ k.norm
        stagedDeletes := k.norm :: s.tree.stagedDeletes.filter (· ≠ k.norm) } := by
  have hnorm : trieNormalizeKey32 k.bytes = k.norm := rfl
  have hidem : trieNormalizeKey32 k.norm = k.norm := fixed_of_length (length_norm k)
  have hget : s.tree.get s.mem k.norm = .ok (a.view k) := by
    rw [← h.get_eq k, Session.get, MerkleTree.get, MerkleTree.get, hidem, hnorm]
  simp only [MerkleTree.delete, hnorm, hget]
  cases a.view k with
  | none | some v => rfl

section

variable (cf : CollisionFree H P) (va : ValuesApart H P)
include cf va

/-- **`Flush` refines the abstract flush.** -/
theorem Refines.flush (h : Refines H P s a) (deletes : List Key) (hi : inserts.Perm a.inserts) :
    Refines H P (s.flush H deletes inserts) (a.flush deletes inserts) ∧
      Keeps H P s.mem.store (s.flush H deletes inserts).mem.store
        a.trie (a.flush deletes inserts).trie := by
  obtain ⟨cells, hlaid⟩ := h.laid
  obtain ⟨cells₁, hlaid₁, hkeeps₁⟩ := flushDeletes_spec cf va deletes hlaid
  obtain ⟨cells₂, hlaid₂, hkeeps₂⟩ := flushInserts_spec cf va
    (fun e he => h.proper.pairs e (hi.mem_iff.mp he)) hlaid₁
  exact ⟨⟨⟨cells₂, hlaid₂⟩, rfl, rfl, TrieState.proper_flush _ _ _⟩, hkeeps₁.trans hkeeps₂⟩

/-- **A step of a session is a step of its abstract session**; only records are put
into the store, and a trie that can be loaded stays so. -/
theorem step_refines (h : Refines H P s a)
    (hop : ∀ e ∈ op.pair, e ∈ P) (hstep : s.step H op = some s') :
    ∃ b, TrieState.Step a op b ∧ Refines H P s' b ∧
      Keeps H P s.mem.store s'.mem.store a.trie b.trie := by
  cases op with
  | insert k v =>
    cases hstep
    have hstep' : TrieState.Step a (.insert k v) _ := .insert k v
    refine ⟨_, hstep', ⟨h.laid, ?_, ?_, hstep'.proper hop h.proper⟩, .refl _ _⟩
    · show s.tree.stagedDeletes.filter (· ≠ k.norm) = _
      rw [h.deletes, filter_map_norm]
      rfl
    · show (k.norm, v) :: s.tree.stagedInserts.filter (fun e => e.1 ≠ k.norm) = _
      rw [h.inserts, filter_map_normPair]
      rfl
  | delete k =>
    cases hstep
    rw [h.delete_eq k]
    by_cases hview : a.view k = none
    · rw [if_pos hview]
      exact ⟨a, .reject hview, h, .refl _ _⟩
    · rw [if_neg hview]
      have hstep' : TrieState.Step a (.delete k) _ := .delete hview
      refine ⟨_, hstep', ⟨h.laid, ?_, ?_, hstep'.proper hop h.proper⟩, .refl _ _⟩
      · show k.norm :: s.tree.stagedDeletes.filter (· ≠ k.norm) = _
        rw [h.deletes, filter_map_norm]
        rfl
      · show s.tree.stagedInserts.filter (fun e => e.1 ≠ k.norm) = _
        rw [h.inserts, filter_map_normPair]
        rfl
  | flush deletes inserts =>
    rw [Session.step] at hstep
    split_ifs at hstep with hord
    cases hstep
    obtain ⟨hd, hi⟩ := h.orders_iff.mp hord
    exact ⟨_, .flush hd hi, h.flush cf va deletes hi⟩

/-- **A run of a session is a run of its abstract session.** -/
theorem calls_refine {ops : List Op}
    (h : Session.Calls H s ops s') (hops : ∀ e ∈ pairs ops, e ∈ P) (hs : Refines H P s a) :
    ∃ b, Run TrieState.Step a ops b ∧ Refines H P s' b ∧
      Keeps H P s.mem.store s'.mem.store a.trie b.trie := by
  refine Run.invariant (P := fun ops s' => (∀ e ∈ pairs ops, e ∈ P) → ∃ b,
    Run TrieState.Step a ops b ∧ Refines H P s' b ∧
      Keeps H P s.mem.store s'.mem.store a.trie b.trie) h ?_ ?_ hops
  · exact fun _ => ⟨a, .refl, hs, .refl _ _⟩
  · intro ops s₁ op s₂ ih hstep hops
    rw [pairs_snoc] at hops
    obtain ⟨b, hrun, hb, hkeeps⟩ := ih fun e he => hops e (mem_append_left _ he)
    obtain ⟨c, hstep', hc, hkeeps'⟩ := step_refines cf va hb
      (fun e he => hops e (mem_append_right _ he)) hstep
    exact ⟨c, hrun.snoc hstep', hc, hkeeps.trans hkeeps'⟩

end

end JamDuna.Storage
