/-
# A trie and its copy

`Copy` of `storage/trie.go`, which `CopySession` of `storage/jam_session.go` calls,
gives the copy its own staged operations and its own top node. The nodes below are
those of the original, and so is the store. `insertNode` and `deleteNode` write the
nodes on the way of a key in place.

A `World` is the memory with a trie and its copy. `Apart` is the condition that a
flush of the one writes no cell that the other reaches; the steps that meet it leave
the root, every `Get` and every `Trace` of the other side as they were
(`copies_isolated`). The first insertion below the top node does not meet it
(`insert_on_copy_seen`).
-/

import JamDuna.Storage.HistoryIndependence

namespace JamDuna.Storage

open JamDuna.Basis List Option Mem

/-- `Copy`. -/
def MerkleTree.copy (m : Mem) (t : MerkleTree) : MerkleTree × Mem :=
  match t.root with
  | none => (⟨none, [], []⟩, m)
  | some p => (⟨(m.new (m.node p)).1, [], []⟩, (m.new (m.node p)).2)

section

/-- The cells that a pointer leads to. -/
def reach (m : Mem) : ℕ → Option ℕ → List ℕ
  | 0, _ => []
  | _ + 1, none => []
  | n + 1, some p => p :: (reach m n (m.node p).left ++ reach m n (m.node p).right)

variable (H : HashFn)

/-- The cells that the delete part of `Flush` writes. -/
def deleteWrites : List Key → Option ℕ × Mem → List ℕ
  | [], _ => []
  | k :: deletes, r => deleteCells r.2 k.norm (keyBits + 1) r.1 0 ++
      deleteWrites deletes (flushDelete H r k.norm)

/-- The cells that the insert part of `Flush` writes. -/
def insertWrites : List (Key × Bytes) → Option ℕ × Mem → List ℕ
  | [], _ => []
  | e :: inserts, r => insertCells r.2 e.1.norm (keyBits + 1) r.1 0 ++
      insertWrites inserts (flushInsert H r (normPair e))

/-- The cells that a call writes. -/
def Session.writes (s : Session) : Op → List ℕ
  | .flush deletes inserts => deleteWrites H deletes (s.tree.root, s.mem) ++
      insertWrites H inserts ((deletes.map Key.norm).foldl (flushDelete H) (s.tree.root, s.mem))
  | _ => []

end

/-- `Trace`. -/
def Session.trace (s : Session) (k : Key) : Except TrieError (List Bytes) :=
  Storage.trace s.mem k.norm s.tree.root

/-- The two sessions have the same root, the same values and the same traces. -/
structure SameView (s s' : Session) : Prop where
  root : s'.root = s.root
  get : ∀ k, s'.get k = s.get k
  trace : ∀ k, s'.trace k = s.trace k

theorem SameView.refl (s : Session) : SameView s s := ⟨rfl, fun _ => rfl, fun _ => rfl⟩

theorem SameView.trans {s s' s'' : Session} (h : SameView s s') (h' : SameView s' s'') :
    SameView s s'' :=
  ⟨h'.root.trans h.root, fun k => (h'.get k).trans (h.get k),
    fun k => (h'.trace k).trans (h.trace k)⟩

/-- The trie that was copied, and the copy. -/
inductive Side where
  | original
  | copy
  deriving DecidableEq, Repr

def Side.other : Side → Side
  | .original => .copy
  | .copy => .original

/-- A trie and its copy in one memory. -/
structure World where
  mem : Mem
  tree : Side → MerkleTree

namespace World

variable (H : HashFn)

/-- The session of a side. -/
def session (w : World) (side : Side) : Session := ⟨w.tree side, w.mem⟩

/-- The world after a session was copied. -/
def ofCopy (s : Session) : World :=
  ⟨(s.tree.copy s.mem).2, fun
    | .original => s.tree
    | .copy => (s.tree.copy s.mem).1⟩

/-- A call on one side. -/
def step (w : World) (x : Side × Op) : Option World :=
  ((w.session x.1).step H x.2).map fun s => ⟨s.mem, Function.update w.tree x.1 s.tree⟩

/-- The call writes no cell that the other side reaches. -/
def Apart (w : World) (x : Side × Op) : Prop :=
  ∀ q ∈ (w.session x.1).writes H x.2, q ∉ reach w.mem w.mem.heap.length (w.tree x.1.other).root

instance decidableApart (w : World) (x : Side × Op) : Decidable (w.Apart H x) :=
  inferInstanceAs (Decidable (∀ q ∈ (w.session x.1).writes H x.2, _))

/-- A call that writes no cell of the other side. -/
def apartStep (w : World) (x : Side × Op) : Option World :=
  if w.Apart H x then w.step H x else none

/-- Calls on the two sides, in any order, that write no cell of the other side. -/
abbrev ApartCalls : World → List (Side × Op) → World → Prop :=
  Run fun w x w' => w.apartStep H x = some w'

theorem apartStep_eq_some {w w' : World} {x : Side × Op} :
    w.apartStep H x = some w' ↔ w.Apart H x ∧ w.step H x = some w' := by
  rw [apartStep]
  split_ifs with h
  · exact (and_iff_right h).symm
  · simp [h]

end World

variable {H : HashFn} {P : List (Key × Bytes)}

section

variable {m m' : Mem} {root p : Option ℕ} {t : StateTrie} {cells W W' : List ℕ} {n d : ℕ}

theorem reach_none (m : Mem) (n : ℕ) : reach m n none = [] := by
  cases n <;> rfl

/-- What is reached from a trie are its cells. -/
theorem Rep.reach_eq (hr : Rep H m.heap t p cells) (hn : cells.length ≤ n) :
    reach m n p = cells := by
  induction hr generalizing n with
  | nil => exact reach_none m n
  | zero hp =>
    obtain ⟨n, rfl⟩ := Nat.exists_eq_add_of_le' hn
    simp [reach, node_eq hp, Node.zero, reach_none]
  | single hp =>
    obtain ⟨n, rfl⟩ := Nat.exists_eq_add_of_le' hn
    simp [reach, node_eq hp, leafNode, reach_none]
  | branch hp _ _ _ ihl ihr =>
    simp only [length_cons, length_append] at hn
    obtain ⟨n, rfl⟩ := Nat.exists_eq_add_of_le' (Nat.le_of_add_left_le hn)
    rw [reach, node_eq hp]
    rw [ihl (by omega), ihr (by omega)]

theorem tracePath_none (m : Mem) (key : Bytes) (n d : ℕ) :
    tracePath m key n none d = .error .keyNotFound := by
  cases n <;> rfl

/-- A trace reads only the cells of the trie. -/
theorem Rep.tracePath_frame (hr : Rep H m.heap t p cells) (hf : Frame m.heap m'.heap W)
    (hdisj : ∀ q ∈ cells, q ∉ W) (key : Bytes) :
    tracePath m' key n p d = tracePath m key n p d := by
  have hnode : ∀ {q : ℕ} {c : Node}, m.heap[q]? = some c → q ∉ W → m'.node q = c := by
    intro q c hq hW
    rw [hf.node (lt_of_cell hq) hW, node_eq hq]
  induction hr generalizing n d with
  | nil => rw [tracePath_none, tracePath_none]
  | zero hp =>
    cases n with
    | zero => rfl
    | succ n =>
      rw [tracePath, tracePath, hnode hp (hdisj _ (.head _)),
        node_eq hp, Node.zero_child, tracePath_none, tracePath_none]
      rfl
  | single hp =>
    cases n with
    | zero => rfl
    | succ n =>
      rw [tracePath, tracePath, hnode hp (hdisj _ (.head _)),
        node_eq hp, leafNode_child, tracePath_none, tracePath_none]
      rfl
  | @branch p pl pr l r cl cr hp hl hr hnodup ihl ihr =>
    cases n with
    | zero => rfl
    | succ n =>
      have hcl : ∀ q ∈ cl, q ∉ W := fun q hq =>
        hdisj q (.tail _ (mem_append_left _ hq))
      have hcr : ∀ q ∈ cr, q ∉ W := fun q hq =>
        hdisj q (.tail _ (mem_append_right _ hq))
      have hside : ∀ b : Bool, let q := some (if b then pr else pl)
          m'.hashOf q = m.hashOf q ∧ tracePath m' key n q (d + 1) = tracePath m key n q (d + 1) := by
        rintro (_ | _)
        · exact ⟨(hl.frame hf hcl).hashOf.trans hl.hashOf.symm, ihl hcl⟩
        · exact ⟨(hr.frame hf hcr).hashOf.trans hr.hashOf.symm, ihr hcr⟩
      rw [tracePath, tracePath, hnode hp (hdisj _ mem_cons_self),
        node_eq hp, child_branch, child_branch, (hside _).1, (hside _).2]

/-- Frames of one operation after the other. -/
theorem Frame.comp {h h' h'' : List Node} (h₁ : Frame h h' W) (h₂ : Frame h' h'' W') :
    Frame h h'' (W ++ W') :=
  (h₁.mono fun _ hq => .inl (mem_append_left _ hq)).trans h₂
    fun _ hq => .inl (mem_append_right _ hq)

theorem deleteWrites_frame (cf : CollisionFree H P) (va : ValuesApart H P) (deletes : List Key)
    (h : Laid H P m root t cells) :
    Frame m.heap ((deletes.map Key.norm).foldl (flushDelete H) (root, m)).2.heap
      (deleteWrites H deletes (root, m)) := by
  induction deletes generalizing m root t cells with
  | nil => exact .refl _ _
  | cons k deletes ih =>
    obtain ⟨cells', happ, -⟩ := flushDelete_spec cf va h k
    exact happ.frame.comp (ih happ.laid)

theorem insertWrites_frame (cf : CollisionFree H P) (va : ValuesApart H P)
    {inserts : List (Key × Bytes)} (hin : ∀ e ∈ inserts, e ∈ P) (h : Laid H P m root t cells) :
    Frame m.heap ((inserts.map normPair).foldl (flushInsert H) (root, m)).2.heap
      (insertWrites H inserts (root, m)) := by
  induction inserts generalizing m root t cells with
  | nil => exact .refl _ _
  | cons e inserts ih =>
    obtain ⟨cells', happ, -⟩ := flushInsert_spec cf va h (hin e mem_cons_self)
    exact happ.frame.comp (ih (fun e' he' => hin e' (.tail _ he')) happ.laid)

variable {s s' : Session} {a : TrieState} {op : Op}

section

variable (cf : CollisionFree H P) (va : ValuesApart H P) (h : Refines H P s a)
include cf va h

/-- **A call writes only the cells that `writes` gives.** -/
theorem Refines.step_frame
    (hstep : s.step H op = some s') : Frame s.mem.heap s'.mem.heap (s.writes H op) := by
  cases op with
  | insert k v =>
    cases hstep
    exact .refl _ _
  | delete k =>
    cases hstep
    rw [h.delete_eq k]
    split_ifs <;> exact .refl _ _
  | flush deletes inserts =>
    rw [Session.step] at hstep
    split_ifs at hstep with hord
    cases hstep
    obtain ⟨hd, hi⟩ := h.orders_iff.mp hord
    obtain ⟨cells, hlaid⟩ := h.laid
    obtain ⟨cells₁, hlaid₁, -, -⟩ := flushDeletes_spec cf va deletes hlaid
    exact (deleteWrites_frame cf va deletes hlaid).comp
      (insertWrites_frame cf va (fun e he => h.proper.pairs e (hi.mem_iff.mp he)) hlaid₁)

/-- **The session of a trie whose cells are not written** stays what it is, while only
records are put into the store. -/
theorem Refines.frame (hf : Frame s.mem.heap m'.heap W) (hputs : Puts H P s.mem.store m'.store)
    (hW : ∀ q ∈ W, q ∉ reach s.mem s.mem.heap.length s.tree.root) :
    Refines H P ⟨s.tree, m'⟩ a ∧ SameView s ⟨s.tree, m'⟩ := by
  obtain ⟨cells, hlaid⟩ := h.laid
  rw [hlaid.rep.reach_eq hlaid.rep.length_cells_le] at hW
  have hdisj : ∀ q ∈ cells, q ∉ W := fun q hq hqW => hW q hqW hq
  have hlaid' : Laid H P m' s.tree.root a.trie cells := ⟨hlaid.rep.frame hf hdisj, hlaid.canon,
    hlaid.pairs, hputs.saved cf va hlaid.pairs hlaid.saved⟩
  have href : Refines H P ⟨s.tree, m'⟩ a := ⟨⟨cells, hlaid'⟩, h.deletes, h.inserts, h.proper⟩
  refine ⟨href, href.root_eq.trans h.root_eq.symm, fun k => (href.get_eq k).trans (h.get_eq k).symm,
    fun k => ?_⟩
  unfold Session.trace trace
  have hrep := hlaid.rep
  cases hroot : s.tree.root with
  | none => rfl
  | some p =>
    rw [hroot] at hrep
    exact hrep.tracePath_frame hf hdisj k.norm

end

/-- The clone of the top node leads to the same trie. -/
theorem Rep.clone {q : ℕ} (hr : Rep H m.heap t (some q) cells) :
    ∃ cells', Rep H (m.new (m.node q)).2.heap t (m.new (m.node q)).1 cells' := by
  have happend : Frame m.heap (m.new (m.node q)).2.heap [] := Frame.append _ _ _
  have hnew : (m.new (m.node q)).2.heap[m.heap.length]? = some (m.node q) := by simp [new]
  cases hr with
  | zero hp =>
    rw [node_eq hp] at hnew ⊢
    exact ⟨_, .zero hnew⟩
  | single hp =>
    rw [node_eq hp] at hnew ⊢
    exact ⟨_, .single hnew⟩
  | branch hp hl hr hnodup =>
    have hl' := hl.frame happend (by simp)
    have hr' := hr.frame happend (by simp)
    obtain ⟨-, -, hcl, hcr, hdisj⟩ := nodup_cons_append.mp hnodup
    rw [node_eq hp] at hnew hl' hr' ⊢
    refine ⟨_, .branch hnew hl' hr' (nodup_cons_append.mpr ⟨fun hmem => ?_, fun hmem => ?_, hcl,
      hcr, hdisj⟩)⟩
    · exact lt_irrefl _ (hl.lt_length _ hmem)
    · exact lt_irrefl _ (hr.lt_length _ hmem)

variable {s₀ : Session} {w w' w₁ w₂ : World} {x : Side × Op}

theorem Side.eq_or_eq_other (side side' : Side) : side' = side ∨ side' = side.other := by
  cases side <;> cases side' <;> decide

theorem Side.other_ne (side : Side) : side.other ≠ side := by
  cases side <;> decide

/-- Both sides are tries of pairs in `P`. -/
def World.Sound (H : HashFn) (P : List (Key × Bytes)) (w : World) : Prop :=
  ∀ side, ∃ a, Refines H P (w.session side) a

section

variable (cf : CollisionFree H P) (va : ValuesApart H P)
include cf va

/-- After a copy both sides are tries. -/
theorem sound_ofCopy (h : Refines H P s₀ a) : (World.ofCopy s₀).Sound H P := by
  obtain ⟨cells, hlaid⟩ := h.laid
  set c := s₀.tree.copy s₀.mem with hc
  have hmem : Frame s₀.mem.heap c.2.heap [] ∧ c.2.store = s₀.mem.store ∧
      ∃ cells', Rep H c.2.heap a.trie c.1.root cells' := by
    have hrep := hlaid.rep
    rw [hc, MerkleTree.copy]
    cases hroot : s₀.tree.root with
    | none =>
      rw [hroot] at hrep
      exact ⟨.refl _ _, rfl, cells, hrep⟩
    | some p =>
      rw [hroot] at hrep
      exact ⟨Frame.append _ _ _, rfl, hrep.clone⟩
  obtain ⟨hframe, hstore, cells', hrep⟩ := hmem
  have hputs : Puts H P s₀.mem.store c.2.store := hstore ▸ Puts.refl _
  rintro (_ | _)
  · exact ⟨a, (h.frame cf va hframe hputs (by simp)).1⟩
  · have hcopy : Laid H P _ _ a.trie cells' :=
      ⟨hrep, hlaid.canon, hlaid.pairs, hputs.saved cf va hlaid.pairs hlaid.saved⟩
    refine ⟨⟨a.trie, [], []⟩, ?_⟩
    have hstaged : (World.ofCopy s₀).session .copy = ⟨⟨c.1.root, [], []⟩, c.2⟩ := by
      simp only [World.session, World.ofCopy, hc, MerkleTree.copy]
      cases s₀.tree.root <;> rfl
    rw [hstaged]
    exact hcopy.refines

/-- **One call.** When it writes no cell of the other side, both sides stay tries and
the other side shows what it showed. -/
theorem World.apartStep_spec (hw : w.Sound H P)
    (hop : ∀ e ∈ x.2.pair, e ∈ P) (h : w.apartStep H x = some w') :
    w'.Sound H P ∧ SameView (w.session x.1.other) (w'.session x.1.other) := by
  obtain ⟨hapart, hstep⟩ := (World.apartStep_eq_some H).mp h
  obtain ⟨s', hs', rfl⟩ := map_eq_some_iff.mp hstep
  obtain ⟨a, ha⟩ := hw x.1
  obtain ⟨b, hb⟩ := hw x.1.other
  obtain ⟨a', -, ha', hputs, -⟩ := step_refines cf va ha hop hs'
  have hframe : Frame (w.session x.1).mem.heap s'.mem.heap ((w.session x.1).writes H x.2) :=
    ha.step_frame cf va hs'
  obtain ⟨hother, hview⟩ := hb.frame cf va hframe hputs hapart
  have hself : (World.mk s'.mem (Function.update w.tree x.1 s'.tree)).session x.1 = s' := by
    simp [World.session]
  have hoth : (World.mk s'.mem (Function.update w.tree x.1 s'.tree)).session x.1.other =
      ⟨w.tree x.1.other, s'.mem⟩ := by
    simp [World.session, Side.other_ne]
  refine ⟨fun side => ?_, hoth ▸ hview⟩
  rcases Side.eq_or_eq_other x.1 side with rfl | rfl
  · exact ⟨a', hself.symm ▸ ha'⟩
  · exact ⟨b, hoth.symm ▸ hother⟩

/-- **A run.** Both sides stay tries, and while all calls are on one side the other
one shows what it showed. -/
theorem World.apartCalls_spec {steps : List (Side × Op)} (h : w.ApartCalls H steps w')
    (hw : w.Sound H P) (hops : ∀ e ∈ pairs (steps.map Prod.snd), e ∈ P) :
    w'.Sound H P ∧ ∀ side, (∀ x ∈ steps, x.1 = side) →
      SameView (w.session side.other) (w'.session side.other) := by
  refine Run.invariant (P := fun steps w' => (∀ e ∈ pairs (steps.map Prod.snd), e ∈ P) →
    w'.Sound H P ∧ ∀ side, (∀ x ∈ steps, x.1 = side) →
      SameView (w.session side.other) (w'.session side.other)) h ?_ ?_ hops
  · exact fun _ => ⟨hw, fun _ _ => SameView.refl _⟩
  · intro steps w₁ x w₂ ih hstep hops
    rw [map_append, map_singleton, pairs_snoc] at hops
    obtain ⟨hsound, hview⟩ := ih fun e he => hops e (mem_append_left _ he)
    obtain ⟨hsound', hview'⟩ := World.apartStep_spec cf va hsound
      (fun e he => hops e (mem_append_right _ he)) hstep
    refine ⟨hsound', fun side hside => ?_⟩
    obtain rfl := hside x (by simp)
    exact (hview x.1 fun y hy => hside y (mem_append_left _ hy)).trans hview'

end

/-- **A trie and its copy are isolated** as long as no flush writes a cell that the
other side reaches. Take any session, its copy, and calls on both in any order; then
any calls on one side leave the root, every `Get` and every `Trace` of the other side
as they are. -/
theorem copies_isolated {ops₀ : List Op} {steps₁ steps₂ : List (Side × Op)} {side : Side}
    (cf : CollisionFree H (pairs (ops₀ ++ (steps₁ ++ steps₂).map Prod.snd)))
    (va : ValuesApart H (pairs (ops₀ ++ (steps₁ ++ steps₂).map Prod.snd)))
    (h₀ : Session.new.Calls H ops₀ s₀) (h₁ : (World.ofCopy s₀).ApartCalls H steps₁ w₁)
    (h₂ : w₁.ApartCalls H steps₂ w₂) (hside : ∀ x ∈ steps₂, x.1 = side) :
    SameView (w₁.session side.other) (w₂.session side.other) := by
  have hpairs : pairs (ops₀ ++ (steps₁ ++ steps₂).map Prod.snd) =
      pairs ops₀ ++ (pairs (steps₁.map Prod.snd) ++ pairs (steps₂.map Prod.snd)) := by
    rw [pairs_append, map_append, pairs_append]
  obtain ⟨a, -, ha, -, -⟩ := calls_refine cf va h₀
    (fun e he => hpairs ▸ mem_append_left _ he) (refines_new H _)
  obtain ⟨hsound, -⟩ := World.apartCalls_spec cf va h₁ (sound_ofCopy cf va ha)
    fun e he => hpairs ▸ mem_append_right _ (mem_append_left _ he)
  exact (World.apartCalls_spec cf va h₂ hsound
    fun e he => hpairs ▸ mem_append_right _ (mem_append_right _ he)).2 side hside

end

/-- Two keys that start with a one, so that the top node has an empty left side. -/
def rightKeys : List Op :=
  [.insert (keyAt 0x80) [1], .insert (keyAt 0xC0) [2],
    .flush [] [(keyAt 0x80, [1]), (keyAt 0xC0, [2])]]

/-- One key is inserted on one side and flushed. -/
def insertOn (side : Side) (k : Key) (v : Bytes) : List (Side × Op) :=
  [(side, .insert k v), (side, .flush [] [(k, v)])]

theorem copies_isolated_rightKeys : ∃ s₀ w₁ w₂, Session.new.Calls polyHash rightKeys s₀ ∧
      (World.ofCopy s₀).ApartCalls polyHash (insertOn .original (keyAt 0x40) [3]) w₁ ∧
      w₁.ApartCalls polyHash (insertOn .copy (keyAt 0x00) [4]) w₂ ∧
      (w₁.session .copy).root ≠ (w₂.session .copy).root ∧
      SameView (w₁.session .original) (w₂.session .original) := by
  obtain ⟨s₀, hs₀, w₁, hw₁, w₂, hw₂, hne⟩ :
      ∃ s₀, rightKeys.foldlM (Session.step polyHash) .new = some s₀ ∧
      ∃ w₁, (insertOn .original (keyAt 0x40) [3]).foldlM (World.apartStep polyHash)
        (.ofCopy s₀) = some w₁ ∧
      ∃ w₂, (insertOn .copy (keyAt 0x00) [4]).foldlM (World.apartStep polyHash) w₁ = some w₂ ∧
        (w₁.session .copy).root ≠ (w₂.session .copy).root := by decide +kernel
  have h₀ : Session.new.Calls polyHash rightKeys s₀ := run_of_foldlM hs₀
  have h₁ : (World.ofCopy s₀).ApartCalls polyHash (insertOn .original (keyAt 0x40) [3]) w₁ :=
    run_of_foldlM hw₁
  have h₂ : w₁.ApartCalls polyHash (insertOn .copy (keyAt 0x00) [4]) w₂ := run_of_foldlM hw₂
  have hcopy : ∀ x ∈ insertOn .copy (keyAt 0x00) [4], x.1 = .copy := by decide
  exact ⟨s₀, w₁, w₂, h₀, h₁, h₂, hne, copies_isolated (collisionFree_of_check (by decide +kernel))
      (noAlias_of_check (by decide +kernel)).toValuesApart h₀ h₁ h₂ hcopy⟩

/-- **Calls on one side are seen on the other.** The trie has two leaves below its top
node. Whichever side inserts a third key next to one of them and flushes, the other
side finds that key too, although its root stays. -/
theorem insert_on_copy_seen :
    CollisionFree polyHash (pairs (twoKeys ++ [.insert (keyAt 0x40) [3]])) ∧
      NoAlias polyHash (pairs (twoKeys ++ [.insert (keyAt 0x40) [3]])) ∧
      ∃ s₀, Session.new.Calls polyHash twoKeys s₀ ∧ ∀ side : Side,
        ∃ w, Run (fun w x w' => World.step polyHash w x = some w') (.ofCopy s₀)
            (insertOn side (keyAt 0x40) [3]) w ∧
          (w.session side.other).root = ((World.ofCopy s₀).session side.other).root ∧
          ((World.ofCopy s₀).session side.other).get (keyAt 0x40) = .ok none ∧
          (w.session side.other).get (keyAt 0x40) = .ok (some [3]) := by
  refine ⟨collisionFree_of_check (by decide +kernel), noAlias_of_check (by decide +kernel), ?_⟩
  obtain ⟨s₀, hs₀, hsides⟩ : ∃ s₀, twoKeys.foldlM (Session.step polyHash) .new = some s₀ ∧
      ∀ side ∈ [Side.original, .copy],
        ∃ w, (insertOn side (keyAt 0x40) [3]).foldlM (World.step polyHash) (.ofCopy s₀) = some w ∧
          (w.session side.other).root = ((World.ofCopy s₀).session side.other).root ∧
          ((World.ofCopy s₀).session side.other).get (keyAt 0x40) = .ok none ∧
          (w.session side.other).get (keyAt 0x40) = .ok (some [3]) := by decide +kernel
  refine ⟨s₀, run_of_foldlM hs₀, fun side => ?_⟩
  obtain ⟨w, hw, hfacts⟩ := hsides side (by cases side <;> decide)
  exact ⟨w, run_of_foldlM hw, hfacts⟩

end JamDuna.Storage
