/-
# Hash trees in memory

A binary tree of nodes that carry a hash, as a program builds it: the children of a node
are pointers, and a node is found again by its address. `findParent` searches the tree
for the node above a given one, and `climb` goes from a node to the root and collects the
hashes beside the way.

A list of directions from the root (`true` for right) says which node is meant
(`sub`), and `copath` are the hashes beside the way down. When no two nodes have the same
address, a climb collects the copath backwards (`climb_eq`). `foldPath` computes a root
from a hash and a copath, and in a tree whose hashes are combined from those of the
children it computes the root of the tree (`foldPath_copath`).
-/

import Mathlib.Tactic

namespace JamDuna.Basis

open List Option Nat

/-- A tree of nodes with addresses and hashes. -/
inductive HashTree (α : Type) where
  | leaf (id : ℕ) (hash : α)
  | node (id : ℕ) (hash : α) (left right : HashTree α)
  deriving DecidableEq

namespace HashTree

variable {α : Type} {t s l r : HashTree α} {ds : List Bool} {b : Bool}

/-- The address of a node. -/
def id : HashTree α → ℕ
  | leaf id _ => id
  | node id _ _ _ => id

/-- The hash of a node. -/
def hash : HashTree α → α
  | leaf _ h => h
  | node _ h _ _ => h

/-- The addresses of all nodes. -/
def addresses : HashTree α → List ℕ
  | leaf id _ => [id]
  | node id _ l r => id :: (l.addresses ++ r.addresses)

theorem id_mem_addresses (t : HashTree α) : t.id ∈ t.addresses := by
  cases t <;> simp [id, addresses]

/-- The node whose child has the address, by a search from the left. The children of a
leaf are `nil`. -/
def findParent : HashTree α → Option ℕ → Option (HashTree α)
  | leaf id h, p => if some id = p then none else if none = p then some (leaf id h) else none
  | node id h l r, p =>
    if some id = p then none
    else if some l.id = p ∨ some r.id = p then some (node id h l r)
    else
      match l.findParent p with
      | some parent => some parent
      | none => r.findParent p

/-- The other child of a node. -/
def findSibling : Option (HashTree α) → Option ℕ → Option (HashTree α)
  | some (node _ _ l r), p => if some l.id = p then some r else some l
  | _, _ => none

/-- From a node to the root, for at most `n` steps: the hashes beside the way, `zero` where
there is no node. With `stop` the climb ends at a node without a parent. -/
def climb (root : HashTree α) (zero : α) (stop : Bool) : ℕ → Option (HashTree α) → List α → List α
  | 0, _, path => path
  | n + 1, current, path =>
    let p := current.map id
    if p = some root.id then path
    else
      let parent := root.findParent p
      if stop && parent.isNone then path
      else climb root zero stop n parent (path ++ [((findSibling parent p).map hash).getD zero])

/-- The child on a side. -/
def side (b : Bool) (l r : HashTree α) : HashTree α := if b then r else l

/-- The node that directions from the root lead to. -/
def sub : List Bool → HashTree α → Option (HashTree α)
  | [], t => some t
  | b :: ds, node _ _ l r => if b then r.sub ds else l.sub ds
  | _ :: _, leaf _ _ => none

/-- The hashes beside the way, from the root on. -/
def copath : List Bool → HashTree α → List α
  | [], _ => []
  | b :: ds, node _ _ l r => if b then l.hash :: r.copath ds else r.hash :: l.copath ds
  | _ :: _, leaf _ _ => []

theorem sub_cons_node (b : Bool) (ds : List Bool) (id : ℕ) (h : α) (l r : HashTree α) :
    (node id h l r).sub (b :: ds) = (side b l r).sub ds := by
  cases b <;> rfl

/-- Induction along the way to a node. -/
theorem sub_induction {motive : (t : HashTree α) → (ds : List Bool) → t.sub ds = some s → Prop}
    (nil : motive s [] rfl)
    (cons : ∀ id hash l r b ds h, motive (side b l r) ds h →
      motive (node id hash l r) (b :: ds) ((sub_cons_node b ds id hash l r).trans h))
    (h : t.sub ds = some s) : motive t ds h := by
  induction ds generalizing t with
  | nil =>
    cases h
    exact nil
  | cons b ds ih =>
    cases t with
    | leaf id hash => cases h
    | node id hash l r => exact cons id hash l r b ds _ (ih ((sub_cons_node b ..).symm.trans h))

theorem copath_cons_node (b : Bool) (ds : List Bool) (id : ℕ) (h : α) (l r : HashTree α) :
    (node id h l r).copath (b :: ds) = (side (!b) l r).hash :: (side b l r).copath ds := by
  cases b <;> rfl

/-- The last direction is taken at a node that the other ones lead to. -/
theorem sub_concat (h : t.sub (ds ++ [b]) = some s) :
    ∃ id hash l r, t.sub ds = some (node id hash l r) ∧ s = side b l r ∧
      t.copath (ds ++ [b]) = t.copath ds ++ [(side (!b) l r).hash] := by
  induction ds generalizing t with
  | nil =>
    cases t with
    | leaf id hash => cases h
    | node id hash l r =>
      rw [nil_append, sub_cons_node] at h
      exact ⟨id, hash, l, r, rfl, (some.inj h).symm, copath_cons_node ..⟩
  | cons c ds ih =>
    cases t with
    | leaf id hash => cases h
    | node id hash l r =>
      rw [cons_append, sub_cons_node] at h
      obtain ⟨id', hash', l', r', hsub, hs, hpath⟩ := ih h
      refine ⟨id', hash', l', r', ?_, hs, ?_⟩
      · rw [sub_cons_node, hsub]
      · rw [cons_append, copath_cons_node, copath_cons_node, hpath, cons_append]

theorem sub_append (ds es : List Bool) (t : HashTree α) :
    t.sub (ds ++ es) = (t.sub ds).bind (sub es) := by
  induction ds generalizing t with
  | nil => rfl
  | cons b ds ih =>
    cases t with
    | leaf id hash => rfl
    | node id hash l r => rw [cons_append, sub_cons_node, sub_cons_node, ih]

theorem copath_append (h : t.sub ds = some s) (es : List Bool) :
    t.copath (ds ++ es) = t.copath ds ++ s.copath es := by
  induction h using sub_induction with
  | nil => rfl
  | cons id hash l r b ds h ih =>
    rw [cons_append, copath_cons_node, copath_cons_node, ih, cons_append]

theorem addresses_side_subset (b : Bool) (l r : HashTree α) :
    ∀ p ∈ (side b l r).addresses, p ∈ l.addresses ++ r.addresses := by
  intro p hp
  cases b
  · exact mem_append_left _ hp
  · exact mem_append_right _ hp

/-- The nodes below a node are nodes of the tree. -/
theorem id_mem_of_sub (h : t.sub ds = some s) : s.id ∈ t.addresses := by
  induction h using sub_induction with
  | nil => exact id_mem_addresses s
  | cons id hash l r b ds h ih => exact .tail _ (addresses_side_subset b l r _ ih)

variable {id : ℕ}

theorem nodup_node {h : α} :
    (node id h l r).addresses.Nodup ↔ id ∉ l.addresses ∧ id ∉ r.addresses ∧ l.addresses.Nodup ∧
      r.addresses.Nodup ∧ ∀ p ∈ l.addresses, p ∉ r.addresses := by
  rw [addresses, nodup_cons, mem_append, not_or, nodup_append', and_assoc]
  rfl

theorem nodup_side (hn : (node id h l r).addresses.Nodup) (b : Bool) :
    (side b l r).addresses.Nodup := by
  obtain ⟨-, -, hl, hr, -⟩ := nodup_node.mp hn
  cases b
  · exact hl
  · exact hr

/-- A proper part of a tree is at another address. -/
theorem id_ne_of_sub (hn : t.addresses.Nodup) (h : t.sub (b :: ds) = some s) : s.id ≠ t.id := by
  cases t with
  | leaf id hash => cases h
  | node id hash l r =>
    rw [sub_cons_node] at h
    rintro heq
    have hmem := addresses_side_subset b l r _ (id_mem_of_sub h)
    rw [addresses, nodup_cons] at hn
    rw [heq] at hmem
    exact hn.1 hmem

/-- The search finds nothing above a node of another tree. -/
theorem findParent_eq_none {p : ℕ} (hp : p ∉ t.addresses) : t.findParent (some p) = none := by
  induction t with
  | leaf id hash =>
    have hne : id ≠ p := fun h => hp (by simp [addresses, h])
    simp [findParent, hne]
  | node id hash l r ihl ihr =>
    rw [addresses, mem_cons, mem_append, not_or, not_or] at hp
    obtain ⟨hid, hl, hr⟩ := hp
    have hlid : l.id ≠ p := fun h => hl (h ▸ l.id_mem_addresses)
    have hrid : r.id ≠ p := fun h => hr (h ▸ r.id_mem_addresses)
    simp [findParent, Ne.symm hid, hlid, hrid, ihl hl, ihr hr]

/-- **The search finds the node above.** -/
theorem findParent_eq (hn : t.addresses.Nodup) (h : t.sub (ds ++ [b]) = some s) :
    t.findParent (some s.id) = t.sub ds := by
  induction ds generalizing t with
  | nil =>
    cases t with
    | leaf id hash => cases h
    | node id hash l r =>
      have hid : id ≠ s.id := (id_ne_of_sub hn h).symm
      rw [nil_append, sub_cons_node] at h
      cases h
      have hchild : some l.id = some (side b l r).id ∨ some r.id = some (side b l r).id := by
        cases b
        · exact .inl rfl
        · exact .inr rfl
      rw [findParent, if_neg (by simpa using hid), if_pos hchild, sub]
  | cons c ds ih =>
    cases t with
    | leaf id hash => cases h
    | node id hash l r =>
      have hid : id ≠ s.id := (id_ne_of_sub hn h).symm
      rw [cons_append, sub_cons_node] at h
      have ih := ih (nodup_side hn c) h
      obtain ⟨id', hash', l', r', hsub, -, -⟩ := sub_concat h
      obtain ⟨-, -, hl, hr, hdisj⟩ := nodup_node.mp hn
      rw [sub_cons_node, findParent, if_neg (by simpa using hid)]
      have hdown : ∃ d ds', ds ++ [b] = d :: ds' := by cases ds <;> exact ⟨_, _, rfl⟩
      obtain ⟨d, ds', hcons⟩ := hdown
      cases c with
      | false =>
        have hmem : s.id ∈ l.addresses := id_mem_of_sub h
        have hlid : l.id ≠ s.id := (id_ne_of_sub hl (hcons ▸ h)).symm
        have hrid : r.id ≠ s.id := fun heq => hdisj _ hmem (heq ▸ r.id_mem_addresses)
        rw [if_neg (by simp [hlid, hrid])]
        have hfound : l.findParent (some s.id) = some (node id' hash' l' r') := ih.trans hsub
        rw [hfound]
        exact hsub.symm
      | true =>
        have hmem : s.id ∈ r.addresses := id_mem_of_sub h
        have hrid : r.id ≠ s.id := (id_ne_of_sub hr (hcons ▸ h)).symm
        have hlid : l.id ≠ s.id := fun heq => hdisj _ (heq ▸ l.id_mem_addresses) hmem
        rw [if_neg (by simp [hlid, hrid]), findParent_eq_none fun hin => hdisj _ hin hmem]
        exact ih

/-- The other child of the node above. -/
theorem findSibling_side {hash : α} (hn : (node id hash l r).addresses.Nodup)
    (b : Bool) : findSibling (some (node id hash l r)) (some (side b l r).id) =
      some (side (!b) l r) := by
  cases b with
  | false => simp [findSibling, side]
  | true =>
    obtain ⟨-, -, -, -, hdisj⟩ := nodup_node.mp hn
    have hne : l.id ≠ r.id := fun heq =>
      hdisj _ l.id_mem_addresses (heq ▸ r.id_mem_addresses)
    simp [findSibling, side, hne]

theorem nodup_of_sub (hn : t.addresses.Nodup) (h : t.sub ds = some s) : s.addresses.Nodup := by
  induction h using sub_induction with
  | nil => exact hn
  | cons id hash l r b ds h ih => exact ih (nodup_side hn b)

/-- **A climb collects the copath**, from the node up. -/
theorem climb_eq (hn : t.addresses.Nodup) (zero : α) (stop : Bool) {n : ℕ}
    (h : t.sub ds = some s) (hlen : ds.length < n) (path : List α) :
    climb t zero stop n (some s) path = path ++ (t.copath ds).reverse := by
  induction ds using reverseRecOn generalizing s n path with
  | nil =>
    obtain ⟨n, rfl⟩ := exists_eq_add_one_of_ne_zero (ne_zero_of_lt hlen)
    cases h
    simp [climb, copath]
  | append_singleton ds b ih =>
    obtain ⟨n, rfl⟩ := exists_eq_add_one_of_ne_zero (ne_zero_of_lt hlen)
    obtain ⟨id, hash, l, r, hsub, rfl, hpath⟩ := sub_concat h
    have hne : (side b l r).id ≠ t.id := by
      have hcons : ∃ c ds', ds ++ [b] = c :: ds' := by cases ds <;> exact ⟨_, _, rfl⟩
      obtain ⟨c, ds', hcons⟩ := hcons
      exact id_ne_of_sub hn (hcons ▸ h)
    have hparent := (findParent_eq hn h).trans hsub
    have hsibling := findSibling_side (nodup_of_sub hn hsub) b
    rw [length_append, length_singleton] at hlen
    rw [climb]
    simp only [map_some, some.injEq, hne, if_false, hparent, isNone_some,
      Bool.and_false, Bool.false_eq_true, hsibling, getD_some]
    rw [ih hsub (by omega), hpath, reverse_append, reverse_singleton]
    simp

section

/-- The root computed from a hash and the hashes beside the way down to it. -/
def foldPath (combine : α → α → α) (x : α) : List Bool → List α → α
  | b :: ds, y :: path =>
    if b then combine y (foldPath combine x ds path) else combine (foldPath combine x ds path) y
  | _, _ => x

/-- A loop over the directions from the last one up computes the root. -/
theorem foldl_zip_reverse {combine : α → α → α} {f : α → Bool × α → α}
    (hf : ∀ x b y, f x (b, y) = if b then combine y x else combine x y) (x : α) {ds : List Bool}
    {path : List α} (hlen : ds.length = path.length) :
    (ds.reverse.zip path.reverse).foldl f x = foldPath combine x ds path := by
  induction ds generalizing path with
  | nil => rfl
  | cons b ds ih =>
    obtain ⟨y, path, rfl⟩ := exists_cons_of_length_eq_add_one hlen.symm
    have htail : ds.length = path.length := succ.inj hlen
    rw [reverse_cons, reverse_cons, zip_append (by simp [htail]), foldl_append, ih htail, foldPath]
    exact hf _ b y

/-- Directions without a hash beside them are not followed. -/
theorem foldPath_take (combine : α → α → α) (x : α) (ds : List Bool) (path : List α) :
    foldPath combine x (ds.take path.length) path = foldPath combine x ds path := by
  induction ds generalizing path with
  | nil => rw [take_nil]
  | cons b ds ih =>
    cases path with
    | nil => rfl
    | cons y path => rw [length_cons, take_succ_cons, foldPath, foldPath, ih]

/-- The hash of every node is combined from those of its children. -/
def Hashed (combine : α → α → α) : HashTree α → Prop
  | leaf _ _ => True
  | node _ h l r => h = combine l.hash r.hash ∧ l.Hashed combine ∧ r.Hashed combine

variable {combine : α → α → α}

theorem hashed_side {id : ℕ} {h : α} (ht : (node id h l r).Hashed combine) (b : Bool) :
    (side b l r).Hashed combine := by
  cases b
  · exact ht.2.1
  · exact ht.2.2

/-- The nodes below are hashed as the whole tree is. -/
theorem Hashed.of_sub (ht : t.Hashed combine) (h : t.sub ds = some s) : s.Hashed combine := by
  induction h using sub_induction with
  | nil => exact ht
  | cons id hash l r b ds h ih => exact ih (hashed_side ht b)

/-- **The copath leads to the root.** -/
theorem foldPath_copath (ht : t.Hashed combine) (h : t.sub ds = some s) :
    foldPath combine s.hash ds (t.copath ds) = t.hash := by
  induction h using sub_induction with
  | nil => rfl
  | cons id hash l r b ds h ih =>
    rw [copath_cons_node, foldPath, ih (hashed_side ht b)]
    cases b <;> exact ht.1.symm

/-- The last direction is the first step of the computation. -/
theorem foldPath_concat (x y : α) (b : Bool) {ds : List Bool} {path : List α}
    (hlen : ds.length = path.length) :
    foldPath combine x (ds ++ [b]) (path ++ [y]) =
      foldPath combine (if b then combine y x else combine x y) ds path := by
  induction ds generalizing path with
  | nil =>
    obtain rfl : path = [] := length_eq_zero_iff.mp hlen.symm
    rfl
  | cons c ds ih =>
    obtain ⟨z, path, rfl⟩ := exists_cons_of_length_eq_add_one hlen.symm
    rw [cons_append, cons_append, foldPath, foldPath, ih (succ.inj hlen)]

theorem length_copath (h : t.sub ds = some s) : (t.copath ds).length = ds.length := by
  induction h using sub_induction with
  | nil => rfl
  | cons id hash l r b ds h ih => rw [copath_cons_node, length_cons, ih, length_cons]

end

/-- Leaves with the given hashes, at their indices. -/
def leavesOf (hashes : List α) : List (HashTree α) := hashes.zipIdx.map fun h => leaf h.2 h.1

@[simp] theorem length_leavesOf (hashes : List α) : (leavesOf hashes).length = hashes.length := by
  simp [leavesOf]

theorem getElem?_leavesOf (hashes : List α) (i : ℕ) :
    (leavesOf hashes)[i]? = hashes[i]?.map (leaf i) := by
  rw [leavesOf, List.getElem?_map, List.getElem?_zipIdx, Option.map_map, zero_add]
  rfl

theorem exists_of_mem_leavesOf {hashes : List α} {x : HashTree α} (h : x ∈ leavesOf hashes) :
    ∃ i, ∃ a ∈ hashes, x = leaf i a := by
  obtain ⟨y, hy, rfl⟩ := mem_map.mp h
  exact ⟨y.2, y.1, fst_mem_of_mem_zipIdx hy, rfl⟩

/-- The leaves are at different addresses. -/
theorem addresses_leavesOf (hashes : List α) :
    (leavesOf hashes).flatMap addresses = range hashes.length := by
  have hzip : ∀ n, ((hashes.zipIdx n).map fun h => leaf h.2 h.1).flatMap addresses =
      range' n hashes.length := by
    induction hashes with
    | nil => exact fun _ => rfl
    | cons h hashes ih =>
      intro n
      rw [zipIdx_cons, map_cons, flatMap_cons, ih, length_cons, range'_succ]
      rfl
  rw [leavesOf, hzip, range_eq_range']

end HashTree

end JamDuna.Basis
