/-
# Pages of the state

`storage/bmt_storage.go`: `GetAllKeyValues`, the page iterator and
`GetAllKeyValuesPaged`, which concatenates its pages. The loop of the last one is not
bounded by anything, so the model takes the number of pages it may ask for.

A page after the first starts at the key after the last one of the page before. When
this key is in the trie the page is that pair; otherwise it starts again at the first
pair of the trie (`Storage.StateRange`). So the loop comes to an end only by running
through stored keys up to the last key of all (`pagesYield_of_full`), and at a key that
is missing it comes back to the first pair (`PagesYield.head_mem`). `pagesYield_iff` says
for which lists of pairs the pages are the list.
-/

import JamDuna.Storage.StateRange

namespace JamDuna.Storage

open JamDuna.Basis List Option

section

/-- The first key. -/
def firstKey : Key := ⟨replicate 31 0, length_replicate⟩

/-- The last key. -/
def lastKey : Key := ⟨replicate 31 0xff, length_replicate⟩

variable (m : Mem) (root : Option ℕ)

/-- `GetAllKeyValues`. -/
def getAllKeyValues : List (Bytes × Bytes) :=
  getStateByRange m root firstKey.bytes lastKey.bytes 0xffffffff

/-- `StatePageIterator`: the size of a page and the key it starts at, or that the iteration
is done. -/
structure StatePageIterator where
  pageSize : UInt32
  nextKey : Bytes
  done : Bool
  deriving DecidableEq

/-- `GetStatePageIterator`. -/
def getStatePageIterator (pageSize : UInt32) : StatePageIterator :=
  ⟨if pageSize = 0 then 1024 else pageSize, firstKey.bytes, false⟩

/-- `Next`: the page, unless the iteration is done, and the iterator after it. -/
def StatePageIterator.next (it : StatePageIterator) :
    Option (List (Bytes × Bytes)) × StatePageIterator :=
  if it.done then (none, it)
  else
    let stateKVs := getStateByRange m root it.nextKey lastKey.bytes it.pageSize
    match stateKVs.getLast? with
    | none => (none, { it with done := true })
    | some kv =>
      match incrementKey kv.1 with
      | some next => (some stateKVs, { it with nextKey := next })
      | none => (some stateKVs, { it with done := true })

/-- The loop of `GetAllKeyValuesPaged`, for at most `n` calls of `Next`. -/
def collectPages : ℕ → StatePageIterator → List (Bytes × Bytes) → Option (List (Bytes × Bytes))
  | 0, _, _ => none
  | n + 1, it, all =>
    match it.next m root with
    | (none, _) => some all
    | (some page, it) => collectPages n it (all ++ page)

/-- `GetAllKeyValuesPaged`. -/
def getAllKeyValuesPaged (pageSize : UInt32) (n : ℕ) : Option (List (Bytes × Bytes)) :=
  collectPages m root n (getStatePageIterator pageSize) []

end

section

/-- The pages from a key on come to an end, and are the pairs of the list in order. -/
inductive PagesYield (L : List (Key × Bytes)) (size : UInt32) : Key → List (Key × Bytes) → Prop
  | empty {k : Key} (h : rangeOf L k size = []) : PagesYield L size k []
  | last {k : Key} {e : Key × Bytes} (h : (rangeOf L k size).getLast? = some e)
      (hend : e.1.num + 1 = 2 ^ 248) : PagesYield L size k (rangeOf L k size)
  | next {k k' : Key} {e : Key × Bytes} {r : List (Key × Bytes)}
      (h : (rangeOf L k size).getLast? = some e) (hk : k'.num = e.1.num + 1)
      (hr : PagesYield L size k' r) : PagesYield L size k (rangeOf L k size ++ r)

variable {m : Mem} {root : Option ℕ} {L : List (Key × Bytes)} {size : UInt32} {k : Key}

/-- The iterator before the page of a key. -/
def iteratorAt (size : UInt32) (k : Key) : StatePageIterator := ⟨size, k.bytes, false⟩

/-- A call of `Next` for a page that is not empty. -/
theorem next_of_last {e : Key × Bytes}
    (hrange : getStateByRange m root k.bytes lastKey.bytes size = (rangeOf L k size).map plain)
    (hlast : (rangeOf L k size).getLast? = some e) :
    (e.1.num + 1 = 2 ^ 248 ∧ ∃ it : StatePageIterator, it.done = true ∧
        (iteratorAt size k).next m root = (some ((rangeOf L k size).map plain), it)) ∨
      ∃ k' : Key, k'.num = e.1.num + 1 ∧ (iteratorAt size k).next m root =
        (some ((rangeOf L k size).map plain), iteratorAt size k') := by
  simp only [StatePageIterator.next, iteratorAt, hrange, getLast?_map, hlast, Bool.false_eq_true,
    if_false]
  rcases e.1.increment with ⟨k', hinc, hnum⟩ | ⟨hinc, hnum⟩
  · exact .inr ⟨k', hnum, by simp [plain, hinc]⟩
  · exact .inl ⟨hnum, ⟨size, k.bytes, true⟩, rfl, by simp [plain, hinc]⟩

/-- An iteration that is done returns what it has. -/
theorem collectPages_done {it : StatePageIterator} (h : it.done = true) (n : ℕ)
    (all : List (Bytes × Bytes)) : collectPages m root (n + 1) it all = some all := by
  simp [collectPages, StatePageIterator.next, h]

variable (hrange : ∀ k : Key,
  getStateByRange m root k.bytes lastKey.bytes size = (rangeOf L k size).map plain)

include hrange

/-- The loop that comes to an end has collected the pages. -/
theorem pagesYield_of_collectPages {n : ℕ} {all x : List (Bytes × Bytes)}
    (h : collectPages m root n (iteratorAt size k) all = some x) :
    ∃ r, PagesYield L size k r ∧ x = all ++ r.map plain := by
  induction n generalizing k all with
  | zero => cases h
  | succ n ih =>
    cases hlast : (rangeOf L k size).getLast? with
    | none =>
      have hpage := getLast?_eq_none_iff.mp hlast
      refine ⟨[], .empty hpage, ?_⟩
      simpa [collectPages, StatePageIterator.next, iteratorAt, hrange, hpage, eq_comm] using h
    | some e =>
      rw [collectPages] at h
      rcases next_of_last (hrange k) hlast with ⟨hend, it, hdone, hnext⟩ | ⟨k', hk', hnext⟩
      all_goals rw [hnext] at h
      · refine ⟨_, .last hlast hend, ?_⟩
        cases n with
        | zero => cases h
        | succ n => exact (some.inj ((collectPages_done hdone n _).symm.trans h)).symm
      · obtain ⟨r, hr, rfl⟩ := ih h
        exact ⟨_, .next hlast hk' hr, by simp⟩

/-- Pages that come to an end are collected in finitely many calls. -/
theorem PagesYield.collectPages_eq {r : List (Key × Bytes)} (h : PagesYield L size k r) :
    ∃ n, ∀ all, collectPages m root n (iteratorAt size k) all = some (all ++ r.map plain) := by
  induction h with
  | @empty k hpage =>
    refine ⟨1, fun all => ?_⟩
    simp [collectPages, StatePageIterator.next, iteratorAt, hrange, hpage]
  | @last k e hlast hend =>
    rcases next_of_last (hrange k) hlast with ⟨-, it, hdone, hnext⟩ | ⟨k', hk', -⟩
    · refine ⟨2, fun all => ?_⟩
      rw [collectPages, hnext]
      exact collectPages_done hdone 0 _
    · have := k'.num_lt
      omega
  | @next k k' e r hlast hk' _ ih =>
    obtain ⟨n, hn⟩ := ih
    rcases next_of_last (hrange k) hlast with ⟨hend, -⟩ | ⟨k'', hk'', hnext⟩
    · have := k'.num_lt
      omega
    · obtain rfl : k'' = k' := Key.num_inj (hk''.trans hk'.symm)
      refine ⟨n + 1, fun all => ?_⟩
      rw [collectPages, hnext]
      simpa using hn (all ++ (rangeOf L k size).map plain)

end

/-- The key is in the list. -/
def Stored (L : List (Key × Bytes)) (k : Key) : Prop := ∃ v, (k, v) ∈ L

variable {L : List (Key × Bytes)} {size : UInt32} {k g : Key} {e : Key × Bytes}

theorem ne_of_not_stored (hk : ¬ Stored L k) : ∀ e ∈ L, e.1 ≠ k := by
  rintro ⟨k', v⟩ he rfl
  exact hk ⟨v, he⟩

section

variable (hL : Ascending L)
include hL

/-- A page of a trie that is not empty has a pair: the key itself, or the first pair. -/
theorem rangeOf_cases (hsize : size ≠ 0) (hne : L ≠ []) (k : Key) :
    (∃ v, (k, v) ∈ L ∧ rangeOf L k size = [(k, v)]) ∨
      ¬ Stored L k ∧ ∃ P, rangeOf L k size = L.head hne :: P := by
  by_cases hk : Stored L k
  · obtain ⟨v, hv⟩ := hk
    exact .inl ⟨v, hv, rangeOf_of_mem hL hv⟩
  · refine .inr ⟨hk, ?_⟩
    rw [rangeOf_of_not_mem (ne_of_not_stored hk)]
    obtain ⟨e, L, rfl⟩ := exists_cons_of_ne_nil hne
    exact collect_zero_cons hsize e

/-- The first page is the beginning of the list. -/
theorem firstPage_isPrefix (size : UInt32) : rangeOf L firstKey size <+: L := by
  by_cases hk : Stored L firstKey
  · obtain ⟨v, hv⟩ := hk
    rw [rangeOf_of_mem hL hv]
    obtain ⟨A, B, rfl⟩ := append_of_mem hv
    cases A with
    | nil => exact cons_prefix_cons.mpr ⟨rfl, nil_prefix⟩
    | cons a A =>
      have hlt : a.1.num < firstKey.num := (pairwise_cons.mp hL).1 (firstKey, v) (by simp)
      have hzero : firstKey.num = 0 := ofBE_replicate_zero 31
      omega
  · rw [rangeOf_of_not_mem (ne_of_not_stored hk)]
    exact collect_isPrefix 0

/-- The pairs from a stored key on are this pair and those from the next number on. -/
theorem filter_from_stored {v : Bytes} (hv : (k, v) ∈ L) :
    (L.filter fun e => k.num ≤ e.1.num) = (k, v) :: L.filter fun e => k.num + 1 ≤ e.1.num := by
  obtain ⟨A, B, rfl⟩ := append_of_mem hv
  obtain ⟨-, hB, hAB⟩ := pairwise_append.mp hL
  have hbefore : ∀ e ∈ A, e.1.num < k.num := fun e he => hAB e he _ (mem_cons_self ..)
  have hafter : ∀ e ∈ B, k.num < e.1.num := (pairwise_cons.mp hB).1
  have hA : ∀ n, k.num ≤ n → (A.filter fun e => n ≤ e.1.num) = [] := fun n hn =>
    filter_eq_nil_iff.mpr fun e he => by
      have := hbefore e he
      simp only [decide_eq_true_eq]
      omega
  have hB : ∀ n, n ≤ k.num + 1 → (B.filter fun e => n ≤ e.1.num) = B := fun n hn =>
    filter_eq_self.mpr fun e he => by
      have := hafter e he
      simp only [decide_eq_true_eq]
      omega
  rw [filter_append, filter_append, hA _ (le_refl _), hA _ (Nat.le_succ _),
    filter_cons_of_pos (by simp), filter_cons_of_neg (by simp), hB _ (le_refl _),
    hB _ (Nat.le_succ _), nil_append, nil_append]

/-- **When every key from `k` on is stored, the pages from `k` on are these pairs.** -/
theorem pagesYield_of_full (hfull : ∀ k' : Key, k.num ≤ k'.num → Stored L k') :
    PagesYield L size k (L.filter fun e => k.num ≤ e.1.num) := by
  -- The number of keys from `k` on decreases with every page.
  induction hn : 2 ^ 248 - k.num using Nat.strong_induction_on generalizing k with
  | _ n ih =>
    obtain ⟨v, hv⟩ := hfull k (le_refl _)
    have hpage : rangeOf L k size = [(k, v)] := rangeOf_of_mem hL hv
    have hlast : (rangeOf L k size).getLast? = some (k, v) := by rw [hpage]; rfl
    rw [filter_from_stored hL hv]
    rcases k.increment with ⟨k', -, hk'⟩ | ⟨-, hend⟩
    · have hlt := k'.num_lt
      have hrest := ih (2 ^ 248 - k'.num) (by omega) (fun k'' hk'' => hfull k'' (by omega)) rfl
      have hstep := PagesYield.next hlast hk' hrest
      rwa [hpage, hk'] at hstep
    · have hnone : (L.filter fun e => k.num + 1 ≤ e.1.num) = [] :=
        filter_eq_nil_iff.mpr fun e _ => by
          have := e.1.num_lt
          simp only [decide_eq_true_eq]
          omega
      have hstep := PagesYield.last hlast hend
      rwa [hpage, ← hnone] at hstep

/-- **When a key from `k` on is missing, the pages from `k` on come back to the first
pair.** -/
theorem PagesYield.head_mem (hsize : size ≠ 0) (hne : L ≠ []) {r : List (Key × Bytes)}
    (h : PagesYield L size k r) (hkg : k.num ≤ g.num) (hg : ¬ Stored L g) : L.head hne ∈ r := by
  -- A missing key above a stored one is above the next key too.
  have hnext : ∀ {k : Key} {v : Bytes}, (k, v) ∈ L → k.num ≤ g.num → k.num + 1 ≤ g.num := by
    intro k v hv hle
    have hkey : k.num ≠ g.num := fun heq => hg (Key.num_inj heq ▸ ⟨v, hv⟩)
    omega
  induction h with
  | @empty k hpage =>
    rcases rangeOf_cases hL hsize hne k with ⟨v, -, hone⟩ | ⟨-, P, hpre⟩
    · rw [hpage] at hone
      cases hone
    · rw [hpage] at hpre
      cases hpre
  | @last k e hlast hend =>
    rcases rangeOf_cases hL hsize hne k with ⟨v, hv, hone⟩ | ⟨-, P, hpre⟩
    · rw [hone] at hlast
      obtain rfl : (k, v) = e := some.inj hlast
      have hle := hnext hv hkg
      have hlt := g.num_lt
      have hend' : k.num + 1 = 2 ^ 248 := hend
      omega
    · rw [hpre]
      exact mem_cons_self ..
  | @next k k' e r hlast hk' _ ih =>
    rcases rangeOf_cases hL hsize hne k with ⟨v, hv, hone⟩ | ⟨-, P, hpre⟩
    · rw [hone] at hlast
      obtain rfl : (k, v) = e := some.inj hlast
      have hle : k'.num ≤ g.num := hk'.trans_le (hnext hv hkg)
      exact mem_append_right _ (ih hle)
    · rw [hpre]
      exact mem_append_left _ (mem_cons_self ..)

/-- The first pair of the list is in the first page. -/
theorem head_mem_firstPage (hsize : size ≠ 0) (hne : L ≠ []) :
    L.head hne ∈ rangeOf L firstKey size := by
  have hpage : rangeOf L firstKey size ≠ [] := by
    rcases rangeOf_cases hL hsize hne firstKey with ⟨v, -, hone⟩ | ⟨-, P, hpre⟩
    · simp [hone]
    · simp [hpre]
  rw [← (firstPage_isPrefix hL size).head hpage]
  exact head_mem hpage

/-- The pairs after a page are those with larger keys than its last one. -/
theorem filter_after_page {P R : List (Key × Bytes)} (hPR : P ++ R = L)
    (hlast : P.getLast? = some e) : (L.filter fun e' => e.1.num + 1 ≤ e'.1.num) = R := by
  obtain ⟨Q, rfl⟩ := getLast?_eq_some_iff.mp hlast
  subst hPR
  obtain ⟨hQ, -, hcross⟩ := pairwise_append.mp hL
  have hle : ∀ e' ∈ Q ++ [e], e'.1.num ≤ e.1.num := by
    intro e' he'
    rcases mem_append.mp he' with hmem | hmem
    · exact ((pairwise_append.mp hQ).2.2 e' hmem e (.head _)).le
    · rw [mem_singleton.mp hmem]
  rw [filter_append, filter_eq_nil_iff.mpr, filter_eq_self.mpr, nil_append]
  · intro e' he'
    have hlt : e.1.num < e'.1.num := hcross e (by simp) e' he'
    simp only [decide_eq_true_eq]
    omega
  · intro e' he'
    have := hle e' he'
    simp only [decide_eq_true_eq]
    omega

/-- **The pages are the list** exactly when every key after the first page is stored. -/
theorem pagesYield_iff (hsize : size ≠ 0) :
    PagesYield L size firstKey L ↔ ∀ e ∈ (rangeOf L firstKey size).getLast?,
      ∀ k : Key, e.1.num < k.num → Stored L k := by
  obtain ⟨R, hR⟩ := firstPage_isPrefix hL size
  constructor
  · intro h e he g hg
    by_contra hmiss
    have hne : L ≠ [] := by
      rintro rfl
      cases he
    have hfirst := head_mem_firstPage hL hsize hne
    -- The first pair would stand in the first page and in a later one.
    have hdup : ∀ {r}, L = rangeOf L firstKey size ++ r → L.head hne ∉ r := by
      intro r hr hmem
      have hnodup := hL.nodup_keys
      rw [hr, map_append, nodup_append'] at hnodup
      exact hnodup.2.2 (mem_map_of_mem hfirst) (mem_map_of_mem hmem)
    suffices hend : ∀ r, PagesYield L size firstKey r → L ≠ r from hend L h rfl
    intro r hyield hr
    cases hyield with
    | empty hpage => exact not_mem_nil (hpage ▸ hfirst)
    | last hlast hend =>
      obtain rfl := some.inj (he.symm.trans hlast)
      have := g.num_lt
      omega
    | next hlast hk' hrest =>
      obtain rfl := some.inj (he.symm.trans hlast)
      exact hdup hr (hrest.head_mem hL hsize hne (by omega) hmiss)
  · intro hfull
    cases hlast : (rangeOf L firstKey size).getLast? with
    | none =>
      have hpage := getLast?_eq_none_iff.mp hlast
      obtain rfl : L = [] := by
        by_contra hne
        exact not_mem_nil (hpage ▸ head_mem_firstPage hL hsize hne)
      exact .empty hpage
    | some e =>
      have hrest := filter_after_page hL hR hlast
      rcases e.1.increment with ⟨k', -, hk'⟩ | ⟨-, hend⟩
      · have hyield : PagesYield L size k' _ :=
          pagesYield_of_full hL fun k hk => hfull e hlast k (by omega)
        have hstep := PagesYield.next hlast hk' hyield
        rwa [hk', hrest, hR] at hstep
      · have hnone : R = [] := by
          rw [← hrest]
          refine filter_eq_nil_iff.mpr fun e' _ => ?_
          have := e'.1.num_lt
          simp only [decide_eq_true_eq]
          omega
        have hstep := PagesYield.last hlast hend
        rw [hnone, append_nil] at hR
        rwa [hR] at hstep

end

end JamDuna.Storage
