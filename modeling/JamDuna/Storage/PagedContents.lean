/-
# The contents of a trie in pages

`GetAllKeyValuesPaged` of `storage/bmt_storage.go` on the trie of a session, after any
calls. `paged_complete_iff` says for which contents it returns them, in ascending order
and as `GetAllKeyValues` does: in practice only for the empty trie, and for tries whose
first page reaches the last key of all. A trie with one key is read forever
(`one_key_never_done`).
-/

import JamDuna.Storage.Paging
import JamDuna.Storage.HistoryIndependence

namespace JamDuna.Storage

open JamDuna.Basis List Session

variable {H : HashFn} {ops : List Op} {s : Session} {L : List (Key × Bytes)}

/-- The pairs in the trie of a session, in ascending order. -/
structure Session.Contents (s : Session) (L : List (Key × Bytes)) : Prop where
  ascending : Ascending L
  mem_iff : ∀ k v, (k, v) ∈ L ↔ getFromStorageLocked s.mem k.norm s.tree.root = .ok (some v)

/-- A page of the trie of a session. -/
theorem Session.Contents.getStateByRange_eq (hL : s.Contents L)
    (cf : CollisionFree H (pairs ops)) (va : ValuesApart H (pairs ops))
    (h : new.Calls H ops s) {size : UInt32} (hsize : size ≠ 0) (k : Key) :
    getStateByRange s.mem s.tree.root k.bytes lastKey.bytes size =
      (rangeOf L k size).map plain := by
  obtain ⟨a, -, ha, hputs, -⟩ := calls_refine cf va h (fun _ he => he) (refines_new H (pairs ops))
  obtain ⟨cells, hlaid⟩ := ha.laid
  have hentries : L = a.trie.entries := by
    refine hL.ascending.ext (entries_ascending hlaid.canon) fun e => ?_
    rw [hL.mem_iff e.1 e.2, hlaid.get_eq, Except.ok.injEq, hlaid.canon.lookup_eq_some]
  have hlast : k.num ≤ lastKey.num := by
    have hmax : lastKey.num + 1 = 2 ^ 248 := by decide +kernel
    have := k.num_lt
    omega
  rw [hentries]
  exact hlaid.getStateByRange_eq cf va hputs.recorded hsize hlast

/-- What the pages need to be the contents: the all-zero key is not stored, one page of
the largest size holds all pairs, and every key after the first page is stored. -/
def PagesComplete (L : List (Key × Bytes)) (size : UInt32) : Prop :=
  L = [] ∨ (¬ Stored L firstKey ∧ collect 0xffffffff 0 L = L ∧
    ∀ e ∈ (collect size 0 L).getLast?, ∀ k : Key, e.1.num < k.num → Stored L k)

theorem pagesComplete_iff (hL : Ascending L) {size : UInt32} (hsize : size ≠ 0) :
    PagesYield L size firstKey L ∧ rangeOf L firstKey 0xffffffff = L ↔ PagesComplete L size := by
  rw [pagesYield_iff hL hsize]
  by_cases hfirst : Stored L firstKey
  · -- Then `GetAllKeyValues` returns one pair, and the last key is missing.
    obtain ⟨v, hv⟩ := hfirst
    have hne : L ≠ [] := ne_nil_of_mem hv
    rw [rangeOf_of_mem hL hv, rangeOf_of_mem hL hv]
    constructor
    · rintro ⟨hfull, hone⟩
      obtain ⟨w, hw⟩ := hfull _ rfl lastKey (show firstKey.num < lastKey.num by decide +kernel)
      rw [← hone, mem_singleton] at hw
      exact absurd (Prod.mk.inj hw).1 (by decide)
    · rintro (hempty | ⟨hnot, -, -⟩)
      · exact absurd hempty hne
      · exact absurd ⟨v, hv⟩ hnot
  · rw [rangeOf_of_not_mem (ne_of_not_stored hfirst), rangeOf_of_not_mem (ne_of_not_stored hfirst)]
    constructor
    · rintro ⟨hfull, hall⟩
      exact .inr ⟨hfirst, hall, hfull⟩
    · rintro (rfl | ⟨-, hall, hfull⟩)
      · exact ⟨fun e he => absurd he (by simp [collect]), rfl⟩
      · exact ⟨hfull, hall⟩

theorem plain_injective : Function.Injective plain := by
  rintro ⟨⟨b, hb⟩, v⟩ ⟨⟨b', hb'⟩, v'⟩ h
  cases h
  rfl

/-- **When the pages are the contents.** After any calls of a session, the iteration ends
with the pairs of the trie in ascending order, the same as `GetAllKeyValues` returns, in
these cases and no others. -/
theorem paged_complete_iff (cf : CollisionFree H (pairs ops)) (va : ValuesApart H (pairs ops))
    (h : new.Calls H ops s) (hL : s.Contents L) (pageSize : UInt32) :
    ((∃ n, getAllKeyValuesPaged s.mem s.tree.root pageSize n = some (L.map plain)) ∧
        getAllKeyValues s.mem s.tree.root = L.map plain) ↔
      PagesComplete L (if pageSize = 0 then 1024 else pageSize) := by
  set size : UInt32 := if pageSize = 0 then 1024 else pageSize with hdef
  have hsize : size ≠ 0 := by
    rw [hdef]
    split_ifs with h0
    · decide
    · exact h0
  have hrange := hL.getStateByRange_eq cf va h hsize
  have hpages : (∃ n, getAllKeyValuesPaged s.mem s.tree.root pageSize n = some (L.map plain)) ↔
      PagesYield L size firstKey L := by
    constructor
    · rintro ⟨n, hn⟩
      obtain ⟨r, hr, heq⟩ := pagesYield_of_collectPages hrange hn
      rwa [← map_injective_iff.mpr plain_injective heq] at hr
    · intro hyield
      obtain ⟨n, hn⟩ := hyield.collectPages_eq hrange
      exact ⟨n, hn []⟩
  rw [hpages, getAllKeyValues, hL.getStateByRange_eq cf va h (by decide),
    (map_injective_iff.mpr plain_injective).eq_iff, pagesComplete_iff hL.ascending hsize]

/-- After clean calls that leave nothing staged the contents are what the calls say. -/
theorem Session.Contents.of_cleanCalls (cf : CollisionFree H (pairs ops))
    (va : ValuesApart H (pairs ops)) (h : new.CleanCalls H ops s) (hs : s.Flushed)
    (hasc : Ascending L) (hmem : ∀ k v, (k, v) ∈ L ↔ ops.foldl applyOp (fun _ => none) k = some v) :
    s.Contents L := by
  obtain ⟨b, hb, hview⟩ := cleanCalls_view cf va h (fun _ he => he) (refines_new H (pairs ops))
  obtain ⟨cells, hlaid⟩ := hb.laid
  refine ⟨hasc, fun k v => ?_⟩
  rw [hmem, hlaid.get_eq, Except.ok.injEq, ← view_of_flushed (hb.flushed_iff.mp hs), hview]
  rfl

/-- One key is inserted and flushed. -/
def insertKey (k : Key) (v : Bytes) : List Op := [.insert k v, .flush [] [(k, v)]]

theorem contents_insertKey {k : Key} {v : Bytes} (cf : CollisionFree H (pairs (insertKey k v)))
    (va : ValuesApart H (pairs (insertKey k v)))
    (h : new.CleanCalls H (insertKey k v) s) (hs : s.Flushed) : s.Contents [(k, v)] := by
  refine .of_cleanCalls cf va h hs (pairwise_singleton _ _) fun k' v' => ?_
  by_cases hk : k' = k
  · subst hk
    simp [insertKey, applyOp, eq_comm]
  · simp [insertKey, applyOp, hk]

/-- The last key alone comes in one page. -/
theorem paged_complete_of_lastKey :
    ∃ s, new.Calls polyHash (insertKey lastKey [7]) s ∧ s.Contents [(lastKey, [7])] ∧
      (((∃ n, getAllKeyValuesPaged s.mem s.tree.root 1 n = some ([(lastKey, [7])].map plain)) ∧
        getAllKeyValues s.mem s.tree.root = [(lastKey, [7])].map plain) ↔
      PagesComplete [(lastKey, [7])] 1) ∧ PagesComplete [(lastKey, [7])] 1 := by
  obtain ⟨s, hs, hflushed⟩ :
      ∃ s, (insertKey lastKey [7]).foldlM (cleanStep polyHash) .new = some s ∧ s.Flushed := by
    decide +kernel
  have hclean : new.CleanCalls polyHash (insertKey lastKey [7]) s := run_of_foldlM hs
  have hcalls : new.Calls polyHash (insertKey lastKey [7]) s :=
    Run.of_foldlM (fun _ _ _ h => (cleanStep_eq_some.mp h).2) hs
  have cf : CollisionFree polyHash (pairs (insertKey lastKey [7])) :=
    collisionFree_of_check (by decide +kernel)
  have na : NoAlias polyHash (pairs (insertKey lastKey [7])) := noAlias_of_check (by decide +kernel)
  have hcontents := contents_insertKey cf na.toValuesApart hclean hflushed
  refine ⟨s, hcalls, hcontents, paged_complete_iff cf na.toValuesApart hcalls hcontents 1, .inr ?_⟩
  refine ⟨?_, by decide +kernel, ?_⟩
  · rintro ⟨v, hv⟩
    exact absurd (Prod.mk.inj (mem_singleton.mp hv)).1 (by decide)
  · intro e he k hk
    obtain rfl : (lastKey, [7]) = e := Option.some.inj (Eq.trans (by decide +kernel) he)
    have hmax : lastKey.num + 1 = 2 ^ 248 := by decide +kernel
    have hlt : lastKey.num < k.num := hk
    have := k.num_lt
    omega

/-- **A trie with one key is read forever.** Every page is this key, and the next one
starts at a key that is missing. -/
theorem one_key_never_done : CollisionFree polyHash (pairs (insertKey (keyAt 0x80) [2])) ∧
      NoAlias polyHash (pairs (insertKey (keyAt 0x80) [2])) ∧
      ∃ s, new.Calls polyHash (insertKey (keyAt 0x80) [2]) s ∧ s.Contents [(keyAt 0x80, [2])] ∧
        ∀ n, getAllKeyValuesPaged s.mem s.tree.root 1 n = none := by
  have cf : CollisionFree polyHash (pairs (insertKey (keyAt 0x80) [2])) :=
    collisionFree_of_check (by decide +kernel)
  have na : NoAlias polyHash (pairs (insertKey (keyAt 0x80) [2])) :=
    noAlias_of_check (by decide +kernel)
  obtain ⟨s, hs, hflushed, hpages⟩ :
      ∃ s, (insertKey (keyAt 0x80) [2]).foldlM (cleanStep polyHash) .new = some s ∧ s.Flushed ∧
        ∀ it ∈ [getStatePageIterator 1, ⟨1, 0x80 :: replicate 29 0 ++ [1], false⟩],
          it.next s.mem s.tree.root =
            (some [plain (keyAt 0x80, [2])], ⟨1, 0x80 :: replicate 29 0 ++ [1], false⟩) := by
    decide +kernel
  have hclean : new.CleanCalls polyHash (insertKey (keyAt 0x80) [2]) s := run_of_foldlM hs
  refine ⟨cf, na, s, Run.of_foldlM (fun _ _ _ h => (cleanStep_eq_some.mp h).2) hs,
    contents_insertKey cf na.toValuesApart hclean hflushed, fun n => ?_⟩
  have hloop : ∀ n all, collectPages s.mem s.tree.root n
      ⟨1, 0x80 :: replicate 29 0 ++ [1], false⟩ all = none := by
    intro n
    induction n with
    | zero => exact fun _ => rfl
    | succ n ih =>
      intro all
      rw [collectPages, hpages _ (.tail _ (.head _))]
      exact ih _
  cases n with
  | zero => rfl
  | succ n =>
    rw [getAllKeyValuesPaged, collectPages, hpages _ (.head _)]
    exact hloop n _

end JamDuna.Storage
