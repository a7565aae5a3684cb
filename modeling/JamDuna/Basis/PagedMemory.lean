/-
# Copying through pages

A memory of pages of `P` cells, of which only some are there. A range is read and
written page by page: each round takes what is left of the range, or of the page.
`readChunks_eq` and `writeChunks_eq` say that the rounds together read the cells of
the range, and write the data over them, and nothing else (`patch`).
-/

import Mathlib.Tactic

namespace JamDuna.Basis

open List Option Nat

/-- The pages of a memory, by their number. -/
abbrev Pages (P : ℕ) (α : Type*) := ℕ → Option (Fin P → α)

namespace Pages

variable {P : ℕ} {α : Type*}

/-- The cell `i`, if its page is there. -/
def cell [NeZero P] (m : Pages P α) (i : ℕ) : Option α :=
  (m (i / P)).map fun page => page (Fin.ofNat P (i % P))

/-- The cells from `a` on, `n` of them, if all are there. -/
def cells [NeZero P] (m : Pages P α) : ℕ → ℕ → Option (List α)
  | _, 0 => some []
  | a, n + 1 => (m.cell a).bind fun x => (cells m (a + 1) n).map (x :: ·)

/-- `n` cells of a page from `start` on. -/
def slice [NeZero P] (page : Fin P → α) (start n : ℕ) : List α :=
  (range' start n).map fun i => page (Fin.ofNat P i)

/-- The cell that `data`, laid down from `a` on, puts at `i`. -/
def overlay (a : ℕ) (data : List α) (i : ℕ) : Option α :=
  if i < a then none else data[i - a]?

/-- A page with `data` copied in from `start` on. -/
def copyIn (page : Fin P → α) (start : ℕ) (data : List α) : Fin P → α :=
  fun k => (overlay start data k.val).getD (page k)

/-- The memory with `data` written from cell `a` on, where there are pages. -/
def patch (m : Pages P α) (a : ℕ) (data : List α) : Pages P α :=
  fun p => (m p).map fun page k => (overlay a data (p * P + k.val)).getD (page k)

/-- The number of cells that the round at `offset` copies. -/
def chunk (P address length offset : ℕ) : ℕ := min (length - offset) (P - (address + offset) % P)

theorem chunk_pos (P address : ℕ) [NeZero P] {length offset : ℕ} (h : offset < length) :
    0 < chunk P address length offset := by
  have hmod : (address + offset) % P < P := mod_lt _ (NeZero.pos P)
  unfold chunk
  omega

/-- The reading loop, from `offset` on. -/
def readChunks [NeZero P] (m : Pages P α) (address length offset : ℕ) : Option (List α) :=
  if _h : offset < length then
    match m ((address + offset) / P) with
    | none => none
    | some page =>
      (readChunks m address length (offset + chunk P address length offset)).map
        (slice page ((address + offset) % P) (chunk P address length offset) ++ ·)
  else some []
termination_by length - offset
decreasing_by
  have := chunk_pos P address _h
  omega

/-- The writing loop, from `offset` on. -/
def writeChunks [NeZero P] (m : Pages P α) (address length : ℕ) (data : List α) (offset : ℕ) :
    Option (Pages P α) :=
  if _h : offset < length then
    match m ((address + offset) / P) with
    | none => none
    | some page =>
      writeChunks (Function.update m ((address + offset) / P)
          (some (copyIn page ((address + offset) % P)
            ((data.drop offset).take (chunk P address length offset)))))
        address length data (offset + chunk P address length offset)
  else some m
termination_by length - offset
decreasing_by
  have := chunk_pos P address _h
  omega

theorem overlay_append (a : ℕ) (xs ys : List α) (i : ℕ) :
    overlay a (xs ++ ys) i = (overlay a xs i).or (overlay (a + xs.length) ys i) := by
  unfold overlay
  by_cases ha : i < a
  · simp [ha, show i < a + xs.length by omega]
  · by_cases hx : i < a + xs.length
    · rw [if_neg ha, if_neg ha, if_pos hx, getElem?_append_left (by omega), or_none]
    · have hnone : xs[i - a]? = none := getElem?_eq_none (by omega)
      rw [if_neg ha, if_neg ha, if_neg hx, getElem?_append_right (by omega), hnone,
        none_or, Nat.sub_sub]

/-- Two pieces of data do not overlap, so it does not matter which is read first. -/
theorem overlay_append' (a : ℕ) (xs ys : List α) (i : ℕ) :
    overlay a (xs ++ ys) i = (overlay (a + xs.length) ys i).or (overlay a xs i) := by
  rw [overlay_append]
  by_cases hx : i < a + xs.length
  · simp [overlay, hx]
  · have hnone : overlay a xs i = none := by
      unfold overlay
      split_ifs
      · rfl
      · exact getElem?_eq_none (by omega)
    rw [hnone, none_or, or_none]

theorem overlay_nil (a i : ℕ) : overlay a ([] : List α) i = none := by
  unfold overlay
  split_ifs <;> rfl

theorem overlay_eq_none {a : ℕ} {data : List α} {i : ℕ} (h : i < a ∨ a + data.length ≤ i) :
    overlay a data i = none := by
  unfold overlay
  split_ifs
  · rfl
  · exact getElem?_eq_none (by omega)

/-- Shifting the data and the cell by the same number. -/
theorem overlay_add (b a : ℕ) (data : List α) (i : ℕ) :
    overlay (b + a) data (b + i) = overlay a data i := by
  unfold overlay
  by_cases h : i < a
  · rw [if_pos h, if_pos (by omega)]
  · rw [if_neg h, if_neg (by omega)]
    congr 1
    omega

theorem patch_nil (m : Pages P α) (a : ℕ) : m.patch a [] = m := by
  funext p
  cases hp : m p with
  | none => simp [patch, hp]
  | some page => simp [patch, hp, overlay_nil]

/-- **Writing in two pieces is writing in one.** -/
theorem patch_patch (m : Pages P α) (a : ℕ) (xs ys : List α) :
    (m.patch a xs).patch (a + xs.length) ys = m.patch a (xs ++ ys) := by
  funext p
  cases hp : m p with
  | none => simp [patch, hp]
  | some page =>
    simp only [patch, hp, map_some, some.injEq]
    funext k
    rw [overlay_append']
    cases overlay (a + xs.length) ys (p * P + k.val) <;> rfl

theorem isSome_patch (m : Pages P α) (a : ℕ) (data : List α) (p : ℕ) :
    (m.patch a data p).isSome = (m p).isSome := by
  simp [patch]

/-- A copy into one page is a patch, when the data fits into the page. -/
theorem update_copyIn {m : Pages P α} {p : ℕ} {page : Fin P → α} (hp : m p = some page)
    {start : ℕ} {data : List α} (hfit : start + data.length ≤ P) :
    Function.update m p (some (copyIn page start data)) = m.patch (p * P + start) data := by
  funext q
  by_cases hq : q = p
  · subst hq
    simp only [Function.update_self, patch, hp, map_some, some.injEq]
    funext k
    rw [overlay_add]
    rfl
  · rw [Function.update_of_ne hq, patch]
    cases hm : m q with
    | none => rfl
    | some page' =>
      simp only [map_some, some.injEq]
      funext k
      -- a cell of another page is before or behind the whole of page `p`
      have hout : q * P + k.val < p * P + start ∨ p * P + start + data.length ≤ q * P + k.val := by
        rcases lt_or_gt_of_ne hq with hlt | hgt
        · have := mul_le_mul_right P (succ_le_of_lt hlt)
          rw [succ_mul] at this
          omega
        · have := mul_le_mul_right P (succ_le_of_lt hgt)
          rw [succ_mul] at this
          omega
      rw [overlay_eq_none hout]
      rfl

/-- **The cells after a write.** -/
theorem cell_patch [NeZero P] (m : Pages P α) (a : ℕ) (data : List α) (i : ℕ) :
    (m.patch a data).cell i = (m.cell i).map fun x => (overlay a data i).getD x := by
  have hi : i / P * P + i % P = i := div_add_mod' i P
  cases hp : m (i / P) with
  | none => simp [cell, patch, hp]
  | some page => simp [cell, patch, hp, hi]

/-- **A write changes nothing exactly when the cells that are there hold the data.** -/
theorem patch_eq_self_iff [NeZero P] (m : Pages P α) (a : ℕ) (data : List α) :
    m.patch a data = m ↔ ∀ i < data.length, ∀ x, m.cell (a + i) = some x → data[i]? = some x := by
  have hoverlay : ∀ i, overlay a data (a + i) = data[i]? := by
    intro i
    rw [overlay, if_neg (by omega), Nat.add_sub_cancel_left]
  constructor
  · intro h i hi x hx
    have hcell := cell_patch m a data (a + i)
    rw [h, hx, hoverlay, getElem?_eq_getElem hi] at hcell
    rw [getElem?_eq_getElem hi]
    exact hcell.symm
  · intro h
    funext p
    cases hp : m p with
    | none => simp [patch, hp]
    | some page =>
      simp only [patch, hp, map_some, some.injEq]
      funext k
      have hdiv : (p * P + k.val) / P = p := by
        rw [mul_comm, mul_add_div (NeZero.pos P), div_eq_of_lt k.isLt, add_zero]
      have hmod : (p * P + k.val) % P = k.val := by
        rw [mul_comm, mul_add_mod, mod_eq_of_lt k.isLt]
      have hcell : m.cell (p * P + k.val) = some (page k) := by
        rw [cell, hdiv, hp, map_some, hmod]
        congr 2
        exact Fin.ext (mod_eq_of_lt k.isLt)
      by_cases hin : a ≤ p * P + k.val ∧ p * P + k.val < a + data.length
      · obtain ⟨i, hi⟩ := Nat.exists_eq_add_of_le hin.1
        rw [hi] at hcell
        rw [hi, hoverlay, h i (by omega) _ hcell]
        rfl
      · rw [overlay_eq_none (by omega)]
        rfl

section

variable [NeZero P]

variable {address length offset : ℕ} {m : Pages P α}

/-- The page of a cell that the round at `offset` copies. -/
theorem chunk_page (address length : ℕ) {i : ℕ} (hi : i < chunk P address length offset) :
    (address + offset + i) / P = (address + offset) / P ∧
      (address + offset + i) % P = (address + offset) % P + i := by
  have hlt : (address + offset) % P + i < P := by
    unfold chunk at hi
    omega
  have hsplit := div_add_mod (address + offset) P
  have hsum : address + offset + i = ((address + offset) % P + i) + P * ((address + offset) / P) := by
    omega
  constructor
  · rw [hsum, add_mul_div_left _ _ (NeZero.pos P), div_eq_of_lt hlt, zero_add]
  · conv_lhs => rw [hsum]
    rw [add_mul_mod_self_left, mod_eq_of_lt hlt]

theorem cells_add (m : Pages P α) (a n k : ℕ) :
    m.cells a (n + k) = (m.cells a n).bind fun xs => (m.cells (a + n) k).map (xs ++ ·) := by
  induction n generalizing a with
  | zero => simp [cells]
  | succ n ih =>
    rw [succ_add, cells, cells, ih, show a + 1 + n = a + (n + 1) by omega]
    cases m.cell a with
    | none => rfl
    | some x =>
      cases m.cells (a + 1) n with
      | none => rfl
      | some xs => cases m.cells (a + (n + 1)) k <;> rfl

/-- The cells of one round, when its page is there. -/
theorem cells_chunk {page : Fin P → α} (hp : m ((address + offset) / P) = some page) {n : ℕ}
    (hn : n ≤ chunk P address length offset) :
    m.cells (address + offset) n = some (slice page ((address + offset) % P) n) := by
  induction n with
  | zero => rfl
  | succ n ih =>
    obtain ⟨hdiv, hmod⟩ := chunk_page address length (lt_of_succ_le hn)
    have hcell : m.cell (address + offset + n) =
        some (page (Fin.ofNat P ((address + offset) % P + n))) := by
      rw [cell, hdiv, hp, map_some, hmod]
    rw [cells_add, ih (by omega)]
    simp only [cells, hcell, bind_some, map_some]
    rw [slice, slice, range'_concat, map_append, one_mul]
    rfl

theorem isSome_cells_iff (m : Pages P α) (a n : ℕ) :
    (m.cells a n).isSome ↔ ∀ i < n, (m ((a + i) / P)).isSome := by
  induction n generalizing a with
  | zero => simp [cells]
  | succ n ih =>
    have hcell : (m.cell a).isSome ↔ (m (a / P)).isSome := by simp [cell]
    constructor
    · intro h i hi
      obtain ⟨x, hx⟩ : ∃ x, m.cell a = some x := by
        cases hc : m.cell a with
        | none => simp [cells, hc] at h
        | some x => exact ⟨x, rfl⟩
      cases i with
      | zero => exact hcell.mp (by rw [hx]; rfl)
      | succ i =>
        have hrest : (m.cells (a + 1) n).isSome := by simpa [cells, hx] using h
        rw [show a + (i + 1) = a + 1 + i by omega]
        exact (ih (a + 1)).mp hrest i (by omega)
    · intro h
      obtain ⟨x, hx⟩ := isSome_iff_exists.mp (hcell.mpr (h 0 (by omega)))
      have hrest : (m.cells (a + 1) n).isSome := by
        refine (ih (a + 1)).mpr fun i hi => ?_
        rw [show a + 1 + i = a + (i + 1) by omega]
        exact h (i + 1) (by omega)
      simpa [cells, hx] using hrest

/-- The cells of a range, one by one. -/
theorem of_cells {a n : ℕ} {xs : List α} (h : m.cells a n = some xs) :
    xs.length = n ∧ ∀ i < n, m.cell (a + i) = xs[i]? := by
  induction n generalizing a xs with
  | zero =>
    rw [← some.inj h]
    exact ⟨rfl, fun i hi => absurd hi (not_lt_zero i)⟩
  | succ n ih =>
    obtain ⟨x, hx, h⟩ := bind_eq_some_iff.mp h
    obtain ⟨ys, hys, rfl⟩ := map_eq_some_iff.mp h
    obtain ⟨hlen, hcell⟩ := ih hys
    refine ⟨congrArg succ hlen, fun i hi => ?_⟩
    cases i with
    | zero => exact hx
    | succ i => rw [getElem?_cons_succ, ← hcell i (by omega), add_right_comm, add_assoc]

/-- **The reading loop reads the cells of the range.** -/
theorem readChunks_eq (m : Pages P α) (h : offset ≤ length) :
    m.readChunks address length offset = m.cells (address + offset) (length - offset) := by
  have hle (offset) : chunk P address length offset ≤ length - offset := min_le_left _ _
  have hsplit {offset} (hlt : offset < length) : length - offset =
      chunk P address length offset + (length - (offset + chunk P address length offset)) := by
    have := hle offset
    omega
  fun_induction readChunks m address length offset with
  | case1 offset hlt hp =>
    -- the first cell of the round is missing
    have hcell : m.cell (address + offset) = none := by rw [cell, hp]; rfl
    obtain ⟨k, hk⟩ := exists_eq_succ_of_ne_zero (chunk_pos P address hlt).ne'
    rw [hsplit hlt, cells_add, hk, cells, hcell]
    rfl
  | case2 offset hlt page hp ih =>
    have := hle offset
    rw [hsplit hlt, cells_add, cells_chunk hp le_rfl, bind_some, add_assoc, ih (by omega)]
  | case3 offset hlt =>
    rw [show length - offset = 0 by omega]
    rfl

/-- **The writing loop writes the data over the range**, when its pages are there. -/
theorem writeChunks_eq {data : List α} (hlen : length ≤ data.length) (h : offset ≤ length)
    (hpages : ∀ i, offset ≤ i → i < length → (m ((address + i) / P)).isSome) :
    m.writeChunks address length data offset =
      some (m.patch (address + offset) ((data.take length).drop offset)) := by
  induction hrem : length - offset using Nat.strong_induction_on generalizing offset m with
  | _ n ih =>
    rw [writeChunks]
    by_cases hlt : offset < length
    · have hpos := chunk_pos P address hlt
      have hle : chunk P address length offset ≤ length - offset := min_le_left _ _
      have hroom : chunk P address length offset ≤ P - (address + offset) % P := min_le_right _ _
      obtain ⟨page, hp⟩ := isSome_iff_exists.mp (hpages offset le_rfl hlt)
      have hchunk : ((data.drop offset).take (chunk P address length offset)).length =
          chunk P address length offset := by
        rw [length_take, length_drop]
        omega
      have haddr : (address + offset) / P * P + (address + offset) % P = address + offset :=
        div_add_mod' _ _
      have hdata : (data.take length).drop offset =
          (data.drop offset).take (chunk P address length offset) ++
            (data.take length).drop (offset + chunk P address length offset) := by
        rw [drop_take, drop_take, ← drop_drop, ← take_append_drop
          (chunk P address length offset) ((data.drop offset).take (length - offset)),
          take_take, min_eq_left hle, drop_take]
        congr 2
        omega
      rw [dif_pos hlt, hp]
      dsimp only
      rw [update_copyIn hp (by rw [hchunk]; omega), haddr,
        ih _ (by omega) (by omega) ?_ rfl, hdata, ← patch_patch, hchunk, add_assoc]
      intro i hi hi'
      rw [isSome_patch]
      exact hpages i (by omega) hi'
    · rw [dif_neg hlt, drop_eq_nil_of_le (by rw [length_take]; omega), patch_nil]

end

end Pages
end JamDuna.Basis
