/-
# Checks that stop at the first failure

A validation function of the repository is a chain of checks, many of them
loops, and the first one that fails decides the result. Besides the errors a
Go function returns there is the run-time panic of an index out of range, which
no caller sees as an error. `Stop` keeps the two apart, `Except (Stop ε)` is
the monad of such a chain, and a loop over a slice is `forM`.

The lemmas here take a chain apart: a bind succeeds when both parts do
(`check_bind_eq_ok`), a loop succeeds when its body succeeds everywhere
(`forM_eq_ok`), and it stops with `s` exactly when the body does so at a
position all of whose predecessors passed (`forM_eq_error`).
-/

import Mathlib.Tactic

namespace JamDuna.Basis

open List

/-- What ends a check early: an error it returns, or a run-time panic. -/
inductive Stop (ε : Type) where
  | err (e : ε)
  | panic
  deriving DecidableEq, Repr

variable {ε ε' σ α β : Type}

/-- The check that fails with `e` when `b` holds. -/
def failIf (b : Bool) (e : ε) : Except (Stop ε) Unit :=
  if b then .error (.err e) else .ok ()

@[simp] theorem failIf_eq_ok {b : Bool} {e : ε} : failIf b e = .ok () ↔ b = false := by
  unfold failIf
  cases b <;> simp

variable {p : Prop} {e : ε} {b : β}

theorem failIf_decide_of_not [Decidable p] (h : ¬ p) : failIf (decide p) e = .ok () := by
  rw [failIf_eq_ok, decide_eq_false h]

theorem failIf_decide_of [Decidable p] (h : p) : failIf (decide p) e = .error (.err e) := by
  rw [failIf, decide_eq_true h, if_pos rfl]

@[simp] theorem failIf_ne_panic {b : Bool} {e : ε} : failIf b e ≠ .error .panic := by
  unfold failIf
  cases b <;> simp

/-- Replace the error that a check returns; a panic passes through. -/
def withError (e : ε') : Except (Stop ε) α → Except (Stop ε') α
  | .ok a => .ok a
  | .error (.err _) => .error (.err e)
  | .error .panic => .error .panic

@[simp] theorem withError_eq_ok {e : ε'} {x : Except (Stop ε) α} {a : α} :
    withError e x = .ok a ↔ x = .ok a := by
  rcases x with (s | s) | x <;> simp [withError]

@[simp] theorem withError_eq_panic {e : ε'} {x : Except (Stop ε) α} :
    withError e x = .error .panic ↔ x = .error .panic := by
  rcases x with (s | s) | x <;> simp [withError]

/-- Rename the errors of a check; a panic passes through. -/
def mapError (f : ε → ε') : Except (Stop ε) α → Except (Stop ε') α
  | .ok a => .ok a
  | .error (.err e) => .error (.err (f e))
  | .error .panic => .error .panic

@[simp] theorem mapError_eq_ok {f : ε → ε'} {x : Except (Stop ε) α} {a : α} :
    mapError f x = .ok a ↔ x = .ok a := by
  rcases x with (s | s) | x <;> simp [mapError]

variable {x : Except σ α} {f : α → Except σ β} {s : σ} {l : List α} {bs : List β}

theorem ok_of_toOption {a : α} (h : x.toOption = some a) : x = .ok a := by
  cases x with
  | error => cases h
  | ok b => exact congrArg _ (Option.some.inj h)

theorem ok_bind (a : α) (f : α → Except σ β) : (Except.ok a >>= f) = f a := rfl

theorem error_bind (s : σ) (f : α → Except σ β) : (Except.error s >>= f) = .error s := rfl

/-- A bind succeeds when its first part does and the rest does on its result. -/
theorem bind_eq_ok : (x >>= f) = .ok b ↔ ∃ a, x = .ok a ∧ f a = .ok b := by
  cases x <;> simp [bind, Except.bind]

/-- A bind stops with `s` when its first part does, or the rest does. -/
theorem bind_eq_error : (x >>= f) = .error s ↔ x = .error s ∨ ∃ a, x = .ok a ∧ f a = .error s := by
  cases x <;> simp [bind, Except.bind]

/-- A check followed by the rest of the chain. -/
theorem check_bind_eq_ok {x : Except σ Unit} {f : Unit → Except σ β} :
    (x >>= f) = .ok b ↔ x = .ok () ∧ f () = .ok b := by
  rw [bind_eq_ok]
  exact ⟨fun ⟨_, hx, hf⟩ => ⟨hx, hf⟩, fun ⟨hx, hf⟩ => ⟨(), hx, hf⟩⟩

/-- A check followed by the rest of the chain stops where either part does. -/
theorem check_bind_eq_error {x : Except σ Unit} {f : Unit → Except σ β} :
    (x >>= f) = .error s ↔ x = .error s ∨ x = .ok () ∧ f () = .error s := by
  rw [bind_eq_error]
  exact or_congr_right ⟨fun ⟨_, hx, hf⟩ => ⟨hx, hf⟩, fun ⟨hx, hf⟩ => ⟨(), hx, hf⟩⟩

/-- **A loop passes when its body passes on every element.** -/
theorem forM_eq_ok {f : α → Except σ Unit} : forM l f = .ok () ↔ ∀ x ∈ l, f x = .ok () := by
  induction l with
  | nil => simp [pure, Except.pure]
  | cons x l ih =>
    rw [forM_cons, check_bind_eq_ok, forall_mem_cons, ih]

/-- **A loop stops with `s` where its body first does**: at an element whose
predecessors all passed. -/
theorem forM_eq_error {f : α → Except σ Unit} :
    forM l f = .error s ↔
      ∃ before x after, l = before ++ x :: after ∧ (∀ y ∈ before, f y = .ok ()) ∧
        f x = .error s := by
  induction l with
  | nil => simp [pure, Except.pure]
  | cons x l ih =>
    rw [forM_cons, check_bind_eq_error, ih]
    constructor
    · rintro (hx | ⟨hx, before, y, after, rfl, hb, hy⟩)
      · exact ⟨[], x, l, rfl, by simp, hx⟩
      · exact ⟨x :: before, y, after, rfl, by simpa using ⟨hx, hb⟩, hy⟩
    · rintro ⟨before, y, after, hl, hb, hy⟩
      cases before with
      | nil =>
        obtain ⟨rfl, rfl⟩ := cons.inj hl
        exact .inl hy
      | cons z before =>
        obtain ⟨rfl, rfl⟩ := cons.inj hl
        rw [forall_mem_cons] at hb
        exact .inr ⟨hb.1, before, y, after, rfl, hb.2, hy⟩

/-- A loop that collects results gives, in order, what its body gives. -/
theorem mapM_eq_ok : l.mapM f = .ok bs ↔ Forall₂ (fun a b => f a = .ok b) l bs := by
  induction l generalizing bs with
  | nil =>
    rw [mapM_nil, forall₂_nil_left_iff]
    exact ⟨fun h => (Except.ok.inj h).symm, fun h => h ▸ rfl⟩
  | cons a l ih =>
    rw [mapM_cons, bind_eq_ok, forall₂_cons_left_iff]
    constructor
    · rintro ⟨b, hb, h⟩
      obtain ⟨bs', hbs, h⟩ := bind_eq_ok.mp h
      exact ⟨b, bs', hb, ih.mp hbs, (Except.ok.inj h).symm⟩
    · rintro ⟨b, bs', hb, hbs, rfl⟩
      exact ⟨b, hb, bind_eq_ok.mpr ⟨bs', ih.mpr hbs, rfl⟩⟩

/-- Every collected result comes from an element. -/
theorem exists_of_mapM_eq_ok (h : l.mapM f = .ok bs) : ∀ b ∈ bs, ∃ a ∈ l, f a = .ok b := by
  induction mapM_eq_ok.mp h with
  | nil => simp
  | cons hab hrest ih =>
    refine forall_mem_cons.mpr ⟨⟨_, .head _, hab⟩, fun b hb => ?_⟩
    obtain ⟨a, ha, hf⟩ := ih (mapM_eq_ok.mpr hrest) b hb
    exact ⟨a, .tail _ ha, hf⟩

/-- A loop that appends at most one result for each element gives them in order. -/
theorem foldlM_append_eq_ok {f : List β → α → Except σ (List β)} {g : α → Option β}
    (hf : ∀ acc a acc', f acc a = .ok acc' → acc' = acc ++ (g a).toList)
    {acc : List β} (h : l.foldlM f acc = .ok bs) : bs = acc ++ l.filterMap g := by
  induction l generalizing acc with
  | nil =>
    cases h
    simp
  | cons a l ih =>
    rw [foldlM_cons] at h
    obtain ⟨acc', hstep, h⟩ := bind_eq_ok.mp h
    rw [ih h, hf acc a acc' hstep, append_assoc, filterMap_cons]
    cases g a <;> rfl

/-- A loop whose body never panics does not panic. -/
theorem forM_ne_panic {f : α → Except (Stop ε) Unit}
    (hf : ∀ x ∈ l, f x ≠ .error .panic) : forM l f ≠ .error .panic := by
  intro h
  obtain ⟨before, x, after, rfl, -, hx⟩ := forM_eq_error.mp h
  exact hf x (by simp) hx

/-- A check that does not panic, followed by a chain that does not. -/
theorem check_bind_ne_panic {x : Except (Stop ε) Unit} {f : Unit → Except (Stop ε) β}
    (hx : x ≠ .error .panic) (hf : f () ≠ .error .panic) : (x >>= f) ≠ .error .panic := by
  intro h
  rcases check_bind_eq_error.mp h with h | ⟨-, h⟩
  · exact hx h
  · exact hf h

/-- A loop that sets its variable to `b` at the elements with `p` ends in `b`
when there is one, and otherwise where it began. -/
theorem foldl_ite_const (p : α → Prop) [DecidablePred p] (b acc : β) (l : List α) :
    l.foldl (fun acc x => if p x then b else acc) acc = if ∃ x ∈ l, p x then b else acc := by
  induction l generalizing acc with
  | nil => simp
  | cons x l ih =>
    rw [foldl_cons, ih]
    by_cases hx : p x
    · simp [hx]
    · simp [hx]

end JamDuna.Basis
