/-
BeSdk.Lib.TwoRuns — two tables that a query cannot tell apart.

Secrecy is a statement about two runs: one program over two inputs that differ in
what is secret. Here the inputs are lists of rows, related row by row, and the program
keeps some rows, sorts them and takes the first. Each of these leads related rows to
related rows, when what it looks at is the same on both sides: a test on the rows of a
pair (`filter_related`), a comparison of two rows with the one of their partners
(`sorted_related`). A test may also teach something about the pairs that it keeps. What
an observer takes for one result may go on as two runs, if it takes those for one too
(`bind_related`).
-/
import BeSdk.Lib.Keyset
import Mathlib.Data.List.Forall2

namespace BeSdk.TwoRuns

variable {ρ : Type} {R S : ρ → ρ → Prop} {l l' : List ρ}

/-- What is kept of related rows is related, and by what the test says of the pairs it keeps. -/
theorem filter_related {p : ρ → Bool} (htest : ∀ x y, R x y → p x = p y)
    (hkept : ∀ x y, R x y → p x = true → S x y) (h : List.Forall₂ R l l') :
    List.Forall₂ S (l.filter p) (l'.filter p) := by
  induction h with
  | nil => exact .nil
  | @cons x y l l' hxy _ ih =>
      by_cases hx : p x = true
      · rw [List.filter_cons_of_pos hx, List.filter_cons_of_pos ((htest x y hxy).symm.trans hx)]
        exact .cons (hkept x y hxy hx) ih
      · rw [List.filter_cons_of_neg hx, List.filter_cons_of_neg (by rwa [← htest x y hxy])]
        exact ih

theorem orderedInsert_related {r : ρ → ρ → Prop} [DecidableRel r]
    (hr : ∀ x y x' y', R x x' → R y y' → (r x y ↔ r x' y'))
    {a a' : ρ} (ha : R a a') (h : List.Forall₂ R l l') :
    List.Forall₂ R (l.orderedInsert r a) (l'.orderedInsert r a') := by
  induction h with
  | nil => exact .cons ha .nil
  | @cons x x' l l' hx hl ih =>
      by_cases hax : r a x
      · rw [List.orderedInsert_cons_of_le r l hax,
          List.orderedInsert_cons_of_le r l' ((hr _ _ _ _ ha hx).mp hax)]
        exact .cons ha (.cons hx hl)
      · rw [List.orderedInsert_of_not_le r l hax,
          List.orderedInsert_of_not_le r l' fun h => hax ((hr _ _ _ _ ha hx).mpr h)]
        exact .cons hx ih

/-- Related rows come to related places. -/
theorem sorted_related {cmp : ρ → ρ → Ordering} (hcmp : ∀ x y x' y', R x x' → R y y' →
    cmp x y = cmp x' y') (h : List.Forall₂ R l l') : List.Forall₂ R (Keyset.sorted cmp l)
    (Keyset.sorted cmp l') := by
  induction h with
  | nil => exact .nil
  | cons hx _ ih =>
      exact orderedInsert_related (fun x y x' y' hx hy => by rw [hcmp x y x' y' hx hy]) hx ih

/-- An observation that is the same on both sides of every pair. -/
theorem map_related {β : Type} {f : ρ → β} (hf : ∀ x y, R x y → f x = f y)
    (h : List.Forall₂ R l l') : l.map f = l'.map f := by
  induction h with
  | nil => rfl
  | cons hx _ ih => rw [List.map_cons, List.map_cons, hf _ _ hx, ih]

theorem getLast?_related (h : List.Forall₂ R l l') : Option.Rel R l.getLast? l'.getLast? := by
  induction h with
  | nil => exact .none
  | @cons x y l l' hx hl ih =>
      cases hl with
      | nil => exact .some hx
      | cons _ _ => exact ih

/-- Two runs that go on from results an observer takes for one. -/
theorem bind_related {ε α β γ δ : Type} {x y : Except ε α} {g : α → γ} {k k' : α → Except ε β}
    {o : β → δ} (h : x.map g = y.map g) (hk : ∀ a a', g a = g a' → (k a).map o = (k' a').map o) :
    (x >>= k).map o = (y >>= k').map o := by
  cases x with
  | error e =>
      cases y with
      | error e' =>
          obtain rfl := Except.error.inj h
          rfl
      | ok a' => cases h
  | ok a =>
      cases y with
      | error e' => cases h
      | ok a' => exact hk a a' (Except.ok.inj h)

end BeSdk.TwoRuns
