/-
BeSdk.Lib.Keyset — reading a strictly ordered list piece by piece, each piece from
the last row of the one before.

A reader that remembers only the last row it got asks for "the rows after `y`". In a
list ordered by a strict order that is the list from the next place on: the rows
after `y` are what is left (`filter_after_last`), the others are what was read
(`mem_take_iff`).

Rows are mostly compared by several keys in turn, `lex`. A row is before another when
some number of keys are equal and the next one is smaller (`lex_eq_lt_iff`), the form
in which a query can ask for it. `sorted_after_last` is the reader's law over rows that
are sorted when they are read: sorting the rows after the last one read gives what
sorting them all left over.
-/
import Mathlib.Data.List.Sort

namespace BeSdk.Keyset

section
variable {ρ : Type} {lt : ρ → ρ → Prop} [IsStrictOrder ρ lt]

/-- The last of the first `n` rows splits them from the rest. -/
theorem split_at_last {l : List ρ} (hl : l.Pairwise lt) {n : Nat} {y : ρ}
    (hy : (l.take n).getLast? = some y) :
    (∀ x ∈ l.take n, ¬ lt y x) ∧ ∀ x ∈ l.drop n, lt y x := by
  obtain ⟨init, hinit⟩ := List.getLast?_eq_some_iff.mp hy
  rw [← List.take_append_drop n l, List.pairwise_append] at hl
  obtain ⟨hread, -, hrest⟩ := hl
  refine ⟨fun x hx => ?_, fun x hx => hrest y (List.mem_of_getLast? hy) x hx⟩
  rw [hinit, List.pairwise_append] at hread
  rw [hinit, List.mem_append, List.mem_singleton] at hx
  rcases hx with hx | rfl
  · exact fun h => irrefl_of lt y (trans_of lt h (hread.2.2 x hx y (List.mem_singleton_self y)))
  · exact irrefl_of lt x

/-- The rows after the last one read are the rows not read. -/
theorem filter_after_last [DecidableRel lt] {l : List ρ} (hl : l.Pairwise lt) {n : Nat} {y : ρ}
    (hy : (l.take n).getLast? = some y) : (l.filter fun x => lt y x) = l.drop n := by
  obtain ⟨hread, hrest⟩ := split_at_last hl hy
  have hnone : ((l.take n).filter fun x => lt y x) = [] := by
    simpa [List.filter_eq_nil_iff] using hread
  have hall : ((l.drop n).filter fun x => lt y x) = l.drop n := by
    simpa [List.filter_eq_self] using hrest
  rw [← List.take_append_drop n l, List.filter_append, List.take_append_drop, hnone, hall,
    List.nil_append]

/-- The rows up to the last one read are the rows read. -/
theorem mem_take_iff {l : List ρ} (hl : l.Pairwise lt) {n : Nat} {y : ρ}
    (hy : (l.take n).getLast? = some y) {x : ρ} (hx : x ∈ l) : x ∈ l.take n ↔ ¬ lt y x := by
  obtain ⟨hread, hrest⟩ := split_at_last hl hy
  refine ⟨hread x, fun hnot => ?_⟩
  rw [← List.take_append_drop n l, List.mem_append] at hx
  exact hx.resolve_right fun h => hnot (hrest x h)

end

/-! ## Comparing by several keys -/

section
variable {ρ : Type}

/-- Compare by the first, where that finds them equal by the next, and so on. -/
def lex : List (ρ → ρ → Ordering) → ρ → ρ → Ordering
  | [] => fun _ _ => .eq
  | cmp :: cmps => compareLex cmp (lex cmps)

theorem lex_transCmp : ∀ {cmps : List (ρ → ρ → Ordering)}, (∀ cmp ∈ cmps, Std.TransCmp cmp) →
    Std.TransCmp (lex cmps)
  | [], _ => { eq_swap := rfl, isLE_trans := fun _ _ => rfl }
  | cmp :: cmps, h => by
      rw [List.forall_mem_cons] at h
      have := h.1
      have := lex_transCmp h.2
      exact inferInstanceAs (Std.TransCmp (compareLex cmp (lex cmps)))

theorem lex_eq_eq_iff {x y : ρ} : ∀ {cmps : List (ρ → ρ → Ordering)},
    lex cmps x y = .eq ↔ ∀ cmp ∈ cmps, cmp x y = .eq
  | [] => by simp [lex]
  | cmp :: cmps => by rw [lex, compareLex_eq_eq, lex_eq_eq_iff, List.forall_mem_cons]

/-- **Strictly before**: equal by some of the first keys, and smaller by the next. -/
theorem lex_eq_lt_iff {x y : ρ} : ∀ {cmps : List (ρ → ρ → Ordering)}, lex cmps x y = .lt ↔
    ∃ i, (∀ cmp ∈ cmps.take i, cmp x y = .eq) ∧ ∃ cmp, cmps[i]? = some cmp ∧ cmp x y = .lt
  | [] => by simp [lex]
  | cmp :: cmps => by
      rw [lex, compareLex, Ordering.then_eq_lt, lex_eq_lt_iff]
      constructor
      · rintro (hlt | ⟨heq, i, hbelow, hnext⟩)
        · exact ⟨0, by simp, cmp, rfl, hlt⟩
        · exact ⟨i + 1, by simpa [heq] using hbelow, hnext⟩
      · rintro ⟨_ | i, hbelow, hnext⟩
        · obtain ⟨_, hcmp, hlt⟩ := hnext
          obtain rfl : cmp = _ := by simpa using hcmp
          exact .inl hlt
        · rw [List.take_succ_cons, List.forall_mem_cons] at hbelow
          exact .inr ⟨hbelow.1, i, hbelow.2, hnext⟩

/-- The strict order of a comparison. -/
def Before (cmp : ρ → ρ → Ordering) (x y : ρ) : Prop := cmp x y = .lt

instance (cmp : ρ → ρ → Ordering) : DecidableRel (Before cmp) := fun x y =>
  inferInstanceAs (Decidable (cmp x y = .lt))

/-- The rows in order. -/
def sorted (cmp : ρ → ρ → Ordering) (l : List ρ) : List ρ :=
  l.insertionSort fun x y => (cmp x y).isLE = true

section
variable {cmp : ρ → ρ → Ordering} [Std.TransCmp cmp]

instance : IsStrictOrder ρ (Before cmp) where
  irrefl x h := by
    have hself : cmp x x = .eq := Std.ReflCmp.compare_self
    rw [Before, hself] at h
    cases h
  trans _ _ _ h h' := Std.TransCmp.lt_trans h h'

instance isTrans_isLE : IsTrans ρ fun x y => (cmp x y).isLE = true where
  trans _ _ _ h h' := Std.TransCmp.isLE_trans h h'

instance total_isLE : Std.Total fun x y : ρ => (cmp x y).isLE = true where
  total x y := by
    cases h : (cmp x y).isLE with
    | true => exact .inl rfl
    | false =>
        refine .inr ?_
        rw [← Std.OrientedCmp.isGE_eq_isLE]
        revert h
        cases cmp x y <;> simp

omit [Std.TransCmp cmp] in
theorem sorted_perm (l : List ρ) : (sorted cmp l).Perm l := List.perm_insertionSort _ l

/-- Rows no two of which compare equal come strictly one after the other. -/
theorem sorted_before {l : List ρ} (hl : l.Pairwise fun x y => cmp x y ≠ .eq) :
    (sorted cmp l).Pairwise (Before cmp) := by
  have hle : (sorted cmp l).Pairwise fun x y => (cmp x y).isLE = true :=
    List.pairwise_insertionSort _ l
  have hne : (sorted cmp l).Pairwise fun x y => cmp x y ≠ .eq :=
    hl.perm (sorted_perm l).symm fun hxy hyx => hxy (Std.OrientedCmp.eq_symm hyx)
  refine hle.imp₂ (fun x y hxy hne => ?_) hne
  revert hxy hne
  rw [Before]
  cases cmp x y <;> simp

/-- A strictly ordered list is the only one of its rows. -/
theorem sorted_eq_of_perm {l l' : List ρ} (hl' : l'.Pairwise (Before cmp)) (hp : l'.Perm l) :
    sorted cmp l = l' := by
  have hne : l.Pairwise fun x y => cmp x y ≠ .eq := by
    refine (hl'.imp fun {x y} hxy => ?_).perm hp fun hxy hyx => hxy (Std.OrientedCmp.eq_symm hyx)
    rw [hxy]
    decide
  refine List.Perm.eq_of_pairwise (fun x y _ _ hxy hyx => ?_) (sorted_before hne) hl'
    ((sorted_perm l).trans hp.symm)
  exact absurd (trans_of (Before cmp) hxy hyx) (irrefl_of (Before cmp) x)

/-- **Reading on.** Sorting the rows after the last one read gives the rows not read. -/
theorem sorted_after_last {l : List ρ} (hl : l.Pairwise fun x y => cmp x y ≠ .eq) {n : Nat} {y : ρ}
    (hy : ((sorted cmp l).take n).getLast? = some y) :
    sorted cmp (l.filter fun x => Before cmp y x) = (sorted cmp l).drop n := by
  have hbefore := sorted_before hl
  refine sorted_eq_of_perm (hbefore.sublist (List.drop_sublist n _)) ?_
  rw [← filter_after_last hbefore hy]
  exact (sorted_perm l).filter _

end

end

end BeSdk.Keyset
