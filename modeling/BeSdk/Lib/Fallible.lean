/-
BeSdk.Lib.Fallible — rules for computations that may fail.

`Except ε` is read through one question: what does a computation that succeeds say
about its parts? `bind_eq_ok_iff` and `mapM_eq_ok_iff` peel a success apart, so a
proof about a fallible function never unfolds the monad. `Raises` is for the other
question, when a computation fails whose only failure is `e`; `FailsWith` asks it for a
kind of failures, as a handler does that lets the others pass.
-/
import Mathlib.Data.List.Forall2

namespace BeSdk

variable {ε α β : Type}

theorem bind_eq_ok_iff {x : Except ε α} {f : α → Except ε β} {b : β} :
    x >>= f = .ok b ↔ ∃ a, x = .ok a ∧ f a = .ok b := by
  cases x with
  | error e => exact ⟨fun h => (by cases h), fun ⟨_, h, _⟩ => (by cases h)⟩
  | ok a => exact ⟨fun h => ⟨a, rfl, h⟩, fun ⟨_, h, h'⟩ => (by cases h; exact h')⟩

/-- A computation of two fails where the first does, or the second on its result. -/
theorem bind_eq_error_iff {x : Except ε α} {f : α → Except ε β} {e : ε} :
    x >>= f = .error e ↔ x = .error e ∨ ∃ a, x = .ok a ∧ f a = .error e := by
  cases x with
  | error e' =>
      constructor
      · intro h
        cases h
        exact .inl rfl
      · rintro (h | ⟨a, h, -⟩)
        · cases h
          rfl
        · cases h
  | ok a =>
      constructor
      · intro h
        exact .inr ⟨a, rfl, h⟩
      · rintro (h | ⟨a', h, h'⟩)
        · cases h
        · cases h
          exact h'

theorem map_eq_ok_iff {x : Except ε α} {f : α → β} {b : β} :
    x.map f = .ok b ↔ ∃ a, x = .ok a ∧ f a = b := by
  cases x with
  | error e => exact ⟨fun h => (by cases h), fun ⟨_, h, _⟩ => (by cases h)⟩
  | ok a =>
      exact ⟨fun h => ⟨a, rfl, (by cases h; rfl)⟩, fun ⟨_, h, h'⟩ => (by cases h; cases h'; rfl)⟩

theorem pure_eq_ok_iff {a b : α} : (pure a : Except ε α) = .ok b ↔ a = b :=
  ⟨fun h => (by cases h; rfl), fun h => h ▸ rfl⟩

/-- Success as a computed test. -/
theorem exists_ok_of_isSome {x : Except ε α} (h : x.toOption.isSome = true) : ∃ a, x = .ok a := by
  cases x with
  | error e => cases h
  | ok a => exact ⟨a, rfl⟩

/-- A list computed element by element succeeds where every element does. -/
theorem mapM_eq_ok_iff {f : α → Except ε β} : ∀ {l : List α} {bs : List β},
    l.mapM f = .ok bs ↔ List.Forall₂ (fun a b => f a = .ok b) l bs
  | [], bs => by
      rw [List.mapM_nil, pure_eq_ok_iff, List.forall₂_nil_left_iff, eq_comm]
  | a :: l, bs => by
      simp only [List.mapM_cons, bind_eq_ok_iff, pure_eq_ok_iff, mapM_eq_ok_iff (l := l)]
      rw [List.forall₂_cons_left_iff]
      constructor
      · rintro ⟨b, hb, cs, hcs, rfl⟩
        exact ⟨b, cs, hb, hcs, rfl⟩
      · rintro ⟨b, cs, hb, hcs, rfl⟩
        exact ⟨b, hb, cs, hcs, rfl⟩

theorem mapM_ok {f : α → Except ε β} {g : α → β} {l : List α} (h : ∀ a ∈ l, f a = .ok (g a)) :
    l.mapM f = .ok (l.map g) := by
  rw [mapM_eq_ok_iff, List.forall₂_map_right_iff, List.forall₂_same]
  exact h

theorem exists_ok_of_mapM {f : α → Except ε β} {l : List α} {bs : List β} (h : l.mapM f = .ok bs) :
    ∀ a ∈ l, ∃ b, f a = .ok b := by
  induction mapM_eq_ok_iff.mp h with
  | nil => simp
  | cons hab hrest ih =>
      rw [List.forall_mem_cons]
      exact ⟨⟨_, hab⟩, ih (mapM_eq_ok_iff.mpr hrest)⟩

theorem exists_mapM {f : α → Except ε β} : ∀ {l : List α}, (∀ a ∈ l, ∃ b, f a = .ok b) →
    ∃ bs, l.mapM f = .ok bs
  | [], _ => ⟨[], rfl⟩
  | a :: l, h => by
      rw [List.forall_mem_cons] at h
      obtain ⟨⟨b, hb⟩, hrest⟩ := h
      obtain ⟨bs, hbs⟩ := exists_mapM hrest
      exact ⟨b :: bs, mapM_eq_ok_iff.mpr (.cons hb (mapM_eq_ok_iff.mp hbs))⟩

/-- Every element stands beside its result. -/
theorem exists_mem_zip_of_mapM {f : α → Except ε β} {l : List α} {bs : List β}
    (h : l.mapM f = .ok bs) : ∀ a ∈ l, ∃ b, (a, b) ∈ l.zip bs ∧ f a = .ok b := by
  induction mapM_eq_ok_iff.mp h with
  | nil => simp
  | @cons a b l bs hab hrest ih =>
      refine List.forall_mem_cons.mpr ⟨⟨b, List.mem_cons_self .., hab⟩, fun x hx => ?_⟩
      obtain ⟨y, hy, hxy⟩ := ih (mapM_eq_ok_iff.mpr hrest) x hx
      exact ⟨y, List.mem_cons_of_mem _ hy, hxy⟩

/-- Every element has a result with a property, or the results together have it. -/
theorem exists_mapM_iff {f : α → Except ε β} {P : α → β → Prop} : ∀ {l : List α},
    (∃ bs, l.mapM f = .ok bs ∧ List.Forall₂ P l bs) ↔ ∀ a ∈ l, ∃ b, f a = .ok b ∧ P a b
  | [] => by
      simp only [List.not_mem_nil, false_implies, implies_true, iff_true]
      exact ⟨[], rfl, .nil⟩
  | a :: l => by
      rw [List.forall_mem_cons, ← exists_mapM_iff]
      constructor
      · rintro ⟨bs, hbs, hall⟩
        rw [mapM_eq_ok_iff] at hbs
        cases hbs with
        | cons hb hrest =>
          cases hall with
          | cons hp hall => exact ⟨⟨_, hb, hp⟩, _, mapM_eq_ok_iff.mpr hrest, hall⟩
      · rintro ⟨⟨b, hb, hp⟩, bs, hbs, hall⟩
        exact ⟨b :: bs, mapM_eq_ok_iff.mpr (.cons hb (mapM_eq_ok_iff.mp hbs)), .cons hp hall⟩

/-- Every result comes from an element. -/
theorem exists_of_mem_mapM {f : α → Except ε β} {l : List α} {bs : List β} (h : l.mapM f = .ok bs) :
    ∀ b ∈ bs, ∃ a ∈ l, f a = .ok b := by
  induction mapM_eq_ok_iff.mp h with
  | nil => simp
  | cons hab hrest ih =>
      rw [List.forall_mem_cons]
      refine ⟨⟨_, List.mem_cons_self .., hab⟩, fun b hb => ?_⟩
      obtain ⟨a, ha, hab'⟩ := ih (mapM_eq_ok_iff.mpr hrest) b hb
      exact ⟨a, List.mem_cons_of_mem _ ha, hab'⟩

/-- A list computed element by element fails where its first failing element does. -/
theorem mapM_append_error {f : α → Except ε β} {pre : List α} (post : List α) {a : α} {e : ε}
    (hpre : ∀ x ∈ pre, ∃ b, f x = .ok b) (ha : f a = .error e) :
    (pre ++ a :: post).mapM f = .error e := by
  induction pre with
  | nil => simp [ha, bind, Except.bind]
  | cons x pre ih =>
    rw [List.forall_mem_cons] at hpre
    obtain ⟨⟨b, hb⟩, hrest⟩ := hpre
    simp [hb, ih hrest, bind, Except.bind]

/-- Every element has a result, or there is a first one that fails. -/
theorem forall_ok_or_first_error (f : α → Except ε β) (l : List α) : (∀ a ∈ l, ∃ b, f a = .ok b) ∨
    ∃ pre a post e, l = pre ++ a :: post ∧ (∀ x ∈ pre, ∃ b, f x = .ok b) ∧ f a = .error e := by
  induction l with
  | nil => exact .inl (by simp)
  | cons a l ih =>
    cases ha : f a with
    | error e => exact .inr ⟨[], a, l, e, rfl, by simp, ha⟩
    | ok b =>
      rcases ih with hall | ⟨pre, x, post, e, rfl, hpre, hx⟩
      · exact .inl (List.forall_mem_cons.mpr ⟨⟨b, ha⟩, hall⟩)
      · exact .inr ⟨a :: pre, x, post, e, rfl, List.forall_mem_cons.mpr ⟨⟨b, ha⟩, hpre⟩, hx⟩

/-! ## One failure -/

/-- The computation fails with `e` under a condition, and otherwise returns. -/
def Raises (e : ε) (x : Except ε α) (P : Prop) : Prop := (P ∧ x = .error e) ∨ (¬ P ∧ ∃ a, x = .ok a)

section
variable {e : ε} {x : Except ε α} {P Q : Prop}

theorem Raises.of_ok {a : α} (h : x = .ok a) : Raises e x False := .inr ⟨id, a, h⟩

theorem Raises.congr (h : Raises e x P) (hPQ : P ↔ Q) : Raises e x Q := by
  unfold Raises at h ⊢
  rwa [← hPQ]

/-- The first of two computations fails, or the second does on its result. -/
theorem Raises.bind {f : α → Except ε β} (hx : Raises e x P)
    (hf : ∀ a, x = .ok a → Raises e (f a) Q) : Raises e (x >>= f) (P ∨ Q) := by
  rcases hx with ⟨hP, hx⟩ | ⟨hP, a, hx⟩
  · exact .inl ⟨.inl hP, by rw [hx]; rfl⟩
  · rcases hf a hx with ⟨hQ, hfa⟩ | ⟨hQ, b, hfa⟩
    · exact .inl ⟨.inr hQ, by rw [hx]; exact hfa⟩
    · exact .inr ⟨not_or.mpr ⟨hP, hQ⟩, b, by rw [hx]; exact hfa⟩

theorem Raises.error_iff (h : Raises e x P) {e' : ε} : x = .error e' ↔ e' = e ∧ P := by
  rcases h with ⟨hP, hx⟩ | ⟨hP, a, hx⟩
  · rw [hx]
    simp [hP, eq_comm]
  · rw [hx]
    simp [hP]

theorem Raises.ok_iff (h : Raises e x P) : (∃ a, x = .ok a) ↔ ¬ P := by
  rcases h with ⟨hP, hx⟩ | ⟨hP, a, hx⟩
  · rw [hx]
    simp [hP]
  · rw [hx]
    simp [hP]

end

/-! ## Failures of a kind -/

/-- The computation fails, and in the way that is asked for. -/
def FailsWith (P : ε → Prop) (x : Except ε α) : Prop := ∃ e, x = .error e ∧ P e

section
variable {P : ε → Prop} {x : Except ε α}

end

end BeSdk
