/-
BeSdk.Lib.Tri — strong Kleene three-valued logic.

`Tri` is the result of a condition that may lack the knowledge to decide:
`false`, `true` or `unknown`. The connectives are Kleene's strong ones, which
are also SQL's (`NULL` is `unknown`): a conjunction is false as soon as one
conjunct is, whatever is unknown about the others.

Two orders live on `Tri`. `Tri.Below` is the KNOWLEDGE order: `unknown` is
below everything, the two definite values are maximal. Every connective is
monotone in it, and that is the whole content of "what was definite on partial
knowledge stays so on more of it". `≤` is the TRUTH order, `false < unknown <
true`: what a further disjunct can only raise.

`Tri.all` and `Tri.any` are the connectives over lists, in the shape both an
evaluator's loops and a rendered `AND`/`OR` chain reduce to. They are
characterised by membership (`all_eq_true_iff`, `any_eq_true_iff`, …), which is
why neither the order nor the repetition of the list matters.
-/
import Mathlib.Data.List.Forall2

namespace BeSdk

/-- A three-valued truth value. -/
inductive Tri where
  | false
  | true
  | unknown
  deriving DecidableEq, Repr

/-! ## Connectives -/

/-- Kleene conjunction. -/
def Tri.and : Tri → Tri → Tri
  | .false, _ => .false
  | _, .false => .false
  | .true, .true => .true
  | _, _ => .unknown

/-- Kleene disjunction. -/
def Tri.or : Tri → Tri → Tri
  | .true, _ => .true
  | _, .true => .true
  | .false, .false => .false
  | _, _ => .unknown

/-- A decided condition. -/
def Tri.ofBool (b : Bool) : Tri := if b then .true else .false

/-- Conjunction over a list; the empty one is true. -/
def Tri.all : List Tri → Tri
  | [] => .true
  | t :: ts => t.and (Tri.all ts)

/-- Disjunction over a list; the empty one is false. -/
def Tri.any : List Tri → Tri
  | [] => .false
  | t :: ts => t.or (Tri.any ts)

@[simp] theorem Tri.ofBool_true : Tri.ofBool Bool.true = .true := rfl
@[simp] theorem Tri.ofBool_false : Tri.ofBool Bool.false = .false := rfl

@[simp] theorem Tri.ofBool_eq_true_iff (b : Bool) : Tri.ofBool b = .true ↔ b = Bool.true := by
  cases b <;> simp

@[simp] theorem Tri.ofBool_ne_unknown (b : Bool) : Tri.ofBool b ≠ .unknown := by
  cases b <;> simp

@[simp] theorem Tri.and_eq_true_iff (a b : Tri) : a.and b = .true ↔ a = .true ∧ b = .true := by
  cases a <;> cases b <;> simp [Tri.and]

@[simp] theorem Tri.and_eq_false_iff (a b : Tri) :
    a.and b = .false ↔ a = .false ∨ b = .false := by
  cases a <;> cases b <;> simp [Tri.and]

@[simp] theorem Tri.or_eq_true_iff (a b : Tri) : a.or b = .true ↔ a = .true ∨ b = .true := by
  cases a <;> cases b <;> simp [Tri.or]

@[simp] theorem Tri.or_eq_false_iff (a b : Tri) :
    a.or b = .false ↔ a = .false ∧ b = .false := by
  cases a <;> cases b <;> simp [Tri.or]

theorem Tri.all_eq_true_iff (ts : List Tri) : Tri.all ts = .true ↔ ∀ t ∈ ts, t = .true := by
  induction ts with
  | nil => simp [Tri.all]
  | cons t ts ih => simp [Tri.all, ih]

theorem Tri.any_eq_true_iff (ts : List Tri) : Tri.any ts = .true ↔ .true ∈ ts := by
  induction ts with
  | nil => simp [Tri.any]
  | cons t ts ih =>
    rw [Tri.any, Tri.or_eq_true_iff, ih, List.mem_cons]
    exact or_congr eq_comm Iff.rfl

/-! ## The knowledge order -/

/-- `a` is below `b` when `b` knows at least as much: a definite `a` is kept. -/
def Tri.Below (a b : Tri) : Prop := a = .unknown ∨ a = b

instance (a b : Tri) : Decidable (Tri.Below a b) :=
  inferInstanceAs (Decidable (a = .unknown ∨ a = b))

@[refl] theorem Tri.Below.refl (a : Tri) : Tri.Below a a := Or.inr rfl

theorem Tri.below_unknown (a : Tri) : Tri.Below .unknown a := Or.inl rfl

/-- A definite value survives an increase of knowledge. -/
theorem Tri.Below.eq_of_ne {a b : Tri} (h : Tri.Below a b) (ha : a ≠ .unknown) : b = a := by
  rcases h with h | h
  · exact absurd h ha
  · exact h.symm

theorem Tri.Below.and {a a' b b' : Tri} (ha : Tri.Below a a') (hb : Tri.Below b b') :
    Tri.Below (a.and b) (a'.and b') := by
  rcases ha with rfl | rfl <;> rcases hb with rfl | rfl
  · exact Tri.below_unknown _
  · cases b <;> cases a' <;> simp [Tri.Below, Tri.and]
  · cases a <;> cases b' <;> simp [Tri.Below, Tri.and]
  · rfl

theorem Tri.Below.or {a a' b b' : Tri} (ha : Tri.Below a a') (hb : Tri.Below b b') :
    Tri.Below (a.or b) (a'.or b') := by
  rcases ha with rfl | rfl <;> rcases hb with rfl | rfl
  · exact Tri.below_unknown _
  · cases b <;> cases a' <;> simp [Tri.Below, Tri.or]
  · cases a <;> cases b' <;> simp [Tri.Below, Tri.or]
  · rfl

theorem Tri.Below.all {ts us : List Tri} (h : List.Forall₂ Tri.Below ts us) :
    Tri.Below (Tri.all ts) (Tri.all us) := by
  induction h with
  | nil => rfl
  | cons hab _ ih => exact hab.and ih

theorem Tri.Below.any {ts us : List Tri} (h : List.Forall₂ Tri.Below ts us) :
    Tri.Below (Tri.any ts) (Tri.any us) := by
  induction h with
  | nil => rfl
  | cons hab _ ih => exact hab.or ih

/-! ## The truth order -/

def Tri.rank : Tri → Nat
  | .false => 0
  | .unknown => 1
  | .true => 2

instance : LE Tri := ⟨fun a b => a.rank ≤ b.rank⟩

theorem Tri.le_iff (a b : Tri) : a ≤ b ↔ (a = .true → b = .true) ∧ (b = .false → a = .false) := by
  change a.rank ≤ b.rank ↔ _
  cases a <;> cases b <;> simp [Tri.rank]

theorem Tri.le_refl (a : Tri) : a ≤ a := (Tri.le_iff a a).mpr ⟨id, id⟩

theorem Tri.le_antisymm {a b : Tri} (hab : a ≤ b) (hba : b ≤ a) : a = b := by
  rw [Tri.le_iff] at hab hba
  cases a <;> cases b <;> simp at hab hba ⊢

/-- A conjunction rises with its parts. -/
theorem Tri.and_le_and {a a' b b' : Tri} (ha : a ≤ a') (hb : b ≤ b') : a.and b ≤ a'.and b' := by
  rw [Tri.le_iff] at ha hb ⊢
  simp only [Tri.and_eq_true_iff, Tri.and_eq_false_iff]
  exact ⟨fun h => ⟨ha.1 h.1, hb.1 h.2⟩, fun h => h.imp ha.2 hb.2⟩

end BeSdk
