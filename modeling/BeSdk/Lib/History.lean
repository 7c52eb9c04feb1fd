/-
BeSdk.Lib.History — runs of a machine, their histories, and what a history says
about the past.

A machine is a function `step : σ → ω → σ × ε`: in a state it takes an operation
to the next state and an EVENT, the part of what happened that later statements
speak about. `Reach step ok init h s` says that some operations lead from `init`
to `s`, each allowed by the guard `ok` in the state it is taken in, and that `h` is
the list of their events, NEWEST FIRST. Newest first is what makes the past a list
recursion: the last event is the head. The guard is what a statement about "every
run whose steps all meet a condition" ranges over; `anyOp` allows everything.

`Since φ ψ h` is the one past-time operator needed: at some event `ψ` held, and
`φ` holds of every event after it. "The evidence is still good", "nothing was
revoked after the last renewal" and "it was confirmed after the last doubt" are
all of that form, and each is maintained by an invariant through `Since.cons`.

Of several parties in a list a step changes one, or lets one join; the `getElem?_`
rules say which party is then at a place.
-/
import Mathlib.Data.List.Basic

namespace BeSdk

variable {σ ω ε : Type}

/-! ## Runs -/

/-- `s` is reached from `init` by allowed operations with the events `h`, newest
first. -/
inductive Reach (step : σ → ω → σ × ε) (ok : σ → ω → Prop) (init : σ) : List ε → σ → Prop
  | nil : Reach step ok init [] init
  | snoc {h : List ε} {s : σ} (o : ω) : ok s o →
      Reach step ok init h s → Reach step ok init ((step s o).2 :: h) (step s o).1

/-- The guard that allows every operation in every state. -/
def anyOp : σ → ω → Prop := fun _ _ => True

/-- The induction rule: what holds at the start and is preserved by every allowed
step, in view of the history so far, holds of every run. -/
theorem Reach.invariant {step : σ → ω → σ × ε} {ok : σ → ω → Prop} {init : σ}
    {Inv : List ε → σ → Prop} (hinit : Inv [] init)
    (hstep : ∀ h s o, ok s o → Inv h s → Inv ((step s o).2 :: h) (step s o).1)
    {h : List ε} {s : σ} (hr : Reach step ok init h s) : Inv h s := by
  induction hr with
  | nil => exact hinit
  | snoc o hok _ ih => exact hstep _ _ o hok ih

theorem Reach.trans {step : σ → ω → σ × ε} {ok : σ → ω → Prop} {a b c : σ} {h h' : List ε}
    (hab : Reach step ok a h b) (hbc : Reach step ok b h' c) : Reach step ok a (h' ++ h) c := by
  induction hbc with
  | nil => exact hab
  | snoc o hok _ ih => exact .snoc o hok ih

/-- A part of a machine that only takes steps of its own runs as it does alone. -/
theorem Reach.project {σ' ω' ε' : Type} {step : σ → ω → σ × ε} {ok : σ → ω → Prop}
    {step' : σ' → ω' → σ' × ε'} {ok' : σ' → ω' → Prop} (part : σ → σ') (seen : ε → Option ε')
    {init : σ} (hstep : ∀ s o, ok s o →
      (part (step s o).1 = part s ∧ seen (step s o).2 = none) ∨
        ∃ o', ok' (part s) o' ∧ part (step s o).1 = (step' (part s) o').1 ∧
          seen (step s o).2 = some (step' (part s) o').2)
    {h : List ε} {s : σ} (hr : Reach step ok init h s) :
    Reach step' ok' (part init) (h.filterMap seen) (part s) := by
  induction hr with
  | nil => exact .nil
  | snoc o hok _ ih =>
      rcases hstep _ o hok with ⟨hpart, hseen⟩ | ⟨o', hok', hpart, hseen⟩
      · rw [List.filterMap_cons_none hseen, hpart]
        exact ih
      · rw [List.filterMap_cons_some hseen, hpart]
        exact ih.snoc o' hok'

/-- Running a list of operations, oldest first. -/
def runOps (step : σ → ω → σ × ε) (s : σ) : List ω → List ε × σ
  | [] => ([], s)
  | o :: os =>
      let (h, s') := runOps step (step s o).1 os
      (h ++ [(step s o).2], s')

/-- Any list of operations is a run. -/
theorem reach_runOps (step : σ → ω → σ × ε) : ∀ (os : List ω) (s : σ),
    Reach step anyOp s (runOps step s os).1 (runOps step s os).2
  | [], _ => .nil
  | o :: os, s => (Reach.snoc o trivial .nil).trans (reach_runOps step os (step s o).1)

/-- Whether each of a list of operations, oldest first, is allowed where it is
taken. -/
def allAllowed (step : σ → ω → σ × ε) (ok : σ → ω → Prop) [∀ s o, Decidable (ok s o)] :
    σ → List ω → Bool
  | _, [] => true
  | s, o :: os => decide (ok s o) && allAllowed step ok (step s o).1 os

/-- A list of allowed operations is a run. -/
theorem reach_of_allAllowed {step : σ → ω → σ × ε} {ok : σ → ω → Prop} [∀ s o, Decidable (ok s o)] :
    ∀ (os : List ω) {s : σ}, allAllowed step ok s os = true →
    Reach step ok s (runOps step s os).1 (runOps step s os).2
  | [], _, _ => .nil
  | o :: os, s, hall => by
      rw [allAllowed, Bool.and_eq_true, decide_eq_true_iff] at hall
      exact (Reach.snoc o hall.1 .nil).trans (reach_of_allAllowed os hall.2)

/-! ## Parties

A machine of several parties keeps them in a list: a step changes one of them, or lets
one more join. -/

theorem getElem?_set_cases {π : Type} {l : List π} {i j : Nat} {p q : π}
    (h : (l.set i p)[j]? = some q) : (j = i ∧ q = p) ∨ (j ≠ i ∧ l[j]? = some q) := by
  by_cases hij : j = i
  · subst hij
    rw [List.getElem?_set_self'] at h
    obtain ⟨_, _, rfl⟩ := Option.map_eq_some_iff.mp h
    exact .inl ⟨rfl, rfl⟩
  · rw [List.getElem?_set_ne (Ne.symm hij)] at h
    exact .inr ⟨hij, h⟩

theorem getElem?_join_cases {π : Type} {l : List π} {j : Nat} {p q : π}
    (h : (l ++ [p])[j]? = some q) : l[j]? = some q ∨ (j = l.length ∧ q = p) := by
  rcases Nat.lt_or_ge j l.length with hlt | hge
  · exact .inl (by rwa [List.getElem?_append_left hlt] at h)
  · have hj : j = l.length := by
      have := (List.getElem?_eq_some_iff.mp h).1
      rw [List.length_append, List.length_singleton] at this
      omega
    subst hj
    rw [List.getElem?_concat_length] at h
    exact .inr ⟨rfl, (Option.some.inj h).symm⟩

/-- Those already there stay where they are. -/
theorem getElem?_join {π : Type} {l later : List π} {j : Nat} {q : π} (h : l[j]? = some q) :
    (l ++ later)[j]? = some q := by
  rw [List.getElem?_append_left (List.getElem?_eq_some_iff.mp h).1, h]

/-! ## The past -/

/-- `ψ` held at some event and `φ` has held at every event since. -/
def Since (φ ψ : ε → Prop) : List ε → Prop
  | [] => False
  | e :: h => ψ e ∨ (φ e ∧ Since φ ψ h)

@[simp] theorem since_nil (φ ψ : ε → Prop) : ¬ Since φ ψ [] := id

instance Since.decidable (φ ψ : ε → Prop) [DecidablePred φ] [DecidablePred ψ] :
    DecidablePred (Since φ ψ)
  | [] => inferInstanceAs (Decidable False)
  | e :: h =>
      have := Since.decidable φ ψ h
      inferInstanceAs (Decidable (ψ e ∨ (φ e ∧ Since φ ψ h)))

theorem Since.mono {φ φ' ψ ψ' : ε → Prop} (hφ : ∀ e, φ e → φ' e) (hψ : ∀ e, ψ e → ψ' e) :
    ∀ {h : List ε}, Since φ ψ h → Since φ' ψ' h
  | [], hs => hs.elim
  | _ :: _, Or.inl h => Or.inl (hψ _ h)
  | _ :: _, Or.inr ⟨he, hs⟩ => Or.inr ⟨hφ _ he, hs.mono hφ hψ⟩

/-- A harmless event keeps what held since. -/
theorem Since.cons {φ ψ : ε → Prop} {e : ε} {h : List ε} (he : φ e) (hs : Since φ ψ h) :
    Since φ ψ (e :: h) := Or.inr ⟨he, hs⟩

end BeSdk
