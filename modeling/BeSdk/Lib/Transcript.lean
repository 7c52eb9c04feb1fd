/-
BeSdk.Lib.Transcript — what a list of events gives off, each in view of those before it.

A traversal that keeps a table and reports things on the way is a list of events with a
function `give`: what an event gives off after the ones before it. The table is whatever
`give` reads off these.
-/
import Mathlib.Data.List.Basic

namespace BeSdk

variable {ε φ : Type}

/-- What the events give off after the ones before them, in order. -/
def transcript (give : List ε → ε → List φ) (before : List ε) : List ε → List φ
  | [] => []
  | e :: rest => give before e ++ transcript give (before ++ [e]) rest

theorem transcript_append (give : List ε → ε → List φ) : ∀ (es es' before : List ε),
    transcript give before (es ++ es') = transcript give before es ++ transcript give
    (before ++ es) es'
  | [], es', before => by rw [List.nil_append, List.append_nil]; rfl
  | e :: rest, es', before => by
      rw [List.cons_append, transcript, transcript,
        transcript_append give rest es' (before ++ [e]), List.append_assoc,
        List.append_assoc]
      rfl

theorem transcript_singleton (give : List ε → ε → List φ) (before : List ε) (e : ε) :
    transcript give before [e] = give before e := List.append_nil _

/-- The event at a place, with what it gives off. -/
def givenAt (give : List ε → ε → List φ) (es : List ε) (i : Nat) : List φ :=
  match es[i]? with
  | some e => give (es.take i) e
  | none => []

theorem givenAt_eq {give : List ε → ε → List φ} {es : List ε} {i : Nat} {e : ε}
    (h : es[i]? = some e) : givenAt give es i = give (es.take i) e := by rw [givenAt, h]

theorem mem_transcript {give : List ε → ε → List φ} {x : φ} : ∀ {es before : List ε},
    x ∈ transcript give before es ↔ ∃ i e, es[i]? = some e ∧ x ∈ give (before ++ es.take i) e
  | [], before => by simp [transcript]
  | e :: rest, before => by
      rw [transcript, List.mem_append, mem_transcript]
      constructor
      · rintro (h | ⟨i, e', he, h⟩)
        · exact ⟨0, e, rfl, by simpa using h⟩
        · refine ⟨i + 1, e', he, ?_⟩
          rw [List.take_succ_cons, List.append_cons]
          exact h
      · rintro ⟨i, e', he, h⟩
        cases i with
        | zero =>
            obtain rfl := Option.some.inj he
            exact .inl (by simpa using h)
        | succ i =>
            rw [List.take_succ_cons, List.append_cons] at h
            exact .inr ⟨i, e', he, h⟩

/-- What is given off is given off at some place. -/
theorem mem_transcript_nil {give : List ε → ε → List φ} {x : φ} {es : List ε} :
    x ∈ transcript give [] es ↔ ∃ i, x ∈ givenAt give es i := by
  rw [mem_transcript]
  constructor
  · rintro ⟨i, e, he, h⟩
    exact ⟨i, by rw [givenAt_eq he]; exact h⟩
  · rintro ⟨i, h⟩
    cases he : es[i]? with
    | none => simp [givenAt, he] at h
    | some e =>
        rw [givenAt_eq he] at h
        exact ⟨i, e, he, h⟩

end BeSdk
