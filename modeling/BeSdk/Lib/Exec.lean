/-
BeSdk.Lib.Exec — computations that change a state, raise exceptions and leave a trace.

A computation takes a state to what it comes to: a value or an exception, the state it
leaves, and what it did, oldest first. An exception undoes neither the state nor the
trace. `within` is a context with its exit: the exit runs on every way out, and what it
raises takes the place of what came before.

The rules run a computation by what its parts come to, so a proof about a nest of
contexts follows the nest and unfolds none of it.
-/
import Mathlib.Data.List.Basic

namespace BeSdk

/-- What a computation comes to. -/
structure Done (ε σ τ α : Type) where
  outcome : Except ε α
  state : σ
  trace : List τ

structure Exec (ε σ τ α : Type) where
  run : σ → Done ε σ τ α

variable {ε σ τ α β : Type}

/-- With what was done before. -/
def Done.after (d : Done ε σ τ α) (t : List τ) : Done ε σ τ α := { d with trace := t ++ d.trace }

@[simp] theorem Done.after_mk {o : Except ε α} {s : σ} {t t' : List τ} :
    (Done.mk o s t').after t = ⟨o, s, t ++ t'⟩ := rfl

/-- The exception, where there is one. -/
def failing (failure : Option ε) (result : Except ε α) : Except ε α :=
  match failure with
  | some e => .error e
  | none => result

@[simp] theorem failing_some {e : ε} {result : Except ε α} :
    failing (some e) result = .error e := rfl
@[simp] theorem failing_none {result : Except ε α} : failing none result = result := rfl

theorem failing_or {f g : Option ε} {result : Except ε α} :
    failing (f.or g) result = failing f (failing g result) := by
  cases f <;> rfl

namespace Exec

instance : Monad (Exec ε σ τ) where
  pure a := ⟨fun s => ⟨.ok a, s, []⟩⟩
  bind x f := ⟨fun s =>
    match x.run s with
    | ⟨.ok a, s', t⟩ => ((f a).run s').after t
    | ⟨.error e, s', t⟩ => ⟨.error e, s', t⟩⟩

def raise (e : ε) : Exec ε σ τ α := ⟨fun s => ⟨.error e, s, []⟩⟩

/-- Raises where there is an exception. -/
def perhaps : Option ε → Exec ε σ τ Unit
  | none => pure ()
  | some e => raise e

def returned : Except ε α → Exec ε σ τ α
  | .ok a => pure a
  | .error e => raise e

def emit (x : τ) : Exec ε σ τ Unit := ⟨fun s => ⟨.ok (), s, [x]⟩⟩

def get : Exec ε σ τ σ := ⟨fun s => ⟨.ok s, s, []⟩⟩

def update (f : σ → σ) : Exec ε σ τ Unit := ⟨fun s => ⟨.ok (), f s, []⟩⟩

/-- A computation, and what is done about its exception. -/
def handle (x : Exec ε σ τ α) (handler : ε → Exec ε σ τ α) : Exec ε σ τ α := ⟨fun s =>
  match x.run s with
  | ⟨.ok a, s', t⟩ => ⟨.ok a, s', t⟩
  | ⟨.error e, s', t⟩ => ((handler e).run s').after t⟩

/-- A computation and its exit, which learns how it went. -/
def within (x : Exec ε σ τ α) (exit : Except ε α → Exec ε σ τ Unit) : Exec ε σ τ α := ⟨fun s =>
  match x.run s with
  | ⟨o, s', t⟩ =>
      match (exit o).run s' with
      | ⟨.ok _, s'', t'⟩ => ⟨o, s'', t ++ t'⟩
      | ⟨.error e, s'', t'⟩ => ⟨.error e, s'', t ++ t'⟩⟩

/-! ## Rules -/

variable {s s' s'' : σ} {t t' : List τ} {a : α} {e : ε}

@[simp] theorem pure_run : (pure a : Exec ε σ τ α).run s = ⟨.ok a, s, []⟩ := rfl
@[simp] theorem raise_run : (raise e : Exec ε σ τ α).run s = ⟨.error e, s, []⟩ := rfl
@[simp] theorem emit_run {x : τ} : (emit x : Exec ε σ τ Unit).run s = ⟨.ok (), s, [x]⟩ := rfl
@[simp] theorem get_run : (get : Exec ε σ τ σ).run s = ⟨.ok s, s, []⟩ := rfl
@[simp] theorem update_run {f : σ → σ} :
    (update f : Exec ε σ τ Unit).run s = ⟨.ok (), f s, []⟩ := rfl

@[simp] theorem perhaps_run {o : Option ε} :
    (perhaps o : Exec ε σ τ Unit).run s = ⟨failing o (.ok ()), s, []⟩ := by
  cases o <;> rfl

@[simp] theorem returned_run {r : Except ε α} : (returned r : Exec ε σ τ α).run s = ⟨r, s, []⟩ := by
  cases r <;> rfl

theorem bind_of_ok {x : Exec ε σ τ α} {f : α → Exec ε σ τ β} (hx : x.run s = ⟨.ok a, s', t⟩) :
    (x >>= f).run s = ((f a).run s').after t := by
  simp [bind, hx]

theorem bind_of_error {x : Exec ε σ τ α} {f : α → Exec ε σ τ β} (hx : x.run s = ⟨.error e, s', t⟩) :
    (x >>= f).run s = ⟨.error e, s', t⟩ := by
  simp [bind, hx]

/-- After a part that may raise, and does nothing else. -/
theorem bind_of_failing {x : Exec ε σ τ α} {f : α → Exec ε σ τ β} {failure : Option ε}
    {r : Except ε β} (hx : x.run s = ⟨failing failure (.ok a), s, []⟩)
    (hf : (f a).run s = ⟨r, s, t⟩) :
    (x >>= f).run s = ⟨failing failure r, s, if failure.isNone then t else []⟩ := by
  cases failure with
  | none =>
      rw [bind_of_ok hx, hf]
      rfl
  | some e =>
      rw [bind_of_error hx]
      simp

theorem handle_of_ok {x : Exec ε σ τ α} {handler : ε → Exec ε σ τ α}
    (hx : x.run s = ⟨.ok a, s', t⟩) : (handle x handler).run s = ⟨.ok a, s', t⟩ := by
  simp [handle, hx]

theorem handle_of_error {x : Exec ε σ τ α} {handler : ε → Exec ε σ τ α}
    (hx : x.run s = ⟨.error e, s', t⟩) :
    (handle x handler).run s = ((handler e).run s').after t := by
  simp [handle, hx]

/-- An exit that raises has the last word. -/
theorem within_of {x : Exec ε σ τ α} {exit : Except ε α → Exec ε σ τ Unit} {o : Except ε α}
    {failure : Option ε} (hx : x.run s = ⟨o, s', t⟩)
    (hexit : (exit o).run s' = ⟨failing failure (.ok ()), s'', t'⟩) :
    (within x exit).run s = ⟨failing failure o, s'', t ++ t'⟩ := by
  simp only [within, hx, hexit]
  cases failure <;> rfl

/-- Emitting for each element emits them in their order. -/
theorem forM_emit {f : α → τ} {l : List α} :
    (l.forM fun x => emit (f x) : Exec ε σ τ Unit).run s = ⟨.ok (), s, l.map f⟩ := by
  induction l with
  | nil => rfl
  | cons x l ih =>
      show ((emit (f x) : Exec ε σ τ Unit) >>= fun _ => l.forM fun x => emit (f x)).run s = _
      rw [bind_of_ok emit_run, ih]
      rfl

end Exec

end BeSdk
