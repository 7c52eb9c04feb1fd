/-
BeSdk.Db.TxTheorems — what a call of the transaction entry does on every script.

An attempt has a plain description: why it fails (`failure`), whether its transaction
takes effect (`effect`) and whether it gets past it (`answered`); `once_run` is the
equation of the nest of contexts with the description, from the inside out. The calls
are then lists of attempts, and an induction over the attempts left says which.

* `called_properly_iff`: a call commits at most once, runs the callbacks of the attempt
  that committed and no others, raises where none did and leaves the budgets and the
  marker as they were, exactly where no attempt of it swallows a failed statement or
  misses the reply to its `COMMIT` (`Sound`).
* `swallowed_runs_callbacks`: a call that returns, and runs a callback, though its
  transaction was rolled back.
-/
import BeSdk.Db.Tx

namespace BeSdk.Db.Tx

open Exec

section
variable {α γ : Type}

/-! ## One attempt -/

/-- The exception of the function. -/
def Attempt.raises (a : Attempt α γ) : Option Exn :=
  match a.result with
  | .ok _ => none
  | .error e => some e

/-- The exception of a statement. -/
def Attempt.stated (a : Attempt α γ) (outcome : Option Exn) : Option Exn :=
  if a.aborted then some (outcome.getD .other) else outcome

/-- The exception of the check of the cutoff. -/
def Attempt.refusal (a : Attempt α γ) : Option Exn :=
  match a.cutoff with
  | none => none
  | some cutoff => (a.stated a.idle).or (if cutoff ≤ a.now then some viewExpired else none)

/-- Why `COMMIT` is not sent in the transaction. -/
def Attempt.broken (a : Attempt α γ) (native : Bool) : Option Exn :=
  a.settings.or ((if native then a.timeout else none).or (a.raises.or a.refusal))

def Reply.failure : Reply → Option Exn
  | .arrived => none
  | .refused e => some e
  | .lost e => some e.val

def Reply.effect : Reply → Bool
  | .refused _ => false
  | _ => true

/-- The exception that ends the transaction. -/
def Attempt.ends (a : Attempt α γ) (native : Bool) : Option Exn :=
  a.begin_.or
    (match a.broken native with
      | some e => a.rollback.or (some e)
      | none => a.commit.failure)

/-- The exception that ends the attempt. -/
def Attempt.failure (a : Attempt α γ) (native : Bool) : Option Exn :=
  a.acquire.or ((a.release.map Subtype.val).or (a.ends native))

/-- `COMMIT` is sent. -/
def Attempt.sent (a : Attempt α γ) (native : Bool) : Bool :=
  a.acquire.isNone && a.begin_.isNone && (a.broken native).isNone

/-- The transaction takes effect. -/
def Attempt.effect (a : Attempt α γ) (native : Bool) : Bool :=
  a.sent native && !a.aborted && a.commit.effect

/-- The reply to `COMMIT` arrives. -/
def Attempt.answered (a : Attempt α γ) (native : Bool) : Bool :=
  a.sent native && a.commit.failure.isNone

/-- What an attempt makes known: that it commits, and the callbacks. -/
def Attempt.makes (a : Attempt α γ) (native : Bool) (n : Nat) : List (Event γ) :=
  (if a.effect native then [.committed n] else []) ++
    (if a.answered native then a.registers.map (.ran n) else [])

section
variable {a : Attempt α γ} {native : Bool} {n : Nat} {w : World}

/-- Registering functions appends them in their order. -/
theorem after_commits (l : List γ) :
    ∀ tx : Registered γ, (l.foldl Registered.afterCommit tx).after = tx.after ++ l := by
  induction l with
  | nil => simp
  | cons f l ih =>
      intro tx
      rw [List.foldl_cons, ih]
      simp [Registered.afterCommit]

theorem result_of_raises (h : a.raises = none) : ∃ v, a.result = .ok v := by
  rw [Attempt.raises] at h
  split at h
  · next v hv => exact ⟨v, hv⟩
  · cases h

/-- What the function returns. -/
def Attempt.returns (a : Attempt α γ) : Except Exn (α × Registered γ) :=
  a.result.map fun v => (v, a.registers.foldl Registered.afterCommit {})

theorem function_run : a.function.run w = ⟨a.returns, w, []⟩ := by
  rw [Attempt.function, Attempt.returns]
  cases a.result <;> rfl

/-- The marker is as before on every way out. -/
theorem marked_run {x : Call γ α} {o : Except Exn α} {t : List (Event γ)}
    (hx : x.run { w with inTx := true } = ⟨o, { w with inTx := true }, t⟩) :
    (marked x).run w = ⟨o, w, t⟩ := by
  have hwithin : (within x fun _ => update fun w' : World => { w' with inTx := w.inTx }).run
    { w with inTx := true } =
      ⟨failing none o, w, t ++ []⟩ := within_of hx rfl
  rw [marked, bind_of_ok get_run]
  dsimp only
  rw [bind_of_ok update_run, hwithin]
  simp

/-- The check raises where the attempt is refused. -/
theorem check_run : a.check.run w = ⟨failing a.refusal (.ok ()), w, ([] : List (Event γ))⟩ := by
  rw [Attempt.check, Attempt.refusal]
  cases a.cutoff with
  | none => rfl
  | some cutoff =>
      have hclock : (if cutoff ≤ a.now then raise viewExpired else pure () : Call γ Unit).run w =
          ⟨failing (if cutoff ≤ a.now then some viewExpired else none) (.ok ()), w, []⟩ := by
        split <;> rfl
      dsimp only
      rw [failing_or, Attempt.statement, bind_of_failing perhaps_run hclock, ite_self]
      rfl

/-- What runs inside the transaction fails where it is broken. -/
theorem inside_run : (a.inside native).run w = ⟨failing (a.broken native) a.returns, w,
    ([] : List (Event γ))⟩ := by
  have hchecked : ∀ r, (a.check >>= fun _ => pure r : Call γ (α × Registered γ)).run w =
      ⟨failing a.refusal (.ok r), w, []⟩ := by
    intro r
    rw [bind_of_failing (f := fun _ => pure r) check_run pure_run, ite_self]
  have hcalled : (marked a.function >>= fun r => a.check >>= fun _ => pure r).run w =
      ⟨failing (a.raises.or a.refusal) a.returns, w, []⟩ := by
    have hfunction : (marked a.function).run w = ⟨a.returns, w, []⟩ := marked_run function_run
    rw [failing_or, Attempt.raises]
    cases hresult : a.result with
    | error e =>
        have hreturns : a.returns = .error e := by rw [Attempt.returns, hresult]; rfl
        rw [hreturns] at hfunction ⊢
        exact bind_of_error hfunction
    | ok v =>
        have hreturns : a.returns = .ok (v, a.registers.foldl Registered.afterCommit {}) := by
          rw [Attempt.returns, hresult]; rfl
        rw [hreturns] at hfunction ⊢
        rw [bind_of_ok hfunction, hchecked]
        rfl
  rw [Attempt.inside, Attempt.broken, failing_or,
    failing_or (f := if native then a.timeout else none)]
  rw [bind_of_failing perhaps_run (bind_of_failing perhaps_run hcalled)]
  simp

/-- `COMMIT`, after a transaction that may have been aborted. -/
theorem commits_run : (a.commits n).run w =
    ⟨failing a.commit.failure (.ok ()), w, if !a.aborted && a.commit.effect then
      [.committed n] else []⟩ := by
  rw [Attempt.commits]
  cases a.commit with
  | arrived => cases a.aborted <;> rfl
  | refused e => cases a.aborted <;> rfl
  | lost e => cases a.aborted <;> rfl

/-- A transaction commits where it began, nothing raised and the server did not abort it. -/
theorem transaction_run (a : Attempt α γ) (native : Bool) (n : Nat) (w : World) :
    (a.transaction n (a.inside native)).run w = ⟨failing (a.ends native) a.returns, w,
      if a.begin_.isNone && (a.broken native).isNone && !a.aborted && a.commit.effect then
      [.committed n] else []⟩ := by
  have hwithin : (within (a.inside native) (a.exit n)).run w =
      ⟨failing (match a.broken native with
        | some e => a.rollback.or (some e)
        | none => a.commit.failure) a.returns, w,
        if (a.broken native).isNone && !a.aborted && a.commit.effect then [.committed n]
          else []⟩ := by
    cases hbroken : a.broken native with
    | some e =>
        have hinside : (a.inside native).run w = ⟨.error e, w, []⟩ := by
          rw [inside_run, hbroken]; rfl
        rw [within_of hinside perhaps_run, failing_or]
        rfl
    | none =>
        have hreturns : ∃ r, a.returns = .ok r := by
          rw [Attempt.broken, Option.or_eq_none_iff, Option.or_eq_none_iff,
            Option.or_eq_none_iff] at hbroken
          obtain ⟨v, hv⟩ := result_of_raises hbroken.2.2.1
          rw [Attempt.returns, hv]
          exact ⟨_, rfl⟩
        obtain ⟨r, hr⟩ := hreturns
        have hinside : (a.inside native).run w = ⟨.ok r, w, []⟩ := by
          rw [inside_run, hbroken, hr]; rfl
        rw [within_of hinside commits_run, hr]
        rfl
  rw [Attempt.transaction, Attempt.ends, failing_or, bind_of_failing perhaps_run hwithin]
  cases a.begin_ <;> rfl

theorem ends_eq_none_iff : a.ends native = none ↔
    a.begin_ = none ∧ a.broken native = none ∧ a.commit.failure = none := by
  rw [Attempt.ends, Option.or_eq_none_iff]
  cases a.broken native with
  | none => simp
  | some e => simp

/-- Past the transaction there is a value. -/
theorem returns_of_ends (h : a.ends native = none) :
    ∃ v, a.result = .ok v ∧ a.returns = .ok (v, a.registers.foldl Registered.afterCommit {}) := by
  have hbroken := (ends_eq_none_iff.mp h).2.1
  rw [Attempt.broken, Option.or_eq_none_iff, Option.or_eq_none_iff,
    Option.or_eq_none_iff] at hbroken
  obtain ⟨v, hv⟩ := result_of_raises hbroken.2.2.1
  refine ⟨v, hv, ?_⟩
  rw [Attempt.returns, hv]
  rfl

/-- The functions run after the end of the attempt, where it ended well. -/
theorem inTx_run : (inTx n a native).run w = ⟨failing (a.ends native) a.result, w,
    (if a.begin_.isNone && (a.broken native).isNone && !a.aborted && a.commit.effect then
      [.committed n] else []) ++ if (a.ends native).isNone then a.registers.map (.ran n)
      else []⟩ := by
  rw [inTx]
  cases hends : a.ends native with
  | some e =>
      have htransaction := transaction_run a native n w
      rw [hends] at htransaction
      rw [bind_of_error htransaction]
      simp
  | none =>
      obtain ⟨v, hv, hreturns⟩ := returns_of_ends hends
      have htransaction := transaction_run a native n w
      rw [hends, hreturns] at htransaction
      rw [bind_of_ok htransaction]
      dsimp only
      rw [after_commits, bind_of_ok forM_emit, pure_run, hv]
      simp

/-- One attempt makes its events and fails where it does. -/
theorem once_run (a : Attempt α γ) (native : Bool) (n : Nat) (w : World) :
    (once n a native).run w = ⟨failing (a.failure native) a.result, w,
      .began n :: a.makes native n⟩ := by
  have hwithin : (within (inTx n a native) fun _ => perhaps (a.release.map Subtype.val)).run
    w = _ :=
    within_of inTx_run perhaps_run
  rw [once, bind_of_ok emit_run, bind_of_failing perhaps_run hwithin, Attempt.failure,
    failing_or, failing_or]
  rw [Attempt.makes, Attempt.effect, Attempt.answered, Attempt.sent]
  cases hacquire : a.acquire with
  | some e => simp
  | none =>
      have hanswered : (a.ends native).isNone =
        (a.begin_.isNone && (a.broken native).isNone && a.commit.failure.isNone) := by
        rw [Bool.eq_iff_iff]
        simp [ends_eq_none_iff, and_assoc]
      simp [hanswered]

/-- What a transaction that takes effect raises is no conflict. -/
theorem failure_of_effect (h : a.effect native = true)
    {e : Exn} (he : a.failure native = some e) : e.conflict = false := by
  simp only [Attempt.effect, Attempt.sent, Bool.and_eq_true, Option.isNone_iff_eq_none] at h
  obtain ⟨⟨⟨⟨hacquire, hbegin⟩, hbroken⟩, -⟩, heffect⟩ := h
  rw [Attempt.failure, hacquire, Option.none_or, Attempt.ends, hbegin, Option.none_or,
    hbroken] at he
  cases hrelease : a.release with
  | some fault =>
      rw [hrelease] at he
      cases he
      exact fault.property
  | none =>
      rw [hrelease] at he
      dsimp only [Option.map_none, Option.none_or] at he
      cases hcommit : a.commit with
      | arrived =>
          rw [hcommit] at he
          cases he
      | refused e' =>
          rw [hcommit] at heffect
          cases heffect
      | lost fault =>
          rw [hcommit] at he
          cases he
          exact fault.property

/-- An attempt that raises nothing got past its transaction. -/
theorem failure_eq_none_iff : a.failure native = none ↔ a.answered native = true ∧
    a.release = none := by
  rw [Attempt.failure, Option.or_eq_none_iff, Option.or_eq_none_iff, ends_eq_none_iff,
    Attempt.answered, Attempt.sent]
  simp only [Option.map_eq_none_iff, Bool.and_eq_true, Option.isNone_iff_eq_none]
  tauto

/-- An attempt makes its commit and the functions that run after it. -/
theorem mem_makes {x : Event γ} : x ∈ a.makes native n ↔
    (x = .committed n ∧ a.effect native = true) ∨ ∃ f ∈ a.registers, x = .ran n f ∧
    a.answered native = true := by
  rw [Attempt.makes]
  cases a.effect native <;> cases a.answered native <;> simp [eq_comm]

/-! ## Sound attempts -/

/-- The function returns after a statement of it failed, and `COMMIT` rolls back: the
call returns, or runs a callback. -/
structure Attempt.Swallows (a : Attempt α γ) (native : Bool) : Prop where
  answered : a.answered native = true
  aborted : a.aborted = true
  shows : a.registers ≠ [] ∨ a.release = none

/-- `COMMIT` takes effect, its reply is lost, and callbacks wait for it. -/
structure Attempt.Unheard (a : Attempt α γ) (native : Bool) : Prop where
  sent : a.sent native = true
  open_ : a.aborted = false
  lost : ∃ e, a.commit = .lost e
  waits : a.registers ≠ []

def Attempt.Sound (a : Attempt α γ) (native : Bool) : Prop :=
  ¬ a.Swallows native ∧ ¬ a.Unheard native

/-- A sound attempt commits and runs its callbacks, or neither. -/
theorem makes_of_sound (h : a.Sound native) :
    a.makes native n = if a.effect native then .committed n :: a.registers.map (.ran n)
    else [] := by
  rw [Attempt.makes]
  cases heffect : a.effect native with
  | true =>
      simp only [Attempt.effect, Bool.and_eq_true, Bool.not_eq_true'] at heffect
      obtain ⟨⟨hsent, hopen⟩, hcommit⟩ := heffect
      by_cases hregisters : a.registers = []
      · simp [hregisters]
      · have harrived : a.commit.failure = none := by
          cases hreply : a.commit with
          | arrived => rfl
          | refused e =>
              rw [hreply] at hcommit
              cases hcommit
          | lost e => exact absurd ⟨hsent, hopen, ⟨e, hreply⟩, hregisters⟩ h.2
        simp [Attempt.answered, hsent, harrived]
  | false =>
      cases hanswered : a.answered native with
      | false => rfl
      | true =>
          -- answered and without effect: aborted
          have haborted : a.aborted = true := by
            simp only [Attempt.answered, Bool.and_eq_true, Option.isNone_iff_eq_none] at hanswered
            have hcommit : a.commit.effect = true := by
              cases hreply : a.commit with
              | arrived => rfl
              | refused e =>
                  rw [hreply] at hanswered
                  cases hanswered.2
              | lost e => rfl
            simpa [Attempt.effect, hanswered.1, hcommit] using heffect
          by_cases hregisters : a.registers = []
          · simp [hregisters]
          · exact absurd ⟨hanswered, haborted, .inl hregisters⟩ h.1

end

/-! ## What a call owes -/

/-- The attempt that begins. -/
def Event.begins : Event γ → Option Nat
  | .began n => some n
  | _ => none

/-- A transaction takes effect, or a callback runs. -/
def Event.shows : Event γ → Bool
  | .committed _ => true
  | .ran _ _ => true
  | _ => false

def begun (t : List (Event γ)) : List Nat := t.filterMap Event.begins

def outward (t : List (Event γ)) : List (Event γ) := t.filter Event.shows

/-- A further attempt begins only where the one before failed with a conflict. -/
def Justified (t : List (Event γ)) : Prop :=
  ∀ before n after, t = before ++ .began n :: after →
    before = [] ∨ ∃ m e, before.getLast? = some (.failed m e) ∧ e.conflict = true

/-- **A call in order**: its attempts are bounded and each further one follows a
conflict; at most one commits, whose callbacks run once each, in order and after it,
and no others; where none commits it raises; and it leaves the budgets and the marker
as they were. -/
structure Proper (s : Script α γ) (w : World) (d : Done Exn World (Event γ) α) : Prop where
  bounded : ∃ k ≤ maxAttempts, begun d.trace = List.range' 1 k
  justified : Justified d.trace
  once : ∀ m n, .committed m ∈ d.trace → .committed n ∈ d.trace → m = n
  callbacks : ∀ n, .committed n ∈ d.trace → outward d.trace = .committed n ::
    (s.attempt n).registers.map (.ran n)
  others : (∀ n, .committed n ∉ d.trace) → outward d.trace = []
  raises : (∀ n, .committed n ∉ d.trace) → ∃ e, d.outcome = .error e
  restored : d.state = w

/-! ## The attempts of a call -/

/-- Another attempt is made. -/
def Attempt.again (a : Attempt α γ) (native : Bool) : Bool :=
  (a.failure native).any Exn.conflict && a.sleep.isNone

/-- The attempts that are made. -/
def numbers (s : Script α γ) (native : Bool) : Nat → Nat → List Nat
  | 0, n => [n]
  | left + 1, n => n :: if (s.attempt n).again native then numbers s native left (n + 1) else []

/-- What one attempt leaves in the trace. -/
def block (s : Script α γ) (native : Bool) (n : Nat) : List (Event γ) :=
  .began n :: ((s.attempt n).makes native n ++ ((s.attempt n).failure native).toList.map
    (.failed n))

section
variable {s : Script α γ} {native : Bool} {n left : Nat} {w : World}

theorem not_again_of_effect (h : (s.attempt n).effect native = true) :
    (s.attempt n).again native = false := by
  rw [Attempt.again]
  cases hfailure : (s.attempt n).failure native with
  | none => rfl
  | some e => simp [failure_of_effect h hfailure]

/-- The handler of an attempt's exception. -/
theorem caught_run {again : Call γ α} {e : Exn} : (caught again n e).run w =
    ((if e.conflict then again else if e.stops then raise e else raise (mapError e)).run
      w).after [.failed n e] := by
  rw [caught, bind_of_ok emit_run]

/-- An attempt that succeeds is not handled. -/
theorem handled_of_ok (handler : Exn → Call γ α) (w : World)
    (h : (s.attempt n).failure native = none) :
    ∃ v, (handle (once n (s.attempt n) native) handler).run w = ⟨.ok v, w, block s native n⟩ := by
  obtain ⟨v, hv, -⟩ : ∃ v, (s.attempt n).result = .ok v ∧ _ := by
    rw [Attempt.failure, Option.or_eq_none_iff, Option.or_eq_none_iff] at h
    exact returns_of_ends h.2.2
  have hrun := once_run (s.attempt n) native n w
  rw [h, hv] at hrun
  refine ⟨v, ?_⟩
  rw [handle_of_ok hrun, block, h]
  simp

/-- An attempt that fails leaves the rest to the handler. -/
theorem handled_of_error {handler : Exn → Call γ α} {e : Exn}
    (h : (s.attempt n).failure native = some e) :
    (handle (once n (s.attempt n) native) handler).run w =
      ((handler e).run w).after (.began n :: (s.attempt n).makes native n) := by
  have hrun := once_run (s.attempt n) native n w
  rw [h] at hrun
  exact handle_of_error hrun

/-- An exception after which no attempt is made is raised, as it is or mapped. -/
theorem caught_raises {again : Call γ α} {e : Exn}
    (h : e.conflict = false ∨ ∃ e', again.run w = ⟨.error e', w, []⟩) :
    ∃ e', (caught again n e).run w = ⟨.error e', w, [.failed n e]⟩ := by
  rw [caught_run]
  by_cases hconflict : e.conflict = true
  · obtain ⟨e', hagain⟩ := h.resolve_left (by simp [hconflict])
    refine ⟨e', ?_⟩
    rw [if_pos hconflict, hagain]
    rfl
  · rw [if_neg hconflict]
    split
    · exact ⟨e, rfl⟩
    · exact ⟨mapError e, rfl⟩

theorem block_of_failure {e : Exn} (h : (s.attempt n).failure native = some e) :
    block s native n = .began n :: (s.attempt n).makes native n ++ [.failed n e] := by
  rw [block, h]
  rfl

/-- The last attempt: no other is made. -/
theorem last_run (again : Exn → Call γ α)
    (h : ∀ e, (s.attempt n).failure native = some e → e.conflict = false ∨
      ∃ e', (again e).run w = ⟨.error e', w, []⟩) :
    ∃ o, (handle (once n (s.attempt n) native) fun e => caught (again e) n e).run w =
    ⟨o, w, block s native n⟩ ∧
      ((∃ v, o = .ok v) ↔ (s.attempt n).failure native = none) := by
  cases hfailure : (s.attempt n).failure native with
  | none =>
      obtain ⟨v, hrun⟩ := handled_of_ok (fun e => caught (again e) n e) w hfailure
      exact ⟨.ok v, hrun, iff_of_true ⟨v, rfl⟩ rfl⟩
  | some e =>
      obtain ⟨e', hcaught⟩ := caught_raises (n := n) (h e hfailure)
      refine ⟨.error e', ?_, iff_of_false (by simp) (by simp)⟩
      rw [handled_of_error hfailure, hcaught, block_of_failure hfailure]
      rfl

/-- **Every call** makes the attempts `numbers`: each but the last ends in a conflict,
and the last decides what the call comes to. -/
theorem attempts_run (s : Script α γ) (native : Bool) (left n : Nat) (w : World) :
    ∃ before last o, numbers s native left n = before ++ [last] ∧
    (∀ k ∈ before, (s.attempt k).again native = true) ∧
    (attempts s native left n).run w = ⟨o, w, (numbers s native left n).flatMap (block s native)⟩ ∧
    ((∃ v, o = .ok v) ↔ (s.attempt last).failure native = none) := by
  induction left generalizing n with
  | zero =>
      obtain ⟨o, hrun, hok⟩ := @last_run _ _ s native n w (fun e => raise (mapError e))
        fun e _ => .inr ⟨_, rfl⟩
      refine ⟨[], n, o, rfl, by simp, ?_, hok⟩
      rw [attempts, hrun]
      simp [numbers]
  | succ left ih =>
      by_cases hagain : (s.attempt n).again native = true
      · -- a conflict, and the sleep is not interrupted
        obtain ⟨before, last, o, hnumbers, hbefore, hrun, hok⟩ := ih (n + 1)
        rw [Attempt.again, Bool.and_eq_true, Option.isNone_iff_eq_none,
          Option.any_eq_true] at hagain
        obtain ⟨⟨e, hfailure, hconflict⟩, hsleep⟩ := hagain
        have hagain' : (s.attempt n).again native = true := by
          simp [Attempt.again, hfailure, hconflict, hsleep]
        refine ⟨n :: before, last, o, ?_, List.forall_mem_cons.mpr ⟨hagain', hbefore⟩, ?_, hok⟩
        · rw [numbers, if_pos hagain', hnumbers]
          rfl
        · have hslept : (do perhaps (s.attempt n).sleep; attempts s native left (n + 1) : Call
            γ α).run w =
              ⟨o, w, (numbers s native left (n + 1)).flatMap (block s native)⟩ := by
            rw [hsleep, bind_of_ok perhaps_run, hrun]
            rfl
          rw [attempts, handled_of_error hfailure, caught_run, if_pos hconflict, hslept,
            numbers, if_pos hagain', List.flatMap_cons, block_of_failure hfailure]
          simp
      · obtain ⟨o, hrun, hok⟩ := @last_run _ _ s native n w
          (fun _ => do perhaps (s.attempt n).sleep; attempts s native left (n + 1)) (by
            intro e hfailure
            cases hconflict : e.conflict with
            | false => exact .inl rfl
            | true =>
                cases hsleep : (s.attempt n).sleep with
                | none => exact absurd (by simp [Attempt.again, hfailure, hconflict, hsleep]) hagain
                | some e' => exact .inr ⟨e', bind_of_error perhaps_run⟩)
        refine ⟨[], n, o, ?_, by simp, ?_, hok⟩
        · rw [numbers, if_neg hagain]
          rfl
        · rw [attempts, hrun, numbers, if_neg hagain]
          simp

/-! ## Traces -/

/-- The attempts are numbered one after the other. -/
theorem numbers_eq_range (s : Script α γ) (native : Bool) (left : Nat) :
    ∀ n, ∃ k ≤ left + 1, numbers s native left n = List.range' n k := by
  induction left with
  | zero => exact fun n => ⟨1, le_rfl, rfl⟩
  | succ left ih =>
      intro n
      rw [numbers]
      split
      · obtain ⟨k, hk, hnumbers⟩ := ih (n + 1)
        refine ⟨k + 1, by omega, ?_⟩
        rw [hnumbers]
        rfl
      · exact ⟨1, by omega, rfl⟩

theorem begun_block (s : Script α γ) (native : Bool) (n : Nat) :
    begun (block s native n) = [n] := by
  have hmakes : ((s.attempt n).makes native n).filterMap Event.begins = [] := by
    rw [List.filterMap_eq_nil_iff]
    intro x hx
    rcases mem_makes.mp hx with ⟨rfl, -⟩ | ⟨f, -, rfl, -⟩
    · rfl
    · rfl
  rw [begun, block]
  cases (s.attempt n).failure native <;> simp [Event.begins, hmakes]

/-- Each attempt begins once. -/
theorem begun_numbers (l : List Nat) : begun (l.flatMap (block s native)) = l := by
  induction l with
  | nil => rfl
  | cons n l ih =>
      have hblock := begun_block s native n
      rw [begun] at ih hblock ⊢
      rw [List.flatMap_cons, List.filterMap_append, ih, hblock]
      rfl

theorem outward_block (s : Script α γ) (native : Bool) (n : Nat) :
    outward (block s native n) = (s.attempt n).makes native n := by
  have hmakes : ((s.attempt n).makes native n).filter Event.shows = (s.attempt n).makes
    native n := by
    rw [List.filter_eq_self]
    intro x hx
    rcases mem_makes.mp hx with ⟨rfl, -⟩ | ⟨f, -, rfl, -⟩
    · rfl
    · rfl
  rw [outward, block]
  cases (s.attempt n).failure native <;> simp [Event.shows, hmakes]

/-- Outside, each attempt is seen by what it makes. -/
theorem outward_numbers (l : List Nat) :
    outward (l.flatMap (block s native)) = l.flatMap fun n => (s.attempt n).makes native n := by
  induction l with
  | nil => rfl
  | cons n l ih =>
      have hblock := outward_block s native n
      rw [outward] at ih hblock ⊢
      rw [List.flatMap_cons, List.filter_append, ih, hblock]
      rfl

/-- What the trace makes known, attempt by attempt. -/
theorem mem_outward {l : List Nat} {x : Event γ} (hx : x ∈ outward (l.flatMap (block s native))) :
    ∃ n ∈ l, x ∈ (s.attempt n).makes native n := by
  rw [outward_numbers] at hx
  exact List.mem_flatMap.mp hx

/-- Which attempts commit. -/
theorem committed_mem_iff {l : List Nat} :
    .committed n ∈ l.flatMap (block s native) ↔ n ∈ l ∧ (s.attempt n).effect native = true := by
  have hmem : .committed n ∈ l.flatMap (block s native) ↔
    .committed n ∈ outward (l.flatMap (block s native)) := by
    simp [outward, Event.shows]
  rw [hmem, outward_numbers, List.mem_flatMap]
  constructor
  · rintro ⟨m, hm, hmakes⟩
    rcases mem_makes.mp hmakes with ⟨heq, heffect⟩ | ⟨f, -, heq, -⟩
    · cases heq
      exact ⟨hm, heffect⟩
    · cases heq
  · rintro ⟨hn, heffect⟩
    exact ⟨n, hn, mem_makes.mpr (.inl ⟨rfl, heffect⟩)⟩

/-- Nothing begins inside an attempt. -/
theorem block_split {before after : List (Event γ)} {m : Nat}
    (h : block s native n = before ++ .began m :: after) :
    before = [] := by
  cases before with
  | nil => rfl
  | cons x before =>
      have hbegun := begun_block s native n
      rw [h, begun] at hbegun
      rw [block] at h
      obtain ⟨rfl, -⟩ := List.cons.inj h
      simp [Event.begins] at hbegun

/-- An attempt that is tried again ended in a conflict. -/
theorem getLast?_block (h : (s.attempt n).again native = true) :
    ∃ e, (block s native n).getLast? = some (.failed n e) ∧ e.conflict = true := by
  rw [Attempt.again, Bool.and_eq_true, Option.any_eq_true] at h
  obtain ⟨⟨e, hfailure, hconflict⟩, -⟩ := h
  refine ⟨e, ?_, hconflict⟩
  rw [block_of_failure hfailure, List.getLast?_concat]

/-- **Retries**: each attempt after the first follows a conflict. -/
theorem justified_numbers : Justified ((numbers s native left n).flatMap (block s native)) := by
  induction left generalizing n with
  | zero =>
      intro before m after h
      rw [numbers, List.flatMap_singleton] at h
      exact .inl (block_split h)
  | succ left ih =>
      intro before m after h
      rw [numbers, List.flatMap_cons] at h
      by_cases hagain : (s.attempt n).again native = true
      · rw [if_pos hagain] at h
        obtain ⟨e, hlast, hconflict⟩ := getLast?_block hagain
        rcases List.append_eq_append_iff.mp h with ⟨inner, rfl, hrest⟩ | ⟨inner, hblock, hrest⟩
        · -- in a later attempt
          rcases ih inner m after hrest with rfl | ⟨k, e', hinner, hconflict'⟩
          · exact .inr ⟨n, e, by rw [List.append_nil, hlast], hconflict⟩
          · exact .inr ⟨k, e', by rw [List.getLast?_append, hinner]; rfl, hconflict'⟩
        · cases inner with
          | nil =>
              rw [List.append_nil] at hblock
              exact .inr ⟨n, e, by rw [← hblock, hlast], hconflict⟩
          | cons x inner =>
              obtain ⟨rfl, -⟩ := List.cons.inj hrest
              exact .inl (block_split hblock)
      · rw [if_neg hagain, List.flatMap_nil, List.append_nil] at h
        exact .inl (block_split h)

/-! ## The call -/

theorem effect_of_again (h : (s.attempt n).again native = true) :
    (s.attempt n).effect native = false := by
  cases heffect : (s.attempt n).effect native with
  | false => rfl
  | true =>
      rw [not_again_of_effect heffect] at h
      cases h

section
variable {before : List Nat} {last : Nat} {o : Except Exn α}

/-- Only the last attempt commits. -/
theorem eq_last_of_effect (hnumbers : numbers s native left n = before ++ [last])
    (hbefore : ∀ k ∈ before, (s.attempt k).again native = true)
    {k : Nat} (hk : k ∈ numbers s native left n)
    (heffect : (s.attempt k).effect native = true) : k = last := by
  rw [hnumbers, List.mem_append, List.mem_singleton] at hk
  rcases hk with hk | hk
  · rw [effect_of_again (hbefore k hk)] at heffect
    cases heffect
  · exact hk

/-- Sound attempts make known what the last one does. -/
theorem outward_of_sound (hnumbers : numbers s native left n = before ++ [last])
    (hbefore : ∀ k ∈ before, (s.attempt k).again native = true)
    (hsound : ∀ k ∈ numbers s native left n, (s.attempt k).Sound native) :
    outward ((numbers s native left n).flatMap (block s native)) =
      if (s.attempt last).effect native then .committed last :: (s.attempt last).registers.map
      (.ran last) else [] := by
  have hsilent : (before.flatMap fun k => (s.attempt k).makes native k) = [] := by
    rw [List.flatMap_eq_nil_iff]
    intro k hk
    have hmem : k ∈ numbers s native left n := by
      rw [hnumbers]
      exact List.mem_append_left _ hk
    rw [makes_of_sound (hsound k hmem), effect_of_again (hbefore k hk)]
    rfl
  have hlast : last ∈ numbers s native left n := by simp [hnumbers]
  rw [outward_numbers, hnumbers, List.flatMap_append, hsilent, List.flatMap_singleton,
    makes_of_sound (hsound last hlast)]
  rfl

/-- Without an exception and swallowing nothing, an attempt commits. -/
theorem effect_of_failure_none (hfailure : (s.attempt n).failure native = none)
    (hsound : (s.attempt n).Sound native) : (s.attempt n).effect native = true := by
  obtain ⟨hanswered, hrelease⟩ := failure_eq_none_iff.mp hfailure
  have hopen : (s.attempt n).aborted = false := by
    cases haborted : (s.attempt n).aborted with
    | false => rfl
    | true => exact absurd ⟨hanswered, haborted, .inr hrelease⟩ hsound.1
  rw [Attempt.answered, Bool.and_eq_true, Option.isNone_iff_eq_none] at hanswered
  cases hreply : (s.attempt n).commit with
  | arrived => simp [Attempt.effect, hanswered.1, hopen, hreply, Reply.effect]
  | refused e =>
      rw [hreply] at hanswered
      cases hanswered.2
  | lost e =>
      rw [hreply] at hanswered
      cases hanswered.2

/-- Attempts that were answered truly make a proper call. -/
theorem proper_of_sound (hnumbers : numbers s native left 1 = before ++ [last])
    (hleft : left + 1 ≤ maxAttempts) (hbefore : ∀ k ∈ before, (s.attempt k).again native = true)
    (ho : (∃ v, o = .ok v) ↔ (s.attempt last).failure native = none)
    (hsound : ∀ k ∈ numbers s native left 1, (s.attempt k).Sound native) :
    Proper s w ⟨o, w, (numbers s native left 1).flatMap (block s native)⟩ := by
  have hlast : last ∈ numbers s native left 1 := by simp [hnumbers]
  have houtward := outward_of_sound hnumbers hbefore hsound
  refine ⟨?_, justified_numbers, ?_, ?_, ?_, ?_, rfl⟩
  · obtain ⟨k, hk, hrange⟩ := numbers_eq_range s native left 1
    exact ⟨k, hk.trans hleft, by rw [begun_numbers, hrange]⟩
  · intro m n hm hn
    rw [committed_mem_iff] at hm hn
    rw [eq_last_of_effect hnumbers hbefore hm.1 hm.2, eq_last_of_effect hnumbers hbefore hn.1 hn.2]
  · intro n hn
    rw [committed_mem_iff] at hn
    obtain rfl := eq_last_of_effect hnumbers hbefore hn.1 hn.2
    rw [houtward, if_pos hn.2]
  · intro hno
    rw [houtward, if_neg]
    intro heffect
    exact hno last (committed_mem_iff.mpr ⟨hlast, heffect⟩)
  · intro hno
    cases o with
    | error e => exact ⟨e, rfl⟩
    | ok v =>
        have hfailure := ho.mp ⟨v, rfl⟩
        have heffect := effect_of_failure_none hfailure (hsound last hlast)
        exact absurd (committed_mem_iff.mpr ⟨hlast, heffect⟩) (hno last)

/-- In a call in order only an attempt that commits runs callbacks. -/
theorem effect_of_ran
    (hproper : Proper s w ⟨o, w, (numbers s native left 1).flatMap (block s native)⟩) {f : γ}
    (hran : .ran n f ∈ outward ((numbers s native left 1).flatMap (block s native))) :
    (s.attempt n).effect native = true := by
  by_cases hcommit : ∃ m, .committed m ∈ (numbers s native left 1).flatMap (block s native)
  · obtain ⟨m, hm⟩ := hcommit
    have hcallbacks := hproper.callbacks m hm
    dsimp only at hcallbacks
    rw [hcallbacks] at hran
    obtain ⟨f', -, heq⟩ : ∃ f' ∈ (s.attempt m).registers, Event.ran m f' = .ran n f := by
      simpa using hran
    cases heq
    exact (committed_mem_iff.mp hm).2
  · have hnone := hproper.others fun m hm => hcommit ⟨m, hm⟩
    dsimp only at hnone
    rw [hnone] at hran
    cases hran

/-- A proper call was answered truly in each attempt. -/
theorem sound_of_proper (hnumbers : numbers s native left 1 = before ++ [last])
    (hbefore : ∀ k ∈ before, (s.attempt k).again native = true)
    (ho : (∃ v, o = .ok v) ↔ (s.attempt last).failure native = none)
    (hproper : Proper s w ⟨o, w, (numbers s native left 1).flatMap (block s native)⟩)
    (hn : n ∈ numbers s native left 1) : (s.attempt n).Sound native := by
  have hran : ∀ f ∈ (s.attempt n).registers, (s.attempt n).answered native = true →
      .ran n f ∈ outward ((numbers s native left 1).flatMap (block s native)) := by
    intro f hf hanswered
    rw [outward_numbers, List.mem_flatMap]
    exact ⟨n, hn, mem_makes.mpr (.inr ⟨f, hf, rfl, hanswered⟩)⟩
  constructor
  · rintro ⟨hanswered, haborted, hshows⟩
    have hno : (s.attempt n).effect native = false := by simp [Attempt.effect, haborted]
    have heffect : (s.attempt n).effect native = true := by
      rcases hshows with hregisters | hrelease
      · obtain ⟨f, hf⟩ := List.exists_mem_of_ne_nil _ hregisters
        exact effect_of_ran hproper (hran f hf hanswered)
      · -- the call returns, so something committed, and that is the last attempt
        have hfailure := failure_eq_none_iff.mpr ⟨hanswered, hrelease⟩
        have hlast : n = last := by
          rw [hnumbers, List.mem_append, List.mem_singleton] at hn
          refine hn.resolve_left fun hearlier => ?_
          have hagain := hbefore n hearlier
          rw [Attempt.again, hfailure] at hagain
          cases hagain
        subst hlast
        obtain ⟨v, hv⟩ := ho.mpr hfailure
        by_contra hnone
        have hsilent : ∀ m, .committed m ∉ (numbers s native left 1).flatMap (block s native) := by
          intro m hm
          rw [committed_mem_iff] at hm
          obtain rfl := eq_last_of_effect hnumbers hbefore hm.1 hm.2
          exact hnone hm.2
        obtain ⟨e, he⟩ := hproper.raises hsilent
        rw [hv] at he
        cases he
    rw [hno] at heffect
    cases heffect
  · rintro ⟨hsent, hopen, ⟨e, hlost⟩, hwaits⟩
    have heffect : (s.attempt n).effect native = true := by
      simp [Attempt.effect, hsent, hopen, hlost, Reply.effect]
    obtain ⟨f, hf⟩ := List.exists_mem_of_ne_nil _ hwaits
    have hcallbacks := hproper.callbacks n (committed_mem_iff.mpr ⟨hn, heffect⟩)
    have hmem : .ran n f ∈ outward ((numbers s native left 1).flatMap (block s native)) := by
      rw [hcallbacks]
      exact List.mem_cons_of_mem _ (List.mem_map_of_mem hf)
    obtain ⟨m, -, hmakes⟩ := mem_outward hmem
    rcases mem_makes.mp hmakes with ⟨heq, -⟩ | ⟨f', -, heq, hanswered⟩
    · cases heq
    · cases heq
      simp [Attempt.answered, hlost, Reply.failure] at hanswered

end

/-- An attempt is reached after conflicts only. -/
theorem mem_numbers_iff {m : Nat} : m ∈ numbers s native left n ↔
    n ≤ m ∧ m ≤ n + left ∧ ∀ k, n ≤ k → k < m → (s.attempt k).again native = true := by
  induction left generalizing n with
  | zero =>
      rw [numbers, List.mem_singleton]
      constructor
      · rintro rfl
        exact ⟨le_rfl, le_rfl, fun k hn hk => by omega⟩
      · rintro ⟨hlow, hhigh, -⟩
        omega
  | succ left ih =>
      rw [numbers, List.mem_cons]
      constructor
      · rintro (rfl | hm)
        · exact ⟨le_rfl, by omega, fun k hn hk => by omega⟩
        · by_cases hagain : (s.attempt n).again native = true
          · rw [if_pos hagain, ih] at hm
            obtain ⟨hlow, hhigh, hconflicts⟩ := hm
            refine ⟨by omega, by omega, fun k hn hk => ?_⟩
            rcases hn.eq_or_lt with rfl | hlt
            · exact hagain
            · exact hconflicts k hlt hk
          · rw [if_neg hagain] at hm
            cases hm
      · rintro ⟨hlow, hhigh, hconflicts⟩
        rcases hlow.eq_or_lt with rfl | hlt
        · exact .inl rfl
        · rw [if_pos (hconflicts n le_rfl hlt), ih]
          exact .inr ⟨hlt, by omega, fun k hk hkm => hconflicts k (by omega) hkm⟩

end

/-- The call makes an attempt: those before it all failed with conflicts. -/
structure Reached (s : Script α γ) (native : Bool) (n : Nat) : Prop where
  first : 1 ≤ n
  bounded : n ≤ maxAttempts
  conflicts : ∀ k, 1 ≤ k → k < n → (s.attempt k).again native = true

/-- Whether the server has `transaction_timeout`. -/
def nativeOf (s : Script α γ) (o : TxOptions) : Except Exn Bool :=
  if o.transactionTimeout.any (· ≠ 0) then s.version.map fun version =>
    decide (170000 ≤ version) else .ok false

/-- Every attempt of the call, where it gets to any, is sound. -/
def Tidy (s : Script α γ) (o : TxOptions) (w : World) : Prop :=
  w.inTx = false → s.permit = none → ∀ native, nativeOf s o = .ok native →
    ∀ n, Reached s native n → (s.attempt n).Sound native

section
variable {s : Script α γ} {o : TxOptions} {w : World} {foreground : Bool}

theorem native_run (s : Script α γ) (o : TxOptions) (w : World) :
    (native s o : Call γ Bool).run w = ⟨nativeOf s o, w, []⟩ := by
  rw [native, nativeOf]
  split
  · cases s.version <;> rfl
  · rfl

/-- A permit is given where there is one. -/
theorem permit_run (s : Script α γ) (foreground : Bool) (w : World) :
    ∃ failure, (permit s foreground).run w = ⟨failing failure (.ok ()), w, []⟩ ∧
    (failure = none ↔ s.permit = none) := by
  rw [permit]
  cases hpermit : s.permit with
  | none =>
      refine ⟨none, ?_, by simp⟩
      cases foreground <;> rfl
  | some e =>
      cases foreground with
      | false => exact ⟨some e, rfl, by simp⟩
      | true =>
          refine ⟨some (if e = .timeout then busy else e), ?_, by simp⟩
          have hraised : (perhaps (some e) : Call γ Unit).run w = ⟨.error e, w, []⟩ := rfl
          rw [if_pos rfl, handle_of_error hraised]
          split <;> rfl

theorem budget_back : budget foreground 1 (budget foreground (-1) w) = w := by
  cases foreground <;> simp [budget]

/-- **Every call** is refused before its first attempt, or is its attempts; in both
cases the budgets and the marker are as before. -/
theorem run_run (s : Script α γ) (o : TxOptions) (foreground : Bool) (w : World) :
    (∃ e, (run s o foreground).run w = ⟨.error e, w, []⟩ ∧ Tidy s o w) ∨
    ∃ native before last outcome, nativeOf s o = .ok native ∧ w.inTx = false ∧ s.permit = none ∧
      numbers s native (maxAttempts - 1) 1 = before ++ [last] ∧
      (∀ k ∈ before, (s.attempt k).again native = true) ∧
      ((∃ v, outcome = .ok v) ↔ (s.attempt last).failure native = none) ∧
      (run s o foreground).run w = ⟨outcome, w, (numbers s native (maxAttempts - 1) 1).flatMap
        (block s native)⟩ := by
  rw [run, bind_of_ok get_run]
  cases hinTx : w.inTx with
  | true =>
      refine .inl ⟨nested, ?_, fun h => absurd (hinTx.symm.trans h) (by decide)⟩
      rw [if_pos rfl, bind_of_error perhaps_run]
      rfl
  | false =>
      rw [if_neg Bool.false_ne_true, bind_of_ok perhaps_run]
      cases hnative : nativeOf s o with
      | error e =>
          refine .inl ⟨e, ?_, fun _ _ native h => by rw [hnative] at h; cases h⟩
          have hrun := native_run s o w
          rw [hnative] at hrun
          rw [bind_of_error hrun]
          rfl
      | ok native =>
          have hrun := native_run s o w
          rw [hnative] at hrun
          rw [bind_of_ok hrun]
          obtain ⟨failure, hpermit, hfailure⟩ := permit_run s foreground w
          cases failure with
          | some e =>
              refine .inl ⟨e, ?_, fun _ h => absurd (hfailure.mpr h) (by simp)⟩
              rw [bind_of_error hpermit]
              rfl
          | none =>
              obtain ⟨before, last, outcome, hnumbers, hbefore, hattempts, houtcome⟩ :=
                attempts_run s native (maxAttempts - 1) 1 (budget foreground (-1) w)
              refine .inr ⟨native, before, last, outcome, rfl, rfl, hfailure.mp rfl, hnumbers,
                hbefore, houtcome, ?_⟩
              have hwithin : (within (attempts s native (maxAttempts - 1) 1) fun _ => update
                (budget foreground 1)).run
                  (budget foreground (-1) w) = ⟨failing none outcome,
                    budget foreground 1 (budget foreground (-1) w), _ ++ []⟩ :=
                within_of hattempts rfl
              rw [bind_of_ok hpermit, bind_of_ok update_run, hwithin, budget_back]
              simp

/-- A call that makes no attempt is in order. -/
theorem proper_refused {e : Exn} : Proper s w ⟨.error e, w, []⟩ where
  bounded := ⟨0, by decide, rfl⟩
  justified := by
    intro before n after h
    simp at h
  once := by simp
  callbacks := by simp
  others := fun _ => rfl
  raises := fun _ => ⟨e, rfl⟩
  restored := rfl

/-- A call is proper exactly where its script is tidy. -/
theorem run_proper_iff : Proper s w ((run s o foreground).run w) ↔ Tidy s o w := by
  rcases run_run s o foreground w with
    ⟨e, hrun, htidy⟩ | ⟨native, before, last, outcome, hnative, hinTx, hpermit, hnumbers,
      hbefore, houtcome, hrun⟩
  · rw [hrun]
    exact iff_of_true proper_refused htidy
  · have hreached : ∀ n, n ∈ numbers s native (maxAttempts - 1) 1 ↔ Reached s native n := by
      intro n
      rw [mem_numbers_iff]
      constructor
      · rintro ⟨hfirst, hbounded, hconflicts⟩
        exact ⟨hfirst, hbounded, hconflicts⟩
      · rintro ⟨hfirst, hbounded, hconflicts⟩
        exact ⟨hfirst, hbounded, hconflicts⟩
    rw [hrun]
    constructor
    · intro hproper _ _ native' hnative' n hn
      obtain rfl : native = native' := by
        rw [hnative] at hnative'
        cases hnative'
        rfl
      exact sound_of_proper hnumbers hbefore houtcome hproper ((hreached n).mpr hn)
    · intro htidy
      refine proper_of_sound hnumbers le_rfl hbefore houtcome fun n hn => ?_
      exact htidy hinTx hpermit native hnative n ((hreached n).mp hn)

/-- **The budgets and the marker** are as before the call, however it ends. -/
theorem run_restores : ((run s o foreground).run w).state = w := by
  rcases run_run s o foreground w with
    ⟨e, hrun, -⟩ | ⟨native, before, last, outcome, -, -, -, -, -, -, hrun⟩
  · rw [hrun]
  · rw [hrun]

end

/-- **Transaction calls.** A foreground or a background call is in order exactly where
every attempt that it makes is sound. -/
theorem called_properly_iff (s : Script α γ) (o : TxOptions) (w : World) :
    (Proper s w ((tx s o).run w) ↔ Tidy s o w) ∧
    (Proper s w ((backgroundTx s o).run w) ↔ Tidy s o w) :=
  ⟨run_proper_iff, run_proper_iff⟩

end

/-- A function that catches a failed statement, registers a callback and returns. -/
def swallowing : Script Nat Nat where
  attempt _ := { registers := [1], result := .ok 7, aborted := true }

/-- The call returns 7 and runs the callback; nothing was committed. -/
theorem swallowed_runs_callbacks :
    let w : World := { fg := 8, bg := 4, inTx := false }
    let d := (backgroundTx swallowing {}).run w
    d.outcome = .ok 7 ∧ d.trace = [.began 1, .ran 1 1] ∧ ¬ Proper swallowing w d := by
  have hran : ((backgroundTx swallowing {}).run { fg := 8, bg := 4, inTx := false }).trace =
    [.began 1, .ran 1 1] := rfl
  refine ⟨rfl, hran, fun hproper => ?_⟩
  have hnone := hproper.others (by simp [hran])
  rw [hran] at hnone
  cases hnone

end BeSdk.Db.Tx
