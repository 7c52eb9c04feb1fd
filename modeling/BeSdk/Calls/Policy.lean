/-
BeSdk.Calls.Policy — the numbers of the outbound calls: timeouts of the attempts,
the retry decision and its backoff, the retry budget and the circuit breaker.

The budget and the breaker are records with one function for each method; a method
that returns something returns it with the new record. Times are rational numbers
of seconds. Permits count up from 1, and 0 is no permit: `trial` is 0 while the
half-open slot is free.

`Breaker.step` is the breaker as a machine, with what an observer sees of each
step as the event.
-/
import BeSdk.Lib.History
import BeSdk.Py.Datetime

namespace BeSdk

/-! ## Attempts -/

def maxAttemptTimeout : Seconds := 3
def deadlineReserve : Seconds := 1 / 20
def maxAttempts : Nat := 3
def backoffBase : Seconds := 1 / 10
def backoffCap : Seconds := 1
def outboundLimit : Nat := 64

/-- What the retry decision is told of an attempt. -/
inductive RetryOutcome where
  | unavailable
  | connectFailed
  | none
  deriving DecidableEq

/-- The time an attempt is given; `none` is "do not send". -/
def attemptTimeout (remaining : Option Seconds) : Option Seconds :=
  match remaining with
  | none => none
  | some left => if left < deadlineReserve then none
      else some (min maxAttemptTimeout (left - deadlineReserve))

/-- Whether another attempt follows. -/
def shouldRetry (idempotent : Bool) (outcome : RetryOutcome) (attemptsMade : Nat)
    (budgetAllows : Bool) (remainingAfterBackoff : Option Seconds) : Bool :=
  if !idempotent || outcome = .none then false
  else if decide (maxAttempts ≤ attemptsMade) || !budgetAllows then false
  else (attemptTimeout remainingAfterBackoff).isSome

/-- The longest backoff after a number of failures. -/
def maxBackoff (failed : Nat) : Seconds :=
  if failed < 1 then 0 else min backoffCap (backoffBase * 2 ^ min (failed - 1) 4)

/-! ## The retry budget -/

/-- What an attempt's outcome is to the budget. -/
inductive BudgetOutcome where
  | success
  | unavailable
  | other
  deriving DecidableEq

/-- The retry budget, in thousandths. -/
structure Budget where
  tokens : Int := 10000
  deriving DecidableEq

namespace Budget

def maximum : Int := 10000
def success : Int := 100
def failure : Int := 1000
def threshold : Int := 5000

def record (b : Budget) (outcome : BudgetOutcome) : Budget :=
  match outcome with
  | .success => { b with tokens := min maximum (b.tokens + success) }
  | .unavailable => { b with tokens := max 0 (b.tokens - failure) }
  | .other => b

def allowsRetry (b : Budget) : Bool := decide (threshold < b.tokens)

end Budget

/-! ## The circuit breaker -/

def breakerWindow : Nat := 20
def breakerOpenFirst : Seconds := 5
def breakerOpenMax : Seconds := 30
def breakerTrialsToClose : Nat := 3

inductive BreakerState where
  | closed
  | open_
  | halfOpen
  deriving DecidableEq

/-- What an attempt's outcome is to the breaker. -/
inductive BreakerOutcome where
  | success
  | failure
  | ignored
  deriving DecidableEq

/-- The circuit breaker. `window` holds a flag for each counted result, newest last:
true is a failure. -/
structure Breaker where
  state : BreakerState := .closed
  window : List Bool := []
  openedAt : Seconds := 0
  openFor : Seconds := breakerOpenFirst
  trial : Nat := 0
  trialOk : Nat := 0
  next : Nat := 0
  deriving DecidableEq

/-- `l[-n:]` -/
def lastN {α : Type} (n : Nat) (l : List α) : List α := l.drop (l.length - n)

namespace Breaker

/-- Takes the half-open slot for a permit, when it is free. -/
def takeSlot (b : Breaker) (permit : Nat) : Breaker × Option Nat :=
  if b.trial ≠ 0 then (b, none) else ({ b with trial := permit }, some permit)

/-- Admits a call with a permit, or rejects it. -/
def start (b : Breaker) (now : Seconds) : Breaker × Option Nat :=
  let permit := b.next + 1
  let b := { b with next := permit }
  match b.state with
  | .closed => (b, some permit)
  | .open_ =>
      if now - b.openedAt < b.openFor then (b, none)
      else { b with state := .halfOpen, trial := 0, trialOk := 0 }.takeSlot permit
  | .halfOpen => b.takeSlot permit

/-- Takes a result. -/
def end_ (b : Breaker) (permit : Nat) (now : Seconds) (outcome : BreakerOutcome) : Breaker :=
  match b.state with
  | .halfOpen =>
      if b.trial ≠ permit then b
      else
        let b := { b with trial := 0 }
        match outcome with
        | .failure =>
            { b with state := .open_, openedAt := now, trialOk := 0,
                     openFor := min (2 * b.openFor) breakerOpenMax }
        | .success =>
            let b := { b with trialOk := b.trialOk + 1 }
            if breakerTrialsToClose ≤ b.trialOk then
              { b with state := .closed, window := [], openFor := breakerOpenFirst }
            else b
        | .ignored => b
  | .closed =>
      if outcome = .ignored then b
      else
        let window := lastN breakerWindow (b.window ++ [decide (outcome = .failure)])
        if window.length = breakerWindow ∧ breakerWindow < window.count true * 2 then
          { b with state := .open_, openedAt := now, window := [] }
        else { b with window }
  | .open_ => b

/-! ### Runs -/

/-- A call of one of the breaker's methods. -/
inductive Op where
  | start (now : Seconds)
  | end_ (permit : Nat) (now : Seconds) (outcome : BreakerOutcome)

/-- What is seen of a step: the call, what `start` returned, and the state before
and after. -/
structure Event where
  op : Op
  permit : Option Nat := none
  before : BreakerState
  after : BreakerState

def step (b : Breaker) (o : Op) : Breaker × Event :=
  match o with
  | .start now =>
      let (b', permit) := b.start now
      (b', { op := o, permit, before := b.state, after := b'.state })
  | .end_ permit now outcome =>
      let b' := b.end_ permit now outcome
      (b', { op := o, before := b.state, after := b'.state })

end Breaker

end BeSdk
