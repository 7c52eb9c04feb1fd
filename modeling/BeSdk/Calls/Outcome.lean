/-
BeSdk.Calls.Outcome — how one attempt counts, and what the caller answers upward
when it was the last.

The classes are what the breaker, the budget and the retry decision are told about
an attempt; each reads the class in its own words. `none` stands for the code "OK".
Retry hints and the causes of wrapped errors are left out, as in `BeSdk.Errs`.
-/
import BeSdk.Calls.Policy
import BeSdk.Errs

namespace BeSdk

/-- A raised exception, by what the error object makes of it. -/
inductive Raised where
  | error (e : Errs.Error)
  | cancelled
  | timeout
  | other
  deriving DecidableEq

/-- `errs.from_exception` -/
def Raised.toError : Raised → Errs.Error
  | .error e => e
  | .cancelled => Errs.new (str "REQUEST_CANCELLED") (str "the request was cancelled")
  | .timeout => Errs.new (str "DEADLINE_EXCEEDED") (str "the request ran out of time")
  | .other => Errs.new (str "INTERNAL") internalDetail

/-- What one attempt returned, as the transport saw it. -/
structure Result where
  err : Option Raised := none
  code : Option Code := none
  remote : Option Errs.Error := none
  connectFailed : Bool := false
  deriving DecidableEq

inductive Class where
  | success
  | unavailable
  | connectFailed
  | deadline
  | relayed
  | other
  | cancelled
  deriving DecidableEq

def Class.breaker : Class → BreakerOutcome
  | .success => .success
  | .unavailable | .connectFailed | .deadline => .failure
  | _ => .ignored

def Class.budget : Class → BudgetOutcome
  | .success => .success
  | .unavailable | .connectFailed => .unavailable
  | _ => .other

def Class.retryOutcome : Class → RetryOutcome
  | .unavailable => .unavailable
  | .connectFailed => .connectFailed
  | _ => .none

/-- The platform reasons a dependency uses to report failures further down. -/
def relayedReasons : List Str :=
  [str "DEPENDENCY_UNAVAILABLE", str "CIRCUIT_OPEN", str "DEADLINE_BUDGET_EXHAUSTED",
    str "RESULT_UNKNOWN"]

def classify (r : Result) (callerCancelled : Bool) : Class :=
  if callerCancelled && r.err.isSome then .cancelled
  else if r.connectFailed then .connectFailed
  else if r.err.isNone then .success
  else if r.remote.any fun e => decide (e.domain = platformDomain ∧
    e.reason ∈ relayedReasons) then .relayed
  else if r.code = some .unavailable then .unavailable
  else if r.code = some .deadlineExceeded then .deadline
  else .other

/-- The error the caller answers when this was the final attempt. -/
def upward (c : Class) (r : Result) (idempotent : Bool) (dependency : Str) : Option Errs.Error :=
  match c with
  | .success => none
  | .unavailable | .connectFailed =>
      some ((Errs.new (str "DEPENDENCY_UNAVAILABLE") (str "a dependency is unavailable")).with_
        (str "dependency") dependency)
  | .deadline =>
      let e :=
        if idempotent then
          Errs.new (str "DEADLINE_EXCEEDED") (str "a dependency did not answer in time")
        else
          Errs.new (str "RESULT_UNKNOWN")
            (str "a dependency did not answer in time; query the result before repeating")
      some (e.with_ (str "dependency") dependency)
  | .cancelled => some (Errs.new (str "REQUEST_CANCELLED") (str "the request was cancelled"))
  | .relayed | .other => some (r.remote.getD (r.err.getD .other).toError)

/-- Only what the budget counts as unavailable is tried again. -/
theorem Class.budget_of_retryOutcome {c : Class} (h : c.retryOutcome ≠ .none) :
    c.budget = .unavailable := by
  cases c <;> first | rfl | exact absurd rfl h

/-- Whatever is not a success is answered with an error. -/
theorem upward_isSome {c : Class} (h : c ≠ .success) (r : Result) (idempotent : Bool)
    (dependency : Str) : (upward c r idempotent dependency).isSome := by
  cases c <;> first | rfl | exact absurd rfl h

end BeSdk
