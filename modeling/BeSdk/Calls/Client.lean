/-
BeSdk.Calls.Client — the calls on one dependency: `Dependency.do` as the machine its
interleavings are.

A call is a coroutine. Between two awaits it runs without interruption, so a step of
the machine is one such stretch: a call begins (`do_`), the attempt a call awaits
ends (`attempted`), its backoff ends (`woke`), or the backoff is interrupted. What
the stretch reads from outside is part of the operation: the time left until the
deadline, the clock of the breaker, the random backoff, and how the attempt ended.

An attempt ends with a result or an exception. A timeout, its own among them, is a
result; any other exception, such as the cancellation of the caller, leaves
`_attempts` at once.

Each step notes what it did, newest note first; the note of an attempt carries what the
loop read as left when it sent it, and the timeout it passed to it. Metrics are left out.
-/
import BeSdk.Calls.Outcome

namespace BeSdk

/-- One dependency: its breaker, its retry budget, and how many calls are in it. -/
structure Dependency where
  id : Str
  breaker : Breaker := {}
  budget : Budget := {}
  inFlight : Nat := 0

namespace Calls

/-! ## Calls -/

/-- How a call ended. -/
inductive Finish where
  | returned
  | raised (e : Raised)

/-- Where a call is. -/
inductive Place where
  /-- Awaiting attempt `n`, with the permit it was admitted with. -/
  | attempting (n : Nat) (permit : Option Nat)
  /-- Awaiting the backoff after attempt `n`, with its result and class. -/
  | backingOff (n : Nat) (last : Result) (lastClass : Class)
  | finished (how : Finish)

structure Call where
  idempotent : Bool
  viaBreaker : Bool
  place : Place

/-- What a step did. -/
inductive Note where
  | issued (call permit : Nat)
  | ended (call permit : Nat)
  /-- Attempt `n` was sent with what was left until the deadline, and given its timeout. -/
  | sent (call n : Nat) (remaining : Option Seconds) (timeout : Seconds)
  | recorded (outcome : BudgetOutcome)
  deriving DecidableEq

/-- The dependency and its calls, in the order they began. -/
structure State where
  dep : Dependency
  calls : List Call := []

def tooMany (id : Str) : Errs.Error :=
  (Errs.new (str "OUTBOUND_LIMIT") (str "too many calls to a dependency are in progress")).with_
    (str "dependency") id

def budgetExhausted (id : Str) : Errs.Error :=
  (Errs.new (str "DEADLINE_BUDGET_EXHAUSTED")
    (str "not enough time was left to call a dependency")).with_
    (str "dependency") id

def circuitOpen (id : Str) : Errs.Error :=
  (Errs.new (str "CIRCUIT_OPEN") (str "a dependency is failing; calls to it are paused")).with_
    (str "dependency") id

/-- `raise upward(…)` -/
def raiseUpward (id : Str) (idempotent : Bool) (last : Result) (lastClass : Class) : Finish :=
  .raised (((upward lastClass last idempotent id).map Raised.error).getD .other)

/-- The call leaves. -/
def leave (d : Dependency) (how : Finish) : Dependency × Place :=
  ({ d with inFlight := d.inFlight - 1 }, .finished how)

/-- The head of the loop: attempt `n` of call `i` is sent, or the call leaves. -/
def attempt (d : Dependency) (i : Nat) (c : Call) (n : Nat) (last : Result) (lastClass : Class)
    (remaining : Option Seconds) (now : Seconds) : Dependency × Place × List Note :=
  match attemptTimeout remaining with
  | none =>
      let (d, place) := leave d
        (if 1 < n then raiseUpward d.id c.idempotent last lastClass
          else .raised (.error (budgetExhausted d.id)))
      (d, place, [])
  | some timeout =>
      if c.viaBreaker then
        match d.breaker.start now with
        | (breaker, none) =>
            let (d, place) := leave { d with breaker }
              (if 1 < n then raiseUpward d.id c.idempotent last lastClass
                else .raised (.error (circuitOpen d.id)))
            (d, place, [])
        | (breaker, some permit) =>
            ({ d with breaker }, .attempting n (some permit),
              [.sent i n remaining timeout, .issued i permit])
      else (d, .attempting n none, [.sent i n remaining timeout])

/-- Ends the permit of an attempt, when it was admitted with one. -/
def endPermit (b : Breaker) (i : Nat) (permit : Option Nat) (now : Seconds)
    (outcome : BreakerOutcome) : Breaker × List Note :=
  match permit with
  | none => (b, [])
  | some permit => (b.end_ permit now outcome, [.ended i permit])

/-- The rest of the loop after the result of attempt `n`. -/
def settle (d : Dependency) (i : Nat) (c : Call) (n : Nat) (permit : Option Nat) (r : Result)
    (remaining : Option Seconds) (now backoff : Seconds) : Dependency × Place × List Note :=
  let cls := classify r false
  let (breaker, notes) := endPermit d.breaker i permit now cls.breaker
  let d := { d with breaker, budget := d.budget.record cls.budget }
  let notes := .recorded cls.budget :: notes
  if cls = .success then
    let (d, place) := leave d .returned
    (d, place, notes)
  else if shouldRetry c.idempotent cls.retryOutcome n d.budget.allowsRetry
      (remaining.map fun left => left - backoff) then
    (d, .backingOff n r cls, notes)
  else
    let (d, place) := leave d (raiseUpward d.id c.idempotent r cls)
    (d, place, notes)

/-! ## Runs -/

/-- How an attempt ends; `raised .timeout` is also what its own timeout raises. -/
inductive Exit where
  | returned (r : Result)
  | raised (e : Raised)

/-- The result of an attempt that timed out. -/
def timedOut : Result := { err := some .timeout, code := some .deadlineExceeded }

inductive Op where
  | do_ (idempotent viaBreaker inTx : Bool) (remaining : Option Seconds) (now : Seconds)
  | attempted (i : Nat) (exit : Exit) (remaining : Option Seconds) (now backoff : Seconds)
  | woke (i : Nat) (remaining : Option Seconds) (now : Seconds)
  | interrupted (i : Nat) (e : Raised)

/-- Call `i` runs on from where it is; `none` is no place to run on from so. -/
def State.resume (s : State) (i : Nat) (go : Call → Option (Dependency × Place × List Note)) :
    State × List Note :=
  match s.calls[i]? with
  | none => (s, [])
  | some c =>
      match go c with
      | none => (s, [])
      | some (dep, place, notes) => ({ dep, calls := s.calls.set i { c with place } }, notes)

/-- A new call is at its first place. -/
def State.add (s : State) (c : Call) (r : Dependency × Place × List Note) : State × List Note :=
  ({ dep := r.1, calls := s.calls ++ [{ c with place := r.2.1 }] }, r.2.2)

/-- A new call: refused, or with its first attempt. -/
def State.begin_ (s : State) (idempotent viaBreaker inTx : Bool) (remaining : Option Seconds)
    (now : Seconds) : State × List Note :=
  let refused (e : Errs.Error) : Call := ⟨idempotent, viaBreaker, .finished (.raised (.error e))⟩
  let add (c : Call) : State × List Note := s.add c (s.dep, c.place, [])
  if inTx then add (refused (Errs.new (str "INTERNAL") []))
  else if outboundLimit ≤ s.dep.inFlight then add (refused (tooMany s.dep.id))
  else
    let d := { s.dep with inFlight := s.dep.inFlight + 1 }
    let c : Call := ⟨idempotent, viaBreaker, .finished .returned⟩
    s.add c (attempt d s.calls.length c 1 {} .other remaining now)

/-- An exception leaves the call. -/
def leaveWith (d : Dependency) (e : Raised) : Option (Dependency × Place × List Note) :=
  let (d, place) := leave d (.raised e)
  some (d, place, [])

def step (s : State) : Op → State × List Note
  | .do_ idempotent viaBreaker inTx remaining now =>
      s.begin_ idempotent viaBreaker inTx remaining now
  | .attempted i exit remaining now backoff => s.resume i fun c =>
      match c.place, exit with
      | .attempting n permit, .returned r =>
          some (settle s.dep i c n permit r remaining now backoff)
      | .attempting n permit, .raised .timeout =>
          some (settle s.dep i c n permit timedOut remaining now backoff)
      | .attempting _ _, .raised e => leaveWith s.dep e
      | _, _ => none
  | .woke i remaining now => s.resume i fun c =>
      match c.place with
      | .backingOff n last lastClass =>
          some (attempt s.dep i c (n + 1) last lastClass remaining now)
      | _ => none
  | .interrupted i e => s.resume i fun c =>
      match c.place with
      | .backingOff _ _ _ => leaveWith s.dep e
      | _ => none

/-- A dependency without calls. -/
def idle (id : Str) : State := { dep := { id } }

end Calls

end BeSdk
