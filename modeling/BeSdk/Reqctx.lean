/-
BeSdk.Reqctx — the deadline of a request, in the tasks it starts.

A context variable holds the deadline. A task that is started inherits the variable and
not the scopes around it; a scope sets the variable and restores it when it ends. What a
task does between two awaits is one step, and which task goes on is anybody's choice.

An attempt of an outbound call reads the time left, takes its timeout from it and, later,
opens a scope of that length. The scopes of the request itself are outside the runs, and
`request_scope`, which only the request layers use, is too.
-/
import BeSdk.Calls.Policy

namespace BeSdk.Reqctx

/-! ## The context variable -/

/-- `remaining()` at a reading of the clock. -/
def remaining (deadline : Option Seconds) (now : Seconds) : Option Seconds :=
  deadline.map fun d => d - now

/-- What `deadline_scope` sets: it only ever shortens the one already in force. -/
def deadlineScope (current : Option Seconds) (deadline : Seconds) : Seconds :=
  match current with
  | none => deadline
  | some current => min current deadline

/-! ## Tasks -/

/-- A task: its context variable, and what its open scopes restore. -/
structure Task where
  deadline : Option Seconds := none
  saved : List (Option Seconds) := []

abbrev State := List Task

/-- What a task does next. -/
inductive Act where
  | spawn
  /-- `deadline_scope` is entered. -/
  | enter (deadline : Seconds)
  /-- The innermost scope ends. -/
  | leave
  /-- An attempt: the time left is read at `now`, its scope opened at `started`. -/
  | attempt (now started : Seconds)

inductive Event where
  /-- A scope with the deadline in it. -/
  | scope (deadline : Seconds)
  /-- An attempt with its timeout and the deadline in its scope. -/
  | attempt (now timeout deadline : Seconds)
  | quiet

def Task.enter (t : Task) (deadline : Seconds) : Task where
  deadline := some (deadlineScope t.deadline deadline)
  saved := t.deadline :: t.saved

/-- One step of a task. -/
def act (s : State) (i : Nat) (t : Task) : Act → State × Event
  | .spawn => (s ++ [{ deadline := t.deadline }], .quiet)
  | .enter deadline => (s.set i (t.enter deadline), .scope (deadlineScope t.deadline deadline))
  | .leave =>
      match t.saved with
      | deadline :: saved => (s.set i { deadline, saved }, .quiet)
      | [] => (s, .quiet)
  | .attempt now started =>
      match attemptTimeout (remaining t.deadline now) with
      | none => (s, .quiet)
      | some timeout =>
          (s.set i (t.enter (started + timeout)),
            .attempt now timeout (deadlineScope t.deadline (started + timeout)))

def step (s : State) (o : Nat × Act) : State × Event :=
  match s[o.1]? with
  | none => (s, .quiet)
  | some t => act s o.1 t o.2

/-- A request's own task, inside its scope. -/
def serving (deadline : Seconds) : State := [{ deadline := some deadline }]

end BeSdk.Reqctx
