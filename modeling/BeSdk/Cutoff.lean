/-
BeSdk.Cutoff — the authorization cutoff of a request: the guard that sets it, the
decisions that move it and the transactions that check it before COMMIT.

The context variable holds a cell; a scope makes a cell of its own, and what a task
starts inherits the variable, so it shares the cell. A request is the cell its admission
made. Everything between two awaits is one step, and which task goes on is anybody's
choice: a transaction reads the cutoff and then waits for the statement that shortens
the idle timeout, while other tasks of the request decide.

Clock readings come with the steps. `late` collects what was decided in the request
since a waiting transaction read the cutoff; the code keeps no such list.
-/
import BeSdk.Authz.Subject
import BeSdk.Lib.History

namespace BeSdk.Cutoff

/-! ## Admission -/

/-- A verified user. -/
structure User where
  subject : Str
  securityVersion : Int
  expiry : Seconds

/-- A request at the guard, past the verification of its credential. -/
structure Arrival where
  defs : Index
  holder : Holder
  clock : Clock
  user : User
  /-- The operation of the route. -/
  operation : Str
  boot : Seconds
  now : Seconds

def tokenStale : Errs.Error :=
  Errs.new (str "TOKEN_STALE") (str "the credential predates the account's last security change")

/-- `admit`: the cutoff derived from the token, and the grant's. -/
def Arrival.admit_ (a : Arrival) : Except Exc (Seconds × Seconds) :=
  match a.defs.operation a.operation with
  | none => .error (.error undeclared)
  | some o => do
      let g ← a.holder.lookupFor a.clock.now a.clock.nowStale a.clock.wall o.resourceType
        a.user.subject o.riskClass o.tighteningOnly
      if a.user.securityVersion < g.securityVersion then throw (.error tokenStale)
      return (a.boot + (a.user.expiry - a.now), g.cutoff)

/-! ## Tasks -/

/-- `MAX_ATTEMPTS` -/
def maxAttempts : Nat := 3

/-- Where a task is with its transaction. -/
inductive Phase where
  | idle
  /-- Inside the function of the transaction. -/
  | running (attempt : Nat)
  /-- The cutoff is read, the idle timeout being set. -/
  | waiting (attempt : Nat) (cutoff : Seconds) (late : List Seconds)
  | committing (attempt : Nat)
  /-- Between two attempts. -/
  | resting (attempt : Nat)
  deriving DecidableEq

/-- A task: its context, the values its open scopes restore, and its transaction. -/
structure Task where
  cell : Option Nat := none
  inTx : Bool := false
  saved : List (Option Nat) := []
  phase : Phase := .idle

/-- The task is not suspended in the transaction entry. -/
def Task.active (t : Task) : Bool :=
  match t.phase with
  | .idle => true
  | .running _ => true
  | _ => false

/-- A decision in a cell, as a waiting transaction of the same cell misses it. -/
def Task.miss (k : Nat) (at_ : Seconds) (t : Task) : Task :=
  match t.phase with
  | .waiting n c late =>
      if t.cell = some k then { t with phase := .waiting n c (at_ :: late) } else t
  | _ => t

structure State where
  cells : List Seconds := []
  tasks : List Task := []

/-- `cutoff()`, in a task. -/
def State.cutoff (s : State) (t : Task) : Option Seconds := t.cell.bind fun k => s.cells[k]?

inductive Event where
  | admitted (k : Nat) (token grant : Seconds)
  | decided (k : Nat) (cutoff : Seconds)
  /-- COMMIT is sent; outside any request there is no check. -/
  | commit (k : Option Nat) (checked : Option Seconds)
  | quiet
  deriving DecidableEq

/-! ## Steps -/

/-- What a task does next. -/
inductive Act where
  | spawn
  | admit_ (a : Arrival)
  | leave
  /-- `check` or `list` of a subject. -/
  | decide (subject : Subject) (clock : Clock) (op : Str)
  | begin_
  /-- The function of the transaction returns, and the cutoff is read. -/
  | finish
  /-- The idle timeout is set, and the clock is read. -/
  | check (now : Seconds)
  /-- A serialization failure or a deadlock. -/
  | conflict
  | retry
  /-- Any other exception, a cancellation included. -/
  | fail
  | committed

def State.put (s : State) (i : Nat) (t : Task) : State := { s with tasks := s.tasks.set i t }

/-- What `cutoff_scope` sets: the cutoff only ever moves earlier. -/
def cutoffScope (current : Option Seconds) (at_ : Seconds) : Seconds :=
  match current with
  | none => at_
  | some current => min current at_

/-- The guard binds the cutoff in a scope of its own. -/
def State.admit_ (s : State) (i : Nat) (t : Task) (token grant : Seconds) : State × Event :=
  let k := s.cells.length
  ({ cells := s.cells ++ [cutoffScope (s.cutoff t) (min token grant)],
     tasks := s.tasks.set i { t with cell := some k, saved := t.cell :: t.saved } },
    .admitted k token grant)

/-- `tighten_cutoff` -/
def State.tighten (s : State) (t : Task) (at_ : Seconds) : State × Event :=
  match t.cell with
  | none => (s, .quiet)
  | some k =>
      ({ cells := s.cells.modify k (min · at_), tasks := s.tasks.map (Task.miss k at_) },
        .decided k at_)

/-- The attempt of a transaction that is under way. -/
def Phase.attempt : Phase → Option Nat
  | .running n => some n
  | .waiting n _ _ => some n
  | .committing n => some n
  | _ => none

/-- One step of a task. -/
def State.act (s : State) (i : Nat) (t : Task) : Act → State × Event
  | .spawn =>
      if t.active then ({ s with tasks := s.tasks ++ [{ cell := t.cell, inTx := t.inTx }] },
        .quiet) else (s, .quiet)
  | .admit_ a =>
      match t.active, a.admit_ with
      | true, .ok (token, grant) => s.admit_ i t token grant
      | _, _ => (s, .quiet)
  | .leave =>
      match t.active, t.saved with
      | true, cell :: saved => (s.put i { t with cell, saved }, .quiet)
      | _, _ => (s, .quiet)
  | .decide subject clock op =>
      match t.active, subject.grant clock op with
      | true, .ok (_, _, g) => s.tighten t g.cutoff
      | _, _ => (s, .quiet)
  | .begin_ =>
      -- inside a transaction another one is refused, in the tasks started there too
      if t.phase = .idle ∧ t.inTx = false then
        (s.put i { t with phase := .running 1, inTx := true }, .quiet)
      else (s, .quiet)
  | .finish =>
      match t.phase with
      | .running n =>
          match s.cutoff t with
          | none => (s.put i { t with phase := .committing n, inTx := false }, .commit t.cell none)
          | some c => (s.put i { t with phase := .waiting n c [], inTx := false }, .quiet)
      | _ => (s, .quiet)
  | .check now =>
      match t.phase with
      | .waiting n c _ =>
          if c ≤ now then (s.put i { t with phase := .idle }, .quiet)
          else (s.put i { t with phase := .committing n }, .commit t.cell (some now))
      | _ => (s, .quiet)
  | .conflict =>
      match t.phase.attempt with
      | some n =>
          (s.put i { t with phase := if n < maxAttempts then .resting n else .idle,
                            inTx := false }, .quiet)
      | none => (s, .quiet)
  | .retry =>
      match t.phase with
      | .resting n => (s.put i { t with phase := .running (n + 1), inTx := true }, .quiet)
      | _ => (s, .quiet)
  | .fail => if t.phase = .idle then (s, .quiet)
      else (s.put i { t with phase := .idle, inTx := false }, .quiet)
  | .committed =>
      match t.phase with
      | .committing _ => (s.put i { t with phase := .idle }, .quiet)
      | _ => (s, .quiet)

inductive Op where
  /-- A task of its own, outside any request. -/
  | start
  | task (i : Nat) (a : Act)

def step (s : State) : Op → State × Event
  | .start => ({ s with tasks := s.tasks ++ [{}] }, .quiet)
  | .task i a =>
      match s.tasks[i]? with
      | none => (s, .quiet)
      | some t => s.act i t a

end BeSdk.Cutoff
