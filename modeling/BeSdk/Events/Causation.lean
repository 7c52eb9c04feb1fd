/-
BeSdk.Events.Causation — causation across the members: tasks, transactions that write
events, and calls of `Consumer._process` on the messages of committed rows.

Two context variables matter. `_cause` is set for the time of a call and holds the event
of the call with its hops; `_in_tx` is set while the function of a transaction runs, and
refuses another one. A task starts with a copy of its starter's context: it keeps the
cause when the call has ended, and a task started in a transaction opens none itself.
Events go through any open transaction whose `Tx` a task holds.

`rows` is the committed rows of all outboxes: an ID that is taken is refused, as by the
unique column of a member's own. A transaction that is retried is another one. A message
may be delivered any number of times, to any number of calls, and after a delivery fails.
-/
import BeSdk.Events.Envelope
import BeSdk.Lib.History

namespace BeSdk.Events.Causation

open Consumer (prepare)

/-- A transaction: the rows it has inserted, newest first. -/
structure Tx where
  open_ : Bool := true
  /-- A statement failed. -/
  failed : Bool := false
  rows : List Row := []

/-- A task: its context, and what ends with it of the scopes and the transaction it
opened itself. -/
structure Task where
  cause : Option (Str × Int) := none
  /-- `_in_tx` as it was inherited. -/
  nested : Bool := false
  saved : List (Option (Str × Int)) := []
  tx : Option Nat := none

/-- `in_tx()` -/
def Task.inTx (t : Task) : Bool := t.nested || t.tx.isSome

structure State where
  rows : List Row := []
  tasks : List Task := []
  txs : List Tx := []

/-- What a step did. -/
inductive Event where
  /-- A task entered a call of `_process` for an event. -/
  | entered (task : Nat) (event : Nat)
  | left (task : Nat)
  | started (task : Nat) (by_ : Option Nat)
  | emitted (task : Nat) (event : Nat) (causation : Option Nat)
  | quiet
  deriving DecidableEq

/-- A delivery of a row's message, with what fetching its payload gives. -/
structure Consumed where
  put : Option Put
  place : Position
  source : Str
  impl : Str
  attempt : Int
  fetched : Except Exc Bytes

/-- An event that is emitted. -/
structure Emitted where
  producer : Producer
  draws : Draws
  stream : Str
  event : Events.Event

/-- What a task does next. -/
inductive Act where
  | start
  /-- `_process` begins with a message of the committed row at an index. -/
  | process (row : Nat) (c : Consumed)
  | processed
  | begin_
  | emit (tx : Nat) (e : Emitted)
  | commit
  | rollback

def State.put (s : State) (i : Nat) (t : Task) : State := { s with tasks := s.tasks.set i t }

/-- An ID that is new to every outbox, and to the transactions still open. -/
def State.isNew (s : State) (id : Nat) : Bool :=
  s.rows.all (fun r => r.eventId ≠ id) && s.txs.all fun tx => tx.rows.all fun r => r.eventId ≠ id

variable [Interp]

/-- The event of a delivery and its hops, when `_process` comes as far as its handler. -/
def Consumed.cause (c : Consumed) (r : Row) : Option (Str × Int) :=
  match r.message c.put c.place c.source c.impl with
  | none => none
  | some m =>
      match prepare ⟨m, c.attempt⟩ c.fetched with
      | .ok x => some (x.id, x.hops)
      | .error _ => none

/-- One step of a task. -/
def State.act (s : State) (i : Nat) (t : Task) : Act → State × Event
  | .start =>
      ({ s with tasks := s.tasks ++ [{ cause := t.cause, nested := t.inTx }] },
        .started s.tasks.length (some i))
  | .process k c =>
      match s.rows[k]? with
      | none => (s, .quiet)
      | some r =>
          match c.cause r with
          | none => (s, .quiet)
          | some cause =>
              (s.put i { t with cause := some cause, saved := t.cause :: t.saved },
                .entered i r.eventId)
  | .processed =>
      match t.saved with
      | [] => (s, .quiet)
      | cause :: saved => (s.put i { t with cause, saved }, .left i)
  | .begin_ =>
      if t.inTx then (s, .quiet)
      else ({ s.put i { t with tx := some s.txs.length } with txs := s.txs ++ [{}] }, .quiet)
  | .emit n e =>
      match s.txs[n]? with
      | none => (s, .quiet)
      | some tx =>
          if tx.open_ ∧ tx.failed = false then
            match e.producer.emit t.cause e.draws e.stream e.event with
            | .ok r =>
                if s.isNew r.eventId then
                  ({ s with txs := s.txs.set n { tx with rows := r :: tx.rows } },
                    .emitted i r.eventId r.causation)
                else ({ s with txs := s.txs.set n { tx with failed := true } }, .quiet)
            | .error .insert => ({ s with txs := s.txs.set n { tx with failed := true } }, .quiet)
            | .error _ => (s, .quiet)
          else (s, .quiet)
  | .commit =>
      match t.tx with
      | none => (s, .quiet)
      | some n =>
          match s.txs[n]? with
          | none => (s, .quiet)
          | some tx =>
              let s := s.put i { t with tx := none }
              let committed := if tx.failed then [] else tx.rows
              ({ s with rows := committed ++ s.rows,
                        txs := s.txs.set n { tx with open_ := false, rows := [] } }, .quiet)
  | .rollback =>
      match t.tx with
      | none => (s, .quiet)
      | some n =>
          ({ s.put i { t with tx := none } with txs := s.txs.set n { open_ := false } }, .quiet)

inductive Op where
  /-- A task of its own. -/
  | start
  | task (i : Nat) (a : Act)

def step (s : State) : Op → State × Event
  | .start => ({ s with tasks := s.tasks ++ [{}] }, .started s.tasks.length none)
  | .task i a =>
      match s.tasks[i]? with
      | none => (s, .quiet)
      | some t => s.act i t a

end BeSdk.Events.Causation
