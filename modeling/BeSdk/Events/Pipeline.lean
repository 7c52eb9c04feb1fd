/-
BeSdk.Events.Pipeline — the whole way of an event: the outbox of one partition, the
passes that forward it, the PostgreSQL queue, and the workers of one durable.

The state is that of the passes and that of the workers, and what lies between: the rows
each numbering transaction read, with their positions, the rows each pass went on with,
and the calls of `Transport.publish`. A call is a transaction of the queue. Its `INSERT`
does nothing when a message with the same ID is in the table (ON CONFLICT DO NOTHING),
and waits while an open transaction has written one. Its commit is the acknowledgement,
which may get lost; the transaction may then still commit. A message that is too large
is refused.

Everything else goes on as it does alone: business transactions, numberers, other
publishers of the queue, the workers and their handlers.
-/
import BeSdk.Events.Forward
import BeSdk.Events.Workers
import BeSdk.Events.Envelope

namespace BeSdk.Events.Pipeline

open Outbox (Place)
open Audit (uuidText)

/-- What the rows of the partition carry, by their `ord`, and who publishes them. -/
structure Content where
  row : Nat → Row
  source : Str
  uuid : ∀ o, (row o).eventId < 2 ^ 128

/-- The message ID of a row. -/
def Content.id (c : Content) (o : Nat) : Str := uuidText (c.row o).eventId

/-- The message of a row at its position, by what the claim store returns and by the
implementation that forwards it; `none` when it cannot be made. -/
def Content.message (c : Content) (o : Nat) (p : Place) (put : Option Put) (impl : Str) :
    Option Message :=
  if h : p.seq < 2 ^ 63 then (c.row o).message put ⟨p, h⟩ c.source impl else none

/-- A call of `publish`: the pass, the row, the transaction, and whether its `INSERT` is
through. -/
structure Send where
  pass : Nat
  ord : Nat
  tx : Nat
  inserted : Bool := false

structure State where
  forward : Forward.State := Forward.start
  workers : Workers.State
  /-- The rows that numbering transactions read, by the transaction. -/
  reads : List (Nat × Nat × Place) := []
  /-- The rows that passes went on with, by the pass. -/
  batches : List (Nat × Nat × Place) := []
  sends : List Send := []

/-- What a step was to the passes or to the workers. -/
inductive Note where
  | forward (notes : List Forward.Note)
  | workers (notes : List Queue.Note)
  | between

inductive Op where
  | forward (o : Forward.Op)
  | workers (o : Workers.Op)
  /-- A pass calls `publish` with the next message of its batch. -/
  | send (k : Nat)
  | insert (j : Nat) (put : Option Put) (impl : Str)
  /-- The call returns. -/
  | acknowledge (j : Nat)

/-- An acknowledgement is a call's. -/
def acknowledges : Forward.Op → Bool
  | .publish _ _ acked => acked
  | _ => false

/-- The rows of `_unpublished`, with their positions, by the transaction that reads them. -/
def reading (s : Forward.State) : Forward.Op → List (Nat × Nat × Place)
  | .select k batch =>
      match s.passes[k]? with
      | some (.numbering i) =>
          match Forward.counted s.box i with
          | some w =>
              if batch < 0 then [] else ((s.box.apply w).rows.filterMap Forward.waiting).map
                fun x => (i, x.2, x.1)
          | none => []
      | _ => []
  | _ => []

/-- The rows that a pass goes on with when its transaction has committed. -/
def State.receiving (s : State) : Forward.Op → List (Nat × Nat × Place)
  | .receive k =>
      match s.forward.passes[k]? with
      | some (.read i _) =>
          if Forward.committed s.forward.box i then
            (s.reads.filter fun r => decide (r.1 = i)).map fun r => (k, r.2)
          else []
      | _ => []
  | _ => []

/-- The position that a pass has for a row. -/
def State.place (s : State) (k o : Nat) : Option Place :=
  (s.batches.find? fun b => decide (b.1 = k) && decide (b.2.1 = o)).map fun b => b.2.2

/-- The transaction of a call can write its row. -/
def writable (q : Queue.State) (t : Nat) : Bool :=
  q.publishers[t]?.any fun p => decide (p.stage = .running) && p.xid.isSome && p.drawn.isSome

/-- Another open transaction has written a message of this ID. -/
def contested (q : Queue.State) (id : Str) : Bool :=
  q.publishers.any fun p => decide (p.stage = .running) && p.rows.any fun m => decide (m.id = id)

def taken (q : Queue.State) (id : Str) : Bool := q.messages.any fun m => decide (m.id = id)

/-- The `INSERT` of a call is through. -/
def State.through (s : State) (j : Nat) : State :=
  { s with sends := s.sends.modify j fun x => { x with inserted := true } }

/-- A step of a publisher is a call's. -/
def State.own (s : State) : Workers.Op → Bool
  | .queue (.write t _) => s.sends.any fun x => decide (x.tx = t)
  | _ => false

variable [Interp]

/-- The `INSERT` of a call. -/
def State.insert (s : State) (j t : Nat) (m : Message) : State × Note :=
  if m.tooLarge ∨ writable s.workers.queue t = false then (s, .between)
  else if taken s.workers.queue m.id then (s.through j, .between)
  else if contested s.workers.queue m.id then (s, .between)
  else
    let (workers, notes) := Workers.step s.workers (.queue (.write t m))
    ({ s with workers }.through j, .workers notes)

def step (c : Content) (s : State) : Op → State × Note
  | .forward o =>
      if acknowledges o then (s, .between)
      else
        ({ s with forward := (Forward.step s.forward o).1
                  reads := reading s.forward o ++ s.reads
                  batches := s.receiving o ++ s.batches }, .forward (Forward.step s.forward o).2)
  | .workers o =>
      if s.own o then (s, .between)
      else ({ s with workers := (Workers.step s.workers o).1 },
        .workers (Workers.step s.workers o).2)
  | .send k =>
      match s.forward.passes[k]? with
      | some (.publishing (o :: _) _) =>
          ({ s with workers := (Workers.step s.workers (.queue .begin_)).1
                    sends := s.sends ++ [⟨k, o, s.workers.queue.publishers.length, false⟩] },
            .workers (Workers.step s.workers (.queue .begin_)).2)
      | _ => (s, .between)
  | .insert j put impl =>
      match s.sends[j]? with
      | some ⟨k, o, t, false⟩ =>
          match (s.place k o).bind fun p => c.message o p put impl with
          | some m => s.insert j t m
          | none => (s, .between)
      | _ => (s, .between)
  | .acknowledge j =>
      match s.sends[j]? with
      | some ⟨k, o, t, true⟩ =>
          match s.forward.passes[k]?, s.workers.queue.publishers[t]? with
          | some (.publishing (o' :: _) _), some ⟨_, _, _, .committed, _⟩ =>
              if o' = o then
                ({ s with forward := (Forward.step s.forward (.publish k true true)).1 },
                  .forward (Forward.step s.forward (.publish k true true)).2)
              else (s, .between)
          | _, _ => (s, .between)
      | _ => (s, .between)

/-- An empty outbox, and a durable that was just created. -/
def created (spec : SubscriptionSpec) : State := { workers := Workers.created spec }

/-! ## Events -/

/-- No row and no message of the queue has this ID yet. -/
def State.fresh (c : Content) (s : State) (o : Nat) : Bool :=
  (List.range s.forward.box.nextOrd).all (fun o' => decide (c.id o' ≠ c.id o)) &&
    s.workers.queue.publishers.all fun p => p.rows.all fun m => decide (m.id ≠ c.id o)

/-- The workers are prudent, and IDs do not repeat: a row gets a new one, and no other
publisher writes a message under a row's. -/
def proper (c : Content) (s : State) : Op → Bool
  | .forward (.box (.emit _)) => s.fresh c s.forward.box.nextOrd
  | .workers (.queue (.write _ m)) =>
      (List.range s.forward.box.nextOrd).all fun o => decide (m.id ≠ c.id o)
  | .workers o => Workers.prudent s.workers o
  | .forward _ | .send _ | .insert _ _ _ | .acknowledge _ => true

/-- The event's business transaction has committed, or it has a dead letter. -/
def Content.settled (c : Content) (s : State) (o : Nat) : Prop :=
  (c.row o).eventId ∈ s.workers.consumer.inbox ∨ ∃ l ∈ s.workers.consumer.dead, l.eventId = c.id o

end BeSdk.Events.Pipeline
