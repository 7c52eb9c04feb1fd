/-
BeSdk.Events.Workers — a consumer on the PostgreSQL queue: `Transport._work` runs
`Consumer.handle` on what it claims, and settles with its answer.

The state is that of the queue and that of the consumer's calls, and for each call
which handout it is for. Settlements are the workers' own; everything else of the
two machines goes on as it does alone. A worker that is gone settles nothing. Each
call has the limit that its instance declares; the queue has the one stored when the
durable was created.
-/
import BeSdk.Events.Queue
import BeSdk.Events.Consumer

namespace BeSdk.Events.Workers

structure State where
  queue : Queue.State
  consumer : Consumer.State := Consumer.start
  held : List Nat := []

inductive Op where
  | queue (o : Queue.Op)
  | call (o : Consumer.Op)
  /-- A worker calls `handle` with a handout. -/
  | handle (k : Nat) (limit : Int)
  /-- A worker settles with the answer of a call. -/
  | settle (i : Nat)

/-- A settlement of the queue is a worker's. -/
def settles : Queue.Op → Bool
  | .settle _ _ => true
  | _ => false

/-- A delivery of the consumer is a worker's. -/
def delivers : Consumer.Op → Bool
  | .deliver _ _ => true
  | _ => false

variable [Interp]

def step (s : State) : Op → State × List Queue.Note
  | .queue o =>
      if settles o then (s, [])
      else ({ s with queue := (Queue.step s.queue o).1 }, (Queue.step s.queue o).2)
  | .call o =>
      if delivers o then (s, [])
      else ({ s with consumer := (Consumer.step s.consumer o).1 }, [])
  | .handle k limit =>
      match s.queue.handouts[k]? with
      | some h =>
          ({ s with consumer :=
            (Consumer.step s.consumer (.deliver h.delivery limit)).1, held := s.held ++ [k] }, [])
      | none => (s, [])
  | .settle i =>
      match s.consumer.runs[i]?, s.held[i]? with
      | some ⟨_, _, .answered out⟩, some k =>
          ({ s with queue := (s.queue.settle k out).1 }, (s.queue.settle k out).2)
      | _, _ => (s, [])

/-- A durable that was just created, and its consumer. -/
def created (spec : SubscriptionSpec) : State := { queue := Queue.created spec }

/-! ## What became of an event -/

/-- A dead letter of this message. Messages without an ID share one key, so theirs is
told by its content. -/
def buried (dead : List Consumer.DeadLetter) (m : Message) : Bool :=
  dead.any fun row => decide (row.eventId = m.id) &&
    (!m.id.isEmpty || (decide (row.headers = m.headers) && decide (row.payload = m.data)))

/-- The business transaction of the event has committed, or a dead letter of it has. -/
def safe (c : Consumer.State) (m : Message) : Bool :=
  (Consumer.uuidOf m.id).any c.inbox.contains || buried c.dead m

/-- A dead letter written now is one of this message. -/
def buries (c : Consumer.State) (d : Delivery) : Bool :=
  !d.id.isEmpty || !(c.dead.any fun row => decide (row.eventId = d.id)) || buried c.dead d.toMessage

/-! ## Prudence -/

/-- A worker has the answer to a handout of the delivery's lease. -/
def State.answered (s : State) (d : Queue.DeliveryRow) : Bool :=
  (s.consumer.runs.zip s.held).any fun c =>
    match c.1.phase, s.queue.handouts[c.2]? with
    | .answered _, some x => d.under x.token
    | _, _ => false

/-- The ways in which an event can disappear are not taken: no handler returns after a
statement failed; an attempt at or above the stored limit is not answered with a NAK,
unless its event is safe; a dead letter does not meet another message's; and no last
attempt whose worker has no answer for it runs out before the give-up sweep. -/
def prudent (s : State) : Op → Bool
  | .call (.returns i) => Consumer.careful s.consumer (.returns i)
  | .call (.answer i letter) =>
      match s.consumer.runs[i]? with
      | some ⟨d, limit, .failed⟩ =>
          let kept := decide (d.attempt < s.queue.spec.maxDeliver) || safe s.consumer d.toMessage
          if d.attempt < limit then kept
          else
            match letter with
            | .written => buries s.consumer d
            | .unheard => kept || buries s.consumer d
            | .refused => kept
      | _ => true
  | .queue .giveUp =>
      s.queue.deliveries.all fun d =>
        !(d.expired s.queue.clock && decide (s.queue.spec.maxDeliver ≤ d.attempts)) ||
          s.answered d || s.queue.messages.all fun m => decide (m.seq ≠ d.seq)
  | _ => true

end BeSdk.Events.Workers
