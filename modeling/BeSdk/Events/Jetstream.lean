/-
BeSdk.Events.Jetstream — the streams and durable consumers that the JetStream adapter
makes at the broker.

A broker keeps streams by their name and the consumers of a stream by their durable name.
What exists is left as it is, so a stream or a consumer is configured by the call that
comes first. Between the question whether it exists and its creation another instance may
create it; the server then refuses, and the call goes on with what the other one made, as
if it had come later. `accepted` is what the server says to a creation of its own.

Messages, pulls and the settings of the server are left out.
-/
import BeSdk.Events.Subscription
import BeSdk.Lib.Registry

namespace BeSdk.Events

/-! ## Names -/

/-- `str.upper` of an ASCII character; a valid stream name has no other. -/
def upperChar (c : CodePoint) : CodePoint := if chr 'a' ≤ c ∧ c ≤ chr 'z' then c - 32 else c

/-- `jetstream_name` -/
def jetstreamName (stream : Str) : Str :=
  str "BE_" ++ (Str.replace stream (chr '.') (str "_")).map upperChar

example : jetstreamName (str "erp.stock_moves") = str "BE_ERP_STOCK_MOVES" := by decide

/-! ## Configurations -/

/-- The broker deduplicates a publish repeated within it. -/
def duplicateWindow : Seconds := 120
/-- Messages in the transport. -/
def transportRetention : Seconds := 7 * 24 * 3600

/-- `nats.js.api.StreamConfig` -/
structure StreamConfig where
  name : Str
  subjects : List Str
  duplicateWindow : Seconds
  maxAge : Seconds
  deriving DecidableEq

/-- `nats.js.api.ConsumerConfig` -/
structure ConsumerConfig where
  durable : Str
  ackWait : Seconds
  maxDeliver : Int
  maxAckPending : Nat
  filterSubject : Option Str := none
  filterSubjects : List Str := []
  deriving DecidableEq

/-- What `ensure_stream` creates. -/
def streamConfig (stream : Str) : StreamConfig where
  name := jetstreamName stream
  subjects := [str "be." ++ stream ++ str ".>"]
  duplicateWindow := duplicateWindow
  maxAge := transportRetention

/-- What `_consumer` creates. -/
def consumerConfig (stream : Str) (spec : SubscriptionSpec) : ConsumerConfig :=
  let filters := spec.filters.filter fun f =>
    subjectMatches (str "be." ++ stream ++ str ".>") f || Str.startsWith f
      (str "be." ++ stream ++ str ".")
  let cfg : ConsumerConfig :=
    { durable := spec.durable, ackWait := spec.ackWait, maxDeliver := spec.maxDeliver
      -- An ordered durable: the server holds the rest until the one in flight settles.
      maxAckPending := if spec.ordered then 1 else 1000 }
  match filters with
  | [f] => { cfg with filterSubject := some f }
  | _ :: _ => { cfg with filterSubjects := filters }
  | [] =>
      -- None of the filters belongs to this stream.
      if !spec.filters.isEmpty then { cfg with filterSubject := some (str "be." ++ stream ++
        str ".__none__") } else cfg

/-! ## The broker -/

structure Broker where
  streams : Dict Str StreamConfig
  consumers : Dict (Str × Str) ConsumerConfig

def Broker.empty : Broker := ⟨Dict.empty, Dict.empty⟩

/-- `ensure_stream`: the stream it finds or makes, or nothing where `stream_info` raises. -/
def Broker.ensureStream (b : Broker) (stream : Str) (accepted : Bool) :
    Option StreamConfig × Broker :=
  match b.streams.get? (jetstreamName stream) with
  | some found => (some found, b)
  | none =>
      if accepted then
        (some (streamConfig stream),
          { b with streams := b.streams.set (jetstreamName stream) (streamConfig stream) })
      else (none, b)

/-- `_consumer`: the consumer it finds or makes, or nothing where `consumer_info` raises. -/
def Broker.ensureConsumer (b : Broker) (stream : Str) (spec : SubscriptionSpec) (accepted : Bool) :
    Option ConsumerConfig × Broker :=
  match b.consumers.get? (jetstreamName stream, spec.durable) with
  | some found => (some found, b)
  | none =>
      if accepted then
        (some (consumerConfig stream spec),
          { b with consumers := b.consumers.set (jetstreamName stream,
            spec.durable) (consumerConfig stream spec) })
      else (none, b)

/-- `subscribe` on one of the streams of a declaration: the stream is ensured, then the
consumer, which the instance binds to. -/
def Broker.subscribe (b : Broker) (stream : Str) (spec : SubscriptionSpec)
    (accepted : Bool × Bool) : Option ConsumerConfig × Broker :=
  match b.ensureStream stream accepted.1 with
  | (none, b') => (none, b')
  | (some _, b') => b'.ensureConsumer stream spec.defaults accepted.2

end BeSdk.Events
