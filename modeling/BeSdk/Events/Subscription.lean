/-
BeSdk.Events.Subscription — what a module subscribes to, and the durable that
`Consumer.spec` declares for it.

The handler and the lists of a subscription that no function here reads are left out. A
stream's partition is a number, and an event type is a text like a stream's name.
-/
import BeSdk.Events.Core

namespace BeSdk.Events

/-! ## Names -/

/-- `_STREAM.fullmatch(s)` -/
def isStreamName (s : Str) : Bool :=
  (splitOn (chr '.') s).all fun part =>
    !part.isEmpty && part.all fun c => (chr 'a' ≤ c && c ≤ chr 'z') || isDigit c || c = chr '_'

/-- `subject`: the transport subject of a stream partition and type. -/
def subject (stream : Str) (partition : Nat) (eventType : Str) : Str :=
  str "be." ++ stream ++ str "." ++ natText partition ++ str "." ++ eventType

example : isStreamName (str "erp.inventory.stock") = true ∧ isStreamName (str "erp..stock") =
    false ∧ subject (str "erp.stock") 3 (str "moved.v1") = str "be.erp.stock.3.moved.v1" := by
    decide +kernel

/-! ## Subscriptions -/

/-- One subscription of a module. -/
structure Sub where
  name : Str
  streams : List Str
  /-- Empty: every type of the streams. -/
  types : List Str := []
  maxDeliver : Int := 0
  concurrency : Int := 0
  ordered : Bool := false

/-- `durable_name` -/
def durableName (componentId subscription : Str) : Str :=
  [chr '/', chr '.', chr '-'].foldl (fun s c => Str.replace s c (str "_"))
    (componentId ++ str "_" ++ subscription)

/-- `concurrency`: one when ordered, else the deployment's setting, the declaration, or
one. -/
def effectiveConcurrency (sub : Sub) (configured : Int) : Int :=
  if sub.ordered then 1
  else if configured ≠ 0 then configured
  else if sub.concurrency ≠ 0 then sub.concurrency
  else 1

/-- `Consumer.spec` -/
def Sub.spec (sub : Sub) (member : Str) (configured : Int) : SubscriptionSpec :=
  { durable := durableName member sub.name, streams := sub.streams
    filters := sub.streams.flatMap fun st =>
    sub.types.map fun t => str "be." ++ st ++ str ".*." ++ t
    maxDeliver := sub.maxDeliver, concurrency := effectiveConcurrency sub configured
    ordered := sub.ordered : SubscriptionSpec }.defaults

end BeSdk.Events
