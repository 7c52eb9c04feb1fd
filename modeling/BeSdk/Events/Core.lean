/-
BeSdk.Events.Core — messages, subscriptions and what a handler answers.

A subscription is stored in whole milliseconds when it is first created; every
instance then works with the stored settings, defaults filled in again, and only the
concurrency and the ordering are its own.
-/
import BeSdk.Lib.Dict
import BeSdk.Py.Text
import BeSdk.Py.Datetime

namespace BeSdk.Events

/-! ## Subjects -/

/-- `s.split(c)` for a character. -/
def splitOn (c : CodePoint) : Str → List Str
  | [] => [[]]
  | x :: rest =>
      if x = c then [] :: splitOn c rest
      else
        match splitOn c rest with
        | [] => [[x]]
        | word :: words => (x :: word) :: words

/-- Whether the tokens of a pattern match those of a subject. -/
def tokensMatch : List Str → List Str → Bool
  | [], subj => subj.isEmpty
  | tok :: pattern, subj =>
      if tok = str ">" then !subj.isEmpty
      else
        match subj with
        | [] => false
        | t :: rest => (tok = str "*" || tok = t) && tokensMatch pattern rest

/-- `*` is one token, `>` the rest. -/
def subjectMatches (pattern subj : Str) : Bool :=
  tokensMatch (splitOn (chr '.') pattern) (splitOn (chr '.') subj)

example : subjectMatches (str "be.stock.>") (str "be.stock.0.moved") = true ∧
    subjectMatches (str "be.*.0") (str "be.stock.1") = false := by decide

/-! ## Messages -/

/-- What travels. -/
structure Message where
  subject : Str
  headers : Dict Str Str
  data : Bytes

def hId : Str := str "ce-id"

/-- The message ID. -/
def Message.id (m : Message) : Str := (m.headers.get? hId).getD []

/-- A message as it is handed out. -/
structure Delivery extends Message where
  attempt : Int := 1

/-- What a handler answers. -/
inductive Outcome where
  /-- Processed and committed. -/
  | ack
  /-- Failed; redeliver after the backoff. -/
  | nak
  /-- Never deliver again. -/
  | term
  deriving DecidableEq

/-! ## Subscriptions -/

def defaultMaxDeliver : Int := 3
def defaultAckWait : Seconds := 30

/-- From one second, doubled up to thirty. -/
def defaultBackoff : List Seconds := [1, 2, 4, 8, 16, 30]

/-- A durable subscription. -/
structure SubscriptionSpec where
  durable : Str
  streams : List Str
  filters : List Str := []
  maxDeliver : Int := 0
  ackWait : Seconds := 0
  backoff : List Seconds := []
  concurrency : Int := 0
  ordered : Bool := false

def SubscriptionSpec.defaults (s : SubscriptionSpec) : SubscriptionSpec :=
  { s with maxDeliver := if s.maxDeliver = 0 then defaultMaxDeliver else s.maxDeliver
           ackWait := if s.ackWait = 0 then defaultAckWait else s.ackWait
           concurrency := if s.concurrency = 0 then 1 else s.concurrency
           backoff := if s.backoff.isEmpty then defaultBackoff else s.backoff }

/-- The delay before the delivery after an attempt. -/
def SubscriptionSpec.backoffFor (s : SubscriptionSpec) (attempt : Int) : Seconds :=
  s.backoff.getD ((min (max attempt 1) s.backoff.length).toNat - 1) 0

/-- `int(x)` -/
def truncate (x : Seconds) : Int := if x < 0 then x.ceil else x.floor

/-- The settings of a durable as they are stored. -/
structure Stored where
  streams : List Str
  filters : List Str
  maxDeliver : Int
  ackWaitMs : Int
  backoffMs : List Int

def SubscriptionSpec.stored (s : SubscriptionSpec) : Stored where
  streams := s.streams
  filters := s.filters
  maxDeliver := s.maxDeliver
  ackWaitMs := truncate (s.ackWait * 1000)
  backoffMs := s.backoff.map fun b => truncate (b * 1000)

/-- The durable is created with a declaration when it is missing. -/
def subscribe (durable : Option Stored) (declared : SubscriptionSpec) : Stored :=
  durable.getD declared.defaults.stored

/-- The settings an instance works with. -/
def Stored.spec (r : Stored) (declared : SubscriptionSpec) : SubscriptionSpec :=
  { durable := declared.durable, streams := r.streams, filters := r.filters,
    maxDeliver := r.maxDeliver, ackWait := (r.ackWaitMs : Seconds) / 1000,
    backoff := r.backoffMs.map fun b => (b : Seconds) / 1000,
    concurrency := declared.concurrency, ordered := declared.ordered : SubscriptionSpec }.defaults

/-- `_matches` -/
def SubscriptionSpec.selects (s : SubscriptionSpec) (subj : Str) : Bool :=
  (s.streams.any fun st => subjectMatches (str "be." ++ st ++ str ".>") subj) &&
    (s.filters.isEmpty || s.filters.any fun f => subjectMatches f subj)

end BeSdk.Events
