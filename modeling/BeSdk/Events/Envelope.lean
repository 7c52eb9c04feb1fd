/-
BeSdk.Events.Envelope — an event on its way: `Producer.emit`, the envelope of its row,
the message that travels, and what the subscriber makes of the payload.

A row is what the columns of `be_outbox` keep. A text column refuses what has no UTF-8
and the zero character, and a `uuid` column reads its text as `uuid.UUID` does; IDs are
numbers here, and `uuidText` is how they are written. `jsonb` reads the escapes that
`json.dumps` wrote, so two surrogates next to each other come back as the character
they are the pair of. The trace headers are ASCII and come back as they were.

`Trace` is what the propagator of the W3C trace context injects, the claim store and the
reader are parameters, and so are `str.lower` and what `int` makes of a float.
-/
import BeSdk.Audit.Record
import BeSdk.Events.Consumer
import BeSdk.Events.Outbox
import BeSdk.Events.Subscription

namespace BeSdk.Events

open Audit (uuidText)
open Consumer (maxHops header resolveClaim)

/-! ## Streams and producers -/

/-- Over it, the payload travels by claim check. -/
def maxPayload : Nat := 64 * 1024
def maxSubjects : Nat := 1000

/-- A declared event stream. -/
structure Stream where
  name : Str
  partitions : Nat
  named : isStreamName name = true
  counted : 1 ≤ partitions ∧ partitions ≤ 256

def fnvOffset : Nat := 0xCBF29CE484222325
def fnvPrime : Nat := 0x100000001B3

/-- FNV-1a 64 of the bytes. -/
def fnv (b : Bytes) : Nat := b.foldl (fun h x => ((h ^^^ x.toNat) * fnvPrime) % 2 ^ 64) fnvOffset

/-- `partition_of`, for a record ID in its lower-case form. -/
def Stream.partitionOf (s : Stream) (lower : Bytes) : Nat := fnv lower % s.partitions

/-- The claim store's `put`: the URI of a payload. -/
abbrev Put := Str → Bytes → Str

/-- Writes a member's events into its outbox. -/
structure Producer where
  source : Str
  streams : Dict Str Stream
  claims : Option Put

/-! ## Events and rows -/

def projections : List Str := [str "full", str "partial", str "delete"]

/-- One event a module emits. -/
structure Event where
  type : Str
  recordId : Str
  version : Int
  projection : Str
  data : Json := .null
  legalEntity : Str := []
  subjects : Option (List Str) := none

/-- The trace headers of the W3C trace context. -/
structure Trace where
  entries : Dict Str Str
  w3c : ∀ k ∈ entries.keys, k = str "traceparent" ∨ k = str "tracestate"

/-- A row of `be_outbox`, as `emit` inserts it. -/
structure Row where
  eventId : Nat
  stream : Str
  partition : Nat
  type : Str
  occurredAt : Date × Time
  recordId : Str
  version : Int
  projection : Str
  legalEntity : Str
  subjects : Option (List Str)
  causation : Option Nat
  hops : Int
  trace : Trace
  payload : Bytes
  digest : Str

/-- What `emit` takes from around it: a new ID, the time, the propagator's headers and
lower case. -/
structure Draws where
  eventId : Nat
  uuid : eventId < 2 ^ 128
  now : Date × Time
  trace : Trace
  lower : Str → Str

/-- Why `emit` raises. -/
inductive Refusal where
  /-- `events: stream {stream!r} is not declared` -/
  | stream (name : Str)
  /-- `events: an event needs a type and a record ID` -/
  | unnamed
  /-- `events: projection {ev.projection!r}` -/
  | projection (p : Str)
  /-- `events: {n} subjects, at most {MAX_SUBJECTS}` -/
  | subjects (n : Nat)
  /-- `events: a {n}-byte payload needs object storage for a claim check` -/
  | payload (n : Nat)
  /-- `events: {hops} hops exceed the limit of {MAX_HOPS} (a causal loop?)` -/
  | hops (n : Int)
  | unicodeEncodeError
  /-- `uuid.UUID` raises. -/
  | causation (id : Str)
  /-- The statement fails. -/
  | insert
  deriving DecidableEq

/-! ## `emit` -/

/-- How `json.dumps` writes a code point without `ensure_ascii`. -/
def plainEscape (c : CodePoint) : Str :=
  match letterEscape c with
  | some s => s
  | none => if c.val < 0x20 then unitEscape c.val else [c]

/-- The payload of an event; without data it is `{}`. -/
def payloadOf : Json → Option Bytes
  | .null => utf8Encode (str "\x7b\x7d")
  | v => utf8Encode (compact plainEscape v)

/-- What a text column takes. -/
def storable (s : Str) : Bool := s.all fun c => c.val ≠ 0 && !isSurrogate c

/-- A string of a `jsonb` column: `json.dumps` escapes it, and the database reads the
escapes. -/
def jsonbText (s : Str) : Option Str :=
  match scanString (s.flatMap asciiEscape ++ [chr '"']) with
  | some (t, []) => if storable t then some t else none
  | _ => none

/-- A `bigint`. -/
def isBig (n : Int) : Bool := decide (-(2 ^ 63) ≤ n ∧ n < 2 ^ 63)

/-- No column holds a gigabyte. -/
def maxField : Nat := 2 ^ 30

/-- The row digest. -/
def rowDigest (eventId : Nat) (payload : Bytes) : Str :=
  sha256Hex ((uuidText eventId).map (fun c => UInt8.ofNat c.val) ++ 0 :: payload)

/-- The hops and the causation of an event emitted with a cause. -/
def caused : Option (Str × Int) → Int × Str
  | none => (0, [])
  | some (id, hops) => (hops + 1, id)

/-- `uuid.UUID(causation) if causation else None` -/
def causationOf [Interp] (id : Str) : Except Refusal (Option Nat) :=
  if id = [] then .ok none
  else
    match Consumer.uuidOf id with
    | some n => .ok (some n)
    | none => .error (.causation id)

/-- `emit`, up to the end of its statement. -/
def Producer.emit [Interp] (p : Producer) (cause : Option (Str × Int)) (d : Draws)
    (stream : Str) (ev : Event) : Except Refusal Row :=
  match p.streams.get? stream with
  | none => .error (.stream stream)
  | some s =>
      let n := (ev.subjects.map List.length).getD 0
      let (hops, causation) := caused cause
      if ev.type = [] ∨ ev.recordId = [] then .error .unnamed
      else if ev.projection ∉ projections then .error (.projection ev.projection)
      else if maxSubjects < n then .error (.subjects n)
      else
        match payloadOf ev.data with
        | none => .error .unicodeEncodeError
        | some payload =>
            if maxPayload < payload.length ∧ p.claims.isNone then .error (.payload payload.length)
            else if maxHops < hops then .error (.hops hops)
            else
              match utf8Encode (d.lower ev.recordId) with
              | none => .error .unicodeEncodeError
              | some lower => do
                  let causation ← causationOf causation
                  match ev.subjects.mapM (List.mapM jsonbText) with
                  | none => .error .insert
                  | some subjects =>
                      -- the stream's name and the projection are plain text
                      if storable ev.type ∧ storable ev.recordId ∧ storable ev.legalEntity ∧
                        isBig ev.version ∧ 0 ≤ hops ∧
                          payload.length < maxField then
                        .ok { eventId := d.eventId, stream := s.name,
                              partition := s.partitionOf lower, type := ev.type,
                              occurredAt := d.now, recordId := ev.recordId, version := ev.version,
                              projection := ev.projection, legalEntity := ev.legalEntity,
                              subjects, causation, hops, trace := d.trace, payload,
                              digest := rowDigest d.eventId payload }
                      else .error .insert

/-! ## The envelope -/

/-- A position in the partition. -/
structure Position extends Outbox.Place where
  /-- The column is a `bigint`. -/
  bigint : seq < 2 ^ 63

def epochText (e : Outbox.Epoch) : Str := natText (ofLex e).1 ++ chr '.' :: natText (ofLex e).2

/-- `go_json` -/
def goJson (v : Json) : Str :=
  Str.replace (Str.replace (Str.replace (compact plainEscape v) (chr '<') (str "\\u003c"))
    (chr '>') (str "\\u003e")) (chr '&') (str "\\u0026")

/-- The time of an event, in milliseconds. -/
def ceTime (at_ : Date × Time) : Str :=
  let (d, t) := at_
  Canon.padded 4 d.year ++ chr '-' :: (Canon.padded 2 d.month ++ chr '-' :: (Canon.padded 2 d.day ++
    chr 'T' :: (Canon.padded 2 t.hour ++ chr ':' ::
      (Canon.padded 2 t.minute ++ chr ':' :: (Canon.padded 2 t.second ++
      chr '.' :: (Canon.padded 3 (t.micro / 1000) ++ [chr 'Z']))))))

/-- The entries of the envelope before the trace's, in the order they are set. -/
def Row.own (r : Row) (place : Position) (claim : Bool) (source impl : Str) : List (Str × Str) :=
  [(str "ce-specversion", str "1.0"), (str "ce-id", uuidText r.eventId),
    (str "ce-source", str "urn:be:" ++ source), (str "ce-type", r.type),
    (str "ce-time", ceTime r.occurredAt), (str "ce-subject", r.recordId),
    (str "ce-datacontenttype", str "application/json"), (str "ce-bestream", r.stream),
    (str "ce-bepartition", natText r.partition), (str "ce-beimpl", impl),
    (str "ce-beepoch", epochText place.epoch), (str "ce-beseq", natText place.seq),
    (str "ce-beversion", intText r.version), (str "ce-beprojection", r.projection),
    (str "ce-bedigest", r.digest), (str "ce-behops", intText r.hops)] ++
  (r.causation.toList.map fun id => (str "ce-becausation", uuidText id)) ++
  (if r.legalEntity = [] then [] else [(str "ce-belegalentity", r.legalEntity)]) ++
  (r.subjects.toList.map fun l => (str "ce-besubjects", goJson (.list (l.map .str)))) ++
  (if claim then [(str "ce-beclaim", str "true")] else [])

def Row.pairs (r : Row) (place : Position) (claim : Bool) (source impl : Str) : List (Str × Str) :=
  r.own place claim source impl ++ r.trace.entries.entries.map fun e => (str "ce-" ++ e.1, e.2)

/-- `headers` -/
def Row.headers (r : Row) (place : Position) (claim : Bool) (source impl : Str) : Dict Str Str :=
  Dict.ofPairs (r.pairs place claim source impl)

/-- The reference to a payload in the claim store. -/
def claimReference (uri : Str) (payload : Bytes) : Json :=
  .obj [(str "claim", .obj [(str "uri", .str uri), (str "size", .int payload.length),
    (str "sha256", .str (sha256Hex payload))])]

/-- `_message`; `none` when it raises. -/
def Row.message (r : Row) (put : Option Put) (place : Position) (source impl : Str) :
    Option Message :=
  let subj := subject r.stream r.partition r.type
  if r.payload.length ≤ maxPayload then
    some ⟨subj, r.headers place false source impl, r.payload⟩
  else
    put.bind fun put =>
      (utf8Encode (dumps (claimReference (put (uuidText r.eventId) r.payload) r.payload))).map
        fun data =>
        ⟨subj, r.headers place true source impl, data⟩

/-! ## The PostgreSQL queue -/

/-- `MAX_MESSAGE` -/
def maxMessage : Nat := 1024 * 1024

/-- What `publish` adds up of a message. -/
def Message.size (m : Message) : Nat :=
  m.data.length + m.subject.length + (m.headers.entries.map fun e => e.1.length + e.2.length).sum

/-- `publish` raises `TooLarge`. -/
def Message.tooLarge (m : Message) : Bool := decide (maxMessage < m.size)

/-! ## The subscriber's end -/

/-- `int(s)` of a text. -/
def decInt [Interp] (s : Str) : Option Int :=
  let s := ((s.dropWhile Consumer.intSpace).reverse.dropWhile Consumer.intSpace).reverse
  let neg := s.head? = some (chr '-')
  let s := if neg ∨ s.head? = some (chr '+') then s.drop 1 else s
  let groups := splitOn (chr '_') s
  if groups.any List.isEmpty ∨ Consumer.maxStrDigits < groups.flatten.length then none
  else (groups.flatten.mapM Consumer.decimalVal).map fun ds =>
    let n : Nat := ds.foldl (fun n d => 10 * n + d) 0
    if neg then -(n : Int) else n

/-- `int(v)` of a decoded value. -/
def intOf [Interp] (ofFloat : Str → Except Exc Int) : Json → Except Exc Int
  | .int n => .ok n
  | .bool b => .ok (if b then 1 else 0)
  | .float t => ofFloat t
  | .str s =>
      match decInt s with
      | some n => .ok n
      | none => .error .valueError
  | _ => .error .typeError

/-- `v[k]` of a decoded value, where `k` is a string. -/
def Json.item (v : Json) (k : Str) : Except Exc Json :=
  match v with
  | .obj ms =>
      match lookup k ms with
      | some x => .ok x
      | none => .error .keyError
  | _ => .error .typeError

/-- What a claim-checked message says of its payload. -/
structure Reference where
  uri : Json
  size : Int
  sha256 : Json

def referenceOf [Interp] (ofFloat : Str → Except Exc Int) (data : Bytes) : Except Exc Reference :=
  match loads data with
  | .error .valueError => .error .valueError
  | .error .recursionError => .error .recursionError
  | .ok v => do
      let ref ← Json.item v (str "claim")
      let uri ← Json.item ref (str "uri")
      let size ← intOf ofFloat (← Json.item ref (str "size"))
      let sha256 ← Json.item ref (str "sha256")
      return { uri, size, sha256 }

/-- The reader's `get`. -/
abbrev Get := Str → Except Exc Bytes

/-- Whether fetched bytes have the size and the digest of the reference. -/
def Reference.fits (ref : Reference) (fetched : Bytes) : Bool :=
  decide ((fetched.length : Int) = ref.size) &&
    match ref.sha256 with
    | .str digest => decide (sha256Hex fetched = digest)
    | _ => false

/-- Fetches what a reference names and checks it. -/
def Reference.fetch (ref : Reference) (get : Get) : Except Exc Bytes :=
  match ref.uri with
  | .str uri =>
      match get uri with
      | .error e => .error e
      | .ok fetched => if ref.fits fetched then .ok fetched else .error .valueError
  | _ => .error .attributeError

/-- `except (ValueError, KeyError, TypeError)` around a reference -/
def caught (e : Exc) : Bool := e = .valueError ∨ e = .keyError ∨ e = .typeError

/-- The payload of a claim-checked message. -/
def fetchClaim [Interp] (ofFloat : Str → Except Exc Int) (reader : Option Get)
    (data : Bytes) : Except Exc Bytes :=
  match referenceOf ofFloat data with
  | .error e => .error (if caught e then .valueError else e)
  | .ok ref =>
      match reader with
      | none => .error .valueError
      | some get => ref.fetch get

/-- `resolve_claim` -/
def resolve [Interp] (ofFloat : Str → Except Exc Int) (reader : Option Get) (m : Message) :
    Except Exc Bytes :=
  resolveClaim m (fetchClaim ofFloat reader m.data)

end BeSdk.Events
