/-
BeSdk.Audit.Record — one audit record: its body, and what `Auditor._insert` stores of it.

The parts `target`, `changes` and `request` are what a module put together; they go
through JSON text and back, and lose their null members. A part that JSON text cannot
hold is a module error and outside the model. Of the row only the columns that travel
are here, `record` and `digest`; `_insert` runs with the ID and the time that it draws.
-/
import BeSdk.Records

namespace BeSdk.Audit

open Canon

/-- One audit record. -/
structure Record where
  category : Str
  operation : Str
  outcome : Str
  reason : Str := []
  actor : Str := []
  represented : Str := []
  target : Option Json := none
  changes : Option Json := none
  request : Option Json := none

/-! ## The parts -/

mutual

/-- `json.dumps(v)` -/
def dumped : Json → Str
  | .null => str "null"
  | .bool b => if b then str "true" else str "false"
  | .int n => intText n
  | .float t => t
  | .str s => quoted asciiEscape s
  | .list xs => chr '[' :: (Str.join (str ", ") (dumpedElems xs) ++ [chr ']'])
  | .obj ms => chr '{' :: (Str.join (str ", ") (dumpedMembers ms) ++ [chr '}'])

def dumpedElems : List Json → List Str
  | [] => []
  | x :: xs => dumped x :: dumpedElems xs

def dumpedMembers : List (Str × Json) → List Str
  | [] => []
  | (k, v) :: ms => (quoted asciiEscape k ++ str ": " ++ dumped v) :: dumpedMembers ms

end

mutual

/-- `_drop_nulls`: the null members of every object left out. -/
def dropNulls : Json → Json
  | .list xs => .list (dropNullsElems xs)
  | .obj ms => .obj (dropNullsMembers ms)
  | v => v

def dropNullsElems : List Json → List Json
  | [] => []
  | x :: xs => dropNulls x :: dropNullsElems xs

def dropNullsMembers : List (Str × Json) → List (Str × Json)
  | [] => []
  | (_, .null) :: ms => dropNullsMembers ms
  | (k, v) :: ms => (k, dropNulls v) :: dropNullsMembers ms

end

/-- `_canon_map` -/
def canonMap (m : Json) : Except Exc Json :=
  match scanJson (dumped m) with
  | none => .error .valueError
  | some v => .ok (dropNulls v.dedupe)

example :
    (canonMap (.obj [(str "a", .null),
      (str "b", .list [.null, .str (str "x")])])).toOption.map dumped =
    some (str "\x7b\"b\": [null, \"x\"]\x7d") := by decide +kernel

/-! ## The body -/

/-- `str(uuid)` -/
def uuidText (n : Nat) : Str :=
  let hex := (List.range 32).map fun i => hexDigit (n / 16 ^ (31 - i))
  Str.join (str "-") [hex.take 8, (hex.drop 8).take 4, (hex.drop 12).take 4,
    (hex.drop 16).take 4, hex.drop 20]

/-- A text that is left out when it is empty. -/
def textMember (k : String) (v : Str) : List (Str × Json) :=
  if v.isEmpty then [] else [(str k, .str v)]

/-- A part that is left out when it is `None`. -/
def mapMember (k : String) (m : Option Json) : Except Exc (List (Str × Json)) :=
  match m with
  | none => .ok []
  | some m => (canonMap m).map fun v => [(str k, v)]

/-- The members of `_body`. -/
def body (r : Record) (rid : Str) (at_ : Instant) : Except Exc (List (Str × Json)) := do
  let occurredAt ← time at_
  let target ← mapMember "target" r.target
  let changes ← mapMember "changes" r.changes
  let request ← mapMember "request" r.request
  return [(str "id", .str rid), (str "occurred_at", .str occurredAt),
    (str "category", .str r.category),
      (str "operation", .str r.operation), (str "outcome", .str r.outcome)] ++
    textMember "reason" r.reason ++ textMember "actor" r.actor ++ textMember "represented"
      r.represented ++
    target ++ changes ++ request

def recordType : Str := str "be.audit.record"

/-- `Auditor._insert`: the bytes and the digest of the row. -/
def insert (schemas : Str → Option Records.Schema) (r : Record) (rid : Nat) (at_ : Instant) :
    Except Records.Raised (Bytes × Str) :=
  match (body r (uuidText rid) at_).bind fun ms => (Records.seal_ recordType (.obj ms)).map
    fun p => (ms, p) with
  | .error e => .error (.exc e)
  | .ok (ms, raw, digest) => do
      Records.validate schemas recordType (.obj ms)
      return (raw, digest)

end BeSdk.Audit
