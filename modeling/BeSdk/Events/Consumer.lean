/-
BeSdk.Events.Consumer — one subscription's calls of `Consumer.handle`: the envelope,
the inbox written with the business change, the SDK's retries, dead letters.

`State` has the tables of the member's database that a subscription writes, and the
calls of `handle` by all instances of it, any number at a time and for any delivery. A
`Run` is one call: `prepare`, then the transaction of `apply`, redone by `DB._run` while
it ends in a serialization failure or a deadlock, then the answer. A statement is one
step. `INSERT … ON CONFLICT DO NOTHING` waits while an open transaction holds a row of
the same key. A statement that fails leaves its transaction ABORTED, unless a savepoint
undoes it: `COMMIT` then rolls it back, and reports no error. A row or a write is in its
table when its transaction commits.

What the model leaves open is part of the operations: whether a claim-checked payload
can be read, what the handler writes and raises, whether `COMMIT` takes effect without
its reply arriving, and when a worker is gone.
-/
import BeSdk.Events.Core
import BeSdk.Exc

namespace BeSdk.Events.Consumer

/-! ## Numbers in text -/

/-- The value of a decimal digit, ASCII or not. -/
def decimalVal [Interp] (c : CodePoint) : Option Nat :=
  if c.val ≤ 127 then digitVal c else (Interp.toDecimal c).map Fin.val

/-- The digits that `int` reads; longer texts are refused. -/
def maxStrDigits : Nat := 4300

/-- `num`: the header's text is an optional sign and digits. -/
def num [Interp] (h : Dict Str Str) (key : Str) : Except Exc Int :=
  let v := (h.get? key).getD (str "0")
  let digits := v.dropWhile fun c => c = chr '-'
  if digits.isEmpty ∨ maxStrDigits < digits.length ∨
    1 < v.length - digits.length then .error .valueError
  else
    match digits.mapM decimalVal with
    | none => .error .valueError
    | some ds =>
        let n : Nat := ds.foldl (fun n d => 10 * n + d) 0
        .ok (if digits.length < v.length then -(n : Int) else n)

/-- The value of a hexadecimal digit. -/
def hexVal [Interp] (c : CodePoint) : Option Nat :=
  if 0x61 ≤ c.val ∧ c.val ≤ 0x66 then some (c.val - 0x57)
  else if 0x41 ≤ c.val ∧ c.val ≤ 0x46 then some (c.val - 0x37)
  else decimalVal c

/-- The blanks that `int` skips. -/
def intSpace (c : CodePoint) : Bool := (9 ≤ c.val && c.val ≤ 13) || c.val == 32 ||
    (127 < c.val && isSpace c)

/-- `int(s, 16)` -/
def hexInt [Interp] (s : Str) : Option Int :=
  let s := ((s.dropWhile intSpace).reverse.dropWhile intSpace).reverse
  let neg := s.head? = some (chr '-')
  let s := if neg ∨ s.head? = some (chr '+') then s.drop 1 else s
  let s := if Str.startsWith s (str "0x") ∨ Str.startsWith s (str "0X") then
      if (s.drop 2).head? = some (chr '_') then s.drop 3 else s.drop 2
    else s
  let groups := splitOn (chr '_') s
  if groups.any List.isEmpty then none
  else (groups.flatten.mapM hexVal).map fun ds =>
    let n : Nat := ds.foldl (fun n d => 16 * n + d) 0
    if neg then -(n : Int) else n

/-- `s.replace(pat, "")`; the number counts what is left of a pattern to skip. -/
def removeGo (pat : Str) : Nat → Str → Str
  | _, [] => []
  | n + 1, _ :: rest => removeGo pat n rest
  | 0, c :: rest =>
      if Str.startsWith (c :: rest) pat then removeGo pat (pat.length - 1) rest
        else c :: removeGo pat 0 rest

/-- `uuid.UUID(s)` -/
def uuidOf [Interp] (s : Str) : Option Nat :=
  let hex := removeGo (str "uuid:") 0 (removeGo (str "urn:") 0 s)
  let brace (c : CodePoint) : Bool := c = chr '{' || c = chr '}'
  let hex := ((hex.dropWhile brace).reverse.dropWhile brace).reverse
  let hex := Str.replace hex (chr '-') []
  if hex.length ≠ 32 then none
  else (hexInt hex).bind fun n => if 0 ≤ n ∧ n < 2 ^ 128 then some n.toNat else none

example : letI := Interp.ascii
    uuidOf (str "0197F000-0000-7000-8000-000000000001") = uuidOf
    (str "urn:uuid:0197f000-0000-7000-8000-000000000001") := by
  decide +kernel

/-! ## The envelope -/

def maxHops : Int := 10

/-- One event as a handler sees it. -/
structure Received where
  id : Str
  type : Str
  source : Str
  recordId : Str
  version : Int
  projection : Str
  stream : Str
  partition : Int
  seq : Int
  epoch : Str
  impl : Str
  hops : Int
  data : Bytes
  headers : Dict Str Str

/-- `h.get(key, "")` -/
def header (h : Dict Str Str) (key : String) : Str := (h.get? (str key)).getD []

def received [Interp] (d : Delivery) : Except Exc Received :=
  let h := d.headers
  if d.id.isEmpty ∨ (header h "ce-type").isEmpty then .error .valueError
  else do
    let version ← num h (str "ce-beversion")
    let partition ← num h (str "ce-bepartition")
    let seq ← num h (str "ce-beseq")
    let hops ← num h (str "ce-behops")
    pure { id := d.id, type := header h "ce-type", source := header h "ce-source",
           recordId := header h "ce-subject",
           version, projection := header h "ce-beprojection",
           stream := header h "ce-bestream", partition, seq, epoch := header h "ce-beepoch",
           impl := header h "ce-beimpl", hops, data := d.data, headers := h }

/-- `resolve_claim`: the payload as is, or what fetching and checking it gave. -/
def resolveClaim (m : Message) (fetched : Except Exc Bytes) : Except Exc Bytes :=
  if header m.headers "ce-beclaim" = str "true" then fetched else .ok m.data

/-- `_process` before its transaction. -/
def prepare [Interp] (d : Delivery) (fetched : Except Exc Bytes) : Except Exc Received := do
  let r ← received d
  if maxHops < r.hops then throw .valueError
  let data ← resolveClaim d.toMessage fetched
  pure { r with data }

/-! ## Calls -/

/-- How often a transaction is tried. -/
def maxAttempts : Nat := 3

/-- A row that a handler writes. -/
abbrev Write := Str

/-- An open transaction of `apply`: the key it inserted into the inbox and whether that
was new, what the handler wrote, and whether a statement failed. -/
structure Tx where
  inserted : Option (Nat × Bool) := none
  writes : List Write := []
  aborted : Bool := false

inductive Phase where
  | called
  | processing (r : Received) (attempt : Nat) (tx : Tx)
  /-- `_process` raised. -/
  | failed
  | answered (out : Outcome)
  /-- Crashed or cancelled. -/
  | gone

/-- A call of `handle`; the limit is `spec().max_deliver` of its instance. -/
structure Run where
  delivery : Delivery
  limit : Int
  phase : Phase := .called

/-- A row of `be_dead_letter`. -/
structure DeadLetter where
  eventId : Str
  type : Str
  headers : Dict Str Str
  payload : Bytes
  attempts : Int

structure State where
  runs : List Run := []
  inbox : List Nat := []
  effects : List (Nat × Write) := []
  dead : List DeadLetter := []

/-- A subscription that was just added. -/
def start : State := {}

/-- What a step did: a business transaction committed, or did so without its reply. -/
inductive Note where
  | committed (i : Nat) (event : Nat) (writes : List Write)
  | lost (i : Nat)
  deriving DecidableEq

/-- How the write of a dead letter ends. -/
inductive Letter where
  | written
  /-- Written, and the reply is lost. -/
  | unheard
  | refused
  deriving DecidableEq

inductive Op where
  | deliver (d : Delivery) (limit : Int)
  | begin_ (i : Nat) (fetched : Except Exc Bytes)
  | insert (i : Nat)
  | write (i : Nat) (w : Write)
  /-- A statement of the handler fails, and it goes on. -/
  | fails (i : Nat)
  /-- `apply` or `COMMIT` raises; a serialization failure or a deadlock is retried. -/
  | raises (i : Nat) (retry : Bool)
  /-- `apply` returns, and so does `COMMIT`. -/
  | returns (i : Nat)
  /-- `apply` returns, `COMMIT` takes effect, and its reply is lost. -/
  | loses (i : Nat)
  /-- `handle` answers a failure. -/
  | answer (i : Nat) (letter : Letter)
  | crash (i : Nat)

/-- The key a run has inserted, where it was new, in a transaction still open. -/
def Run.fresh (r : Run) : Option Nat :=
  match r.phase with
  | .processing _ _ ⟨some (key, true), _, _⟩ => some key
  | _ => none

/-- A run goes on to a phase. -/
def State.to_ (s : State) (i : Nat) (phase : Phase) : State :=
  { s with runs := s.runs.modify i fun r => { r with phase } }

/-- The effect of `COMMIT`. -/
def State.commit (s : State) (i : Nat) (tx : Tx) : State × List Note :=
  match tx with
  | ⟨some (key, true), writes, false⟩ =>
      ({ s with inbox := key :: s.inbox, effects := writes.map (key, ·) ++ s.effects },
        [.committed i key writes])
  | _ => (s, [])

/-- `INSERT INTO be_dead_letter … ON CONFLICT DO NOTHING` -/
def State.bury (s : State) (d : Delivery) : State :=
  if s.dead.any fun row => decide (row.eventId = d.id) then s
  else
    { s with dead := { eventId := d.id, type := header d.headers "ce-type", headers := d.headers,
                       payload := d.data, attempts := d.attempt } :: s.dead }

/-- The answer to a failure, and the dead letter of the last attempt. -/
def State.answer (s : State) (i : Nat) (r : Run) (letter : Letter) : State :=
  if r.delivery.attempt < r.limit then s.to_ i (.answered .nak)
  else
    match letter with
    | .written => (s.bury r.delivery).to_ i (.answered .term)
    | .unheard => (s.bury r.delivery).to_ i (.answered .nak)
    | .refused => s.to_ i (.answered .nak)

/-- The phase after a failed attempt. -/
def afterFailure (r : Received) (attempt : Nat) (retry : Bool) : Phase :=
  if retry ∧ attempt < maxAttempts then .processing r (attempt + 1) {} else .failed

/-- No handler returns after a statement of its transaction failed. -/
def careful (s : State) : Op → Bool
  | .returns i =>
      match s.runs[i]? with
      | some ⟨_, _, .processing _ _ tx⟩ => !tx.aborted
      | _ => true
  | _ => true

variable [Interp]

def step (s : State) : Op → State × List Note
  | .deliver d limit => ({ s with runs := s.runs ++ [{ delivery := d, limit }] }, [])
  | .begin_ i fetched =>
      match s.runs[i]? with
      | some ⟨d, _, .called⟩ =>
          match prepare d fetched with
          | .ok r => (s.to_ i (.processing r 1 {}), [])
          | .error _ => (s.to_ i .failed, [])
      | _ => (s, [])
  | .insert i =>
      match s.runs[i]? with
      | some ⟨_, _, .processing r attempt ⟨none, writes, aborted⟩⟩ =>
          match uuidOf r.id with
          | none => (s.to_ i .failed, [])
          | some key =>
              if s.runs.any fun other => decide (other.fresh = some key) then (s, [])
              else (s.to_ i (.processing r attempt ⟨some (key, !s.inbox.contains key), writes,
                aborted⟩), [])
      | _ => (s, [])
  | .write i w =>
      match s.runs[i]? with
      | some ⟨_, _, .processing r attempt ⟨some (key, true), writes, false⟩⟩ =>
          (s.to_ i (.processing r attempt ⟨some (key, true), writes ++ [w], false⟩), [])
      | _ => (s, [])
  | .fails i =>
      match s.runs[i]? with
      | some ⟨_, _, .processing r attempt ⟨some (key, true), writes, _⟩⟩ =>
          (s.to_ i (.processing r attempt ⟨some (key, true), writes, true⟩), [])
      | _ => (s, [])
  | .raises i retry =>
      match s.runs[i]? with
      | some ⟨_, _, .processing r attempt _⟩ => (s.to_ i (afterFailure r attempt retry), [])
      | _ => (s, [])
  | .returns i =>
      match s.runs[i]? with
      | some ⟨_, _, .processing _ _ ⟨some inserted, writes, aborted⟩⟩ =>
          let (s, notes) := s.commit i ⟨some inserted, writes, aborted⟩
          (s.to_ i (.answered .ack), notes)
      | _ => (s, [])
  | .loses i =>
      match s.runs[i]? with
      | some ⟨_, _, .processing _ _ ⟨some inserted, writes, aborted⟩⟩ =>
          let (s, notes) := s.commit i ⟨some inserted, writes, aborted⟩
          (s.to_ i .failed, .lost i :: notes)
      | _ => (s, [])
  | .answer i letter =>
      match s.runs[i]? with
      | some ⟨d, limit, .failed⟩ => (s.answer i ⟨d, limit, .failed⟩ letter, [])
      | _ => (s, [])
  | .crash i => (s.to_ i .gone, [])

end BeSdk.Events.Consumer
