/-
BeSdk.Db.Pool — the connections that the members of a shell share: `Pool.open`,
`release_check`, and what `DB._run` and `_in_tx` send on them.

A connection is the session that the server holds, what the client was last told of it,
and what the call that has it does next. The server does a statement as it is sent; its
answer brings the client the values in force then. A call sends nothing while an answer
is outstanding. A cancelled one waits for it and rolls back, and where it is cancelled
again it gives the connection back at once. The pool then waits for the answer itself
and rolls back what is left open.

What a statement does to the settings is anybody's choice, in a function of the database
or in the code of a `DO` block, the transaction included. The statement that precedes
the check of a cutoff is one of them.

Two connections of one pool have the same process ID when the server gave that of a
lost one away before the client noticed. Connections are opened directly, not through a
pooler, and a value that the server writes otherwise is the same value.
-/
import BeSdk.Db.Settings
import BeSdk.Db.Tx
import BeSdk.Lib.Binary64
import BeSdk.Lib.SessionValues

namespace BeSdk.Db.Pool

open SessionValues

/-! ## Limits -/

/-- `total_seconds()` -/
def totalSeconds (microseconds : Int) : Seconds := Binary64.nearest (microseconds / 1000000)

structure TxOptions extends Tx.TxOptions where
  statementTimeout : Option Seconds := none
  lockTimeout : Option Seconds := none

/-- What a transaction is bounded by; `transaction` is for servers that have it. -/
structure Limits where
  statement : Seconds
  lock : Seconds
  idle : Seconds
  transaction : Option Seconds := none

/-- `x or y`: zero counts as none. -/
def given (x : Option Seconds) (y : Seconds) : Seconds :=
  match x with
  | some v => if v = 0 then y else v
  | none => y

/-- The limits of `_run`, by the server's version. -/
def limits (t : Timeouts) (o : TxOptions) (version : Nat) : Limits :=
  let statement := given o.statementTimeout (totalSeconds t.statement)
  let lock := given o.lockTimeout (totalSeconds t.lock)
  let idle := totalSeconds t.idleInTx
  let limit := given o.transactionTimeout 0
  if limit = 0 then { statement, lock, idle }
  else if 170000 ≤ version then { statement, lock, idle, transaction := some limit }
  else { statement := min statement limit, lock, idle := min idle limit }

/-- `_ms`; `int` raises for an infinity. -/
def millis (seconds : Seconds) : Option Str :=
  match Binary64.round (seconds * 1000) with
  | .finite v => some (intText (v.num.tdiv v.den) ++ str "ms")
  | _ => none

def ident (name : Str) : Str := chr '"' :: (Str.replace name (chr '"') (str "\"\"") ++ [chr '"'])

/-! ## Connections -/

/-- A member's handle; the pool is the one of the machine. -/
structure DB where
  member : Str
  settings : Settings

/-- A transaction that is to be run; `version` is what `server_version` returned. -/
structure Call where
  db : DB
  options : TxOptions
  version : Nat

def Call.limits (c : Call) : Limits := Pool.limits c.db.settings.timeouts c.options c.version

/-- What `_in_tx` sets first, or `none` where a limit is not finite. -/
def Call.settings (c : Call) : Option (List (Str × Str)) := do
  return [(str "role", c.db.settings.user), (str "search_path", ident c.db.settings.schema),
    (str "statement_timeout", ← millis c.limits.statement),
    (str "lock_timeout", ← millis c.limits.lock), (str "idle_in_transaction_session_timeout",
      ← millis c.limits.idle), (str "application_name", c.db.member)]

/-- The settings that the server reports to the client. -/
def reported : List Str :=
  [str "TimeZone", str "DateStyle", str "IntervalStyle", str "client_encoding",
    str "standard_conforming_strings", str "application_name"]

def reportedOf (view : Str → Str) : List Str := reported.map view

inductive Stage where
  | idle
  | acquired (c : Call)
  | begun (c : Call)
  | configured (c : Call)
  /-- `transaction_timeout` is set as well. -/
  | bounded (c : Call)
  /-- The settings could not be set. -/
  | failed (c : Call)
  | running (c : Call)
  /-- `COMMIT` or `ROLLBACK` is sent. -/
  | ending (c : Call)
  /-- Its call has given it back; the pool has not offered it yet. -/
  | returning
  | closed

def Stage.isOpen : Stage → Bool
  | .closed => false
  | _ => true

/-- `connected` has the settings of the session when it began, and `lasting` names those
that statements of the call set for the session. -/
structure Conn where
  pid : Nat
  connected : Str → Str
  session : Session Str Str
  view : Str → Str
  answered : Bool := true
  stage : Stage := .idle
  lasting : List Str := []

structure State where
  /-- `_base`: the reported settings of a backend when it connected. -/
  base : Nat → Option (List Str) := fun _ => none
  conns : List Conn := []

/-- `release_check`: the setting that differs, what it was and what it is. -/
def releaseCheck (base : Nat → Option (List Str)) (c : Conn) : Option (Str × Str × Str) :=
  match base c.pid with
  | none => none
  | some was => (reported.zip (was.zip (reportedOf c.view))).find? fun x => decide (x.2.2 ≠ x.2.1)

/-- The function of a transaction is called, or a connection comes back and is closed
when `left` says what it was left with. -/
inductive Note where
  | began (c : Call) (now connected : Str → Str)
  | released (call : Call) (c : Conn) (left : Option (Str × Str × Str))
  | quiet

inductive Op where
  | connect (pid : Nat) (defaults : Str → Str)
  | acquire (i : Nat) (c : Call)
  | begin_ (i : Nat)
  | configure (i : Nat) (ok : Bool)
  | bound (i : Nat) (ok : Bool)
  | start (i : Nat)
  | statement (i : Nat) (as : List (Action Str Str))
  | end_ (i : Nat) (commit : Bool)
  | answer (i : Nat)
  | release (i : Nat)
  | return_ (i : Nat)
  /-- The connection is lost, or the pool closes an idle one. -/
  | close (i : Nat)

/-! ## Steps -/

/-- The server does a statement. -/
def Conn.send (c : Conn) (as : List (Action Str Str)) (stage : Stage) : Conn :=
  { c with session := c.session.acts as, answered := false, stage }

/-- A statement that sets values locally; where there is none, or it fails, only
`ROLLBACK` follows. -/
def Conn.setLocal (c : Conn) (call : Call) (l : Option (List (Str × Str))) (ok : Bool)
    (stage : Stage) : Conn :=
  match l with
  | none => { c with stage := .failed call }
  | some l => if ok then c.send (l.map fun x => .setLocal x.1 x.2) stage
      else c.send [.fail] (.failed call)

/-- The server's answer arrives. -/
def Conn.hear (c : Conn) : Conn := { c with view := c.session.now, answered := true }

def State.put (s : State) (i : Nat) (c : Conn) : State := { s with conns := s.conns.set i c }

/-- A new connection, by the name its pool has. -/
def opened (appName : Str) (pid : Nat) (defaults : Str → Str) : Conn :=
  let connected := Function.update (Function.update defaults (str "application_name") appName)
    (str "TimeZone") (str "UTC")
  { pid, connected, session := { values := connected }, view := connected }

/-- What a call sends next on its connection. -/
def Conn.turn (c : Conn) : Op → Option Conn
  | .begin_ _ =>
      match c.stage with
      | .acquired call => some (c.send [.begin_] (.begun call))
      | _ => none
  | .configure _ ok =>
      match c.stage with
      | .begun call => some (c.setLocal call call.settings ok (.configured call))
      | _ => none
  | .bound _ ok =>
      match c.stage with
      | .configured call =>
          call.limits.transaction.map fun limit =>
            c.setLocal call ((millis limit).map fun ms => [(str "transaction_timeout", ms)])
              ok (.bounded call)
      | _ => none
  | .statement _ as =>
      match c.stage with
      | .running call =>
          some { c.send as (.running call) with lasting := as.filterMap Action.lasting ++
            c.lasting }
      | _ => none
  | .end_ _ commit =>
      match c.stage with
      | .begun call | .configured call | .bounded call | .failed call =>
          if commit then none else some (c.send [.rollback] (.ending call))
      | .running call => some (c.send [if commit then .commit else .rollback] (.ending call))
      | _ => none
  | _ => none

/-- The function is called once everything is set. -/
def Conn.starts (c : Conn) : Option Call :=
  match c.stage with
  | .configured call => if call.limits.transaction.isNone then some call else none
  | .bounded call => some call
  | _ => none

/-- The call gives the connection back: its transaction has ended, or has not begun, or
the call is given up with an answer outstanding. -/
def Conn.ends (c : Conn) : Option Call :=
  match c.stage with
  | .acquired call | .ending call => some call
  | .begun call | .configured call | .bounded call | .failed call | .running call =>
      if c.answered then none else some call
  | .idle | .returning | .closed => none

/-- The connection an operation is about. -/
def Op.conn : Op → Option Nat
  | .connect _ _ => none
  | .acquire i _ | .begin_ i | .configure i _ | .bound i _ | .start i | .statement i _ | .end_
      i _ | .answer i | .release i
  | .return_ i | .close i => some i

def State.act (s : State) (i : Nat) (c : Conn) (o : Op) : State × Note :=
  match o with
  | .connect _ _ => (s, .quiet)
  | .acquire _ call =>
      match c.stage with
      | .idle => (s.put i { c with stage := .acquired call, lasting := [] }, .quiet)
      | _ => (s, .quiet)
  | .start _ =>
      match c.answered, c.starts with
      | true, some call =>
          (s.put i { c with stage := .running call }, .began call c.session.now c.connected)
      | _, _ => (s, .quiet)
  | .answer _ => if c.stage.isOpen then (s.put i c.hear, .quiet) else (s, .quiet)
  | .release _ =>
      match c.ends with
      | some call =>
          match releaseCheck s.base c with
          | some x =>
              ({ s.put i { c with stage :=
                .closed } with base := Function.update s.base c.pid none },
                .released call c (some x))
          | none => (s.put i { c with stage := .returning }, .released call c none)
      | none => (s, .quiet)
  | .return_ _ =>
      match c.stage with
      | .returning =>
          (s.put i { c with session := c.session.act .rollback, stage := .idle }.hear, .quiet)
      | _ => (s, .quiet)
  | .close _ => (s.put i { c with stage := .closed }, .quiet)
  | o =>
      match c.answered, c.turn o with
      | true, some c' => (s.put i c', .quiet)
      | _, _ => (s, .quiet)

/-- The pool opens a connection, and `record` notes its settings. -/
def State.connect (appName : Str) (s : State) (pid : Nat) (defaults : Str → Str) : State where
  base := Function.update s.base pid (some (reportedOf (opened appName pid defaults).view))
  conns := s.conns ++ [opened appName pid defaults]

def step (appName : Str) (s : State) (o : Op) : State × Note :=
  match o.conn with
  | some i =>
      match s.conns[i]? with
      | some c => s.act i c o
      | none => (s, .quiet)
  | none =>
      match o with
      | .connect pid defaults => (s.connect appName pid defaults, .quiet)
      | _ => (s, .quiet)

/-! ## Given up -/

/-- A reported setting lasts that is not as it was, and the client was told otherwise. -/
def Conn.untold (c : Conn) : Bool :=
  reported.any fun k => decide (c.session.values k ≠ c.connected k) &&
    decide (c.session.values k ≠ c.view k)

/-- A process ID is not given away while the client takes its connection for open, and no
call is given up, with an answer outstanding, on a connection with an untold setting. -/
def proper (s : State) : Op → Bool
  | .connect pid _ => s.conns.all fun c => !c.stage.isOpen || decide (c.pid ≠ pid)
  | .release i =>
      match s.conns[i]? with
      | some c => c.answered || !c.untold
      | none => true
  | _ => true

end BeSdk.Db.Pool
