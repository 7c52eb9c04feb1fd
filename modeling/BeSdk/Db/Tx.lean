/-
BeSdk.Db.Tx — the transaction entry: `DB.tx` and `DB.background_tx`, `_run`, `_once`,
`_in_tx` and `map_error`.

A call is a computation over what every later call of the member finds: the free places
of its two budgets and the marker `in_tx`. Other calls take and give back places while
this one waits; that is left out. What the call meets is its script: the outcome of each
await, a cancellation being an exception that is raised there, and for each attempt what
the function does. `COMMIT` may take effect without its reply arriving.

A statement that fails leaves the transaction aborted, also where the function catches
what it raises: other statements fail then, and `COMMIT` rolls back and reports no
error. The function ends the transaction by its result alone; it sends no `COMMIT` or
`ROLLBACK`. What the statements of the entry say and how long it sleeps is left out.
-/
import BeSdk.Errs
import BeSdk.Py.Datetime
import BeSdk.Lib.Exec

namespace BeSdk.Db.Tx

open Exec

/-- Serialization failures and deadlocks redo the whole transaction. -/
def maxAttempts : Nat := 3

/-- A raised exception. -/
inductive Exn where
  | serialization
  | deadlock
  | cancelled
  | keyboardInterrupt
  | systemExit
  | error (e : Errs.Error) (retryAfter : Seconds := 0)
  | lockNotAvailable
  | queryCanceled
  /-- No connection, or a lost one; `TimeoutError` is an `OSError`. -/
  | unavailable
  | timeout
  | other
  deriving DecidableEq

/-- The whole transaction is redone. -/
def Exn.conflict : Exn → Bool
  | .serialization => true
  | .deadlock => true
  | _ => false

/-- A cancelled task stays cancelled. -/
def Exn.stops : Exn → Bool
  | .cancelled => true
  | .keyboardInterrupt => true
  | .systemExit => true
  | _ => false

/-- An exception that is no conflict: no statement of a transaction raised it. -/
abbrev Fault := { e : Exn // e.conflict = false }

/-- `map_error` -/
def mapError : Exn → Exn
  | .error e retryAfter => .error e retryAfter
  | .serialization =>
      .error (Errs.new (str "TX_CONFLICT") (str "a concurrent change conflicted; try again"))
  | .deadlock =>
      .error (Errs.new (str "TX_CONFLICT") (str "a concurrent change conflicted; try again"))
  | .lockNotAvailable =>
      .error (Errs.new (str "LOCK_TIMEOUT") (str "waiting for a lock took too long"))
  | .queryCanceled => .error (Errs.new (str "STATEMENT_TIMEOUT") (str "the database took too long"))
  | .unavailable =>
      .error ((Errs.new (str "DEPENDENCY_UNAVAILABLE")
        (str "the database is unavailable")).with_ (str "dependency") (str "db"))
  | .timeout =>
      .error ((Errs.new (str "DEPENDENCY_UNAVAILABLE")
        (str "the database is unavailable")).with_ (str "dependency") (str "db"))
  | .cancelled => .error (Errs.new (str "REQUEST_CANCELLED") (str "the request was cancelled"))
  | .keyboardInterrupt => .error (Errs.new (str "INTERNAL") internalDetail)
  | .systemExit => .error (Errs.new (str "INTERNAL") internalDetail)
  | .other => .error (Errs.new (str "INTERNAL") internalDetail)

def nested : Exn := .error (Errs.new (str "INTERNAL") [])

def busy : Exn :=
  .error ((Errs.new (str "SERVICE_BUSY") (str "no database connection became free in time")).with_
    (str "resource") (str "db_pool")) 1

def viewExpired : Exn :=
  .error (Errs.new (str "AUTHORIZATION_VIEW_EXPIRED")
    (str "the authorization expired before the change could be committed"))

/-! ## Scripts -/

/-- How `COMMIT` ends. -/
inductive Reply where
  | arrived
  /-- It takes no effect, and raises. -/
  | refused (e : Exn)
  /-- Its reply does not arrive: the connection is lost, or the caller cancelled. -/
  | lost (e : Fault)

/-- What one attempt meets; `none` is an await that returns. -/
structure Attempt (α γ : Type) where
  acquire : Option Exn := none
  begin_ : Option Exn := none
  settings : Option Exn := none
  timeout : Option Exn := none
  /-- The callbacks that the function registers, and its result. -/
  registers : List γ := []
  result : Except Exn α
  /-- A statement of the function has failed, and no savepoint undid it. -/
  aborted : Bool := false
  cutoff : Option Seconds := none
  idle : Option Exn := none
  now : Seconds := 0
  commit : Reply := .arrived
  rollback : Option Exn := none
  /-- The connection goes back to its pool. -/
  release : Option Fault := none
  sleep : Option Exn := none

/-- What a call meets. -/
structure Script (α γ : Type) where
  version : Except Exn Nat := .ok 180000
  permit : Option Exn := none
  attempt : Nat → Attempt α γ

structure TxOptions where
  transactionTimeout : Option Seconds := none

/-- The budgets of a member and the marker. -/
structure World where
  fg : Int
  bg : Int
  inTx : Bool
  deriving DecidableEq

inductive Event (γ : Type) where
  | began (n : Nat)
  | committed (n : Nat)
  /-- A callback that an attempt registered runs. -/
  | ran (n : Nat) (f : γ)
  | failed (n : Nat) (e : Exn)
  deriving DecidableEq

/-! ## The entry -/

/-- `Tx._after` -/
structure Registered (γ : Type) where
  after : List γ := []

variable {α γ : Type}

def Registered.afterCommit (tx : Registered γ) (f : γ) : Registered γ :=
  { after := tx.after ++ [f] }

abbrev Call (γ α : Type) := Exec Exn World (Event γ) α

/-- The marker around the function. -/
def marked (x : Call γ α) : Call γ α := do
  let before := (← get).inTx
  update fun w => { w with inTx := true }
  within x fun _ => update fun w => { w with inTx := before }

/-- A statement in the transaction: in an aborted one it fails. -/
def Attempt.statement (a : Attempt α γ) (outcome : Option Exn) : Call γ Unit :=
  perhaps (if a.aborted then some (outcome.getD .other) else outcome)

/-- The check of the authorization's cutoff. -/
def Attempt.check (a : Attempt α γ) : Call γ Unit :=
  match a.cutoff with
  | none => pure ()
  | some cutoff => do
      a.statement a.idle
      if cutoff ≤ a.now then raise viewExpired

/-- The function's result, and the callbacks it leaves. -/
def Attempt.function (a : Attempt α γ) : Call γ (α × Registered γ) := do
  let result ← returned a.result
  return (result, a.registers.foldl Registered.afterCommit {})

/-- What is inside the transaction. -/
def Attempt.inside (a : Attempt α γ) (native : Bool) : Call γ (α × Registered γ) := do
  perhaps a.settings
  perhaps (if native then a.timeout else none)
  let result ← marked a.function
  a.check
  return result

/-- `COMMIT` -/
def Attempt.commits (a : Attempt α γ) (n : Nat) : Call γ Unit :=
  match a.commit with
  | .arrived => if a.aborted then pure () else emit (.committed n)
  | .refused e => raise e
  | .lost e => do
      if !a.aborted then emit (.committed n)
      raise e.val

/-- The way out of the transaction. -/
def Attempt.exit (a : Attempt α γ) (n : Nat) {β : Type} : Except Exn β → Call γ Unit
  | .ok _ => a.commits n
  | .error _ => perhaps a.rollback

/-- `async with conn.transaction()` -/
def Attempt.transaction (a : Attempt α γ) (n : Nat) {β : Type} (x : Call γ β) : Call γ β := do
  perhaps a.begin_
  within x (a.exit n)

/-- `_in_tx` -/
def inTx (n : Nat) (a : Attempt α γ) (native : Bool) : Call γ α := do
  let (result, tx) ← a.transaction n (a.inside native)
  tx.after.forM fun f => emit (.ran n f)
  return result

/-- `_once` -/
def once (n : Nat) (a : Attempt α γ) (native : Bool) : Call γ α := do
  emit (.began n)
  perhaps a.acquire
  within (inTx n a native) fun _ => perhaps (a.release.map Subtype.val)

/-- What is done about the exception of an attempt. -/
def caught (again : Call γ α) (n : Nat) (e : Exn) : Call γ α := do
  emit (.failed n e)
  if e.conflict then again
  else if e.stops then raise e
  else raise (mapError e)

/-- The attempts from the `n`-th, with so many left after it. -/
def attempts (s : Script α γ) (native : Bool) : Nat → Nat → Call γ α
  | 0, n => handle (once n (s.attempt n) native) fun e => caught (raise (mapError e)) n e
  | left + 1, n => handle (once n (s.attempt n) native) fun e =>
      caught (do perhaps (s.attempt n).sleep; attempts s native left (n + 1)) n e

/-- A change of the budget. -/
def budget (foreground : Bool) (n : Int) (w : World) : World :=
  if foreground then { w with fg := w.fg + n } else { w with bg := w.bg + n }

/-- The place in the budget; a foreground call waits a while only. -/
def permit (s : Script α γ) (foreground : Bool) : Call γ Unit :=
  if foreground then handle (perhaps s.permit) fun e => if e = .timeout then raise busy else raise e
  else perhaps s.permit

/-- `transaction_timeout` is given, and the server has it. -/
def native (s : Script α γ) (o : TxOptions) : Call γ Bool :=
  if o.transactionTimeout.any (· ≠ 0) then do
    let version ← returned s.version
    return 170000 ≤ version
  else pure false

/-- `_run` -/
def run (s : Script α γ) (o : TxOptions) (foreground : Bool) : Call γ α := do
  perhaps (if (← get).inTx then some nested else none)
  let native ← native s o
  permit s foreground
  update (budget foreground (-1))
  within (attempts s native (maxAttempts - 1) 1) fun _ => update (budget foreground 1)

def tx (s : Script α γ) (o : TxOptions) : Call γ α := run s o true

def backgroundTx (s : Script α γ) (o : TxOptions) : Call γ α := run s o false

end BeSdk.Db.Tx
