/-
BeSdk.Audit.Denial — denials within the budget: `Auditor.denial` and `Auditor.flush` of
any number of replicas.

A denial takes its minute when it is called. Its transaction inserts or updates the row
of its window, which locks the row until the end; what it writes is in the tables when
it commits, and it may be undone and run again. A flush selects the finished windows past
the budget that are not summarized, skips those that another transaction has locked, and
locks the others; it appends their summaries and marks them when it commits. Its `now()`
is the time its transaction began, by the clock of the database, and the selection and
the beginning are one step: what happens between the two could as well have happened
before. Times are microseconds.

`calls`, `unsettled` and `skipped` of a flush are not the code's: they say how many
denials had been called when it began, in which windows some were still to end, and which
windows it skipped because another flush had them.
-/
import BeSdk.Lib.Dict
import BeSdk.Lib.History
import BeSdk.Py.Text

namespace BeSdk.Audit.Denial

/-! ## Tables -/

def denialBudget : Nat := 20

/-- `t.replace(second=0, microsecond=0)` and `date_trunc('minute', t)` -/
def minuteOf (t : Nat) : Nat := t - t % 60000000

/-- The key of `be_audit_denial_budget`. -/
structure Key where
  principal : Str
  reason : Str
  minute : Nat
  deriving DecidableEq

/-- The other columns of `be_audit_denial_budget`, with their defaults. -/
structure Window where
  detailed : Nat := 0
  overflow : Nat := 0
  firstAt : Option Nat := none
  lastAt : Option Nat := none
  summarized : Bool := false
  deriving DecidableEq

/-- The rows of `be_audit_log` that come from denials. -/
inductive Entry where
  | detail (k : Key)
  | summary (k : Key) (count : Nat) (first last : Option Nat)
  deriving DecidableEq

/-! ## Transactions -/

inductive Stage where
  | called
  /-- The row of the window is written, and locked. -/
  | counting
  | committed
  | failed
  deriving DecidableEq

/-- A call of `denial`. -/
structure Call where
  principal : Str
  reason : Str
  now : Nat
  stage : Stage := .called

def Call.window (d : Call) : Key := ⟨d.principal, d.reason, minuteOf d.now⟩

/-- The call is still to end. -/
def Call.isOpen (d : Call) : Bool := d.stage == .called || d.stage == .counting

inductive Progress where
  | running
  | finished
  | failed
  deriving DecidableEq

/-- A call of `flush`; `taken` has the rows it selected. -/
structure Flush where
  now : Nat
  taken : List (Key × Window)
  calls : Nat
  unsettled : List Key
  skipped : List Key
  progress : Progress := .running

structure State where
  table : Dict Key Window := Dict.empty
  log : List Entry := []
  denials : List Call := []
  flushes : List Flush := []

def start : State := {}

def State.window (s : State) (k : Key) : Window := (s.table.get? k).getD {}

/-- A running flush has locked the row. -/
def State.flushing (s : State) (k : Key) : Bool :=
  s.flushes.any fun f => f.progress == .running && (f.taken.map Prod.fst).contains k

/-- A transaction has locked the row. -/
def State.locked (s : State) (k : Key) : Bool :=
  s.flushing k || s.denials.any fun d => d.stage == .counting && decide (d.window = k)

/-! ## Statements -/

/-- A denial commits: within the budget its own row, past it the count. -/
def State.deny (s : State) (d : Call) : State :=
  let w := s.window d.window
  let n := w.detailed + 1
  if n ≤ denialBudget then
    { s with table := s.table.set d.window ({ w with detailed := n }),
             log := s.log ++ [.detail d.window] }
  else
    let counted := { w with detailed := n, overflow := w.overflow + 1,
                            firstAt := w.firstAt.or (some d.now), lastAt := some d.now }
    { s with table := s.table.set d.window counted }

/-- The rows that `flush` selects, locked or not. -/
def State.due (s : State) (now : Nat) : List (Key × Window) :=
  s.table.entries.filter fun x => decide (0 < x.2.overflow) && !x.2.summarized &&
    decide (x.1.minute < minuteOf now)

/-- A flush begins, and selects. -/
def State.select (s : State) (now : Nat) : Flush where
  now
  taken := (s.due now).filter fun x => !s.locked x.1
  calls := s.denials.length
  unsettled := (s.denials.filter Call.isOpen).map Call.window
  skipped := ((s.due now).filter fun x => s.flushing x.1).map Prod.fst

/-- `UPDATE … SET summarized = true` of a window. -/
def mark (table : Dict Key Window) (k : Key) : Dict Key Window :=
  match table.get? k with
  | some w => table.set k { w with summarized := true }
  | none => table

/-- The summary of a window. -/
def summaryOf (x : Key × Window) : Entry := .summary x.1 x.2.overflow x.2.firstAt x.2.lastAt

/-- A flush commits. -/
def State.flush (s : State) (f : Flush) : State :=
  { s with table := (f.taken.map Prod.fst).foldl mark s.table,
           log := s.log ++ f.taken.map summaryOf }

/-! ## Runs -/

/-- A denial goes on to a stage. -/
def State.denial (s : State) (i : Nat) (d : Call) (stage : Stage) : State :=
  { s with denials := s.denials.set i { d with stage } }

def State.flushed (s : State) (i : Nat) (f : Flush) (progress : Progress) : State :=
  { s with flushes := s.flushes.set i { f with progress } }

inductive Op where
  | call (principal reason : Str) (now : Nat)
  /-- The first statement of a denial's transaction; it waits for the row. -/
  | count (i : Nat)
  | commit (i : Nat)
  /-- A serialization failure or a deadlock: the transaction runs again. -/
  | again (i : Nat)
  | fail (i : Nat)
  | select (now : Nat)
  | finish (i : Nat)
  | abort (i : Nat)

def step (s : State) : Op → State × Unit
  | .call principal reason now =>
      ({ s with denials := s.denials ++ [{ principal, reason, now }] }, ())
  | .count i =>
      match s.denials[i]? with
      | some d =>
          if d.stage = .called ∧ s.locked d.window = false then (s.denial i d .counting, ())
            else (s, ())
      | none => (s, ())
  | .commit i =>
      match s.denials[i]? with
      | some d => if d.stage = .counting then ((s.deny d).denial i d .committed, ()) else (s, ())
      | none => (s, ())
  | .again i =>
      match s.denials[i]? with
      | some d => if d.stage = .counting then (s.denial i d .called, ()) else (s, ())
      | none => (s, ())
  | .fail i =>
      match s.denials[i]? with
      | some d => if d.isOpen then (s.denial i d .failed, ()) else (s, ())
      | none => (s, ())
  | .select now => ({ s with flushes := s.flushes ++ [s.select now] }, ())
  | .finish i =>
      match s.flushes[i]? with
      | some f => if f.progress = .running then ((s.flush f).flushed i f .finished, ()) else (s, ())
      | none => (s, ())
  | .abort i =>
      match s.flushes[i]? with
      | some f => if f.progress = .running then (s.flushed i f .failed, ()) else (s, ())
      | none => (s, ())

end BeSdk.Audit.Denial
