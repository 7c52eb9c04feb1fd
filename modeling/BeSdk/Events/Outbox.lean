/-
BeSdk.Events.Outbox — one stream partition of the outbox: rows written by business
transactions, numbered after their commit by any number of numberers.

Every statement of `number_in` names its partition, so the state has the rows of one.
A statement is one step. `be_outbox.ord` is an identity, drawn when a row is inserted;
the row is in the table when its transaction commits. A numberer inserts the counter's
row unless it is there, locks it, reads the database epoch, writes a history row when
the epoch changed, numbers the unnumbered rows that its next statement sees, and
writes the counter. What it wrote is in the tables when it commits, and the locks are
held until then.

`INSERT … ON CONFLICT DO NOTHING` waits while an open transaction has inserted the
same key, and `FOR UPDATE` while one holds the row. A transaction that commits without
having numbered is a forwarder's that takes its lease on the partition; the columns of
the lease are left out, no statement of the numbering reads them. The unique indexes of
the three tables are left out too: nothing runs into them. A database epoch that cannot
be read raises, and the transaction is aborted, as it can be at any time.
-/
import BeSdk.Lib.History
import Mathlib.Data.List.Sort
import Mathlib.Data.Prod.Lex

namespace BeSdk.Events.Outbox

/-! ## Tables -/

/-- A database epoch: the recovery generation and the write timeline. -/
abbrev Epoch := Nat ×ₗ Nat

def epoch (generation timeline : Nat) : Epoch := toLex (generation, timeline)

/-- The columns `epoch_generation`, `epoch_timeline` and `seq`, which are null together. -/
structure Place where
  epoch : Epoch
  seq : Nat
  deriving DecidableEq

/-- A row of `be_outbox`. -/
structure Row where
  ord : Nat
  place : Option Place := none
  published : Bool := false
  deriving DecidableEq

/-- The row of `be_outbox_partition`. -/
structure Counter where
  epoch : Option Epoch := none
  lastSeq : Nat := 0
  deriving DecidableEq

/-- A row of `be_epoch_history`. -/
structure Fork where
  old : Epoch
  forkSeq : Nat
  new : Epoch
  deriving DecidableEq

/-! ## Transactions -/

/-- What a numberer has written: the history row, the positions of the rows by their
`ord`, and the counter. -/
structure Work where
  now : Epoch
  last : Nat
  fork : Option Fork := none
  rows : List (Nat × Nat) := []

inductive Phase where
  | began
  /-- The counter's row is there. -/
  | ensured
  | locked (counter : Counter)
  | read (counter : Counter) (now : Epoch)
  | forked (w : Work)
  | numbered (w : Work)
  | counted (w : Work)
  | committed
  | aborted

/-- A numbering transaction, and whether it has inserted the counter's row. -/
structure Numberer where
  inserted : Bool := false
  phase : Phase := .began

/-- A transaction that holds the lock of the counter's row. -/
def Numberer.holds (n : Numberer) : Bool :=
  match n.phase with
  | .locked _ | .read _ _ | .forked _ | .numbered _ | .counted _ => true
  | .began | .ensured | .committed | .aborted => false

/-- A transaction that is open and past its first statement. -/
def Numberer.active (n : Numberer) : Bool :=
  match n.phase with
  | .ensured | .locked _ | .read _ _ | .forked _ | .numbered _ | .counted _ => true
  | .began | .committed | .aborted => false

/-- A transaction that is open and has inserted the counter's row. -/
def Numberer.inserting (n : Numberer) : Bool := n.active && n.inserted

/-- One partition; `written` has the rows of the business transactions still open, each
with its transaction. -/
structure State where
  rows : List Row := []
  counter : Option Counter := none
  history : List Fork := []
  epoch : Epoch := epoch 1 1
  written : List (Nat × Nat) := []
  nextOrd : Nat := 1
  numberers : List Numberer := []

/-- A partition no event went to. -/
def start : State := {}

/-- A committed call of `number_in`. -/
structure Numbering where
  numberer : Nat
  epoch : Epoch
  rows : List (Nat × Nat)
  deriving DecidableEq

/-- What a step did to the tables. -/
inductive Note where
  | created (numberer : Nat)
  | numbering (n : Numbering)
  | purged (ord : Nat)
  deriving DecidableEq

/-! ## Numbering -/

/-- A transaction goes on to a phase. -/
def State.to_ (s : State) (i : Nat) (n : Numberer) : State :=
  { s with numberers := s.numberers.set i n }

/-- The history row and the first number to follow, by the epoch read. -/
def Counter.fork (c : Counter) (now : Epoch) : Work :=
  if c.epoch = some now then { now, last := c.lastSeq }
  else { now, last := 0, fork := c.epoch.map fun old => { old, forkSeq := c.lastSeq, new := now } }

/-- `be_outbox WHERE seq IS NULL ORDER BY ord` -/
def State.unnumbered (s : State) : List Nat :=
  ((s.rows.filter fun r => r.place.isNone).map Row.ord).insertionSort (· ≤ ·)

/-- The positions of a batch. -/
def Work.number (w : Work) (ords : List Nat) : Work := { w with rows := ords.zipIdx (w.last + 1) }

/-- The counter as it is written. -/
def Work.counter (w : Work) : Counter := { epoch := some w.now, lastSeq := w.last + w.rows.length }

/-- A row of the table after its update. -/
def Work.placed (w : Work) (r : Row) : Row :=
  match w.rows.find? fun q => decide (q.1 = r.ord) with
  | some (_, seq) => { r with place := some ⟨w.now, seq⟩ }
  | none => r

/-- A numbering commits. -/
def State.apply (s : State) (w : Work) : State :=
  { s with rows := s.rows.map w.placed, counter := some w.counter,
           history := s.history ++ w.fork.toList }

/-! ## Runs -/

inductive Op where
  /-- A business transaction inserts a row. -/
  | emit (t : Nat)
  | emitted (t : Nat)
  | dropped (t : Nat)
  /-- A numbering transaction begins. -/
  | begin_
  | insert (i : Nat)
  | lock (i : Nat)
  | read (i : Nat)
  | fork (i : Nat)
  | number (i : Nat) (batch : Int)
  | count (i : Nat)
  | commit (i : Nat)
  | abort (i : Nat)
  /-- The forwarder marks numbered rows. -/
  | published (ords : List Nat)
  | purge (ords : List Nat)
  /-- The database epoch moves, forward. -/
  | moves (e : Epoch)

def step (s : State) : Op → State × List Note
  | .emit t => ({ s with written := s.written ++ [(t, s.nextOrd)], nextOrd := s.nextOrd + 1 }, [])
  | .emitted t =>
      ({ s with rows := s.rows ++ (s.written.filter fun w => decide (w.1 = t)).map fun w =>
        { ord := w.2 }
                written := s.written.filter fun w => decide (w.1 ≠ t) }, [])
  | .dropped t => ({ s with written := s.written.filter fun w => decide (w.1 ≠ t) }, [])
  | .begin_ => ({ s with numberers := s.numberers ++ [{}] }, [])
  | .insert i =>
      match s.numberers[i]? with
      | some ⟨_, .began⟩ =>
          if s.counter.isSome then (s.to_ i ⟨false, .ensured⟩, [])
          else if s.numberers.any Numberer.inserting then (s, [])
          else (s.to_ i ⟨true, .ensured⟩, [])
      | _ => (s, [])
  | .lock i =>
      match s.numberers[i]? with
      | some ⟨inserted, .ensured⟩ =>
          if s.numberers.any Numberer.holds then (s, [])
          else
            match if inserted then some {} else s.counter with
            | some c => (s.to_ i ⟨inserted, .locked c⟩, [])
            | none => (s, [])
      | _ => (s, [])
  | .read i =>
      match s.numberers[i]? with
      | some ⟨inserted, .locked c⟩ => (s.to_ i ⟨inserted, .read c s.epoch⟩, [])
      | _ => (s, [])
  | .fork i =>
      match s.numberers[i]? with
      | some ⟨inserted, .read c now⟩ => (s.to_ i ⟨inserted, .forked (c.fork now)⟩, [])
      | _ => (s, [])
  | .number i batch =>
      match s.numberers[i]? with
      | some ⟨inserted, .forked w⟩ =>
          -- a negative LIMIT raises
          if batch < 0 then (s.to_ i ⟨inserted, .aborted⟩, [])
          else (s.to_ i ⟨inserted, .numbered (w.number (s.unnumbered.take batch.toNat))⟩, [])
      | _ => (s, [])
  | .count i =>
      match s.numberers[i]? with
      | some ⟨inserted, .numbered w⟩ => (s.to_ i ⟨inserted, .counted w⟩, [])
      | _ => (s, [])
  | .commit i =>
      match s.numberers[i]? with
      | some ⟨true, .ensured⟩ =>
          ({ s with counter := some {} }.to_ i ⟨true, .committed⟩, [.created i])
      | some ⟨false, .ensured⟩ => (s.to_ i ⟨false, .committed⟩, [])
      | some ⟨inserted, .counted w⟩ =>
          ((s.apply w).to_ i ⟨inserted, .committed⟩, [.numbering ⟨i, w.now, w.rows⟩])
      | _ => (s, [])
  | .abort i =>
      match s.numberers[i]? with
      | some ⟨_, .committed⟩ | none => (s, [])
      | some n => (s.to_ i { n with phase := .aborted }, [])
  | .published ords =>
      ({ s with rows := s.rows.map fun r => if r.place.isSome ∧
        r.ord ∈ ords then { r with published := true } else r }, [])
  | .purge ords =>
      ({ s with rows := s.rows.filter fun r => !(r.published && ords.contains r.ord) },
        (s.rows.filter fun r => r.published && ords.contains r.ord).map fun r => .purged r.ord)
  | .moves e => ({ s with epoch := max s.epoch e }, [])

end BeSdk.Events.Outbox
