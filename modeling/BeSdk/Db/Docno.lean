/-
BeSdk.Db.Docno — document number series: transactions that take numbers and register
imported ones.

A statement is one step. `INSERT … ON CONFLICT (series) DO UPDATE` waits while another
transaction that has not ended has written the row, reads its own write or else the
committed row, and holds the row until its transaction ends. A statement that fails, as
on the check of the column or the range of `bigint`, aborts the transaction: nothing
more of it takes effect, whatever ends it. A number that is no `bigint` is refused
before anything is sent.

A use with the other kind raises after the statement. What the caller does with the
exception is the caller's: a transaction is rolled back when the exception leaves it,
and can be committed when it does not.
-/
import BeSdk.Py.Text
import BeSdk.Lib.Dict
import BeSdk.Lib.History

namespace BeSdk

/-- One series: numbers count per legal entity, per code and per period. -/
structure Series where
  legalEntity : Str
  code : Str
  period : Str := []
  deriving DecidableEq

/-- `f"{self.legal_entity}/{self.code}/{self.period}"` -/
def Series.key (s : Series) : Str := s.legalEntity ++ chr '/' :: (s.code ++ chr '/' :: s.period)

namespace Docno

/-! ## Tables -/

/-- A row of `be_doc_series`. -/
structure Row where
  last : Nat
  gapless : Bool
  deriving DecidableEq

/-- The largest `bigint`. -/
def maxBig : Nat := 2 ^ 63 - 1

/-- What a transaction did to a series. -/
inductive Done where
  | took (s : Series) (gapless : Bool) (number : Nat)
  | registered (s : Series) (gapless : Bool) (last : Nat)
  deriving DecidableEq

def Done.series : Done → Series
  | .took s _ _ => s
  | .registered s _ _ => s

def Done.gapless : Done → Bool
  | .took _ g _ => g
  | .registered _ g _ => g

def Done.number : Done → Nat
  | .took _ _ n => n
  | .registered _ _ n => n

inductive Phase where
  | open_
  /-- A statement failed. -/
  | aborted
  | ended
  deriving DecidableEq

/-- A transaction: the rows it has written and what it did, newest first. `raised` is set
once a use of the other kind raised in it. -/
structure Tx where
  phase : Phase := .open_
  writes : Dict Str Row := Dict.empty
  done : List Done := []
  raised : Bool := false

/-- The committed rows and the transactions, in the order they began. -/
structure State where
  table : Dict Str Row
  txs : List Tx := []

def State.empty : State := { table := Dict.empty }

/-! ## Statements -/

/-- Another transaction holds the row. -/
def State.held (s : State) (i : Nat) (key : Str) : Bool :=
  (s.txs.zipIdx).any fun x => x.2 ≠ i && x.1.phase ≠ .ended && (x.1.writes.get? key).isSome

/-- The row a statement of the transaction finds. -/
def State.row (s : State) (tx : Tx) (key : Str) : Option Row :=
  (tx.writes.get? key).or (s.table.get? key)

/-- What `_next` makes of the row; `none` is a failing statement. -/
def nextRow (gapless : Bool) : Option Row → Option Row
  | none => some ⟨1, gapless⟩
  | some r => if maxBig ≤ r.last then none else some { r with last := r.last + 1 }

/-- What `register_imported` makes of the row. -/
def importedRow (gapless : Bool) (last : Int) : Option Row → Option Row
  | none => if last < 0 then none else some ⟨last.toNat, gapless⟩
  | some r => if last < 0 then none else some { r with last := max r.last last.toNat }

/-- A statement of an open transaction on the row of a series, and `_same_kind` on what
it returns. -/
def State.upsert (s : State) (i : Nat) (series : Series) (gapless : Bool)
    (write : Option Row → Option Row) (done : Row → Done) : State :=
  match s.txs[i]? with
  | none => s
  | some tx =>
      if tx.phase = .open_ ∧ s.held i series.key = false then
        match write (s.row tx series.key) with
        | none => { s with txs := s.txs.set i { tx with phase := .aborted } }
        | some row =>
            let tx := { tx with writes := tx.writes.set series.key row }
            let tx := if row.gapless = gapless then { tx with done := done row :: tx.done }
              else { tx with raised := true }
            { s with txs := s.txs.set i tx }
      else s

/-- The rows a transaction wrote, in the table. -/
def merged (table writes : Dict Str Row) : Dict Str Row :=
  writes.entries.foldl (fun t e => t.set e.1 e.2) table

/-- The transaction ends; what it did takes effect when it is committed open. -/
def State.end_ (s : State) (i : Nat) (commit : Bool) : State × List Done :=
  match s.txs[i]? with
  | none => (s, [])
  | some tx =>
      let txs := s.txs.set i { tx with phase := .ended }
      if tx.phase = .open_ ∧ commit = true then ({ table := merged s.table tx.writes, txs },
        tx.done)
      else ({ s with txs }, [])

/-! ## Runs -/

inductive Op where
  | begin_
  | next (i : Nat) (series : Series) (gapless : Bool)
  | register (i : Nat) (series : Series) (gapless : Bool) (last : Int)
  | commit (i : Nat)
  | rollback (i : Nat)
  /-- The server aborts the transaction. -/
  | abort (i : Nat)

/-- A step, with what it committed, newest first. -/
def step (s : State) : Op → State × List Done
  | .begin_ => ({ s with txs := s.txs ++ [{}] }, [])
  | .next i series gapless =>
      (s.upsert i series gapless (nextRow gapless) fun row => .took series gapless row.last, [])
  | .register i series gapless last =>
      if (maxBig : Int) < last then (s, [])
      else (s.upsert i series gapless (importedRow gapless last) fun _ => .registered series
        gapless last.toNat, [])
  | .commit i => s.end_ i true
  | .rollback i => s.end_ i false
  | .abort i =>
      match s.txs[i]? with
      | none => (s, [])
      | some tx =>
          if tx.phase = .open_ then ({ s with txs := s.txs.set i { tx with phase := .aborted }
            }, []) else (s, [])

end Docno

end BeSdk
