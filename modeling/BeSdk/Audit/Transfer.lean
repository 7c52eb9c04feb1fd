/-
BeSdk.Audit.Transfer — the way of an audit record from its transaction to the audit
component, with any number of replicas of the member at work.

A record is inserted with a business transaction. A numbering gives committed rows their
positions under the lock of the counter's row; a transfer reads a batch of numbered pending
rows, submits it, and stores the receipts in a second transaction; a purge deletes and
sends again by a watermark that it has fetched before. The writing transactions are those of
`Lib.RowLocks`: one step begins a statement, one comes to a row. Receipts and watermarks may
be as old as they like when they are used, and anything can be aborted or never answered.

`stored` and `durable` are the audit component's: what it ever stored at a position, and
what of that is in its backup. `inserted` and `given` are ghosts: the records ever
inserted, and the positions ever given.
-/
import BeSdk.Audit.PurgeTheorems
import BeSdk.Lib.RowLocks
import Mathlib.Data.List.Sort

namespace BeSdk.Audit.Transfer

open RowLocks

/-! ## Rows -/

abbrev Id := Nat

/-- The columns `epoch_generation`, `epoch_timeline` and `seq`, which are null together. -/
structure Place where
  epoch : Epoch
  seq : Nat
  deriving DecidableEq

/-- What `_insert` writes with a record and nothing changes. -/
structure Written where
  ord : Nat
  digest : Str
  record : Option Bytes
  deriving DecidableEq

structure Columns where
  written : Written
  place : Option Place := none
  deriving DecidableEq

abbrev LogRow := Row Columns

def batchSize : Nat := 500

/-- The row of `be_audit_counter`. -/
structure Counter where
  epoch : Option Epoch := none
  lastSeq : Nat := 0
  deriving DecidableEq

/-! ## Messages -/

/-- A record as it travels. -/
structure Item where
  id : Id
  seq : Nat
  epoch : Str
  digest : Str
  record : Bytes
  deriving DecidableEq

inductive ReceiptStatus where
  | received
  | conflict
  | invalid
  deriving DecidableEq

/-- `_RECEIPT` -/
def receipt : Int → Option ReceiptStatus
  | 1 => some .received
  | 2 => some .conflict
  | 3 => some .invalid
  | _ => none

structure Receipt where
  id : Id
  status : Int
  epoch : Str
  seq : Bigint
  chain : Str

/-- The state that a receipt's row gets. -/
def Receipt.state (rc : Receipt) : TransferState :=
  match (receipt rc.status).getD .conflict with
  | .received => .received
  | .conflict | .invalid => .conflict

/-- A record that the audit component stored. -/
structure Position where
  epoch : Str
  seq : Bigint
  item : Item
  deriving DecidableEq

/-- A watermark covers a position: in its epoch by its number, in an ancestor by the fork. -/
def Covers (w : Watermark) (p : Position) : Prop :=
  (p.epoch = w.epoch ∧ p.seq ≤ w.seq) ∨
    (w.backedUpInEpoch = true ∧ ∃ a ∈ w.ancestors.entries, p.epoch = a.1 ∧ p.seq ≤ a.2)

instance (w : Watermark) (p : Position) : Decidable (Covers w p) :=
  inferInstanceAs (Decidable ((p.epoch = w.epoch ∧ p.seq ≤ w.seq) ∨
    (w.backedUpInEpoch = true ∧ ∃ a ∈ w.ancestors.entries, p.epoch = a.1 ∧ p.seq ≤ a.2)))

/-! ## Statements -/

/-- A statement that takes rows by a condition, which may raise, and deletes or updates
them. -/
structure Statement where
  cond : Id → LogRow → Option Bool
  make : LogRow → Option LogRow

def Statement.action (q : Statement) (k : Id) : Action LogRow := fun r =>
  match q.cond k r with
  | none => .raises
  | some false => .skips
  | some true =>
      match q.make r with
      | none => .deletes
      | some r' => .updates r'

/-- The rows it picks of those it sees. -/
def Statement.picks (q : Statement) (rows : List (Id × LogRow)) :
    Option (List (Id × Action LogRow)) :=
  if rows.all fun x => (q.cond x.1 x.2).isSome then
    some ((rows.filter fun x => q.cond x.1 x.2 == some true).map fun x => (x.1, q.action x.1))
  else none

/-- `UPDATE be_audit_log SET transfer_state = … WHERE id = … AND transfer_state = 'pending'` -/
def storeStatement (now : Int) (rc : Receipt) : Statement where
  cond k r := some (decide (k = rc.id) && decide (r.state = .pending))
  make r := some { r with state := rc.state, receiptEpoch := some rc.epoch,
                          receiptSeq := some rc.seq, receiptChain := some rc.chain,
                          receivedAt := some now }

/-- `DELETE FROM be_audit_log WHERE …` -/
def deleteStatement (p : LogRow → Bool) : Statement where
  cond _ r := some (p r)
  make _ := none

/-- `UPDATE be_audit_log SET transfer_state = 'pending', … WHERE …` -/
def resendStatement (p : LogRow → Option Bool) : Statement where
  cond _ r := p r
  make r := some r.reset

/-- The statements for one ancestor. -/
def ancestorStatements (w : Watermark) (now : Int) (a : Str × Bigint) : List Statement :=
  (if w.backedUpInEpoch then [deleteStatement (covered now a.1 a.2)] else []) ++
    [resendStatement fun r => some (pastFork a.1 a.2 r)]

/-- The statements of `purge`. -/
def purgeStatements (w : Watermark) (now : Int) : List Statement :=
  deleteStatement (covered now w.epoch w.seq) :: w.ancestors.entries.flatMap
    (ancestorStatements w now) ++ [resendStatement (lost w)]

/-! ## Tasks -/

/-- How far a numbering has come: the counter's row locked, the database epoch and the
last number in it read, the rows numbered, the counter written. -/
inductive Phase where
  | began
  | locked (c : Counter)
  | read (last : Nat) (now : Epoch)
  | numbered (last : Nat) (now : Epoch)
  | counted (c : Counter)

inductive Job where
  | storing (now : Int) (receipts : List Receipt)
  | purging (w : Watermark) (now : Int)

def Job.statements : Job → List Statement
  | .storing now receipts => receipts.map (storeStatement now)
  | .purging w now => purgeStatements w now

/-- What a transaction does; the statements are those still to begin. -/
inductive Task where
  | numbering (p : Phase)
  | statements (job : Job) (todo : List Statement)

/-- A numbering that holds the lock of the counter's row. -/
def Task.holds : Task → Bool
  | .numbering (.locked _) | .numbering (.read _ _) | .numbering (.numbered _ _) | .numbering
      (.counted _) => true
  | .numbering .began | .statements _ _ => false

/-- A row gets its position. -/
def placeAction (p : Place) : Action LogRow :=
  fun r => .updates { r with rest := { r.rest with place := some p } }

/-- `be_audit_log WHERE seq IS NULL ORDER BY ord LIMIT …` -/
def unnumbered (rows : List (Id × LogRow)) : List Id :=
  (((rows.filter fun x => x.2.rest.place.isNone).insertionSort fun x y =>
    x.2.rest.written.ord ≤ y.2.rest.written.ord).take batchSize).map Prod.fst

/-- The batch of a numbering. -/
def numberPicks (last : Nat) (now : Epoch) (rows : List (Id × LogRow)) :
    List (Id × Action LogRow) :=
  ((unnumbered rows).zipIdx (last + 1)).map fun x => (x.1, placeAction ⟨now, x.2⟩)

/-- The last number of an epoch, by the counter's row. -/
def Counter.last (c : Counter) (now : Epoch) : Nat := if c.epoch = some now then c.lastSeq else 0

/-- A transaction of which the last statement is done begins its next. -/
def execute (table : Dict Id LogRow) (tx : Tx Id LogRow Task) : Tx Id LogRow Task :=
  if tx.left.isEmpty then
    match tx.task with
    | .numbering (.read last now) =>
        { tx with task := .numbering (.numbered last now),
                  left := numberPicks last now (tx.own.apply table).entries }
    | .statements job (q :: todo) =>
        match q.picks (tx.own.apply table).entries with
        | some picked => { tx with task := .statements job todo, left := picked }
        | none => { tx with stage := .aborted }
    | _ => tx
  else tx

/-- The numbers a numbering has given. -/
def givenBy (tx : Tx Id LogRow Task) : List (Place × Id) :=
  tx.own.entries.filterMap fun x => (x.2.bind fun r => r.rest.place).map fun p => (p, x.1)

/-! ## Runs -/

/-- A batch that was submitted, and whether receipts came back. -/
structure Call where
  items : List Item
  answered : Bool := false

structure State where
  db : Store Id LogRow Task := {}
  counter : Counter := {}
  epoch : Epoch
  calls : List Call := []
  marks : List Watermark := []
  stored : List Position := []
  durable : List Position := []
  inserted : List (Id × Written) := []
  given : List (Place × Id) := []

/-- A log without rows, in the database epoch it began in. -/
def start (e : Epoch) : State := { epoch := e }

/-- The records that were submitted. -/
def State.sent (s : State) : List Item := s.calls.flatMap Call.items

/-- A running numbering holds the lock of the counter's row. -/
def State.counting (s : State) : Bool := s.db.txs.any fun tx => tx.stage == .running &&
    tx.task.holds

/-- A row as `transfer` sends it. -/
def itemOf (x : Id × LogRow) : Option Item :=
  if x.2.state = .pending then
    match x.2.rest.place, x.2.rest.written.record with
    | some p, some record =>
        some { id := x.1, seq := p.seq, epoch := epochText p.epoch,
               digest := x.2.rest.written.digest, record }
    | _, _ => none
  else none

/-- The batch that `transfer` reads. -/
def State.batch (s : State) : List Item :=
  ((s.db.table.entries.insertionSort fun x y => x.2.rest.written.ord ≤
    y.2.rest.written.ord).filterMap itemOf).take batchSize

inductive Op where
  /-- A business transaction commits with a record. -/
  | insert (k : Id) (e : Written)
  /-- `number`: the transaction begins, locks, reads the epoch, numbers, counts. -/
  | number
  | lock (i : Nat)
  | read (i : Nat)
  | count (i : Nat)
  /-- `transfer`: the batch is read and submitted, and answered. -/
  | fetch
  | answer (c : Nat) (receipts : List Receipt) (now : Int)
  /-- `watermark` returns, and `purge` begins with what it returned. -/
  | watermark (w : Watermark)
  | purge (m : Nat) (now : Int)
  | execute (i : Nat)
  | visit (i : Nat)
  | commit (i : Nat)
  | abort (i : Nat)
  /-- The database epoch moves, forward. -/
  | moves (e : Epoch)
  /-- The audit component stores a record, and backs up. -/
  | stores (p : Position)
  | backsUp (ps : List Position)

def step (s : State) : Op → State × Unit
  | .insert k e =>
      -- the id is unique
      if (s.db.table.get? k).isSome then (s, ())
      else ({ s with db := s.db.insert k { state := .pending, rest := ⟨e, none⟩ },
                     inserted := s.inserted ++ [(k, e)] }, ())
  | .number => ({ s with db := s.db.begin_ (.numbering .began) }, ())
  | .lock i =>
      if s.counting then (s, ())
      else
        ({ s with db := s.db.go i fun tx =>
                    match tx.task with
                    | .numbering .began => { tx with task := .numbering (.locked s.counter) }
                    | _ => tx }, ())
  | .read i =>
      ({ s with db := s.db.go i fun tx =>
                  match tx.task with
                  | .numbering (.locked c) =>
                      { tx with task := .numbering (.read (c.last s.epoch) s.epoch) }
                  | _ => tx }, ())
  | .count i =>
      ({ s with db := s.db.go i fun tx =>
                  match tx.task, tx.left with
                  | .numbering (.numbered last now), [] =>
                      { tx with task := .numbering (.counted ⟨some now, last + tx.own.size⟩) }
                  | _, _ => tx }, ())
  | .fetch =>
      (if s.batch.isEmpty then s else { s with calls := s.calls ++ [{ items := s.batch }] }, ())
  | .answer c receipts now =>
      match s.calls[c]? with
      | some ⟨items, false⟩ =>
          let job := Job.storing now receipts
          ({ s with calls := s.calls.set c ⟨items, true⟩,
                    db := s.db.begin_ (.statements job job.statements) }, ())
      | _ => (s, ())
  | .watermark w => ({ s with marks := s.marks ++ [w] }, ())
  | .purge m now =>
      match s.marks[m]? with
      | some w =>
          let job := Job.purging w now
          ({ s with db := s.db.begin_ (.statements job job.statements) }, ())
      | none => (s, ())
  | .execute i => ({ s with db := s.db.go i (execute s.db.table) }, ())
  | .visit i => ({ s with db := s.db.visit i }, ())
  | .commit i =>
      match s.db.txs[i]? with
      | some tx =>
          if tx.stage = .running ∧ tx.left.isEmpty then
            match tx.task with
            | .numbering (.counted c) =>
                ({ s with db := s.db.commit i, counter := c, given := s.given ++ givenBy tx }, ())
            | .statements _ [] => ({ s with db := s.db.commit i }, ())
            | _ => (s, ())
          else (s, ())
      | none => (s, ())
  | .abort i => ({ s with db := s.db.abort i }, ())
  | .moves e => ({ s with epoch := max s.epoch e }, ())
  | .stores p => ({ s with stored := s.stored ++ [p] }, ())
  | .backsUp ps => ({ s with durable := s.durable ++ ps.filter fun p => decide (p ∈ s.stored) }, ())

/-! ## What is relied on -/

/-- A receipt of a record that was received names the position it was stored at. -/
def Confirms (stored : List Position) (rc : Receipt) : Prop :=
  ∃ p ∈ stored, p.item.id = rc.id ∧ p.epoch = rc.epoch ∧ p.seq = rc.seq

instance (stored : List Position) (rc : Receipt) : Decidable (Confirms stored rc) :=
  inferInstanceAs (Decidable (∃ p ∈ stored, p.item.id = rc.id ∧ p.epoch = rc.epoch ∧
    p.seq = rc.seq))

/-- What the member relies on: a record's id is new; the audit component stores what was
submitted, at positions past every watermark it gave; it confirms what it stored; and what
a watermark covers is in its backup. -/
def Honest (s : State) : Op → Prop
  | .insert k _ => k ∉ s.inserted.map Prod.fst
  | .stores p => p.item ∈ s.sent ∧ ∀ w ∈ s.marks, ¬ Covers w p
  | .answer _ receipts _ => ∀ rc ∈ receipts, rc.state = .received → Confirms s.stored rc
  | .watermark w => ∀ p ∈ s.stored, Covers w p → p ∈ s.durable
  | _ => True

instance (s : State) : ∀ o, Decidable (Honest s o)
  | .insert k _ => inferInstanceAs (Decidable (k ∉ s.inserted.map Prod.fst))
  | .stores p => inferInstanceAs (Decidable (p.item ∈ s.sent ∧ ∀ w ∈ s.marks, ¬ Covers w p))
  | .answer _ receipts _ =>
      inferInstanceAs (Decidable (∀ rc ∈ receipts, rc.state = .received → Confirms s.stored rc))
  | .watermark w => inferInstanceAs (Decidable (∀ p ∈ s.stored, Covers w p → p ∈ s.durable))
  | .number | .lock _ | .read _ | .count _ | .fetch | .purge _ _ | .execute _ | .visit
      _ | .commit _ | .abort _
  | .moves _ | .backsUp _ => inferInstanceAs (Decidable True)

end BeSdk.Audit.Transfer
