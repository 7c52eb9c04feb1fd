/-
BeSdk.Events.Queue — the PostgreSQL queue of one durable: messages published by
concurrent transactions, the read position that moves over them, and the deliveries
that workers claim and settle.

Every statement of the queue names its durable, so the state has the rows of one. A
statement is one step, and so is a transaction that locks what it reads; `_advance` and
`_claim_ordered` are not. Each holds the subscription's row from its first statement to
its end while the others go on. `_advance` takes a new snapshot for its second
statement. `_claim_ordered` reads the earliest delivery from the snapshot of its second
statement and does not lock it; the update that follows finds the row by its key alone,
as it is by then. A publishing transaction draws sequence numbers and its transaction
ID, and writes rows with them, in any order. Its rows are in the table when it commits.

`pg_snapshot_xmin` is the smallest transaction ID that is still running, or the next
one. A row that another statement holds locked is skipped by `_claim` (SKIP LOCKED);
which ones those are is part of the operation. Lease tokens are numbers never drawn
twice. `now()` and `clock_timestamp()` read one clock that does not go back.

`Handout`s are what the workers hold of their claims: a settlement names one, at any
time and any number of times. The notes say what each step did, newest first.
`before` is a ghost of the specification: what was committed when a publisher began.
-/
import BeSdk.Events.Core
import BeSdk.Lib.History
import Mathlib.Data.Prod.Lex

namespace BeSdk.Events.Queue

/-! ## Tables -/

/-- A row of `be_bus_message`. -/
structure Row extends Message where
  seq : Nat
  xid : Nat
  before : List Nat := []

/-- A place in the reading order. -/
abbrev Position := Nat ×ₗ Nat

def position (xid seq : Nat) : Position := toLex (xid, seq)

def Row.key (m : Row) : Position := position m.xid m.seq

/-- A row of `be_bus_delivery`. -/
structure DeliveryRow where
  seq : Nat
  attempts : Int := 0
  inFlight : Bool := false
  notBefore : Seconds
  leaseUntil : Option Seconds := none
  leaseToken : Option Nat := none
  deriving DecidableEq

inductive Stage where
  | running
  | committed
  | aborted
  deriving DecidableEq

/-- A publishing transaction: its transaction ID and the sequence number it drew for
its next row, once it has them, and the rows it wrote. -/
structure Publisher where
  xid : Option Nat := none
  drawn : Option Nat := none
  rows : List Row := []
  stage : Stage := .running
  before : List Nat := []

/-- A transaction of `_advance`: when it began, and the rows it read, once it has. -/
structure Advance where
  xid : Nat
  began : Seconds
  rows : Option (List Row) := none

/-- The transaction that holds the subscription's row. -/
inductive Holder where
  | advance (a : Advance)
  /-- One of `_claim_ordered`, with the delivery that its snapshot shows as the earliest
  and as due. -/
  | claim (seen : DeliveryRow)

/-- What a worker holds of a claim. -/
structure Handout where
  seq : Nat
  token : Nat
  attempt : Int
  delivery : Delivery

/-- The queue of one durable. -/
structure State where
  spec : SubscriptionSpec
  messages : List Row := []
  publishers : List Publisher := []
  pos : Position := position 0 0
  deliveries : List DeliveryRow := []
  holder : Option Holder := none
  handouts : List Handout := []
  clock : Seconds := 0
  nextSeq : Nat := 1
  nextXid : Nat := 1
  nextToken : Nat := 0

/-- The advance that holds the subscription's row. -/
def State.advance (s : State) : Option Advance :=
  match s.holder with
  | some (.advance a) => some a
  | _ => none

/-- What the ordered claim that holds the subscription's row has seen. -/
def State.seen (s : State) : Option DeliveryRow :=
  match s.holder with
  | some (.claim seen) => some seen
  | _ => none

/-- The rows that were ever committed. -/
def State.committed (s : State) : List Row :=
  s.publishers.flatMap fun p => if p.stage = .committed then p.rows else []

/-- Why a delivery row was deleted. -/
inductive Reason where
  | settled (handout : Nat) (out : Outcome)
  | exhausted
  | gone
  | purged
  deriving DecidableEq

/-- What a step did. -/
inductive Note where
  | considered (seq : Nat)
  | queued (seq : Nat)
  | handedOut (seq : Nat) (attempt : Int)
  | deleted (seq : Nat) (why : Reason)
  deriving DecidableEq

/-! ## Publishing -/

/-- A running publisher runs on. -/
def State.publish (s : State) (t : Nat) (go : Publisher → Publisher) : State :=
  match s.publishers[t]? with
  | some p => if p.stage = .running then { s with publishers := s.publishers.set t (go p) } else s
  | none => s

/-- Draws a sequence number for the next row. -/
def State.draw (s : State) (t : Nat) : State :=
  { s.publish t (fun p => { p with drawn := some s.nextSeq }) with nextSeq := s.nextSeq + 1 }

/-- Gets a transaction ID, unless it has one. -/
def State.assign (s : State) (t : Nat) : State :=
  { s.publish t (fun p => { p with xid := some (p.xid.getD s.nextXid) }) with nextXid :=
    s.nextXid + 1 }

/-- A row with the numbers of its transaction, once it has both. -/
def Publisher.write (m : Message) (p : Publisher) : Publisher :=
  match p.xid, p.drawn with
  | some xid, some seq =>
      { p with drawn := none, rows := p.rows ++ [{ m with seq, xid, before := p.before }] }
  | _, _ => p

/-- Writes a row. -/
def State.write (s : State) (t : Nat) (m : Message) : State := s.publish t (Publisher.write m)

/-- The rows of a publisher that is about to commit. -/
def State.rowsOf (s : State) (t : Nat) : List Row :=
  match s.publishers[t]? with
  | some p => if p.stage = .running then p.rows else []
  | none => []

/-- The transaction commits: its rows are in the table. -/
def State.commit (s : State) (t : Nat) : State :=
  { s.publish t (fun p => { p with stage := .committed })
    with messages := s.messages ++ s.rowsOf t }

/-- The transaction rolls back. -/
def State.abort (s : State) (t : Nat) : State := s.publish t fun p => { p with stage := .aborted }

/-! ## The read position -/

def advanceBatch : Nat := 500

/-- The transaction IDs that are running. -/
def State.running (s : State) : List Nat :=
  (s.publishers.filterMap fun p => if p.stage = .running then p.xid else none) ++
    (s.advance.map Advance.xid).toList

/-- `pg_snapshot_xmin(pg_current_snapshot())` -/
def State.xmin (s : State) : Nat := s.running.foldl min s.nextXid

/-- `be_bus_message WHERE (xid, seq) > pos AND xid < xmin ORDER BY xid, seq` -/
def pending (messages : List Row) (pos : Position) (xmin : Nat) : List Row :=
  (messages.filter fun m => decide (pos < m.key) && decide (m.xid < xmin)).insertionSort
    fun a b => a.key ≤ b.key

/-- A new delivery row; `not_before` is the start of the transaction. -/
def newDelivery (began : Seconds) (m : Row) : DeliveryRow := { seq := m.seq, notBefore := began }

/-- The rows that `INSERT … ON CONFLICT DO NOTHING` inserts. -/
def missing (deliveries : List DeliveryRow) (rows : List Row) : List Row :=
  rows.filter fun m => deliveries.all fun d => decide (d.seq ≠ m.seq)

/-- The second half of `_advance`, and its commit: the deliveries are queued and the
position moves to the last row read. -/
def State.advanced (s : State) : State × List Note :=
  match s.advance with
  | some ⟨_, began, some rows⟩ =>
      match rows.getLast? with
      | none => ({ s with holder := none }, [])
      | some last =>
          let queued := missing s.deliveries (rows.filter fun m => s.spec.selects m.subject)
          ({ s with holder := none, pos := last.key,
                    deliveries := s.deliveries ++ queued.map (newDelivery began) },
            (rows.map fun m => .considered m.seq) ++ queued.map fun m => .queued m.seq)
  | _ => (s, [])

/-! ## Claims -/

/-- The least sequence number of the deliveries that meet a condition. -/
def first (p : DeliveryRow → Bool) (deliveries : List DeliveryRow) : Option Nat :=
  ((deliveries.filter p).map DeliveryRow.seq).min?

/-- `NOT in_flight AND not_before <= clock_timestamp()` -/
def DeliveryRow.ready (d : DeliveryRow) (clock : Seconds) : Bool :=
  !d.inFlight && decide (d.notBefore ≤ clock)

/-- `in_flight AND lease_until < clock_timestamp()` -/
def DeliveryRow.expired (d : DeliveryRow) (clock : Seconds) : Bool :=
  d.inFlight && d.leaseUntil.any fun t => decide (t < clock)

/-- In flight under a lease that has not run out. -/
def DeliveryRow.leased (d : DeliveryRow) (clock : Seconds) : Bool :=
  d.inFlight && d.leaseUntil.any fun t => decide (clock ≤ t)

/-- Ready, or expired with deliveries left. -/
def DeliveryRow.due (d : DeliveryRow) (spec : SubscriptionSpec) (clock : Seconds) : Bool :=
  d.ready clock || (d.expired clock && decide (d.attempts < spec.maxDeliver))

/-- The earliest due delivery that is not locked. -/
def State.due (s : State) (locked : List Nat) : Option Nat :=
  first (fun d => d.due s.spec s.clock && !locked.contains d.seq) s.deliveries

/-- The earliest delivery, when it is due. -/
def State.dueFirst (s : State) : Option DeliveryRow :=
  (first (fun _ => true) s.deliveries).bind fun seq =>
    s.deliveries.find? fun d => decide (d.seq = seq) && d.due s.spec s.clock

/-- A row under a new lease. -/
def DeliveryRow.claim (d : DeliveryRow) (token : Nat) (leaseUntil : Seconds) : DeliveryRow :=
  { d with inFlight := true, attempts := d.attempts + 1, leaseToken := some token,
           leaseUntil := some leaseUntil }

/-- Applies an update to the rows that meet a condition. -/
def updateWhere (p : DeliveryRow → Bool) (f : DeliveryRow → DeliveryRow)
    (deliveries : List DeliveryRow) : List DeliveryRow :=
  deliveries.map fun d => if p d then f d else d

/-- A delivery is in flight under the next token. -/
def State.lease (s : State) (seq : Nat) : State :=
  { s with
    nextToken := s.nextToken + 1
    deliveries := updateWhere (fun d => decide (d.seq = seq))
      (fun d => d.claim s.nextToken (s.clock + s.spec.ackWait)) s.deliveries }

/-- Claims a delivery, and hands it out with its message when that is still there. -/
def State.take (s : State) (seq : Option Nat) : State × List Note :=
  match seq with
  | none => (s, [])
  | some seq =>
      match s.deliveries.find? fun d => decide (d.seq = seq), s.messages.find? fun m =>
        decide (m.seq = seq) with
      | some d, some m =>
          let attempt := d.attempts + 1
          let h : Handout := ⟨seq, s.nextToken, attempt, { m with attempt }⟩
          ({ s.lease seq with handouts := s.handouts ++ [h] }, [.handedOut seq attempt])
      | _, _ => (s.lease seq, [])

/-- A row that waits for its next delivery. -/
def DeliveryRow.release (d : DeliveryRow) (notBefore : Seconds) : DeliveryRow :=
  { d with inFlight := false, leaseToken := none, notBefore }

/-- A row whose lease lasts longer. -/
def DeliveryRow.extend (d : DeliveryRow) (leaseUntil : Seconds) : DeliveryRow :=
  { d with leaseUntil := some leaseUntil }

/-- A row is in flight under a token. -/
def DeliveryRow.under (d : DeliveryRow) (token : Nat) : Bool :=
  d.inFlight && decide (d.leaseToken = some token)

/-- Deletes the rows that meet a condition. -/
def State.deleteWhere (s : State) (p : DeliveryRow → Bool) (why : Reason) : State × List Note :=
  ({ s with deliveries := s.deliveries.filter fun d => !p d },
    (s.deliveries.filter p).map fun d => .deleted d.seq why)

/-- The first half of `_claim_ordered`: it takes the subscription's row and reads the
earliest delivery. When that is not due the transaction ends. -/
def State.look (s : State) : State :=
  match s.holder with
  | some _ => s
  | none => { s with holder := s.dueFirst.map .claim }

/-- The second half of `_claim_ordered`, and its commit: the delivery is claimed if it is
still there, whatever became of it since. One whose message is gone is deleted with its
claim. -/
def State.claimOrdered (s : State) : State × List Note :=
  match s.holder with
  | some (.claim seen) =>
      -- The message is the one of the snapshot: a purge takes the delivery with it.
      let (claimed, notes) := { s with holder := none }.take (some seen.seq)
      if s.messages.any fun m => decide (m.seq = seen.seq) then (claimed, notes)
      else
        let (dropped, deleted) := claimed.deleteWhere (fun d => d.under s.nextToken) .gone
        (dropped, deleted ++ notes)
  | _ => (s, [])

/-! ## Settlements -/

/-- `_settle`, by the lease of a handout. -/
def State.settle (s : State) (k : Nat) (out : Outcome) : State × List Note :=
  match s.handouts[k]? with
  | none => (s, [])
  | some h =>
      if out = .ack ∨ out = .term ∨ (out = .nak ∧ s.spec.maxDeliver ≤ h.attempt) then
        s.deleteWhere (fun d => d.under h.token) (.settled k out)
      else
        ({ s with deliveries := updateWhere (fun d => d.under h.token)
                    (fun d => d.release (s.clock + s.spec.backoffFor h.attempt)) s.deliveries }, [])

/-- `in_progress`, by the lease of a handout. -/
def State.inProgress (s : State) (k : Nat) : State :=
  match s.handouts[k]? with
  | none => s
  | some h =>
      { s with deliveries := updateWhere (fun d => d.under h.token)
                 (fun d => d.extend (s.clock + s.spec.ackWait)) s.deliveries }

/-- `_give_up` -/
def State.giveUp (s : State) : State × List Note :=
  s.deleteWhere (fun d => d.expired s.clock && decide (s.spec.maxDeliver ≤ d.attempts)) .exhausted

/-- `purge`, of the messages that are too old. -/
def State.purge (s : State) (old : List Nat) : State × List Note :=
  let gone := (s.messages.filter fun m => old.contains m.seq).map Row.seq
  { s with messages := s.messages.filter fun m => !old.contains m.seq }.deleteWhere
    (fun d => gone.contains d.seq) .purged

/-! ## Runs -/

inductive Op where
  | begin_
  | draw (t : Nat)
  | assign (t : Nat)
  | write (t : Nat) (m : Message)
  | commit (t : Nat)
  | abort (t : Nat)
  /-- `_advance` takes the subscription's row. -/
  | lock
  /-- It reads the rows. -/
  | fetch
  /-- It queues them and commits. -/
  | advanced
  /-- The transaction that holds the subscription's row rolls back. -/
  | rolledBack
  | claim (locked : List Nat)
  /-- `_claim_ordered` takes the subscription's row and reads the earliest delivery. -/
  | look
  /-- It updates that delivery and commits. -/
  | claimOrdered
  /-- The second statement of a claim whose message is gone. -/
  | dropGone (token : Nat)
  | settle (k : Nat) (out : Outcome)
  | inProgress (k : Nat)
  | giveUp
  | purge (old : List Nat)
  | tick (now : Seconds)

def step (s : State) : Op → State × List Note
  | .begin_ =>
      ({ s with publishers := s.publishers ++ [{ before := s.committed.map Row.seq }] }, [])
  | .draw t => (s.draw t, [])
  | .assign t => (s.assign t, [])
  | .write t m => (s.write t m, [])
  | .commit t => (s.commit t, [])
  | .abort t => (s.abort t, [])
  | .lock =>
      match s.holder with
      | some _ => (s, [])
      | none =>
          ({ s with holder := some (.advance { xid := s.nextXid, began := s.clock }),
                    nextXid := s.nextXid + 1 }, [])
  | .fetch =>
      match s.advance with
      | some ⟨xid, began, none⟩ =>
          let rows := (pending s.messages s.pos s.xmin).take advanceBatch
          ({ s with holder := some (.advance ⟨xid, began, some rows⟩) }, [])
      | _ => (s, [])
  | .advanced => s.advanced
  | .rolledBack => ({ s with holder := none }, [])
  | .claim locked => s.take (s.due locked)
  | .look => (s.look, [])
  | .claimOrdered => s.claimOrdered
  | .dropGone token =>
      s.deleteWhere (fun d => d.under token && s.messages.all fun m => decide (m.seq ≠ d.seq)) .gone
  | .settle k out => s.settle k out
  | .inProgress k => (s.inProgress k, [])
  | .giveUp => s.giveUp
  | .purge old => s.purge old
  | .tick now => ({ s with clock := max s.clock now }, [])

/-- A durable that was just created. -/
def created (spec : SubscriptionSpec) : State := { spec }

end BeSdk.Events.Queue
