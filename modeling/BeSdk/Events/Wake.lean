/-
BeSdk.Events.Wake — the loop of a member's forwarder: `Producer._wake`, `take_written`,
`Forwarder._run`, `_pending`, `_forward` and `_partition`.

`Forward` has the forwarders of one partition; here is one forwarder over all of its
partitions, with the tasks of its process that wake it and the other replicas. A commit
puts rows into the table, and what it registered for after the commit runs later, or
never when the reply is lost. The loop waits until it is woken or the poll is due, takes
what was written, and forwards: each part is tried, also after another failed, and again
while its batch was full.

A statement is one step, and so is everything between two awaits. Which rows a
statement with a `LIMIT` takes is left open, and so are the positions, the messages, and
what a lease says. Other replicas insert, number, mark and purge at any time, but for
the rows of a partition while its counter is locked by this forwarder's transaction, and
they mark what is numbered. A wait may end early, and time passes at any step.
-/
import BeSdk.Lib.History
import BeSdk.Py.Text
import Mathlib.Data.List.Dedup

namespace BeSdk.Events.Wake

/-- The name of a stream and a partition of it. -/
abbrev Part := Str × Nat

/-- The columns `seq` and `published_at`: what is published was read with its number. -/
inductive Status where
  | unnumbered
  | numbered
  | published
  deriving DecidableEq

/-- A committed row of `be_outbox`. -/
structure Row where
  part : Part
  ord : Nat
  status : Status := .unnumbered
  deriving DecidableEq

/-- What `Forwarder` is made with; the parts are those of the streams it declares. -/
structure Forwarder where
  every : List Part
  poll : Nat
  batch : Nat

/-! ## The loop -/

/-- Where `_partition` is. -/
inductive Stage where
  | leasing
  | leased
  /-- The open transaction has numbered the rows. -/
  | numbered (picked : List Nat)
  /-- It has read the batch too. -/
  | read (picked batch : List Nat)
  | publishing (rest done : List Nat)
  /-- Its `finally`, after the last message or after a failure. -/
  | marking (done : List Nat) (ok : Bool)
  deriving DecidableEq

/-- Where `_run` is; `rest` are the parts still to be tried, `full` those to be tried again. -/
inductive Phase where
  | waiting
  /-- `_pending` is reading. -/
  | pending
  | forwarding (poll : Bool) (rest full : List Part)
  | trying (poll : Bool) (part : Part) (rest full : List Part) (stage : Stage)
  | stopped
  deriving DecidableEq

/-- `untold` are the rows of the commits whose callbacks have not run. -/
structure State where
  rows : List Row := []
  nextOrd : Nat := 1
  untold : List (List (Part × Nat)) := []
  dirty : List Part := []
  written : Bool := false
  now : Nat := 0
  nextPoll : Nat := 0
  phase : Phase := .waiting

/-- Before the first poll. -/
def start : State := {}

inductive Note where
  /-- `_wake` was called for the rows. -/
  | told (rows : List (Part × Nat))
  /-- A poll saw the rows. -/
  | polled (rows : List (Part × Nat))
  /-- A pass begins. -/
  | pass (poll : Bool) (now : Nat)
  /-- The pass of a poll has ended. -/
  | pollEnded (now : Nat)
  /-- The lease of a partition was refused, or forwarding it failed. -/
  | gaveUp (part : Part)
  /-- A poll could not read. -/
  | unread
  deriving DecidableEq

/-! ## The table -/

def Row.key (r : Row) : Part × Nat := (r.part, r.ord)

/-- The rows to be numbered, of a partition. -/
def State.unnumbered (s : State) (p : Part) : List Nat :=
  (s.rows.filter fun r => r.part = p ∧ r.status = .unnumbered).map Row.ord

/-- The rows numbered and not published, of a partition, to a transaction that has
numbered `picked`. -/
def State.unpublished (s : State) (p : Part) (picked : List Nat) : List Nat :=
  (s.rows.filter fun r => r.part = p ∧
    (r.status = .numbered ∨ (r.status = .unnumbered ∧ r.ord ∈ picked))).map Row.ord

def State.insert (s : State) (parts : List Part) : State :=
  { s with rows := s.rows ++ parts.zipIdx.map fun p => { part := p.1, ord := s.nextOrd + p.2 }
           nextOrd := s.nextOrd + parts.length }

def State.number (s : State) (ords : List Nat) : State :=
  { s with rows := s.rows.map fun r => if r.ord ∈ ords ∧
    r.status = .unnumbered then { r with status := .numbered } else r }

/-- `published_at = now()` -/
def State.mark (s : State) (ords : List Nat) : State :=
  { s with rows := s.rows.map fun r => if r.ord ∈ ords then { r with status := .published } else r }

def State.purge (s : State) (ords : List Nat) : State :=
  { s with rows := s.rows.filter fun r => ¬ (r.ord ∈ ords ∧ r.status = .published) }

/-- The partition whose counter this forwarder's transaction has locked. -/
def Phase.locked : Phase → Option Part
  | .trying _ p _ _ (.numbered _) => some p
  | .trying _ p _ _ (.read _ _) => some p
  | _ => none

/-- The rows that no transaction but this forwarder's may number. -/
def State.locked (s : State) : List Nat :=
    (s.rows.filter fun r => some r.part = s.phase.locked).map Row.ord

/-- The rows that are numbered, to other transactions. -/
def State.numbered (s : State) : List Nat := (s.rows.filter (·.status ≠ .unnumbered)).map Row.ord

/-- Some of the rows, as many as the limit unless all. -/
def Takes (limit : Nat) (rows taken left : List Nat) : Prop :=
  (taken ++ left).Perm rows ∧ (taken.length = limit ∨ (left = [] ∧ taken.length ≤ limit))

instance (limit : Nat) (rows taken left : List Nat) : Decidable (Takes limit rows taken left) :=
  inferInstanceAs (Decidable (_ ∧ _))

/-! ## Steps -/

inductive Op where
  /-- A transaction of this member commits, with an event for each part. -/
  | commit (parts : List Part)
  /-- The callbacks of a commit run. -/
  | tell (i : Nat)
  | otherCommit (parts : List Part)
  | otherNumber (ords : List Nat)
  | otherMark (ords : List Nat)
  | purge (ords : List Nat)
  | tick (n : Nat)
  /-- The wait ends; a set gives its elements in any order. -/
  | wake (written : List Part)
  | pending (ok : Bool)
  /-- The loop of `_forward`. -/
  | next
  /-- `_lease` answers, or raises. -/
  | lease (answer : Option Bool)
  | number (picked left : List Nat)
  | read (batch left : List Nat)
  | receive
  /-- The transaction is redone. -/
  | redo
  /-- The transaction fails. -/
  | fail
  | publish (ok : Bool)
  | mark (ok : Bool)
  /-- The task is cancelled; what was published is marked or not. -/
  | stop (marks : Bool)

/-- The end of a pass, which may have raised. -/
def State.endPass (f : Forwarder) (s : State) (poll : Bool) : State × List Note :=
  if poll then ({ s with phase := .waiting, nextPoll := s.now + f.poll }, [.pollEnded s.now])
  else ({ s with phase := .waiting }, [])

/-- `_partition` returns how many it published. -/
def State.returned (f : Forwarder) (s : State) (poll : Bool) (p : Part)
    (rest full : List Part) (n : Nat) : State :=
  { s with phase := .forwarding poll rest (if n = f.batch then full ++ [p] else full) }

/-- `_partition` raises. -/
def State.raised (s : State) (poll : Bool) (p : Part) (rest full : List Part) : State × List Note :=
  ({ s with phase := .forwarding poll rest full }, [.gaveUp p])

def State.to_ (s : State) (poll : Bool) (p : Part) (rest full : List Part) (stage : Stage) :
    State :=
  { s with phase := .trying poll p rest full stage }

/-- A step of `_partition`. -/
def tryStep (f : Forwarder) (s : State) (poll : Bool) (p : Part) (rest full : List Part) :
    Stage → Op → State × List Note
  | .leasing, .lease (some true) => (s.to_ poll p rest full .leased, [])
  | .leasing, .lease (some false) => (s.returned f poll p rest full 0, [.gaveUp p])
  | .leasing, .lease none => s.raised poll p rest full
  | .leased, .number picked left =>
      if Takes f.batch (s.unnumbered p) picked left then
        (s.to_ poll p rest full (.numbered picked), []) else (s, [])
  | .numbered picked, .read batch left =>
      if Takes f.batch (s.unpublished p picked) batch left then
        (s.to_ poll p rest full (.read picked batch), []) else (s, [])
  | .read picked batch, .receive =>
      ((s.number picked).to_ poll p rest full (.publishing batch []), [])
  | .leased, .redo | .numbered _, .redo | .read _ _, .redo => (s.to_ poll p rest full .leased, [])
  | .leased, .fail | .numbered _, .fail | .read _ _, .fail => s.raised poll p rest full
  | .publishing (o :: os) done, .publish ok =>
      (s.to_ poll p rest full (if ok then .publishing os (done ++ [o])
        else .marking done false), [])
  | .publishing [] done, .publish _ => (s.to_ poll p rest full (.marking done true), [])
  | .marking done ok, .mark true =>
      if ok then ((s.mark done).returned f poll p rest full done.length, [])
        else (s.mark done).raised poll p rest full
  | .marking _ _, .mark false => s.raised poll p rest full
  | _, _ => (s, [])

/-- What was published, when the task is cancelled. -/
def Phase.done : Phase → List Nat
  | .trying _ _ _ _ (.publishing _ done) => done
  | .trying _ _ _ _ (.marking done _) => done
  | _ => []

/-- A step of `_run`. -/
def runStep (f : Forwarder) (s : State) (o : Op) : State × List Note :=
  match s.phase, o with
  | .waiting, .wake written =>
      if written.Perm s.dirty then
        let poll := decide (s.nextPoll ≤ s.now)
        -- `take_written`
        let taken := { s with dirty := [], written := false }
        ({ taken with phase := if poll then .pending else .forwarding false written [] },
          [.pass poll s.now])
      else (s, [])
  | .pending, .pending true =>
      let rows := (s.rows.filter fun r => r.status ≠ .published ∧ r.part ∈ f.every).map Row.key
      ({ s with phase := .forwarding true (f.every.filter fun p => p ∈ rows.map Prod.fst) []
        }, [.polled rows])
  | .pending, .pending false => ((s.endPass f true).1, (s.endPass f true).2 ++ [.unread])
  | .forwarding poll (p :: rest) full, .next => (s.to_ poll p rest full .leasing, [])
  | .forwarding poll [] [], .next => s.endPass f poll
  | .forwarding poll [] (p :: full), .next =>
      ({ s with phase := .forwarding poll (p :: full) [] }, [])
  | .trying poll p rest full stage, o => tryStep f s poll p rest full stage o
  | _, _ => (s, [])

def step (f : Forwarder) (s : State) : Op → State × List Note
  | .commit parts =>
      if ∀ p ∈ parts, p ∈ f.every then
        ({ s.insert parts with untold :=
          s.untold ++ [parts.zipIdx.map fun p => (p.1, s.nextOrd + p.2)] }, [])
      else (s, [])
  | .tell i =>
      match s.untold[i]? with
      | some rows =>
          if rows = [] then (s, [])
          else
            ({ s with untold := s.untold.set i [], written := true,
                      dirty := (s.dirty ++ rows.map Prod.fst).dedup }, [.told rows])
      | none => (s, [])
  | .otherCommit parts => (s.insert parts, [])
  | .otherNumber ords => (s.number (ords.filter (· ∉ s.locked)), [])
  | .otherMark ords => (s.mark (ords.filter (· ∈ s.numbered)), [])
  | .purge ords => (s.purge ords, [])
  | .tick n => ({ s with now := s.now + n }, [])
  | .stop marks => ({ (if marks then s.mark s.phase.done else s) with phase := .stopped }, [])
  | o => runStep f s o

end BeSdk.Events.Wake
