/-
BeSdk.Events.Forward — the forwarders of one partition, over its numbering.

A PASS is one call of `Forwarder._partition`, of any forwarder in any process. What its
lease says is no condition of a step: `_lease` may answer either way whoever holds the
lease, and a pass that it lets through goes on while another does. A pass numbers and
reads its batch in one transaction of `Outbox`, which is begun again when it was
aborted; it prepares the messages and publishes them one after the other, and marks what
was acknowledged in its `finally`. It fails when a message cannot be prepared, when a
transaction fails or its task is cancelled, and ends anywhere when its process does. A
transport may take a message and not acknowledge it.

Everything else that happens to the tables is a step of `Outbox`; only a pass marks rows.
-/
import BeSdk.Events.Outbox

namespace BeSdk.Events.Forward

open Outbox (Place Epoch)

/-! ## The batch -/

/-- The order of positions: generation, timeline, number. -/
def key (p : Place) : Epoch ×ₗ Nat := toLex (p.epoch, p.seq)

/-- The position of a row that is numbered and not published. -/
def waiting (r : Outbox.Row) : Option (Place × Nat) := if r.published then none
    else r.place.map fun p => (p, r.ord)

/-- `_unpublished`: the rows that are numbered and not published, in the order of their
positions; a negative `LIMIT` raises. -/
def unpublished (rows : List Outbox.Row) : List Nat :=
  ((rows.filterMap waiting).insertionSort fun a b => key a.1 ≤ key b.1).map Prod.snd

/-! ## Passes -/

inductive Stage where
  /-- `_lease` let it through. -/
  | leased
  /-- Its transaction is a numberer's. -/
  | numbering (i : Nat)
  /-- It has read its batch, in the transaction. -/
  | read (i : Nat) (batch : List Nat)
  | publishing (rest done : List Nat)
  /-- Next, what was acknowledged is marked. -/
  | marking (done : List Nat)
  | ended
  deriving DecidableEq

structure State where
  box : Outbox.State := Outbox.start
  passes : List Stage := []

def start : State := {}

inductive Note where
  | box (n : Outbox.Note)
  /-- The transport took the message of a row, and acknowledged it or not. -/
  | taken (pass : Nat) (ord : Nat) (acked : Bool)
  deriving DecidableEq

/-- A pass goes on to a stage. -/
def State.to_ (s : State) (k : Nat) (st : Stage) : State := { s with passes := s.passes.set k st }

/-- What a numberer has written, and is about to commit. -/
def counted (box : Outbox.State) (i : Nat) : Option Outbox.Work :=
  match box.numberers[i]? with
  | some ⟨_, .counted w⟩ => some w
  | _ => none

def committed (box : Outbox.State) (i : Nat) : Bool :=
  match box.numberers[i]? with
  | some ⟨_, .committed⟩ => true
  | _ => false

def aborted (box : Outbox.State) (i : Nat) : Bool :=
  match box.numberers[i]? with
  | some ⟨_, .aborted⟩ => true
  | _ => false

/-- A pass may begin its transaction, or begin it again. -/
def Stage.begins (box : Outbox.State) : Stage → Bool
  | .leased => true
  | .numbering i | .read i _ => aborted box i
  | .publishing _ _ | .marking _ | .ended => false

/-- After a failure; what was published is still marked. -/
def Stage.fails : Stage → Stage
  | .publishing _ done => .marking done
  | .leased | .numbering _ | .read _ _ | .marking _ | .ended => .ended

/-! ## Runs -/

inductive Op where
  | box (o : Outbox.Op)
  /-- A forwarder comes to the partition. -/
  | pass
  | begin_ (k : Nat)
  | select (k : Nat) (batch : Int)
  /-- The transaction has committed. -/
  | receive (k : Nat)
  /-- The next message is published: the transport takes it or not, acknowledged or not. -/
  | publish (k : Nat) (taken acked : Bool)
  | fail (k : Nat)
  | mark (k : Nat)
  | crash (k : Nat)

def step (s : State) : Op → State × List Note
  | .box (.published _) => (s, [])
  | .box o => ({ s with box := (Outbox.step s.box o).1 }, (Outbox.step s.box o).2.map .box)
  | .pass => ({ s with passes := s.passes ++ [.leased] }, [])
  | .begin_ k =>
      match s.passes[k]? with
      | some st =>
          if st.begins s.box then
            ({ s with box := (Outbox.step s.box .begin_).1 }.to_ k
              (.numbering s.box.numberers.length), [])
          else (s, [])
      | none => (s, [])
  | .select k batch =>
      match s.passes[k]? with
      | some (.numbering i) =>
          match counted s.box i with
          | some w => if batch < 0 then (s, [])
              else (s.to_ k (.read i ((unpublished (s.box.apply w).rows).take batch.toNat)), [])
          | none => (s, [])
      | _ => (s, [])
  | .receive k =>
      match s.passes[k]? with
      | some (.read i batch) => if committed s.box i then (s.to_ k (.publishing batch []), [])
          else (s, [])
      | _ => (s, [])
  | .publish k taken acked =>
      match s.passes[k]? with
      | some (.publishing (o :: rest) done) =>
          if taken then
            if acked then (s.to_ k (.publishing rest (done ++ [o])), [.taken k o true])
            else (s.to_ k (.marking done), [.taken k o false])
          else (s.to_ k (.marking done), [])
      | some (.publishing [] done) => (s.to_ k (.marking done), [])
      | _ => (s, [])
  | .fail k =>
      match s.passes[k]? with
      | some st => (s.to_ k st.fails, [])
      | none => (s, [])
  | .mark k =>
      match s.passes[k]? with
      | some (.marking done) =>
          ({ s with box := (Outbox.step s.box (.published done)).1 }.to_ k .ended, [])
      | _ => (s, [])
  | .crash k => (s.to_ k .ended, [])

end BeSdk.Events.Forward
