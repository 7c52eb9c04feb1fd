/-
BeSdk.Audit.Purge — `Auditor.purge`: which received rows a watermark deletes, and which
it sends again.

The purge is one transaction of several statements over `be_audit_log`, each a function
of the rows that the statement before it left. A row has the columns that they read or
write; the others are `rest`. A comparison with NULL is not true, so a row with NULL
there is not taken. The last statement casts the parts of an epoch to `bigint`, of the
rows only that its earlier conditions let through; a cast that fails raises, and the
transaction is rolled back. Times are microseconds, and `now()` is one time for the
whole transaction.
-/
import BeSdk.Lib.Dict
import BeSdk.Py.Text
import Mathlib.Data.Prod.Lex

namespace BeSdk.Audit

/-! ## Values of SQL -/

/-- A value of type `bigint`. -/
abbrev Bigint := { n : Int // -9223372036854775808 ≤ n ∧ n ≤ 9223372036854775807 }

instance (m n : Bigint) : Decidable (m ≤ n) := inferInstanceAs (Decidable (m.val ≤ n.val))

instance (m n : Bigint) : Decidable (m < n) := inferInstanceAs (Decidable (m.val < n.val))

def bigint? (n : Int) : Option Bigint :=
  if h : -9223372036854775808 ≤ n ∧ n ≤ 9223372036854775807 then some ⟨n, h⟩ else none

/-- `split_part(s, c, n)` -/
def splitPart (s : Str) (c : CodePoint) (n : Nat) : Str := (s.splitOn c).getD (n - 1) []

/-- `isspace` of the C locale. -/
def isBlank (c : CodePoint) : Bool := (9 ≤ c.val && c.val ≤ 13) || c.val == 32

/-- The digits of a number, of which there is at least one. -/
def unsigned (s : Str) : Option Int := if s.isEmpty || !s.all isDigit then none
    else some (digitsVal s)

/-- `s::bigint` of decimal text, with white space around it and a sign before it. -/
def toBigint (s : Str) : Option Bigint :=
  let s := ((s.dropWhile isBlank).reverse.dropWhile isBlank).reverse
  match s with
  | [] => none
  | c :: digits =>
      if c = chr '-' then (unsigned digits).bind fun n => bigint? (-n)
      else if c = chr '+' then (unsigned digits).bind bigint?
      else (unsigned s).bind bigint?

/-- `(split_part(e, '.', 1)::bigint, split_part(e, '.', 2)::bigint)`; rows compare by
the first part that differs. -/
def epochPair (e : Str) : Option (Bigint ×ₗ Bigint) := do
  let generation ← toBigint (splitPart e (chr '.') 1)
  let timeline ← toBigint (splitPart e (chr '.') 2)
  return toLex (generation, timeline)

/-! ## Rows -/

inductive TransferState where
  | pending
  | received
  | conflict
  deriving DecidableEq

/-- A row of `be_audit_log`. -/
structure Row (β : Type) where
  state : TransferState
  receiptEpoch : Option Str := none
  receiptSeq : Option Bigint := none
  receiptChain : Option Str := none
  receivedAt : Option Int := none
  rest : β
  deriving DecidableEq

/-- The watermark as `GRPCSender.watermark` gives it; its numbers are 64-bit integers. -/
structure Watermark where
  epoch : Str
  seq : Bigint
  ancestors : Dict Str Bigint
  backedUpInEpoch : Bool

/-- Seven days, in seconds. -/
def minRetention : Int := 7 * 24 * 3600

/-- `make_interval(secs => n)` -/
def makeInterval (secs : Int) : Int := secs * 1000000

/-- The rows a transaction sees, and how many it has deleted and sent again. -/
structure Tally (β : Type) where
  rows : List (Row β)
  deleted : Nat := 0
  resent : Nat := 0
  deriving DecidableEq

variable {β : Type}

/-! ## Statements -/

/-- The condition of `delete`. -/
def covered (now : Int) (epoch : Str) (seq : Bigint) (r : Row β) : Bool :=
  decide (r.state = .received) && r.receivedAt.any
    (fun at_ => decide (at_ < now - makeInterval minRetention)) &&
    decide (r.receiptEpoch = some epoch) && r.receiptSeq.any fun n => decide (n ≤ seq)

/-- The condition of `resend` for an ancestor. -/
def pastFork (anc : Str) (fork : Bigint) (r : Row β) : Bool :=
  decide (r.state = .received) && decide (r.receiptEpoch = some anc) && r.receiptSeq.any
    fun n => decide (fork < n)

/-- The condition of `resend` for a lost branch. -/
def lost (w : Watermark) (r : Row β) : Option Bool :=
  match r.state, r.receiptEpoch with
  | .received, some e =>
      if e = w.epoch ∨ e ∈ w.ancestors.keys then some false
      else do
        let receipt ← epochPair e
        let current ← epochPair w.epoch
        return !decide (current < receipt)
  | _, _ => some false

/-- A row back in pending. -/
def Row.reset (r : Row β) : Row β :=
  { r with state := .pending, receiptEpoch := none, receiptSeq := none, receiptChain := none,
           receivedAt := none }

/-- `DELETE FROM be_audit_log WHERE …` -/
def Tally.delete (p : Row β → Bool) (t : Tally β) : Tally β :=
  { t with rows := t.rows.filter fun r => !p r, deleted := t.deleted + t.rows.countP p }

/-- `UPDATE be_audit_log SET transfer_state = 'pending', … WHERE …` -/
def Tally.resend (p : Row β → Bool) (t : Tally β) : Tally β :=
  { t with rows := t.rows.map fun r => if p r then r.reset else r,
           resent := t.resent + t.rows.countP p }

/-! ## The purge -/

/-- The statements for one ancestor. -/
def Tally.ancestor (w : Watermark) (now : Int) (t : Tally β) (a : Str × Bigint) : Tally β :=
  let t := if w.backedUpInEpoch then t.delete (covered now a.1 a.2) else t
  t.resend (pastFork a.1 a.2)

/-- `Auditor.purge`, in a transaction that began at `now`. -/
def purge (w : Watermark) (now : Int) (rows : List (Row β)) : Option (Tally β) :=
  let t := Tally.delete (covered now w.epoch w.seq) { rows }
  let t := w.ancestors.entries.foldl (Tally.ancestor w now) t
  if t.rows.all fun r => (lost w r).isSome then some (t.resend fun r => (lost w r).getD false)
    else none

/-- The row with the receipt is past the fork; the row without one is not received. -/
example : purge { epoch := str "2.1", seq := ⟨5, by decide⟩,
                  ancestors := ⟨[(str "1.1", ⟨80, by decide⟩)], by decide⟩
                  backedUpInEpoch := true } 0
      [{ state := .received, receiptEpoch := some (str "1.1"),
         receiptSeq := some ⟨81, by decide⟩, receivedAt := some 0, rest := 1 },
        { state := .conflict, rest := 2 }] =
    some { rows := [{ state := .pending, rest := 1 }, { state := .conflict, rest := 2 }],
           resent := 1 } := by
  decide +kernel

end BeSdk.Audit
