/-
BeSdk.Http — the deadline of a request to the user surface: `_run` with the caller's
timeout header, and the header that a call sends.

A header is any bytes, read as Latin-1. The digits of that part of Unicode are the ASCII
digits and three superscripts, which `isdigit` takes for digits and `int` does not; the
rest of the interpreter's tables is free. A float is its exact value here; only its range
is kept. What the route's handler does is outside the model (`BeSdk.Reqctx` has what it
may do to the deadline).
-/
import BeSdk.Errwire.Foreign
import BeSdk.Lib.Binary64
import BeSdk.Reqctx

namespace BeSdk.Http

/-! ## Headers -/

/-- The interpreter's tables, with their Latin-1 part. -/
class HeaderTables extends Interp, DigitTable where
  noDecimal : ∀ c : CodePoint, 127 < c.val → c.val < 256 → toDecimal c = none
  /-- `¹`, `²` and `³` -/
  superscripts : ∀ c : CodePoint, 127 < c.val → c.val < 256 →
    (otherDigit c = true ↔ c.val = 0xB2 ∨ c.val = 0xB3 ∨ c.val = 0xB9)

/-- A byte in Latin-1. -/
def latin1Char (b : UInt8) : CodePoint :=
  ⟨b.toNat, by
    have h := b.toNat_lt
    omega⟩

@[simp] theorem latin1Char_val (b : UInt8) : (latin1Char b).val = b.toNat := rfl

/-- `raw.decode("latin-1")` -/
def latin1 (raw : Bytes) : Str := raw.map latin1Char

def headerTimeoutMs : Str := str "Be-Timeout-Ms"

/-- The refusal of a timeout header. -/
def timeoutInvalid : Errs.Error :=
  (Errs.new (str "REQUEST_INVALID")
    (headerTimeoutMs ++ str " must be a positive integer")).withViolations
    [⟨str "header:" ++ headerTimeoutMs, str "INVALID", str "positive integer of milliseconds"⟩]

/-! ## Routes -/

def defaultDeadline : Seconds := 10
def orchestrationDeadline : Seconds := 15

/-- A route, as far as its deadline reads it. -/
structure Route where
  orchestration : Bool := false
  /-- Overrides the default deadline. -/
  timeout : Seconds := 0

def Route.deadline (r : Route) : Seconds :=
  if r.timeout ≠ 0 then r.timeout else if r.orchestration then orchestrationDeadline
    else defaultDeadline

/-! ## The deadline of a request -/

/-- `m / n` of integers, which raises where no float is near. -/
def trueDiv (m n : Int) : Except Exc Seconds :=
  match Binary64.round ((m : ℚ) / n) with
  | .finite _ => .ok ((m : ℚ) / n)
  | _ => .error .overflowError

/-- `_run` up to the limit, from the value of the header. -/
def limitOf [Interp] [DigitTable] (r : Route) (header : Option Bytes) : Except Exc Seconds :=
  let limit := r.deadline
  let h := (header.map latin1).getD []
  if h.isEmpty then .ok limit
  else if !h.isDigits then .error (.error timeoutInvalid)
  else
    match toInt h with
    | none => .error .valueError
    | some n =>
        if n ≤ 0 then .error (.error timeoutInvalid)
        else (trueDiv n 1000).map fun seconds => min limit seconds

/-- `_run`: the deadline that the request runs under, in a context that `request_scope`
has emptied. -/
def run [Interp] [DigitTable] (r : Route) (header : Option Bytes) (now : Seconds) :
    Except Exc Seconds :=
  (limitOf r header).map fun limit => Reqctx.deadlineScope none (now + limit)

/-! ## The header of a call -/

/-- What `HTTP.do` sends for an attempt's timeout. -/
def sentTimeout (timeout : Seconds) : Bytes :=
  (intText (max 1 (if timeout * 1000 < 0 then (timeout * 1000).ceil
    else (timeout * 1000).floor))).map fun c => UInt8.ofNat c.val

end BeSdk.Http
