/-
BeSdk.Exc — the exceptions the modelled code raises.

A fallible function returns `Except Exc α`. An exception carries what its text is
made of, not the rendered text: where the source writes `f"decimal {s!r}"` the
constructor holds `s`. Only `error` reaches a caller of a component as it is.
-/
import BeSdk.Errs
import BeSdk.Py.Decimal

namespace BeSdk

/-- `canon.Refused`: a value the encoding forbids. -/
inductive Refused where
  /-- `decimal {s!r}` -/
  | decimal (s : Str)
  /-- `instant {s!r}` -/
  | instant (s : Str)
  /-- `null` -/
  | null
  /-- `integer {n} is not below 2^53` -/
  | integer (n : Int)
  /-- `floating point` -/
  | float
  /-- The decoder's refusal of bytes: malformed, a float, or a duplicate key. -/
  | unreadable
  /-- `the bytes are not in canonical form` -/
  | notCanonical
  deriving DecidableEq

/-- A raised exception. -/
inductive Exc where
  | refused (r : Refused)
  | error (e : Errs.Error)
  | decimal (s : DecimalSignal)
  | unicodeEncodeError
  | overflowError
  | valueError
  | keyError
  | typeError
  | attributeError
  | osError
  | recursionError
  deriving DecidableEq

end BeSdk
