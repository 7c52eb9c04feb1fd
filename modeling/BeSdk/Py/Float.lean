/-
BeSdk.Py.Float — Python's floats, as far as JSON numbers and clocks need them.

A float of a JSON document is held by its text (`Json.float`); `floatOf` is the float.
An integer becomes a float by rounding, and a sum is rounded once more.
-/
import BeSdk.Py.Decimal
import BeSdk.Lib.Binary64

namespace BeSdk

/-- `float(text)` of a number in JSON syntax or of one of its constants. -/
def floatOf (text : Str) : Double :=
  match readDecimal text with
  | some d => Binary64.round d.value
  | none =>
      if text = str "Infinity" then .infinite false
      else if text = str "-Infinity" then .infinite true
      else .nan

/-- `a + b` on finite floats. -/
def addFloat (a b : ℚ) : Double := Binary64.round (a + b)

/-- `now >= d` -/
def Double.atMost (d : Double) (now : ℚ) : Bool :=
  match d with
  | .finite v => decide (v ≤ now)
  | .infinite negative => negative
  | .nan => false

/-- `now < d` -/
def Double.exceeds (d : Double) (now : ℚ) : Bool :=
  match d with
  | .finite v => decide (now < v)
  | .infinite negative => !negative
  | .nan => false

/-- A sum of integers in the range of the exact ones is the sum. -/
theorem addFloat_intCast {m n : ℤ} (h : (m + n).natAbs ≤ 2 ^ 53) :
    addFloat m n = .finite (m + n) := by
  have hround := Binary64.round_intCast h
  rw [addFloat]
  exact_mod_cast hround

end BeSdk
