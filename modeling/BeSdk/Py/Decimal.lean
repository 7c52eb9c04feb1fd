/-
BeSdk.Py.Decimal — Python's `decimal.Decimal`, as far as the SDK uses it:
reading one from text, comparing two, and `normalize` under a context.

A finite decimal is a sign, a coefficient and an exponent (`as_tuple`), not a
number: `1.0` and `1.00` are different decimals of one value. `Dec.value` is
that value, a rational; comparison goes through it (`Dec.lt_iff`, `Dec.eq_iff`).

The constructor is exact but not total. The C implementation refuses, with
`InvalidOperation`, what does not fit its largest context, so
`Decimal("0e99999999999999999999")` raises although it denotes zero;
`Dec.fits` states the limits. `Dec.normalize` rounds to the context's precision
(half even) BEFORE it drops trailing zeros, raises `Overflow` above its largest
exponent and rounds towards zero digits below its smallest: a value with more
digits than the context holds comes back as another value.
-/
import BeSdk.Py.Text
import Mathlib.Data.Nat.Log
import Mathlib.Data.Rat.Cast.Order
import Mathlib.Algebra.Order.Field.Rat
import Mathlib.Algebra.Order.Field.Power
import Mathlib.Tactic.FieldSimp
import Mathlib.Tactic.Positivity
import Mathlib.Tactic.Ring

namespace BeSdk

/-! ## Finite decimals -/

/-- A finite `Decimal`: `(-1)^neg * coeff * 10^exp`. -/
structure Dec where
  neg : Bool
  coeff : Nat
  exp : Int
  deriving DecidableEq, Repr

/-- The coefficient with its sign. -/
def Dec.signed (d : Dec) : Int := if d.neg then -(d.coeff : Int) else d.coeff

/-- The value a decimal denotes. -/
def Dec.value (d : Dec) : ℚ := d.signed * (10 : ℚ) ^ d.exp

/-- The number of digits of the coefficient; zero has one. -/
def Dec.digits (d : Dec) : Nat := Nat.log 10 d.coeff + 1

/-- The exponent of the leading digit. -/
def Dec.adjusted (d : Dec) : Int := d.exp + d.digits - 1

/-- The coefficient over the exponent `e`, for an `e` not above the decimal's. -/
def Dec.scaled (d : Dec) (e : Int) : Int := d.signed * 10 ^ (d.exp - e).toNat

/-- `a < b` -/
def Dec.lt (a b : Dec) : Bool :=
  decide (a.scaled (min a.exp b.exp) < b.scaled (min a.exp b.exp))

/-- `a == b` -/
def Dec.eq (a b : Dec) : Bool :=
  decide (a.scaled (min a.exp b.exp) = b.scaled (min a.exp b.exp))

theorem Dec.scaled_eq (d : Dec) {e : Int} (h : e ≤ d.exp) :
    (d.scaled e : ℚ) = d.value * (10 : ℚ) ^ (-e) := by
  have hpow : ((10 : ℚ) ^ (d.exp - e).toNat) = (10 : ℚ) ^ (d.exp - e) := by
    rw [← zpow_natCast, Int.toNat_of_nonneg (by omega)]
  rw [Dec.scaled, Dec.value]
  push_cast
  rw [hpow, sub_eq_add_neg, zpow_add₀ (by norm_num), mul_assoc]

theorem Dec.lt_iff (a b : Dec) : a.lt b = true ↔ a.value < b.value := by
  have hpos : (0 : ℚ) < (10 : ℚ) ^ (-(min a.exp b.exp)) := by positivity
  rw [Dec.lt, decide_eq_true_iff, ← Int.cast_lt (R := ℚ), Dec.scaled_eq a (min_le_left _ _),
    Dec.scaled_eq b (min_le_right _ _)]
  exact mul_lt_mul_iff_left₀ hpos

theorem Dec.eq_iff (a b : Dec) : a.eq b = true ↔ a.value = b.value := by
  have hne : (10 : ℚ) ^ (-(min a.exp b.exp)) ≠ 0 := by positivity
  rw [Dec.eq, decide_eq_true_iff, ← Int.cast_inj (α := ℚ), Dec.scaled_eq a (min_le_left _ _),
    Dec.scaled_eq b (min_le_right _ _)]
  exact mul_left_inj' hne

/-! ## Reading -/

/-- The parts of a text shaped like a decimal number. -/
structure DecimalText where
  sign : Option CodePoint
  int : Str
  point : Bool
  frac : Str
  exp : Option (Option CodePoint × Str)
  deriving DecidableEq

def takeSign : Str → Option CodePoint × Str
  | [] => (none, [])
  | c :: rest => if c = chr '+' ∨ c = chr '-' then (some c, rest) else (none, c :: rest)

def scanPoint : Str → Bool × Str × Str
  | [] => (false, [], [])
  | c :: rest =>
      if c = chr '.' then (true, rest.takeWhile isDigit, rest.dropWhile isDigit)
      else (false, [], c :: rest)

/-- Splits a text into sign, digits, fraction and exponent; `none` when something
else stands between or after them. Any of the digit runs may be empty. -/
def scanDecimal (s : Str) : Option DecimalText :=
  let (sign, s) := takeSign s
  let int := s.takeWhile isDigit
  let (point, frac, s) := scanPoint (s.dropWhile isDigit)
  match s with
  | [] => some ⟨sign, int, point, frac, none⟩
  | c :: s =>
      if c = chr 'e' ∨ c = chr 'E' then
        let (esign, s) := takeSign s
        if s.dropWhile isDigit = [] then some ⟨sign, int, point, frac, some (esign, s)⟩ else none
      else none

/-- Whether the parts make a number: some digit, and one in the exponent. -/
def DecimalText.wellFormed (p : DecimalText) : Bool :=
  (!p.int.isEmpty || !p.frac.isEmpty) && (p.exp.all fun e => !e.2.isEmpty)

/-- `re.compile(r"-?[0-9]+(\.[0-9]+)?([eE][-+]?[0-9]+)?").fullmatch(s)` -/
def decimalFullmatch (s : Str) : Bool :=
  match scanDecimal s with
  | none => false
  | some p =>
      decide (p.sign ≠ some (chr '+')) && !p.int.isEmpty && (!p.point || !p.frac.isEmpty) &&
        p.exp.all fun e => !e.2.isEmpty

/-- The decimal the parts denote. -/
def DecimalText.dec (p : DecimalText) : Dec where
  neg := p.sign = some (chr '-')
  coeff := digitsVal (p.int ++ p.frac)
  exp :=
    (match p.exp with
      | none => 0
      | some (esign, ds) => if esign = some (chr '-') then -(digitsVal ds : Int) else digitsVal ds)
    - p.frac.length

/-- The number a text in decimal syntax denotes, of any size. -/
def readDecimal (s : Str) : Option Dec :=
  match scanDecimal s with
  | none => none
  | some p => if p.wellFormed then some p.dec else none

theorem readDecimal_of_fullmatch {s : Str} (h : decimalFullmatch s = true) :
    ∃ d, readDecimal s = some d := by
  rw [decimalFullmatch] at h
  rw [readDecimal]
  cases hp : scanDecimal s with
  | none => simp [hp] at h
  | some p =>
      simp only [hp, Bool.and_eq_true] at h
      have hwf : p.wellFormed = true := by
        simp only [DecimalText.wellFormed, Bool.and_eq_true, Bool.or_eq_true]
        exact ⟨Or.inl h.1.1.2, h.2⟩
      exact ⟨p.dec, by simp [hwf]⟩

/-! ## The constructor -/

/-- The largest context of the C implementation (`MAX_PREC`, `MAX_EMAX`, and the
smallest exponent of a subnormal). -/
def maxPrec : Nat := 999999999999999999
def maxEmax : Int := 999999999999999999
def minEtiny : Int := -1999999999999999997

/-- What the constructor holds without rounding or clamping. -/
def Dec.fits (d : Dec) : Bool :=
  decide (d.digits ≤ maxPrec ∧ d.adjusted ≤ maxEmax ∧ minEtiny ≤ d.exp)

/-- `Decimal`: finite or special. -/
inductive Decimal where
  | finite (d : Dec)
  | infinity (neg : Bool)
  | nan (signaling : Bool)
  deriving DecidableEq

/-- The exceptions of the `decimal` module. -/
inductive DecimalSignal where
  | invalidOperation
  | overflow
  deriving DecidableEq, Repr

/-- `a < b`; a NaN has no order. -/
def Decimal.lt : Decimal → Decimal → Except DecimalSignal Bool
  | .nan _, _ => .error .invalidOperation
  | _, .nan _ => .error .invalidOperation
  | .infinity m, .infinity n => .ok (m && !n)
  | .infinity m, .finite _ => .ok m
  | .finite _, .infinity n => .ok !n
  | .finite a, .finite b => .ok (a.lt b)

/-- `a == b`; only a signaling NaN raises. -/
def Decimal.eq : Decimal → Decimal → Except DecimalSignal Bool
  | .nan true, _ => .error .invalidOperation
  | _, .nan true => .error .invalidOperation
  | .infinity m, .infinity n => .ok (m == n)
  | .finite a, .finite b => .ok (a.eq b)
  | _, _ => .ok false

/-- ASCII `lower()`. -/
def lowerAscii (s : Str) : Str :=
  s.map fun c => if h : 0x41 ≤ c.val ∧ c.val ≤ 0x5A then ⟨c.val + 0x20, CodePoint.lower_lt h⟩ else c

/-- The special values, without their sign: `inf`, `infinity`, `nan` and `snan`
with an optional payload. -/
def readSpecial (neg : Bool) (s : Str) : Option Decimal :=
  let s := lowerAscii s
  if s = str "inf" ∨ s = str "infinity" then some (.infinity neg)
  else if Str.startsWith s (str "nan") ∧ (s.drop 3).all isDigit then some (.nan false)
  else if Str.startsWith s (str "snan") ∧ (s.drop 4).all isDigit then some (.nan true)
  else none

/-- The constructor on a text already reduced to ASCII. -/
def decimalOfAscii (s : Str) : Except DecimalSignal Decimal :=
  match readDecimal s with
  | some d => if d.fits then .ok (.finite d) else .error .invalidOperation
  | none =>
      let (sign, rest) := takeSign s
      match readSpecial (sign = some (chr '-')) rest with
      | some v => .ok v
      | none => .error .invalidOperation

/-- The text reduced to ASCII: surrounding whitespace and every underscore go,
other digits become ASCII ones; anything else outside ASCII empties it. -/
def numericAsAscii [Interp] (s : Str) : Str :=
  let s := (Str.strip s).filter fun c => c ≠ chr '_'
  let ascii (c : CodePoint) : Option CodePoint :=
    if c.val ≤ 127 then some c
    else if isSpace c then some (chr ' ')
    else (Interp.toDecimal c).map fun d => digitChr d.val
  (s.mapM ascii).getD []

/-- `Decimal(s)` -/
def decimalOf [Interp] (s : Str) : Except DecimalSignal Decimal := decimalOfAscii (numericAsAscii s)

/-! ## Contexts -/

/-- The parts of a `Context` that `normalize` reads. -/
structure Context where
  prec : Nat
  emax : Int
  emin : Int

/-- The smallest exponent of a subnormal. -/
def Context.etiny (c : Context) : Int := c.emin - (c.prec - 1)

/-- `n / 10^k` rounded half even. -/
def roundHalfEven (n k : Nat) : Nat :=
  let q := n / 10 ^ k
  let r := n % 10 ^ k
  if 2 * r < 10 ^ k then q else if 10 ^ k < 2 * r then q + 1 else if q % 2 = 0 then q else q + 1

/-- Drops trailing zeros of a coefficient, at most `limit` of them. -/
def dropZeros : Nat → Nat → Int → Nat × Int
  | 0, n, e => (n, e)
  | limit + 1, n, e => if n % 10 = 0 then dropZeros limit (n / 10) (e + 1) else (n, e)

/-- The decimal rounded to the context: to its precision, and to its smallest
exponent where the number is too small for the precision to decide. -/
def Dec.rounded (c : Context) (d : Dec) : Dec :=
  let e := max c.etiny (d.exp + d.digits - c.prec)
  if d.exp < e then ⟨d.neg, roundHalfEven d.coeff (e - d.exp).toNat, e⟩ else d

/-- `d.normalize(c)`: rounds, then drops trailing zeros. -/
def Dec.normalize (c : Context) (d : Dec) : Except DecimalSignal Dec :=
  let r := d.rounded c
  if r.coeff = 0 then .ok ⟨d.neg, 0, 0⟩
  else if c.emax < d.adjusted ∨ c.emax < r.adjusted then .error .overflow
  else
    let (n, e) := dropZeros (c.emax - r.exp).toNat r.coeff r.exp
    .ok ⟨d.neg, n, e⟩

/-- `format(d, "f")` -/
def Dec.format (d : Dec) : Str :=
  let sign := if d.neg then str "-" else []
  let digits := natText d.coeff
  if 0 ≤ d.exp then
    sign ++ (if d.coeff = 0 then digits else digits ++ List.replicate d.exp.toNat (chr '0'))
  else
    let frac := d.exp.natAbs
    let padded := List.replicate (frac + 1 - digits.length) (chr '0') ++ digits
    sign ++ padded.take (padded.length - frac) ++ str "." ++ padded.drop (padded.length - frac)

end BeSdk
