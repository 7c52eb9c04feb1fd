/-
BeSdk.Py.Datetime — Python's `datetime`: the calendar, `fromisoformat`, and the
passage to UTC.

An aware datetime compares by the instant it denotes; `Instant` is that instant
in microseconds from 0001-01-01T00:00:00 UTC, and `DateTime.instant` is `none`
on a naive datetime. `fromisoformat` follows the standard library's reference
implementation: the separator's place is found from the first characters alone,
any single character may stand there, the time zone starts at the first `-`,
else `+`, else `Z`, fractions beyond the sixth digit are dropped, and `24:00`
is midnight of the next day.

`fields` is `astimezone(utc)` on the numbers. It fails, as Python does, outside the
years 1 to 9999.
-/
import BeSdk.Py.Text
import Mathlib.Algebra.Order.Ring.Rat

namespace BeSdk

/-- A clock reading, or a span of time. -/
abbrev Seconds := ℚ

/-- Microseconds from 0001-01-01T00:00:00 UTC. -/
abbrev Instant := Int

structure Date where
  year : Nat
  month : Nat
  day : Nat
  deriving DecidableEq, Repr

structure Time where
  hour : Nat
  minute : Nat
  second : Nat
  micro : Nat
  deriving DecidableEq, Repr

/-- A `datetime`; `offset` is the time zone's, in microseconds, `none` when naive. -/
structure DateTime where
  date : Date
  time : Time
  offset : Option Int
  deriving DecidableEq, Repr

/-! ## The calendar -/

def isLeap (y : Nat) : Bool := y % 4 == 0 && (y % 100 != 0 || y % 400 == 0)

/-- Days of a common year before each month, January first. -/
def daysBeforeMonthTable : List Nat := [0, 31, 59, 90, 120, 151, 181, 212, 243, 273, 304, 334]

def daysBeforeMonth (leap : Bool) (month : Nat) : Nat :=
  daysBeforeMonthTable.getD (month - 1) 0 + (if leap && decide (2 < month) then 1 else 0)

def daysInMonth (y month : Nat) : Nat :=
  if month = 2 then (if isLeap y then 29 else 28)
  else if month = 4 ∨ month = 6 ∨ month = 9 ∨ month = 11 then 30 else 31

/-- Days before January 1 of the year. -/
def daysBeforeYear (y : Nat) : Nat := (y - 1) * 365 + (y - 1) / 4 - (y - 1) / 100 + (y - 1) / 400

/-- Days from 0001-01-01 (`toordinal() - 1`). -/
def Date.days (d : Date) : Nat :=
  daysBeforeYear d.year + daysBeforeMonth (isLeap d.year) d.month + (d.day - 1)

/-- Month and day of the `n`-th day of a year: the first guess is never early and
at most one month late. -/
def monthDay (leap : Bool) (n : Nat) : Nat × Nat :=
  let month := (n + 50) / 32
  let month := if n < daysBeforeMonth leap month then month - 1 else month
  (month, n - daysBeforeMonth leap month + 1)

/-- The date of a day number. -/
def dateOfDays (n : Nat) : Date :=
  let n400 := n / 146097
  let n := n % 146097
  let n100 := n / 36524
  let n := n % 36524
  let n4 := n / 1461
  let n := n % 1461
  let n1 := n / 365
  let n := n % 365
  let year := n400 * 400 + n100 * 100 + n4 * 4 + n1 + 1
  if n1 = 4 ∨ n100 = 4 then ⟨year - 1, 12, 31⟩
  else
    let (month, day) := monthDay (isLeap year) n
    ⟨year, month, day⟩

/-! ## `fromisoformat` -/

def twoDigits (s : Str) (i : Nat) : Option Nat := do
  let a ← digitVal (← s[i]?)
  let b ← digitVal (← s[i + 1]?)
  return 10 * a + b

def fourDigits (s : Str) : Option Nat := do
  let a ← twoDigits s 0
  let b ← twoDigits s 2
  return 100 * a + b

/-- Where the separator stands; the date runs up to it. -/
def separatorAt (s : Str) : Option Nat :=
  let isAt (i : Nat) (c : Char) : Bool := s[i]? = some (chr c)
  if s.length = 7 then some 7
  else if isAt 4 '-' then
    if isAt 5 'W' then
      if s.length < 8 then none
      else if isAt 8 '-' then
        if s.length = 9 then none
        else if (s[10]?.any isDigit) then some 8 else some 10
      else some 8
    else some 10
  else if isAt 4 'W' then
    let pos := 7 + ((s.drop 7).takeWhile isDigit).length
    if pos < 9 then some pos else if pos % 2 = 0 then some 7 else some 8
  else some 8

/-- Monday of the ISO year's first week, as a day number that may be negative. -/
def isoWeek1Monday (y : Nat) : Int :=
  let first : Int := daysBeforeYear y
  let weekday := first % 7
  let monday := first - weekday
  if 3 < weekday then monday + 7 else monday

def isoWeekToGregorian (y week day : Nat) : Option Date :=
  let longYear := (daysBeforeYear y) % 7 = 3 ∨ ((daysBeforeYear y) % 7 = 2 ∧ isLeap y)
  if y < 1 ∨ 9999 < y then none
  else if week < 1 ∨ 53 < week ∨ (week = 53 ∧ ¬ longYear) then none
  else if day < 1 ∨ 7 < day then none
  else
    let n : Int := isoWeek1Monday y + (week - 1) * 7 + (day - 1)
    if n < 0 then none else some (dateOfDays n.toNat)

/-- The date part, of length 7, 8 or 10. -/
def parseIsoDate (s : Str) : Option Date := do
  guard (s.length = 7 ∨ s.length = 8 ∨ s.length = 10)
  let year ← fourDigits s
  let sep := decide (s[4]? = some (chr '-'))
  let pos := if sep then 5 else 4
  if s[pos]? = some (chr 'W') then
    let week ← twoDigits s (pos + 1)
    let pos := pos + 3
    if pos < s.length then
      guard (decide (s[pos]? = some (chr '-')) = sep)
      let pos := if sep then pos + 1 else pos
      guard (s.length = pos + 1)
      isoWeekToGregorian year week (← digitVal (← s[pos]?))
    else isoWeekToGregorian year week 1
  else
    let month ← twoDigits s pos
    let pos := pos + 2
    guard (decide (s[pos]? = some (chr '-')) = sep)
    let pos := if sep then pos + 1 else pos
    let day ← twoDigits s pos
    guard (s.length = pos + 2)
    return ⟨year, month, day⟩

/-- The fraction's microseconds: six digits at most, padded on the right. -/
def parseFraction (s : Str) : Option Nat :=
  if s = [] ∨ ¬ s.all isDigit then none
  else some (digitsVal (s.take 6) * 10 ^ (6 - (s.take 6).length))

/-- `HH[:?MM[:?SS[{.,}fff[fff]]]]`, separators all or none. -/
def parseTimeParts (s : Str) : Option Time := do
  let hour ← twoDigits s 0
  if s.length = 2 then return ⟨hour, 0, 0, 0⟩
  let sep := decide (s[2]? = some (chr ':'))
  let step := if sep then 3 else 2
  let minute ← twoDigits s step
  if s.length = step + 2 then return ⟨hour, minute, 0, 0⟩
  guard (!sep || decide (s[step + 2]? = some (chr ':')))
  let second ← twoDigits s (2 * step)
  match s.drop (2 * step + 2) with
  | [] => return ⟨hour, minute, second, 0⟩
  | c :: frac =>
      guard (c = chr '.' ∨ c = chr ',')
      return ⟨hour, minute, second, ← parseFraction frac⟩

/-- The first place a time zone can start at. -/
def zoneAt (s : Str) : Option Nat :=
  match s.idxOf? (chr '-') with
  | some i => some i
  | none =>
    match s.idxOf? (chr '+') with
    | some i => some i
    | none => s.idxOf? (chr 'Z')

def microsPerSecond : Int := 1000000
def microsPerDay : Int := 86400 * 1000000

/-- The microseconds of a time of day. -/
def Time.micros (t : Time) : Int :=
  ((t.hour * 60 + t.minute) * 60 + t.second : Nat) * microsPerSecond + t.micro

/-- The offset, strictly within a day. -/
def parseZone (neg : Bool) (s : Str) : Option Int := do
  guard (s.length ≠ 0 ∧ s.length ≠ 1 ∧ s.length ≠ 3)
  let t ← parseTimeParts s
  guard (t.micros < microsPerDay)
  return if neg then -t.micros else t.micros

/-- The time part with its offset. -/
def parseIsoTime (s : Str) : Option (Time × Option Int) := do
  guard (2 ≤ s.length)
  match zoneAt s with
  | none => return (← parseTimeParts s, none)
  | some i =>
      let t ← parseTimeParts (s.take i)
      if s[i]? = some (chr 'Z') then
        guard (s.length = i + 1)
        return (t, some 0)
      else
        return (t, some (← parseZone (s[i]? = some (chr '-')) (s.drop (i + 1))))

def Date.valid (d : Date) : Bool :=
  decide (1 ≤ d.year ∧ d.year ≤ 9999 ∧ 1 ≤ d.month ∧ d.month ≤ 12 ∧ 1 ≤ d.day ∧
    d.day ≤ daysInMonth d.year d.month)

def Time.valid (t : Time) : Bool :=
  decide (t.hour < 24 ∧ t.minute < 60 ∧ t.second < 60 ∧ t.micro < 1000000)

/-- Midnight of the next day, where `24:00` was written. -/
def rollMidnight (d : Date) (t : Time) : Date × Time :=
  if t = ⟨24, 0, 0, 0⟩ ∧ 1 ≤ d.month ∧ d.month ≤ 12 ∧ d.day ≤ daysInMonth d.year d.month then
    let t : Time := ⟨0, 0, 0, 0⟩
    if d.day < daysInMonth d.year d.month then (⟨d.year, d.month, d.day + 1⟩, t)
    else if d.month < 12 then (⟨d.year, d.month + 1, 1⟩, t)
    else (⟨d.year + 1, 1, 1⟩, t)
  else (d, t)

/-- `datetime.fromisoformat(s)`; `none` is a `ValueError`. -/
def fromisoformat (s : Str) : Option DateTime := do
  guard (7 ≤ s.length)
  let sep ← separatorAt s
  let date ← parseIsoDate (s.take sep)
  let (time, offset) ←
    match s.drop (sep + 1) with
    | [] => pure (⟨0, 0, 0, 0⟩, none)
    | rest => parseIsoTime rest
  let (date, time) := rollMidnight date time
  guard (date.valid ∧ time.valid)
  return ⟨date, time, offset⟩

/-! ## UTC -/

/-- The instant of an aware datetime. -/
def DateTime.instant (t : DateTime) : Option Instant :=
  t.offset.map fun off => t.date.days * microsPerDay + t.time.micros - off

/-- The date and time of day of an instant in UTC (`astimezone(timezone.utc)`);
`none` is an `OverflowError`. -/
def fields (i : Instant) : Option (Date × Time) :=
  if i < 0 ∨ 3652059 * microsPerDay ≤ i then none
  else
    let d := dateOfDays (i / microsPerDay).toNat
    let u := (i % microsPerDay).toNat
    some (d, ⟨u / 3600000000, u / 60000000 % 60, u / 1000000 % 60, u % 1000000⟩)

end BeSdk
