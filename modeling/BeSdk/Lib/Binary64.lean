/-
BeSdk.Lib.Binary64 — the nearest double of a rational, ties to even.

A finite double is the rational that it denotes; its two zeros are one here. `round`
scales the magnitude by the exponent of its binade, or of the subnormals below the
smallest, rounds to an integer and scales back.

* `round_finite_iff`: which numbers round to a finite double.
* `round_natCast`, `round_intCast`: integers up to `2 ^ 53` are doubles.
-/
import Mathlib.Data.Int.Log
import Mathlib.Data.Rat.Floor
import Mathlib.Tactic.Linarith
import Mathlib.Tactic.NormNum
import Mathlib.Tactic.FieldSimp

namespace BeSdk

/-- A double: a number, an infinity or no number. -/
inductive Double where
  | finite (value : ℚ)
  | infinite (negative : Bool)
  | nan
  deriving DecidableEq

namespace Binary64

/-! ## To an integer -/

/-- The nearest integer, the even one of two. -/
def roundEven (x : ℚ) : ℤ :=
  if x - ⌊x⌋ < 1 / 2 then ⌊x⌋
  else if 1 / 2 < x - ⌊x⌋ then ⌊x⌋ + 1
  else if ⌊x⌋ % 2 = 0 then ⌊x⌋
  else ⌊x⌋ + 1

theorem roundEven_intCast (n : ℤ) : roundEven n = n := by
  simp [roundEven]

theorem floor_le_roundEven (x : ℚ) : ⌊x⌋ ≤ roundEven x := by
  rw [roundEven]
  split
  · exact le_rfl
  split
  · omega
  split
  · exact le_rfl
  · omega

theorem roundEven_le_floor_add_one (x : ℚ) : roundEven x ≤ ⌊x⌋ + 1 := by
  rw [roundEven]
  split
  · omega
  split
  · exact le_rfl
  split
  · omega
  · exact le_rfl

theorem le_roundEven {n : ℤ} {x : ℚ} (h : (n : ℚ) ≤ x) : n ≤ roundEven x :=
  (Int.le_floor.mpr h).trans (floor_le_roundEven x)

theorem roundEven_le {n : ℤ} {x : ℚ} (h : x ≤ n) : roundEven x ≤ n := by
  rcases h.eq_or_lt with rfl | hlt
  · rw [roundEven_intCast]
  · have hfloor : ⌊x⌋ < n := Int.floor_lt.mpr hlt
    have := roundEven_le_floor_add_one x
    omega

/-- Below the middle the number is rounded down. -/
theorem roundEven_lt {n : ℤ} {x : ℚ} (h : x < n - 1 / 2) : roundEven x < n := by
  have hfloor : ⌊x⌋ < n := Int.floor_lt.mpr (by linarith)
  by_cases hlast : ⌊x⌋ = n - 1
  · have hfrac : x - ⌊x⌋ < 1 / 2 := by
      rw [hlast]
      push_cast
      linarith
    rw [roundEven, if_pos hfrac, hlast]
    omega
  · have := roundEven_le_floor_add_one x
    omega

/-- From the middle on the number is rounded up to an even one. -/
theorem even_le_roundEven {n : ℤ} {x : ℚ} (hn : n % 2 = 0)
    (h : (n : ℚ) - 1 / 2 ≤ x) : n ≤ roundEven x := by
  by_cases hle : (n : ℚ) ≤ x
  · exact le_roundEven hle
  · have hfloor : ⌊x⌋ = n - 1 := by
      rw [Int.floor_eq_iff]
      push_cast
      constructor <;> linarith
    have hfrac : ¬ x - ⌊x⌋ < 1 / 2 := by
      rw [hfloor]
      push_cast
      linarith
    rw [roundEven, if_neg hfrac, hfloor]
    split
    · omega
    · rw [if_neg (by omega)]
      omega

/-! ## To a double -/

/-- The exponent of the last binary digit that a double next to a magnitude holds. -/
def exponent (a : ℚ) : ℤ := max (Int.log 2 a - 52) (-1074)

/-- The magnitude rounded to its digits. -/
def magnitude (a : ℚ) : ℚ := roundEven (a / 2 ^ exponent a) * 2 ^ exponent a

/-- The nearest double, of unbounded range. -/
def nearest (q : ℚ) : ℚ := if q < 0 then -magnitude |q| else magnitude |q|

/-- The nearest double. -/
def round (q : ℚ) : Double :=
  if (2 : ℚ) ^ (1024 : ℤ) ≤ magnitude |q| then .infinite (q < 0) else .finite (nearest q)

theorem scale_pos (e : ℤ) : (0 : ℚ) < 2 ^ e := zpow_pos (by norm_num) e

/-- A magnitude is below the next binade. -/
theorem scaled_lt (a : ℚ) : a / 2 ^ exponent a < 2 ^ 53 := by
  rw [div_lt_iff₀ (scale_pos _)]
  have hlog : a < 2 ^ (Int.log 2 a + 1) := by
    exact_mod_cast Int.lt_zpow_succ_log_self (b := 2) (by norm_num) a
  have hle : Int.log 2 a + 1 ≤ 53 + exponent a := by
    have := le_max_left (Int.log 2 a - 52) (-1074)
    rw [exponent]
    omega
  calc a < 2 ^ (Int.log 2 a + 1) := hlog
    _ ≤ 2 ^ (53 + exponent a) := zpow_le_zpow_right₀ (by norm_num) hle
    _ = 2 ^ 53 * 2 ^ exponent a := by rw [zpow_add₀ (by norm_num)]; norm_num

theorem two_zpow_add (m n : ℤ) : (2 : ℚ) ^ (m + n) = 2 ^ m * 2 ^ n := zpow_add₀ (by norm_num) m n

/-- A magnitude in the binade of the largest doubles has the exponent 971. -/
theorem exponent_of_log {a : ℚ} (h : Int.log 2 a = 1023) : exponent a = 971 := by
  rw [exponent, h]
  rfl

/-- The powers of two next to the largest double, as multiples of half its last digit. -/
theorem top_powers : ∃ p : ℚ, 0 < p ∧ (2 : ℚ) ^ (970 : ℤ) = p ∧ (2 : ℚ) ^ (971 : ℤ) = 2 * p ∧
    (2 : ℚ) ^ (1023 : ℤ) = 2 ^ 53 * p ∧ (2 : ℚ) ^ (1024 : ℤ) = 2 ^ 54 * p := by
  refine ⟨2 ^ (970 : ℤ), scale_pos 970, rfl, ?_, ?_, ?_⟩
  · rw [show (971 : ℤ) = 1 + 970 by norm_num, two_zpow_add, zpow_one]
  · rw [show (1023 : ℤ) = 53 + 970 by norm_num, two_zpow_add]
    exact congrArg (· * _) (zpow_ofNat 2 53)
  · rw [show (1024 : ℤ) = 54 + 970 by norm_num, two_zpow_add]
    exact congrArg (· * _) (zpow_ofNat 2 54)

/-- **Overflow.** What rounds beyond the doubles is from the middle of the largest double
and the power of two behind it on. -/
theorem overflow_iff {a : ℚ} (ha : 0 ≤ a) :
    (2 : ℚ) ^ (1024 : ℤ) ≤ magnitude a ↔ (2 : ℚ) ^ (1024 : ℤ) - 2 ^ (970 : ℤ) ≤ a := by
  obtain ⟨p, hp, h970, h971, h1023, h1024⟩ := top_powers
  rw [h970, h1024]
  constructor
  · intro h
    by_contra hlt
    rw [not_le] at hlt
    have hlog : Int.log 2 a < 1024 := by
      rcases ha.eq_or_lt with rfl | hpos'
      · rw [Int.log_zero_right]
        norm_num
      · refine (Int.lt_zpow_iff_log_lt (by norm_num) hpos').mp ?_
        rw [Nat.cast_ofNat, h1024]
        linarith only [hlt, hp]
    by_cases hlast : Int.log 2 a = 1023
    · -- in the last binade the scaled magnitude is below the middle
      have he := exponent_of_log hlast
      have hscaled : a / 2 ^ exponent a < ((2 ^ 53 : ℤ) : ℚ) - 1 / 2 := by
        rw [div_lt_iff₀ (scale_pos _), he, h971]
        push_cast
        linarith only [hlt, hp]
      have hround' : (roundEven (a / 2 ^ exponent a) : ℚ) <
        2 ^ 53 := by exact_mod_cast roundEven_lt hscaled
      have : magnitude a < 2 ^ 53 * (2 * p) := by
        rw [magnitude, ← h971, ← he]
        exact mul_lt_mul_of_pos_right hround' (scale_pos _)
      linarith only [this, h]
    · -- in a lower one it rounds to the next binade at most
      have he : exponent a ≤ 970 := by
        rw [exponent]
        omega
      have hround : (roundEven (a / 2 ^ exponent a) : ℚ) ≤ 2 ^ 53 := by
        have := @roundEven_le (2 ^ 53) (a / 2 ^ exponent a) (by push_cast; exact (scaled_lt a).le)
        exact_mod_cast this
      have hscale : (2 : ℚ) ^ exponent a ≤ p := by
        rw [← h970]
        exact zpow_le_zpow_right₀ (by norm_num) he
      have : magnitude a ≤ 2 ^ 53 * p := by
        rw [magnitude]
        exact mul_le_mul hround hscale (scale_pos _).le (by norm_num)
      linarith only [this, h, hp]
  · intro h
    have hapos : 0 < a := by linarith only [h, hp]
    have hlog : 1023 ≤ Int.log 2 a := by
      refine (Int.zpow_le_iff_le_log (by norm_num) hapos).mp ?_
      rw [Nat.cast_ofNat, h1023]
      linarith only [h, hp]
    by_cases hlast : Int.log 2 a = 1023
    · have he := exponent_of_log hlast
      have hscaled : ((2 ^ 53 : ℤ) : ℚ) - 1 / 2 ≤ a / 2 ^ exponent a := by
        rw [le_div_iff₀ (scale_pos _), he, h971]
        push_cast
        linarith only [h, hp]
      have hround : (2 : ℚ) ^ 53 ≤ roundEven (a / 2 ^ exponent a) := by
        exact_mod_cast even_le_roundEven (by norm_num) hscaled
      have : (2 : ℚ) ^ 53 * (2 * p) ≤ magnitude a := by
        rw [magnitude, ← h971, ← he]
        exact mul_le_mul_of_nonneg_right hround (scale_pos _).le
      linarith only [this]
    · have he : exponent a = Int.log 2 a - 52 := by
        rw [exponent]
        omega
      have hself : (2 : ℚ) ^ Int.log 2 a ≤ a := by
        exact_mod_cast Int.zpow_log_le_self (b := 2) (by norm_num) hapos
      have hsplit : (2 : ℚ) ^ Int.log 2 a = 2 ^ 52 * 2 ^ exponent a := by
        rw [he, show Int.log 2 a = 52 + (Int.log 2 a - 52) by ring, two_zpow_add]
        norm_num
      have hround : (2 : ℚ) ^ 52 ≤ roundEven (a / 2 ^ exponent a) := by
        have := @le_roundEven (2 ^ 52) (a / 2 ^ exponent a)
          (by rw [le_div_iff₀ (scale_pos _)]; push_cast; linarith only [hself, hsplit])
        exact_mod_cast this
      calc 2 ^ 54 * p = (2 : ℚ) ^ (1024 : ℤ) := h1024.symm
        _ ≤ 2 ^ Int.log 2 a := zpow_le_zpow_right₀ (by norm_num) (by omega)
        _ = 2 ^ 52 * 2 ^ exponent a := hsplit
        _ ≤ magnitude a := mul_le_mul_of_nonneg_right hround (scale_pos _).le

/-- A number has a nearest double exactly below the middle. -/
theorem round_finite_iff {q : ℚ} :
    round q = .finite (nearest q) ↔ |q| < 2 ^ (1024 : ℤ) - 2 ^ (970 : ℤ) := by
  rw [← not_le, ← overflow_iff (abs_nonneg q), round]
  split
  · next h => exact iff_of_false (by simp) (not_not.mpr h)
  · next h => exact iff_of_true rfl h

theorem round_eq (q : ℚ) : round q = .infinite (q < 0) ∨ round q = .finite (nearest q) := by
  rw [round]
  split
  · exact .inl rfl
  · exact .inr rfl

/-! ## Integers -/

/-- A magnitude that is a multiple of its last digit is kept. -/
theorem magnitude_of_multiple {a : ℚ} {n : ℤ} (h : a = n * 2 ^ exponent a) : magnitude a = a := by
  have hscaled : a / 2 ^ exponent a = n := by
    rw [div_eq_iff (scale_pos _).ne']
    exact h
  rw [magnitude, hscaled, roundEven_intCast, ← h]

/-- Natural numbers up to `2 ^ 53` are doubles. -/
theorem magnitude_natCast {n : ℕ} (h : n ≤ 2 ^ 53) : magnitude n = n := by
  rcases h.eq_or_lt with rfl | hlt
  · have hlog : Int.log 2 (((2 ^ 53 : ℕ) : ℚ)) = 53 := by
      rw [Int.log_natCast, Nat.log_pow (by norm_num)]
      rfl
    have he : exponent ((2 ^ 53 : ℕ) : ℚ) = 1 := by
      rw [exponent, hlog]
      rfl
    refine @magnitude_of_multiple _ (2 ^ 52) ?_
    rw [he]
    norm_num
  · have hlog : Int.log 2 (n : ℚ) ≤ 52 := by
      rw [Int.log_natCast]
      have := Nat.log_lt_of_lt_pow (b := 2) (y := n) (x := 53)
      rcases Nat.eq_zero_or_pos n with rfl | hn
      · simp
      · have := Nat.log_lt_of_lt_pow hn.ne' hlt
        omega
    have he : exponent (n : ℚ) ≤ 0 := by
      rw [exponent]
      omega
    refine @magnitude_of_multiple _ (n * 2 ^ (-exponent (n : ℚ)).toNat) ?_
    have hcast : (((n : ℤ) * 2 ^ (-exponent (n : ℚ)).toNat : ℤ) : ℚ) = n *
      2 ^ (-exponent (n : ℚ)) := by
      push_cast
      rw [← zpow_natCast, Int.toNat_of_nonneg (by omega)]
    rw [hcast, mul_assoc, ← two_zpow_add]
    simp

/-- **Integers** up to `2 ^ 53` are doubles. -/
theorem round_intCast {n : ℤ} (h : n.natAbs ≤ 2 ^ 53) : round n = .finite n := by
  have habs : |(n : ℚ)| = (n.natAbs : ℕ) := by
    rw [Nat.cast_natAbs, Int.cast_abs]
  have hmagnitude : magnitude |(n : ℚ)| = |(n : ℚ)| := by
    rw [habs, magnitude_natCast h]
  have hfinite : |(n : ℚ)| < 2 ^ (1024 : ℤ) - 2 ^ (970 : ℤ) := by
    obtain ⟨p, hp, h970, -, -, h1024⟩ := top_powers
    have hle : |(n : ℚ)| ≤ p := by
      rw [habs, ← h970]
      calc ((n.natAbs : ℕ) : ℚ) ≤ 2 ^ 53 := by exact_mod_cast h
        _ = 2 ^ (53 : ℤ) := by norm_num
        _ ≤ 2 ^ (970 : ℤ) := zpow_le_zpow_right₀ (by norm_num) (by norm_num)
    rw [h970, h1024]
    linarith only [hle, hp]
  rw [round_finite_iff.mpr hfinite, nearest, hmagnitude]
  split
  · next hneg => rw [abs_of_neg hneg, neg_neg]
  · next hneg => rw [abs_of_nonneg (not_lt.mp hneg)]

end Binary64

end BeSdk
