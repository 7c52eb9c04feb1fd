/-
BeSdk.CanonDecimal — canonical decimals are exact, where they are.

`decimal` looks at a number through `normalize` under a context of 100 digits: a
number with more is rounded before its digits are counted, and one beyond the
context's exponents leaves with an `Overflow` or as a zero. A number the encoding
admits (`Acceptable`) has at most 38 digits, so rounding never changes it
(`rounded_value_of_acceptable`). What is left is what the code makes of the others:
`Kept` says of which of them it refuses and of which numbers it writes their value.
-/
import BeSdk.Canon
import BeSdk.Py.PlainDecimal
import BeSdk.Py.DecimalTheorems

namespace BeSdk

/-! ## Magnitude -/

/-- A number other than zero lies between the powers of its leading digit. -/
theorem Dec.bounds {d : Dec} (h : d.coeff ≠ 0) :
    (10 : ℚ) ^ d.adjusted ≤ |d.value| ∧ |d.value| < 10 ^ (d.adjusted + 1) := by
  have hpos : (0 : ℚ) < (10 : ℚ) ^ d.exp := by positivity
  have hlow : (10 : ℚ) ^ (Nat.log 10 d.coeff) ≤ d.coeff := by
    exact_mod_cast Nat.pow_log_le_self 10 h
  have hhigh : (d.coeff : ℚ) < 10 ^ (Nat.log 10 d.coeff + 1) := by
    exact_mod_cast Nat.lt_pow_succ_log_self (by norm_num) d.coeff
  have hadj : d.adjusted = (Nat.log 10 d.coeff : Int) + d.exp := by
    simp only [Dec.adjusted, Dec.digits]
    push_cast
    ring
  have hsucc : d.adjusted + 1 = ((Nat.log 10 d.coeff + 1 : Nat) : Int) + d.exp := by
    rw [hadj]
    push_cast
    ring
  rw [Dec.abs_value, hsucc, hadj, zpow_add₀ (by norm_num), zpow_add₀ (by norm_num),
    zpow_natCast, zpow_natCast]
  exact ⟨mul_le_mul_of_nonneg_right hlow hpos.le, mul_lt_mul_of_pos_right hhigh hpos⟩

/-- The leading digit's exponent is determined by the value. -/
theorem Dec.adjusted_le_of_abs_eq {d d' : Dec} (h : d.coeff ≠ 0) (h' : d'.coeff ≠ 0)
    (hv : |d.value| = |d'.value|) : d.adjusted ≤ d'.adjusted := by
  have hlt : (10 : ℚ) ^ d.adjusted < 10 ^ (d'.adjusted + 1) := by
    calc (10 : ℚ) ^ d.adjusted ≤ |d.value| := (Dec.bounds h).1
      _ = |d'.value| := hv
      _ < 10 ^ (d'.adjusted + 1) := (Dec.bounds h').2
  have hexp := (zpow_lt_zpow_iff_right₀ (by norm_num : (1 : ℚ) < 10)).mp hlt
  omega

theorem Dec.adjusted_eq_of_abs_eq {d d' : Dec} (h : d.coeff ≠ 0) (h' : d'.coeff ≠ 0)
    (hv : |d.value| = |d'.value|) : d.adjusted = d'.adjusted :=
  le_antisymm (Dec.adjusted_le_of_abs_eq h h' hv) (Dec.adjusted_le_of_abs_eq h' h hv.symm)

/-- Zeros move from the coefficient to the exponent. -/
theorem Dec.value_shift (neg : Bool) (m k : Nat) (e : Int) :
    (⟨neg, m * 10 ^ k, e⟩ : Dec).value = (⟨neg, m, e + k⟩ : Dec).value := by
  have hpow : (10 : ℚ) ^ (e + k) = 10 ^ k * 10 ^ e := by
    rw [add_comm, zpow_add₀ (by norm_num), zpow_natCast]
  simp only [Dec.value, Dec.signed, hpow]
  cases neg with
  | true =>
    simp only [if_true]
    push_cast
    ring
  | false =>
    simp only [Bool.false_eq_true, if_false]
    push_cast
    ring

/-- The coefficient and the exponent of a number are determined by its value where the
coefficient ends in no zero. -/
theorem Dec.stripped_unique {d d' : Dec} (h : d.coeff % 10 ≠ 0) (h' : d'.coeff % 10 ≠ 0)
    (hv : |d.value| = |d'.value|) : d.coeff = d'.coeff ∧ d.exp = d'.exp := by
  rw [Dec.abs_value, Dec.abs_value] at hv
  have hexp : d.exp = d'.exp := by
    rcases lt_trichotomy d.exp d'.exp with hlt | heq | hgt
    · exact absurd (mod_ten_of_scaled hlt hv) h
    · exact heq
    · exact absurd (mod_ten_of_scaled hgt hv.symm) h'
  have hcoeff := eq_mul_of_scaled hexp.le hv
  rw [hexp, sub_self] at hcoeff
  exact ⟨by simpa using hcoeff, hexp⟩

/-- Numbers of one value other than zero have one sign. -/
theorem Dec.neg_eq_of_value_eq {d d' : Dec} (h : d.coeff ≠ 0) (hv : d.value = d'.value) :
    d.neg = d'.neg := by
  have h' : d'.coeff ≠ 0 := by
    rwa [ne_eq, ← Dec.value_eq_zero_iff, ← hv, Dec.value_eq_zero_iff]
  rw [Bool.eq_iff_iff, Dec.neg_iff h, Dec.neg_iff h', hv]

namespace Canon

/-! ## Acceptable numbers -/

/-- Zero, or a number that without its trailing zeros has at most 38 significant digits
and at most 18 fraction digits. -/
def Acceptable (q : ℚ) : Prop :=
  q = 0 ∨ ∃ d : Dec, d.value = q ∧ d.coeff % 10 ≠ 0 ∧ d.digits ≤ 38 ∧ -18 ≤ d.exp

/-- The test of `decimal`, on a number without trailing zeros. -/
theorem acceptable_iff {d : Dec} (h : d.coeff % 10 ≠ 0) :
    Acceptable d.value ↔ d.digits ≤ 38 ∧ -18 ≤ d.exp := by
  have hne : d.value ≠ 0 := by
    rw [ne_eq, Dec.value_eq_zero_iff]
    intro hzero
    exact h (by rw [hzero])
  constructor
  · intro hacc
    obtain ⟨d', hv, h', hdigits, hexp⟩ := hacc.resolve_left hne
    obtain ⟨hcoeff, hexp'⟩ := Dec.stripped_unique h h' (congrArg abs hv.symm)
    rw [Dec.digits, hcoeff, hexp']
    exact ⟨hdigits, hexp⟩
  · intro hacc
    exact .inr ⟨d, rfl, h, hacc⟩

/-! ## Rounding -/

theorem roundHalfEven_mul (m k : Nat) : roundHalfEven (m * 10 ^ k) k = m := by
  have hpos : 0 < 10 ^ k := by positivity
  rw [roundHalfEven, Nat.mul_mod_left, Nat.mul_div_cancel _ hpos]
  simp

/-- Zeros behind the digits do not change how a number is rounded. -/
theorem roundHalfEven_shift (m j k : Nat) :
    roundHalfEven (m * 10 ^ k) (j + k) = roundHalfEven m j := by
  have hpos : 0 < 10 ^ k := by positivity
  have hdiv : m * 10 ^ k / 10 ^ (j + k) = m / 10 ^ j := by
    rw [pow_add, Nat.mul_div_mul_right _ _ hpos]
  have hmod : m * 10 ^ k % 10 ^ (j + k) = m % 10 ^ j * 10 ^ k := by
    rw [pow_add, Nat.mul_mod_mul_right]
  have hlow : 2 * (m % 10 ^ j * 10 ^ k) < 10 ^ (j + k) ↔ 2 * (m % 10 ^ j) < 10 ^ j := by
    rw [pow_add, ← mul_assoc, Nat.mul_lt_mul_right hpos]
  have hhigh : 10 ^ (j + k) < 2 * (m % 10 ^ j * 10 ^ k) ↔ 10 ^ j < 2 * (m % 10 ^ j) := by
    rw [pow_add, ← mul_assoc, Nat.mul_lt_mul_right hpos]
  unfold roundHalfEven
  simp only [hdiv, hmod, hlow, hhigh]

/-- Rounding does not depend on how a number is written. -/
theorem rounded_value_of_value_eq {d d' : Dec} (hc : d.coeff ≠ 0) (hv : d.value = d'.value) :
    (d.rounded context).value = (d'.rounded context).value := by
  wlog hexp : d'.exp ≤ d.exp generalizing d d'
  · have hc' : d'.coeff ≠ 0 := by
      rwa [ne_eq, ← Dec.value_eq_zero_iff, ← hv, Dec.value_eq_zero_iff]
    exact (this hc' hv.symm (by omega)).symm
  have hc' : d'.coeff ≠ 0 := by
    rwa [ne_eq, ← Dec.value_eq_zero_iff, ← hv, Dec.value_eq_zero_iff]
  have hneg := Dec.neg_eq_of_value_eq hc hv
  have hadj := Dec.adjusted_eq_of_abs_eq hc hc' (congrArg abs hv)
  have hcoeff : d'.coeff = d.coeff * 10 ^ (d.exp - d'.exp).toNat := by
    refine eq_mul_of_scaled hexp ?_
    rw [← Dec.abs_value, ← Dec.abs_value, hv]
  have hdigits : d'.exp + d'.digits = d.exp + d.digits := by
    simp only [Dec.adjusted] at hadj
    omega
  unfold Dec.rounded
  dsimp only
  rw [hdigits]
  generalize max context.etiny (d.exp + d.digits - context.prec) = e
  by_cases hlt : d.exp < e
  · -- both lose digits, the second one zeros too
    have hsplit : (e - d'.exp).toNat = (e - d.exp).toNat + (d.exp - d'.exp).toNat := by omega
    rw [if_pos hlt, if_pos (by omega), hcoeff, hsplit, roundHalfEven_shift, hneg]
  · rw [if_neg hlt]
    by_cases hlt' : d'.exp < e
    · -- the second one loses zeros alone
      have hsplit : (d.exp - d'.exp).toNat = (d.exp - e).toNat + (e - d'.exp).toNat := by omega
      rw [if_pos hlt', hcoeff, hsplit, pow_add, ← mul_assoc, roundHalfEven_mul, Dec.value_shift,
        ← hneg]
      have hback : e + ((d.exp - e).toNat : Int) = d.exp := by omega
      rw [hback]
    · rw [if_neg hlt', hv]

/-- Rounding leaves an acceptable number as it is. -/
theorem rounded_value_of_acceptable {d : Dec} (hc : d.coeff ≠ 0) (h : Acceptable d.value) :
    (d.rounded context).value = d.value := by
  have hne : d.value ≠ 0 := (Dec.value_eq_zero_iff d).not.mpr hc
  obtain ⟨d', hv, h', hdigits, hexp⟩ := h.resolve_left hne
  have hc' : d'.coeff ≠ 0 := by
    intro hzero
    exact h' (by rw [hzero])
  have hadj : d.adjusted = d'.adjusted := Dec.adjusted_eq_of_abs_eq hc hc' (congrArg abs hv.symm)
  unfold Dec.rounded
  dsimp only
  split
  next hlt =>
    -- the exponent rounded to is not above that of the number without its zeros
    have hle : max context.etiny (d.exp + d.digits - context.prec) ≤ d'.exp := by
      simp only [context, Context.etiny, Dec.adjusted] at hadj ⊢
      omega
    generalize hmax : max context.etiny (d.exp + d.digits - context.prec) = e at hlt hle
    have hscaled : (d.coeff : ℚ) * 10 ^ d.exp = d'.coeff * 10 ^ d'.exp := by
      rw [← Dec.abs_value, ← Dec.abs_value, hv]
    have hcoeff := eq_mul_of_scaled (hlt.le.trans hle) hscaled
    have hsplit : (d'.exp - d.exp).toNat = (d'.exp - e).toNat + (e - d.exp).toNat := by omega
    rw [hsplit, pow_add, ← mul_assoc] at hcoeff
    have hexp' : d.exp + ((e - d.exp).toNat : Int) = e := by omega
    have hshift := Dec.value_shift d.neg (d'.coeff * 10 ^ (d'.exp - e).toNat)
      (e - d.exp).toNat d.exp
    rw [hexp', ← hcoeff] at hshift
    rw [hcoeff, roundHalfEven_mul]
    exact hshift.symm
  next => rfl

/-! ## Trailing zeros -/

/-- What dropping zeros leaves. -/
structure Dropped (limit n : Nat) (e : Int) (n' : Nat) (e' : Int) : Prop where
  value : ∃ k : Nat, n = n' * 10 ^ k ∧ e' = e + k
  end_ : n' % 10 ≠ 0 ∨ e' = e + limit

/-- What dropping zeros does. -/
theorem dropZeros_spec (limit n : Nat) (e : Int) :
    Dropped limit n e (dropZeros limit n e).1 (dropZeros limit n e).2 := by
  induction limit generalizing n e with
  | zero => exact ⟨⟨0, by simp [dropZeros], by simp [dropZeros]⟩, .inr (by simp [dropZeros])⟩
  | succ limit ih =>
    rw [dropZeros]
    split
    · next hmod =>
      obtain ⟨⟨k, hn, he⟩, hend⟩ := ih (n / 10) (e + 1)
      refine ⟨⟨k + 1, ?_, ?_⟩, ?_⟩
      · rw [pow_succ, ← mul_assoc, ← hn]
        omega
      · rw [he]
        push_cast
        ring
      · refine hend.imp id fun h => ?_
        rw [h]
        push_cast
        ring
    · next hmod => exact ⟨⟨0, by simp, by simp⟩, .inl hmod⟩

/-- A number within the context's exponents comes out of `normalize` without trailing
zeros. -/
theorem normalize_spec {d : Dec} (hr : (d.rounded context).coeff ≠ 0)
    (hadj : d.adjusted ≤ context.emax) (hradj : (d.rounded context).adjusted ≤ context.emax) :
    ∃ r, d.normalize context = .ok r ∧ r.coeff % 10 ≠ 0 ∧ r.value = (d.rounded context).value := by
  obtain ⟨⟨k, hn, he⟩, hend⟩ := dropZeros_spec (context.emax - (d.rounded context).exp).toNat
    (d.rounded context).coeff (d.rounded context).exp
  generalize hdrop : dropZeros (context.emax - (d.rounded context).exp).toNat
    (d.rounded context).coeff (d.rounded context).exp = p at hn he hend
  have hneg : (d.rounded context).neg = d.neg := by
    unfold Dec.rounded
    dsimp only
    split <;> rfl
  have hvalue : (⟨d.neg, p.1, p.2⟩ : Dec).value = (d.rounded context).value := by
    rw [he, ← Dec.value_shift, ← hn, ← hneg]
  have hcoeff : p.1 ≠ 0 := by
    intro hzero
    exact hr (by rw [hn, hzero, zero_mul])
  refine ⟨⟨d.neg, p.1, p.2⟩, ?_, ?_, hvalue⟩
  · rw [Dec.normalize]
    dsimp only
    rw [if_neg hr, if_neg (by omega), hdrop]
  · refine hend.elim id fun hlimit => ?_
    -- at the largest exponent one digit is left
    have hsame := Dec.adjusted_eq_of_abs_eq (d := ⟨d.neg, p.1, p.2⟩) hcoeff hr (congrArg abs hvalue)
    have hexp : (d.rounded context).exp ≤ context.emax := by
      have hdigits : (1 : Int) ≤ (d.rounded context).digits := by simp [Dec.digits]
      simp only [Dec.adjusted] at hradj
      omega
    have hlog : Nat.log 10 p.1 = 0 := by
      simp only [Dec.adjusted, Dec.digits] at hsame hradj
      omega
    have hlt : p.1 < 10 := (Nat.log_eq_zero_iff.mp hlog).elim id (by norm_num)
    rw [Nat.mod_eq_of_lt hlt]
    exact hcoeff

/-- Nor does what `normalize` makes of it. -/
theorem normalize_of_value_eq {d d' : Dec} (hc : d.coeff ≠ 0) (hv : d.value = d'.value) :
    d.normalize context = d'.normalize context := by
  have hc' : d'.coeff ≠ 0 := by
    rwa [ne_eq, ← Dec.value_eq_zero_iff, ← hv, Dec.value_eq_zero_iff]
  have hneg := Dec.neg_eq_of_value_eq hc hv
  have hadj := Dec.adjusted_eq_of_abs_eq hc hc' (congrArg abs hv)
  have hrounded := rounded_value_of_value_eq hc hv
  have hzero : (d.rounded context).coeff = 0 ↔ (d'.rounded context).coeff = 0 := by
    rw [← Dec.value_eq_zero_iff, hrounded, Dec.value_eq_zero_iff]
  by_cases hr : (d.rounded context).coeff = 0
  · rw [Dec.normalize, Dec.normalize]
    dsimp only
    rw [if_pos hr, if_pos (hzero.mp hr), hneg]
  have hr' : (d'.rounded context).coeff ≠ 0 := fun h => hr (hzero.mpr h)
  have hradj := Dec.adjusted_eq_of_abs_eq hr hr' (congrArg abs hrounded)
  by_cases hover : context.emax < d.adjusted ∨ context.emax < (d.rounded context).adjusted
  · rw [Dec.normalize, Dec.normalize]
    dsimp only
    rw [if_neg hr, if_neg hr', if_pos hover, if_pos (by rwa [← hadj, ← hradj])]
  rw [not_or, not_lt, not_lt] at hover
  obtain ⟨r, hnorm, hmod, hvalue⟩ := normalize_spec hr hover.1 hover.2
  obtain ⟨r', hnorm', hmod', hvalue'⟩ := normalize_spec hr' (hadj ▸ hover.1) (hradj ▸ hover.2)
  have hsame : r.value = r'.value := by rw [hvalue, hvalue', hrounded]
  obtain ⟨hcoeff, hexp⟩ := Dec.stripped_unique hmod hmod' (congrArg abs hsame)
  have hrneg : r.neg = r'.neg := Dec.neg_eq_of_value_eq (fun h => hmod (by rw [h])) hsame
  obtain ⟨neg, coeff, exp⟩ := r
  obtain ⟨neg', coeff', exp'⟩ := r'
  simp only at hcoeff hexp hrneg
  rw [hnorm, hnorm', hcoeff, hexp, hrneg]

/-! ## What is written -/

/-- A text that ends in another character is not stripped. -/
theorem rstrip_eq_self {c : CodePoint} {s : Str} (h : s.getLast? ≠ some c) : rstrip c s = s := by
  rw [rstrip, ← List.reverse_reverse s, List.reverse_reverse s.reverse]
  congr 1
  cases hs : s.reverse with
  | nil => rfl
  | cons d rest =>
    have hd : d ≠ c := by
      rintro rfl
      apply h
      rw [← List.reverse_reverse s, List.getLast?_reverse, hs]
      rfl
    rw [List.dropWhile_cons_of_neg (by simpa using hd)]

/-- A plain form with a point ends in a digit other than zero, so nothing is stripped of
it. -/
theorem strip_plain (p : Plain) :
    (if chr '.' ∈ p.text then rstrip (chr '.') (rstrip (chr '0') p.text) else p.text) = p.text := by
  split
  next hpoint =>
    have hne : p.frac ≠ [] := by
      intro hnil
      rw [Plain.text, Plain.point, if_pos hnil, List.append_nil, List.mem_append] at hpoint
      rcases hpoint with hsign | hint
      · cases hneg : p.neg <;> simp [hneg, str] at hsign
        exact absurd hsign (by decide)
      · exact absurd (p.leading.digits _ hint) (by decide)
    have hlast : p.text.getLast? = p.frac.getLast? := by
      rw [Plain.text, Plain.point, if_neg hne, List.getLast?_append_of_ne_nil _ (by simp),
        List.getLast?_append_of_ne_nil _ (by simp), ← List.singleton_append,
        List.getLast?_append_of_ne_nil _ hne]
    have hzero : p.text.getLast? ≠ some (chr '0') := by
      rw [hlast]
      exact p.last
    have hdot : p.text.getLast? ≠ some (chr '.') := by
      rw [hlast]
      intro h
      exact absurd (p.digits _ (List.mem_of_getLast? h)) (by decide)
    rw [rstrip_eq_self hzero, rstrip_eq_self hdot]
  next => rfl

section
variable [Interp] {s : Str} {d : Dec}

/-- The number a text denotes in the syntax of `Decimal`, of any size. -/
def denoted (s : Str) : Option Dec := readDecimal (numericAsAscii s)

omit [Interp] in
theorem readSpecial_ne_finite (neg : Bool) (t : Str) (d : Dec) :
    readSpecial neg t ≠ some (.finite d) := by
  unfold readSpecial
  dsimp only
  split
  · simp
  · split
    · simp
    · split <;> simp

/-- A text that denotes nothing is refused. -/
theorem decimal_of_none (h : denoted s = none) : decimal s = .error (.refused (.decimal s)) := by
  rw [denoted] at h
  rw [decimal, decimalOf, decimalOfAscii, h]
  dsimp only
  cases hspecial : readSpecial (decide ((takeSign (numericAsAscii s)).1 = some (chr '-')))
    (takeSign (numericAsAscii s)).2 with
  | none => rfl
  | some v =>
    cases v with
    | infinity neg => rfl
    | nan signaling => rfl
    | finite d => exact absurd hspecial (readSpecial_ne_finite _ _ d)

/-- So is one that does not fit. -/
theorem decimal_of_unfit (h : denoted s = some d) (hfits : d.fits = false) :
    decimal s = .error (.refused (.decimal s)) := by
  rw [denoted] at h
  rw [decimal, decimalOf, decimalOfAscii, h]
  simp [hfits]

theorem decimal_of_fit (h : denoted s = some d) (hfits : d.fits = true) : decimal s =
    if d.coeff = 0 then .ok (str "0")
    else match d.normalize context with
      | .error e => .error (.decimal e)
      | .ok r =>
          if 38 < r.digits ∨ 18 < -r.exp then .error (.refused (.decimal s))
          else .ok (if chr '.' ∈ r.format then rstrip (chr '.') (rstrip (chr '0') r.format)
            else r.format) := by
  have hread : decimalOf s = .ok (.finite d) := by
    rw [denoted] at h
    rw [decimalOf, decimalOfAscii, h]
    exact if_pos hfits
  unfold decimal
  generalize decimalOf s = v at hread ⊢
  subst hread
  rfl

/-- **What is written for a number depends on its value.** -/
theorem decimal_of_value_eq {t a : Str} {d' : Dec} (hs : decimalOf s = .ok (.finite d))
    (ht : decimalOf t = .ok (.finite d')) (hv : d.value = d'.value) (h : decimal s = .ok a) :
    decimal t = .ok a := by
  unfold decimal at h ⊢
  rw [hs] at h
  rw [ht]
  dsimp only at h ⊢
  have hzero : d.coeff = 0 ↔ d'.coeff = 0 := by
    rw [← Dec.value_eq_zero_iff, hv, Dec.value_eq_zero_iff]
  by_cases hc : d.coeff = 0
  · rw [if_pos hc] at h
    rw [if_pos (hzero.mp hc), h]
  · rw [if_neg hc, normalize_of_value_eq hc hv] at h
    rw [if_neg fun hc' => hc (hzero.mpr hc')]
    cases hnorm : d'.normalize context with
    | error e =>
      rw [hnorm] at h
      cases h
    | ok r =>
      rw [hnorm] at h
      dsimp only at h ⊢
      split at h
      · cases h
      · next hfew => rw [if_neg hfew, h]

/-- A number within the context's exponents: its rounded value is written where it is
acceptable, and refused elsewhere. -/
theorem decimal_of_rounded (h : denoted s = some d) (hfits : d.fits = true) (hc : d.coeff ≠ 0)
    (hr : (d.rounded context).coeff ≠ 0) (hadj : d.adjusted ≤ context.emax)
    (hradj : (d.rounded context).adjusted ≤ context.emax) :
    (Acceptable (d.rounded context).value ∧ ∃ p : Plain, decimal s = .ok p.text ∧
      p.value = (d.rounded context).value) ∨ (¬ Acceptable (d.rounded context).value ∧
      decimal s = .error (.refused (.decimal s))) := by
  obtain ⟨r, hnorm, hmod, hvalue⟩ := normalize_spec hr hadj hradj
  rw [decimal_of_fit h hfits, if_neg hc, hnorm]
  dsimp only
  rw [← hvalue, acceptable_iff hmod]
  by_cases hacc : r.digits ≤ 38 ∧ -18 ≤ r.exp
  · obtain ⟨p, htext, hp⟩ := Dec.exists_plain hmod
    refine .inl ⟨hacc, p, ?_, hp⟩
    rw [if_neg (by omega), ← htext, strip_plain]
  · exact .inr ⟨hacc, if_pos (by omega)⟩

/-- A number too small for the context comes out as a zero. -/
theorem decimal_of_vanishing (h : denoted s = some d) (hfits : d.fits = true) (hc : d.coeff ≠ 0)
    (hr : (d.rounded context).coeff = 0) : ∃ t, decimal s = .ok t := by
  have hnorm : d.normalize context = .ok ⟨d.neg, 0, 0⟩ := by
    rw [Dec.normalize]
    exact if_pos hr
  have hsmall : ¬ (38 < Dec.digits ⟨d.neg, 0, 0⟩ ∨ 18 < -(⟨d.neg, 0, 0⟩ : Dec).exp) := by
    simp [Dec.digits]
  rw [decimal_of_fit h hfits, if_neg hc, hnorm]
  dsimp only
  rw [if_neg hsmall]
  exact ⟨_, rfl⟩

/-- A number beyond the context's largest exponent. -/
theorem decimal_of_overflow (h : denoted s = some d) (hfits : d.fits = true) (hc : d.coeff ≠ 0)
    (hr : (d.rounded context).coeff ≠ 0)
    (hadj : ¬ (d.adjusted ≤ context.emax ∧ (d.rounded context).adjusted ≤ context.emax)) :
    decimal s = .error (.decimal .overflow) := by
  have hnorm : d.normalize context = .error .overflow := by
    rw [Dec.normalize]
    dsimp only
    rw [if_neg hr, if_pos (by omega)]
  rw [decimal_of_fit h hfits, if_neg hc, hnorm]

/-! ## Exactness -/

/-- What the encoding owes a text: the plain form of the number it denotes, where that is
acceptable, and a refusal elsewhere. -/
def Exact (s : Str) : Prop :=
  match denoted s with
  | none => decimal s = .error (.refused (.decimal s))
  | some d =>
      (Acceptable d.value → ∃ p : Plain, decimal s = .ok p.text ∧ p.value = d.value ∧
        ∀ q : Plain, q.value = d.value → q.text = p.text) ∧
      (¬ Acceptable d.value → decimal s = .error (.refused (.decimal s)))

/-- The numbers the code keeps exact. Beyond the constructor's limits it refuses, so these
must not be acceptable. Within them, a number other than zero must be within the
context's exponents, rounded or not, and where it is not acceptable, its rounded
value must not be, either. -/
def Kept (d : Dec) : Prop :=
  if d.fits = true then
    d.coeff = 0 ∨ (d.adjusted ≤ context.emax ∧ (d.rounded context).adjusted ≤ context.emax ∧
      (Acceptable d.value ∨ ¬ Acceptable (d.rounded context).value))
  else ¬ Acceptable d.value

/-- Zero in plain form. -/
def plainZero : Plain :=
  ⟨false, [chr '0'], [], leading_natText 0, by simp [AllDigits], by simp, by simp⟩

/-- A text is exact where its decimal is kept. -/
theorem exact_iff_kept (h : denoted s = some d) : Exact s ↔ Kept d := by
  simp only [Exact, h]
  unfold Kept
  cases hfits : d.fits with
  | false =>
    have hrefused := decimal_of_unfit h hfits
    simp [hrefused]
  | true =>
  rw [if_pos rfl]
  by_cases hc : d.coeff = 0
  · have hzero : decimal s = .ok (str "0") := by rw [decimal_of_fit h hfits, if_pos hc]
    have hvalue : d.value = 0 := (Dec.value_eq_zero_iff d).mpr hc
    have hplain : plainZero.value = 0 := (Dec.value_eq_zero_iff plainZero.dec).mpr rfl
    refine iff_of_true ⟨fun _ => ⟨plainZero, hzero, by rw [hplain, hvalue], ?_⟩, ?_⟩ (.inl hc)
    · intro q hq
      exact Plain.eq_of_value_eq (by rw [hq, hvalue, hplain])
    · intro hacc
      exact absurd (.inl hvalue) hacc
  simp only [hc, false_or]
  by_cases hr : (d.rounded context).coeff = 0
  · -- the number vanishes: it is written as a zero, and is none
    obtain ⟨t, ht⟩ := decimal_of_vanishing h hfits hc hr
    have hnone : ¬ Acceptable d.value := by
      intro hacc
      have hsame := rounded_value_of_acceptable hc hacc
      rw [(Dec.value_eq_zero_iff _).mpr hr] at hsame
      exact hc ((Dec.value_eq_zero_iff d).mp hsame.symm)
    have hrounded : Acceptable (d.rounded context).value := .inl ((Dec.value_eq_zero_iff _).mpr hr)
    refine iff_of_false ?_ ?_
    · intro hexact
      rw [ht] at hexact
      cases hexact.2 hnone
    · intro hkept
      exact hkept.2.2.elim hnone (fun hn => hn hrounded)
  by_cases hadj : d.adjusted ≤ context.emax ∧ (d.rounded context).adjusted ≤ context.emax
  · have hsame : Acceptable d.value → (d.rounded context).value = d.value :=
      rounded_value_of_acceptable hc
    rcases decimal_of_rounded h hfits hc hr hadj.1 hadj.2 with ⟨hacc, p, hp, hvalue⟩ | ⟨hacc,
      hrefused⟩
    · constructor
      · intro hexact
        refine ⟨hadj.1, hadj.2, .inl ?_⟩
        by_contra hnone
        rw [hp] at hexact
        cases hexact.2 hnone
      · intro hkept
        have hd : Acceptable d.value := hkept.2.2.elim id fun hn => absurd hacc hn
        refine ⟨fun _ => ⟨p, hp, by rw [hvalue, hsame hd], ?_⟩, fun hnone => absurd hd hnone⟩
        intro q hq
        exact Plain.eq_of_value_eq (by rw [hq, hvalue, hsame hd])
    · refine iff_of_true ⟨fun hd => ?_, fun _ => hrefused⟩ ⟨hadj.1, hadj.2, .inr hacc⟩
      rw [hsame hd] at hacc
      exact absurd hd hacc
  · have hover := decimal_of_overflow h hfits hc hr hadj
    refine iff_of_false ?_ fun hkept => hadj ⟨hkept.1, hkept.2.1⟩
    intro hexact
    rw [hover] at hexact
    by_cases hacc : Acceptable d.value
    · obtain ⟨p, hp, -⟩ := hexact.1 hacc
      cases hp
    · cases hexact.2 hacc

/-! ## Equal results -/

/-- The numbers of a text that are kept exact; a text that denotes none is. -/
def Keeps (s : Str) : Prop := ∀ d, denoted s = some d → Kept d

/-- A text is exact exactly where it is kept. -/
theorem exact_iff (s : Str) : Exact s ↔ Keeps s := by
  unfold Keeps
  cases h : denoted s with
  | none =>
    refine iff_of_true ?_ (by simp)
    rw [Exact, h]
    exact decimal_of_none h
  | some d =>
    rw [exact_iff_kept h]
    constructor
    · intro hkept d' hd'
      exact Option.some.inj hd' ▸ hkept
    · intro hall
      exact hall d rfl

/-- A plain text denotes its decimal. -/
theorem denoted_text (p : Plain) : denoted p.text = some p.dec := by
  have hchars : ∀ c ∈ p.text, isDecimalChar c = true := by
    have hdigit : ∀ c, isDigit c = true → isDecimalChar c = true := by
      intro c hc
      simp [isDecimalChar, hc]
    intro c hc
    rw [Plain.text, List.mem_append, List.mem_append] at hc
    rcases hc with hsign | hint | hpoint
    · cases hneg : p.neg with
      | true =>
        rw [hneg, if_pos rfl] at hsign
        obtain rfl : c = chr '-' := List.mem_singleton.mp hsign
        rfl
      | false => simp [hneg] at hsign
    · exact hdigit c (p.leading.digits c hint)
    · rw [Plain.point] at hpoint
      split at hpoint
      · simp at hpoint
      · rcases List.mem_cons.mp hpoint with rfl | hfrac
        · rfl
        · exact hdigit c (p.digits c hfrac)
  rw [denoted, numericAsAscii_eq hchars, p.readDecimal_text]

omit [Interp] in
/-- The plain form of an acceptable number within the context's exponents is kept. -/
theorem kept_plain {p : Plain} (hacc : Acceptable p.value)
    (hadj : p.dec.coeff ≠ 0 → p.dec.adjusted ≤ context.emax) :
    Kept p.dec := by
  have hexp : -18 ≤ p.dec.exp := by
    rcases p.mod_ten with hmod | hnil
    · exact ((acceptable_iff hmod).mp hacc).2
    · simp [Plain.dec, hnil]
  have hfits : p.dec.fits = true := by
    have hle : p.dec.exp ≤ 0 := by simp [Plain.dec]
    have hadj' : p.dec.adjusted ≤ context.emax := by
      by_cases hc : p.dec.coeff = 0
      · have hdigits : p.dec.digits = 1 := by rw [Dec.digits, hc]; rfl
        simp only [Dec.adjusted, hdigits, context]
        omega
      · exact hadj hc
    rw [Dec.fits, decide_eq_true_iff]
    simp only [Dec.adjusted, context, maxPrec, maxEmax, minEtiny] at hadj' ⊢
    omega
  rw [Kept, if_pos hfits]
  by_cases hc : p.dec.coeff = 0
  · exact .inl hc
  have hsame := rounded_value_of_acceptable hc hacc
  have hr : (p.dec.rounded context).coeff ≠ 0 := by
    rw [ne_eq, ← Dec.value_eq_zero_iff, hsame, Dec.value_eq_zero_iff]
    exact hc
  refine .inr ⟨hadj hc, ?_, .inl hacc⟩
  rw [Dec.adjusted_eq_of_abs_eq hr hc (congrArg abs hsame)]
  exact hadj hc

/-- What a kept text that is accepted denotes, and the plain form of it. -/
structure Accepted (s a : Str) (d : Dec) (p : Plain) : Prop where
  denoted : denoted s = some d
  text : a = p.text
  value : p.value = d.value
  acceptable : Acceptable p.value
  kept : Kept p.dec

/-- What an accepted text is. -/
theorem accepted_spec {a : Str} (hs : Keeps s) (ha : decimal s = .ok a) :
    ∃ d p, Accepted s a d p := by
  have hexact := (exact_iff s).mpr hs
  cases h : denoted s with
  | none =>
    rw [decimal_of_none h] at ha
    cases ha
  | some d =>
    simp only [Exact, h] at hexact
    by_cases hacc : Acceptable d.value
    case neg =>
      rw [hexact.2 hacc] at ha
      cases ha
    obtain ⟨p, hp, hvalue, -⟩ := hexact.1 hacc
    rw [hp] at ha
    refine ⟨d, p, h, (Except.ok.inj ha).symm, hvalue, hvalue ▸ hacc,
      kept_plain (hvalue ▸ hacc) fun hpc => ?_⟩
    have hkept := hs d h
    have hc : d.coeff ≠ 0 := by
      rw [ne_eq, ← Dec.value_eq_zero_iff, ← hvalue, Plain.value, Dec.value_eq_zero_iff]
      exact hpc
    have hsame := Dec.adjusted_eq_of_abs_eq hpc hc (congrArg abs hvalue)
    unfold Kept at hkept
    split at hkept
    · rw [hsame]
      exact (hkept.resolve_left hc).1
    · exact absurd hacc hkept

/-- A result is its own canonical form. -/
theorem Accepted.idempotent {a : Str} {p : Plain} (h : Accepted s a d p) : decimal a = .ok a := by
  have hexact := (exact_iff_kept (denoted_text p)).mpr h.kept
  simp only [Exact, denoted_text] at hexact
  obtain ⟨q, hq, hvalue, -⟩ := hexact.1 h.acceptable
  rw [h.text, hq, Plain.eq_of_value_eq (hvalue : q.value = p.value)]

/-- Results are equal where the values are. -/
theorem Accepted.eq_iff {t a b : Str} {d' : Dec} {p q : Plain} (h : Accepted s a d p)
    (h' : Accepted t b d' q) : a = b ↔ d.value = d'.value := by
  rw [h.text, h'.text, ← h.value, ← h'.value]
  constructor
  · intro htext
    have hdec := congrArg readDecimal htext
    rw [p.readDecimal_text, q.readDecimal_text] at hdec
    rw [Plain.value, Plain.value, Option.some.inj hdec]
  · exact Plain.eq_of_value_eq

/-- **Canonical decimals are exact**, exactly on the texts whose number is kept: there
`decimal` writes the one plain form of the number a text denotes where it is
acceptable, and refuses every other text; results are equal exactly where the values
are, and a result is its own canonical form. -/
theorem decimal_exact : (∀ s, Exact s ↔ Keeps s) ∧
    ∀ s t a b, Keeps s → Keeps t → decimal s = .ok a → decimal t = .ok b →
      (a = b ↔ (denoted s).map Dec.value = (denoted t).map Dec.value) ∧ decimal a = .ok a := by
  refine ⟨exact_iff, ?_⟩
  intro s t a b hs ht ha hb
  obtain ⟨d, p, hp⟩ := accepted_spec hs ha
  obtain ⟨d', q, hq⟩ := accepted_spec ht hb
  refine ⟨?_, hp.idempotent⟩
  rw [hp.eq_iff hq, hp.denoted, hq.denoted, Option.map_some, Option.map_some, Option.some_inj]

end

/-- One half is kept, however it is written. -/
theorem kept_half {d : Dec} (hfits : d.fits = true) (hadj : d.adjusted ≤ context.emax)
    (hradj : (d.rounded context).adjusted ≤ context.emax)
    (hvalue : d.eq ⟨false, 5, -1⟩ = true) : Kept d := by
  rw [Kept, if_pos hfits]
  have hhalf : (⟨false, 5, -1⟩ : Dec).value = d.value := ((Dec.eq_iff _ _).mp hvalue).symm
  exact .inr ⟨hadj, hradj, .inl (.inr ⟨⟨false, 5, -1⟩, hhalf, by decide, by decide, by decide⟩)⟩

theorem decimal_exact_half : @decimal Interp.ascii (str "0.50") = .ok (str "0.5") ∧
    @decimal Interp.ascii (str "5e-1") = .ok (str "0.5") ∧
    (@denoted Interp.ascii (str "0.50")).map Dec.value =
    (@denoted Interp.ascii (str "5e-1")).map Dec.value := by
  have ha : @decimal Interp.ascii (str "0.50") = .ok (str "0.5") := by decide +kernel
  have hb : @decimal Interp.ascii (str "5e-1") = .ok (str "0.5") := by decide +kernel
  have hs : @Keeps Interp.ascii (str "0.50") := by
    intro d hd
    have hden : @denoted Interp.ascii (str "0.50") = some ⟨false, 50, -2⟩ := by decide +kernel
    obtain rfl := Option.some.inj (hden.symm.trans hd)
    exact kept_half (by decide) (by decide) (by decide) (by decide)
  have ht : @Keeps Interp.ascii (str "5e-1") := by
    intro d hd
    have hden : @denoted Interp.ascii (str "5e-1") = some ⟨false, 5, -1⟩ := by decide +kernel
    obtain rfl := Option.some.inj (hden.symm.trans hd)
    exact kept_half (by decide) (by decide) (by decide) (by decide)
  exact ⟨ha, hb, ((@decimal_exact Interp.ascii).2 _ _ _ _ hs ht ha hb).1.mp rfl⟩

/-- **An exception that is no refusal**: a number of one digit, beyond the context's
largest exponent. -/
theorem decimal_overflows : @decimal Interp.ascii (str "1e1000000") = .error (.decimal .overflow) ∧
    ¬ @Exact Interp.ascii (str "1e1000000") := by
  have hover : @decimal Interp.ascii (str "1e1000000") = .error (.decimal .overflow) := by
    decide +kernel
  refine ⟨hover, ?_⟩
  have hden : @denoted Interp.ascii (str "1e1000000") = some ⟨false, 1, 1000000⟩ := by
    decide +kernel
  intro h
  simp only [Exact, hden] at h
  obtain ⟨p, hp, -⟩ := h.1 (.inr ⟨⟨false, 1, 1000000⟩, rfl, by decide, by decide, by decide⟩)
  rw [hover] at hp
  cases hp

end Canon

end BeSdk
