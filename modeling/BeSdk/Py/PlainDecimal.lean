/-
BeSdk.Py.PlainDecimal — decimals in plain form: no exponent, no plus sign, no
superfluous zero.

A plain form is its parts, with what makes them canonical as fields (`Plain`). Two
facts carry the rest: a value has one plain form (`Plain.eq_of_value_eq`), because
digits without a leading zero are those of their number (`natText_digitsVal`) and
digits of one length are determined by it (`eq_of_digitsVal`); and `format(d, "f")`
of a decimal whose coefficient ends in no zero is the plain form of its value
(`Dec.exists_plain`).
-/
import BeSdk.Py.Decimal
import BeSdk.Py.JsonTheorems

namespace BeSdk

/-! ## Digits and their number -/

/-- All characters are ASCII digits. -/
def AllDigits (s : Str) : Prop := ∀ c ∈ s, isDigit c = true

theorem exists_digitChr {c : CodePoint} (h : isDigit c = true) : ∃ d, d < 10 ∧ c = digitChr d := by
  have hrange := digit_range h
  refine ⟨c.val - 0x30, by omega, Fin.ext ?_⟩
  simp only [digitChr]
  omega

theorem digitVal_digitChr_of_lt {d : Nat} (h : d < 10) : (digitVal (digitChr d)).getD 0 = d := by
  simp [digitVal_digitChr, Nat.mod_eq_of_lt h]

theorem digitsVal_concat (s : Str) (c : CodePoint) :
    digitsVal (s ++ [c]) = 10 * digitsVal s + (digitVal c).getD 0 := by
  simp [digitsVal]

/-- Digits in front count by the length of the rest. -/
theorem digitsVal_append_eq (s : Str) {t : Str} :
    digitsVal (s ++ t) = digitsVal s * 10 ^ t.length + digitsVal t := by
  induction t using List.reverseRecOn with
  | nil => simp [digitsVal]
  | append_singleton t c ih =>
    rw [← List.append_assoc, digitsVal_concat, digitsVal_concat, ih, List.length_append,
      List.length_singleton, pow_succ]
    ring

/-- `k` digits are a number below `10 ^ k`. -/
theorem digitsVal_lt {s : Str} (hs : AllDigits s) : digitsVal s < 10 ^ s.length := by
  induction s using List.reverseRecOn with
  | nil => simp [digitsVal]
  | append_singleton s c ih =>
    have hlt := ih fun x hx => hs x (List.mem_append_left _ hx)
    obtain ⟨d, hd, rfl⟩ := exists_digitChr (hs c (by simp))
    rw [digitsVal_concat, digitVal_digitChr_of_lt hd, List.length_append,
      List.length_singleton, pow_succ]
    omega

/-- Digits of one length are determined by their number. -/
theorem eq_of_digitsVal {s t : Str} (hs : AllDigits s) (ht : AllDigits t)
    (hlen : s.length = t.length) (h : digitsVal s = digitsVal t) : s = t := by
  induction s using List.reverseRecOn generalizing t with
  | nil => exact (List.length_eq_zero_iff.mp hlen.symm).symm
  | append_singleton s c ih =>
    rcases List.eq_nil_or_concat' t with rfl | ⟨t, d, rfl⟩
    · simp at hlen
    obtain ⟨x, hx, rfl⟩ := exists_digitChr (hs c (by simp))
    obtain ⟨y, hy, rfl⟩ := exists_digitChr (ht d (by simp))
    rw [digitsVal_concat, digitsVal_concat, digitVal_digitChr_of_lt hx,
      digitVal_digitChr_of_lt hy] at h
    have hxy : x = y := by omega
    have hst : s = t := ih (fun z hz => hs z (List.mem_append_left _ hz))
      (fun z hz => ht z (List.mem_append_left _ hz)) (by simpa using hlen) (by omega)
    rw [hst, hxy]

theorem allDigits_natText (n : Nat) : AllDigits (natText n) := fun _ h => isDigit_of_mem_natText h

theorem length_natText {n : Nat} (h : n ≠ 0) : (natText n).length = Nat.log 10 n + 1 := by
  rw [natText, if_neg h, List.length_map, List.length_reverse,
    Nat.length_digits 10 n (by norm_num) h]

/-- Digits without a leading zero: at least one, and the first is zero in zero only. -/
structure Leading (s : Str) : Prop where
  digits : AllDigits s
  nonempty : s ≠ []
  first : s.head? = some (chr '0') → s = [chr '0']

/-- Digits that begin with another than zero are a number of that length. -/
theorem le_digitsVal_cons {c : CodePoint} {s : Str} (hc : isDigit c = true) (hne : c ≠ chr '0') :
    10 ^ s.length ≤ digitsVal (c :: s) := by
  obtain ⟨d, hd, rfl⟩ := exists_digitChr hc
  have hpos : d ≠ 0 := by
    rintro rfl
    exact hne rfl
  rw [← List.singleton_append, digitsVal_append_eq]
  have hone : digitsVal [digitChr d] = d := by
    rw [← List.nil_append [digitChr d], digitsVal_concat, digitVal_digitChr_of_lt hd]
    simp [digitsVal]
  rw [hone]
  exact le_add_right (Nat.le_mul_of_pos_left _ (Nat.pos_of_ne_zero hpos))

/-- Digits without a leading zero are those of their number. -/
theorem natText_digitsVal {s : Str} (h : Leading s) : natText (digitsVal s) = s := by
  obtain ⟨c, rest, rfl⟩ := List.exists_cons_of_ne_nil h.nonempty
  by_cases hc : c = chr '0'
  · rw [h.first (by rw [hc]; rfl)]
    rfl
  have hlow := le_digitsVal_cons (s := rest) (h.digits c (by simp)) hc
  have hhigh := digitsVal_lt h.digits
  have hne : digitsVal (c :: rest) ≠ 0 := (lt_of_lt_of_le (by positivity) hlow).ne'
  refine eq_of_digitsVal (allDigits_natText _) h.digits ?_ (digitsVal_natText _)
  rw [length_natText hne, List.length_cons, Nat.log_eq_of_pow_le_of_lt_pow hlow hhigh]

/-- A number's text has no leading zero. -/
theorem leading_natText (n : Nat) : Leading (natText n) := by
  refine ⟨allDigits_natText n, natText_ne_nil n, ?_⟩
  intro hhead
  obtain ⟨c, rest, hcons⟩ := List.exists_cons_of_ne_nil (natText_ne_nil n)
  rw [hcons] at hhead ⊢
  obtain rfl := Option.some.inj hhead
  rw [natText_cons hcons rfl]

/-! ## Coefficient and exponent -/

/-- Two coefficients of one number at different exponents. -/
theorem eq_mul_of_scaled {n m : Nat} {e f : Int} (hef : e ≤ f) (h : (n : ℚ) * 10 ^ e = m * 10 ^ f) :
    n = m * 10 ^ (f - e).toNat := by
  have hne : (10 : ℚ) ^ e ≠ 0 := by positivity
  have hpow : (10 : ℚ) ^ f = 10 ^ (f - e).toNat * 10 ^ e := by
    rw [← zpow_natCast, Int.toNat_of_nonneg (by omega), ← zpow_add₀ (by norm_num)]
    congr 1
    omega
  rw [hpow, ← mul_assoc] at h
  exact_mod_cast mul_right_cancel₀ hne h

/-- A finer exponent shows in the coefficient: it ends in a zero. -/
theorem mod_ten_of_scaled {n m : Nat} {e f : Int} (hef : e < f)
    (h : (n : ℚ) * 10 ^ e = m * 10 ^ f) : n % 10 = 0 := by
  obtain ⟨k, hk⟩ : ∃ k, (f - e).toNat = k + 1 := ⟨(f - e).toNat - 1, by omega⟩
  rw [eq_mul_of_scaled (le_of_lt hef) h, hk, pow_succ, ← mul_assoc]
  exact Nat.mul_mod_left _ _

theorem Dec.abs_value (d : Dec) : |d.value| = d.coeff * (10 : ℚ) ^ d.exp := by
  have hpos : (0 : ℚ) < (10 : ℚ) ^ d.exp := by positivity
  rw [Dec.value, abs_mul, abs_of_pos hpos, Dec.signed]
  cases d.neg <;> simp

theorem Dec.value_eq_zero_iff (d : Dec) : d.value = 0 ↔ d.coeff = 0 := by
  have hne : (10 : ℚ) ^ d.exp ≠ 0 := by positivity
  rw [← abs_eq_zero, Dec.abs_value, mul_eq_zero, or_iff_left hne, Nat.cast_eq_zero]

/-- The sign of a number other than zero. -/
theorem Dec.neg_iff {d : Dec} (h : d.coeff ≠ 0) : d.neg = true ↔ d.value < 0 := by
  have hpos : (0 : ℚ) < (10 : ℚ) ^ d.exp := by positivity
  have hcoeff : (0 : ℚ) < d.coeff := by exact_mod_cast Nat.pos_of_ne_zero h
  have hprod := mul_pos hcoeff hpos
  rw [Dec.value, Dec.signed]
  cases d.neg with
  | true => simpa using hprod
  | false => simpa using hprod.le

/-! ## Plain forms -/

/-- The parts of a decimal in plain form. -/
structure Plain where
  neg : Bool
  int : Str
  frac : Str
  leading : Leading int
  digits : AllDigits frac
  /-- No zero at the end of the fraction. -/
  last : frac.getLast? ≠ some (chr '0')
  /-- Zero has no sign. -/
  sign : neg = true → ¬ (int = [chr '0'] ∧ frac = [])

/-- The fraction with its point, where there is one. -/
def Plain.point (p : Plain) : Str := if p.frac = [] then [] else chr '.' :: p.frac

def Plain.text (p : Plain) : Str := (if p.neg then str "-" else []) ++ (p.int ++ p.point)

/-- The decimal a plain form is. -/
def Plain.dec (p : Plain) : Dec := ⟨p.neg, digitsVal (p.int ++ p.frac), -(p.frac.length : Int)⟩

def Plain.value (p : Plain) : ℚ := p.dec.value

theorem takeSign_of_digit {s : Str} {c : CodePoint} (hc : isDigit c = true) :
    takeSign (c :: s) = (none, c :: s) := by
  rw [takeSign, if_neg]
  rintro (rfl | rfl) <;> exact absurd hc (by decide)

/-- The sign of a plain decimal is read first. -/
theorem takeSign_text (p : Plain) :
    takeSign p.text = (if p.neg then some (chr '-') else none, p.int ++ p.point) := by
  obtain ⟨c, rest, hint⟩ := List.exists_cons_of_ne_nil p.leading.nonempty
  unfold Plain.text
  cases p.neg with
  | true => rfl
  | false =>
    rw [hint]
    exact takeSign_of_digit (p.leading.digits c (by rw [hint]; simp))

/-- Digits end where something else stands. -/
theorem span_digits {ds : Str} (tail : Str) (hds : AllDigits ds)
    (ht : tail.takeWhile isDigit = []) :
    (ds ++ tail).takeWhile isDigit = ds ∧ (ds ++ tail).dropWhile isDigit = tail := by
  have hdrop : tail.dropWhile isDigit = tail := by
    have h := List.takeWhile_append_dropWhile (p := isDigit) (l := tail)
    rwa [ht, List.nil_append] at h
  rw [List.takeWhile_append_of_pos hds, List.dropWhile_append_of_pos hds, ht, hdrop,
    List.append_nil]
  exact ⟨rfl, rfl⟩

theorem takeWhile_point (p : Plain) : p.point.takeWhile isDigit = [] := by
  unfold Plain.point
  split
  · rfl
  · rfl

/-- The point of a plain decimal is read with its fraction. -/
theorem scanPoint_point (p : Plain) : ∃ point, scanPoint p.point = (point, p.frac, []) := by
  have hfrac := span_digits [] p.digits rfl
  rw [List.append_nil] at hfrac
  unfold Plain.point
  split
  · next hnil => exact ⟨false, by rw [hnil]; rfl⟩
  · exact ⟨true, by rw [scanPoint, if_pos rfl, hfrac.1, hfrac.2]⟩

/-- A plain form is read as its decimal. -/
theorem Plain.readDecimal_text (p : Plain) : readDecimal p.text = some p.dec := by
  obtain ⟨htake, hdrop⟩ := span_digits p.point p.leading.digits (takeWhile_point p)
  obtain ⟨point, hpoint⟩ := scanPoint_point p
  have hscan : scanDecimal p.text =
      some ⟨if p.neg then some (chr '-') else none, p.int, point, p.frac, none⟩ := by
    rw [scanDecimal, takeSign_text]
    dsimp only
    rw [htake, hdrop, hpoint]
  have hempty : p.int.isEmpty = false := by
    rw [Bool.eq_false_iff, ne_eq, List.isEmpty_iff]
    exact p.leading.nonempty
  rw [readDecimal, hscan]
  simp only [DecimalText.wellFormed, hempty, Bool.not_false, Bool.true_or, Option.all_none,
    Bool.and_self, if_true, DecimalText.dec, Plain.dec, zero_sub]
  cases p.neg <;> rfl

/-- The digits of a plain form: they end in no zero, unless there is no fraction. -/
theorem Plain.mod_ten (p : Plain) : p.dec.coeff % 10 ≠ 0 ∨ p.frac = [] := by
  rcases List.eq_nil_or_concat' p.frac with hnil | ⟨l, c, hc⟩
  · exact .inr hnil
  refine .inl ?_
  obtain ⟨d, hd, rfl⟩ := exists_digitChr (p.digits c (by rw [hc]; simp))
  have hne : d ≠ 0 := by
    rintro rfl
    exact p.last (by rw [hc, List.getLast?_concat]; rfl)
  have hcoeff : p.dec.coeff = 10 * digitsVal (p.int ++ l) + d := by
    rw [Plain.dec, hc, ← List.append_assoc, digitsVal_concat, digitVal_digitChr_of_lt hd]
  omega

/-- The number of fraction digits is determined by the value. -/
theorem Plain.length_le_of_value_eq {p q : Plain} (h : p.value = q.value) :
    p.frac.length ≤ q.frac.length := by
  by_contra hlt
  rw [not_le] at hlt
  have habs : (p.dec.coeff : ℚ) * 10 ^ p.dec.exp = q.dec.coeff * 10 ^ q.dec.exp := by
    rw [← Dec.abs_value, ← Dec.abs_value]
    exact congrArg abs h
  have hexp : p.dec.exp < q.dec.exp := by
    simp only [Plain.dec]
    omega
  rcases p.mod_ten with hmod | hnil
  · exact hmod (mod_ten_of_scaled hexp habs)
  · simp [hnil] at hlt

/-- Zero in plain form has no sign. -/
theorem Plain.neg_of_zero {p : Plain} (h : p.dec.coeff = 0) : p.neg = false := by
  have hfrac : p.frac = [] := p.mod_ten.resolve_left fun hmod => hmod (by rw [h])
  have hint : p.int = [chr '0'] := by
    simp only [Plain.dec, hfrac, List.append_nil] at h
    rw [← natText_digitsVal p.leading, h]
    rfl
  rw [Bool.eq_false_iff]
  intro hneg
  exact p.sign hneg ⟨hint, hfrac⟩

/-- **A value has one plain form.** -/
theorem Plain.eq_of_value_eq {p q : Plain} (h : p.value = q.value) : p.text = q.text := by
  have hlen : p.frac.length = q.frac.length :=
    le_antisymm (Plain.length_le_of_value_eq h) (Plain.length_le_of_value_eq h.symm)
  have habs : (p.dec.coeff : ℚ) * 10 ^ p.dec.exp = q.dec.coeff * 10 ^ q.dec.exp := by
    rw [← Dec.abs_value, ← Dec.abs_value]
    exact congrArg abs h
  have hcoeff : p.dec.coeff = q.dec.coeff := by
    have hexp : p.dec.exp = q.dec.exp := by simp only [Plain.dec, hlen]
    have hscaled := eq_mul_of_scaled (le_of_eq hexp) habs
    rw [hexp, sub_self] at hscaled
    simpa using hscaled
  have hparts : digitsVal p.int * 10 ^ q.frac.length + digitsVal p.frac =
      digitsVal q.int * 10 ^ q.frac.length + digitsVal q.frac := by
    have hsum := hcoeff
    simp only [Plain.dec, digitsVal_append_eq, hlen] at hsum
    exact hsum
  have hplt := digitsVal_lt p.digits
  have hqlt := digitsVal_lt q.digits
  rw [hlen] at hplt
  have hint : digitsVal p.int = digitsVal q.int := by
    have hdiv := congrArg (· / 10 ^ q.frac.length) hparts
    simpa [Nat.add_div_of_dvd_right, Nat.div_eq_of_lt hplt, Nat.div_eq_of_lt hqlt] using hdiv
  have hfracval : digitsVal p.frac = digitsVal q.frac := by
    rw [hint] at hparts
    exact Nat.add_left_cancel hparts
  have hint' : p.int = q.int := by
    rw [← natText_digitsVal p.leading, hint, natText_digitsVal q.leading]
  have hfrac : p.frac = q.frac := eq_of_digitsVal p.digits q.digits hlen hfracval
  have hneg : p.neg = q.neg := by
    by_cases hzero : p.dec.coeff = 0
    · rw [Plain.neg_of_zero hzero, Plain.neg_of_zero (hcoeff ▸ hzero)]
    · rw [Bool.eq_iff_iff]
      have hp : p.neg = true ↔ p.value < 0 := Dec.neg_iff (d := p.dec) hzero
      have hq : q.neg = true ↔ q.value < 0 := Dec.neg_iff (d := q.dec) (hcoeff ▸ hzero)
      rw [hp, hq, h]
  rw [Plain.text, Plain.text, Plain.point, Plain.point, hneg, hint', hfrac]

/-! ## Formatting -/

theorem allDigits_zeros (k : Nat) : AllDigits (List.replicate k (chr '0')) := by
  intro c hc
  rw [List.eq_of_mem_replicate hc]
  rfl

/-- Leading zeros count nothing. -/
theorem digitsVal_zeros_append (k : Nat) (s : Str) :
    digitsVal (List.replicate k (chr '0') ++ s) = digitsVal s := by
  have hzeros : digitsVal (List.replicate k (chr '0')) = 0 := by
    induction k with
    | zero => rfl
    | succ k ih =>
      rw [List.replicate_succ', digitsVal_concat, ih]
      rfl
  rw [digitsVal_append_eq, hzeros, zero_mul, zero_add]

/-- Zeros behind multiply by powers of ten. -/
theorem digitsVal_append_zeros (k : Nat) (s : Str) :
    digitsVal (s ++ List.replicate k (chr '0')) = digitsVal s * 10 ^ k := by
  have hzeros := digitsVal_zeros_append k []
  rw [List.append_nil] at hzeros
  rw [digitsVal_append_eq, List.length_replicate, hzeros]
  rfl

/-- A part of digits without a leading zero, from the first on. -/
theorem Leading.of_prefix {s t : Str} (h : Leading (s ++ t)) (hs : s ≠ []) : Leading s := by
  refine ⟨fun c hc => h.digits c (List.mem_append_left _ hc), hs, ?_⟩
  intro hhead
  obtain ⟨c, rest, rfl⟩ := List.exists_cons_of_ne_nil hs
  have hone := h.first hhead
  have hlen := congrArg List.length hone
  simp only [List.cons_append, List.length_cons, List.length_append, List.length_nil] at hlen
  have hrest : rest = [] := List.length_eq_zero_iff.mp (by omega)
  rw [hrest, (Option.some.inj hhead : c = chr '0')]

/-- A number that ten does not divide ends in another digit than zero. -/
theorem last_natText {n : Nat} (h : n % 10 ≠ 0) : (natText n).getLast? ≠ some (chr '0') := by
  intro hlast
  obtain ⟨l, hl⟩ : ∃ l, natText n = l ++ [chr '0'] := List.getLast?_eq_some_iff.mp hlast
  have hval := digitsVal_natText n
  rw [hl, digitsVal_concat] at hval
  have hzero : (digitVal (chr '0')).getD 0 = 0 := rfl
  omega

/-- The plain form of a number without a fraction. -/
theorem Dec.plain_of_integer {d : Dec} (hc : d.coeff ≠ 0) (he : 0 ≤ d.exp) :
    ∃ p : Plain, p.text = d.format ∧ p.value = d.value := by
  have hlead : Leading (natText d.coeff ++ List.replicate d.exp.toNat (chr '0')) := by
    refine ⟨?_, by simp [natText_ne_nil], ?_⟩
    · intro c hmem
      exact (List.mem_append.mp hmem).elim (allDigits_natText _ c) (allDigits_zeros _ c)
    · intro hhead
      rw [List.head?_append_of_ne_nil _ (natText_ne_nil _)] at hhead
      have hzero := (leading_natText d.coeff).first hhead
      have hval := digitsVal_natText d.coeff
      rw [hzero] at hval
      exact absurd hval.symm hc
  let p : Plain := ⟨d.neg, natText d.coeff ++ List.replicate d.exp.toNat (chr '0'), [],
    hlead, by simp [AllDigits], by simp, by
      intro _ hzero
      have hval := congrArg digitsVal hzero.1
      rw [digitsVal_append_zeros, digitsVal_natText] at hval
      have hnone : digitsVal [chr '0'] = 0 := rfl
      rw [hnone, mul_eq_zero, or_iff_left (by positivity)] at hval
      exact hc hval⟩
  refine ⟨p, ?_, ?_⟩
  · rw [Dec.format, if_pos he, if_neg hc]
    simp [p, Plain.text, Plain.point]
  · have hpow : ((10 : ℚ) ^ d.exp.toNat) = 10 ^ d.exp := by
      rw [← zpow_natCast, Int.toNat_of_nonneg he]
    simp only [p, Plain.value, Plain.dec, Dec.value, Dec.signed, List.append_nil,
      digitsVal_append_zeros, digitsVal_natText, List.length_nil, Nat.cast_zero, neg_zero,
      zpow_zero, mul_one]
    cases d.neg <;> push_cast <;> simp [hpow]

/-- The digits of a coefficient with zeros before them, enough for a fraction of `k`
digits and one digit before it. -/
def paddedDigits (n k : Nat) : Str := List.replicate (k + 1 - (natText n).length)
    (chr '0') ++ natText n

section
variable {n k : Nat}

theorem allDigits_padded : AllDigits (paddedDigits n k) := by
  intro c hc
  exact (List.mem_append.mp hc).elim (allDigits_zeros _ c) (allDigits_natText _ c)

theorem length_padded_le : k + 1 ≤ (paddedDigits n k).length := by
  simp only [paddedDigits, List.length_append, List.length_replicate]
  omega

/-- What stands before the point has no leading zero but the one it needs. -/
theorem leading_take_padded :
    Leading ((paddedDigits n k).take ((paddedDigits n k).length - k)) := by
  by_cases hlong : k + 1 ≤ (natText n).length
  · have hpad : paddedDigits n k = natText n := by
      rw [paddedDigits, Nat.sub_eq_zero_of_le hlong, List.replicate_zero, List.nil_append]
    have hlead := leading_natText n
    rw [← List.take_append_drop ((natText n).length - k) (natText n)] at hlead
    rw [hpad]
    refine hlead.of_prefix ?_
    intro hnil
    have hlen := congrArg List.length hnil
    simp only [List.length_take, List.length_nil] at hlen
    omega
  · have hlen : (paddedDigits n k).length - k = 1 := by
      simp only [paddedDigits, List.length_append, List.length_replicate]
      omega
    obtain ⟨z, hz⟩ : ∃ z, k + 1 - (natText n).length = z + 1 := ⟨k - (natText n).length, by omega⟩
    have hone : (paddedDigits n k).take 1 = [chr '0'] := by
      rw [paddedDigits, hz, List.replicate_succ]
      rfl
    rw [hlen, hone]
    exact ⟨by simp [AllDigits, isDigit, digitVal]; decide, by simp, fun _ => rfl⟩

end

/-- The plain form of a number with a fraction that ends in no zero. -/
theorem Dec.plain_of_fraction {d : Dec} (hc : d.coeff % 10 ≠ 0) (he : d.exp < 0) :
    ∃ p : Plain, p.text = d.format ∧ p.value = d.value := by
  let cut := (paddedDigits d.coeff d.exp.natAbs).length - d.exp.natAbs
  have hparts := List.take_append_drop cut (paddedDigits d.coeff d.exp.natAbs)
  have hlen : ((paddedDigits d.coeff d.exp.natAbs).drop cut).length = d.exp.natAbs := by
    have hle := @length_padded_le d.coeff d.exp.natAbs
    rw [List.length_drop]
    omega
  have hne : (paddedDigits d.coeff d.exp.natAbs).drop cut ≠ [] := by
    intro hnil
    rw [hnil, List.length_nil] at hlen
    omega
  have hlast : ((paddedDigits d.coeff d.exp.natAbs).drop cut).getLast? ≠ some (chr '0') := by
    have hwhole : ((paddedDigits d.coeff d.exp.natAbs).drop cut).getLast? =
      (natText d.coeff).getLast? := by
      rw [← List.getLast?_append_of_ne_nil _ hne, hparts, paddedDigits,
        List.getLast?_append_of_ne_nil _ (natText_ne_nil _)]
    rw [hwhole]
    exact last_natText hc
  let p : Plain := ⟨d.neg, (paddedDigits d.coeff d.exp.natAbs).take cut,
    (paddedDigits d.coeff d.exp.natAbs).drop cut, leading_take_padded, fun c hmem =>
    allDigits_padded c (List.mem_of_mem_drop hmem), hlast, fun _ hzero => hne hzero.2⟩
  refine ⟨p, ?_, ?_⟩
  · rw [Dec.format, if_neg (not_le.mpr he), Plain.text, Plain.point, if_neg hne]
    simp only [p, cut, paddedDigits, List.append_assoc]
    rfl
  · have hcoeff : digitsVal ((paddedDigits d.coeff d.exp.natAbs).take cut ++
      (paddedDigits d.coeff d.exp.natAbs).drop cut) =
        d.coeff := by
      rw [hparts, paddedDigits, digitsVal_zeros_append, digitsVal_natText]
    have hexp : -(((paddedDigits d.coeff d.exp.natAbs).drop cut).length : Int) = d.exp := by
      rw [hlen]
      omega
    simp only [p, Plain.value, Plain.dec, hcoeff, hexp]

/-- **The plain form of a decimal's value**, as `format` writes it. -/
theorem Dec.exists_plain {d : Dec} (hc : d.coeff % 10 ≠ 0) :
    ∃ p : Plain, p.text = d.format ∧ p.value = d.value := by
  rcases lt_or_ge d.exp 0 with he | he
  · exact Dec.plain_of_fraction hc he
  · refine Dec.plain_of_integer ?_ he
    intro hzero
    exact hc (by rw [hzero])

end BeSdk
