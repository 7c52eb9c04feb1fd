/-
BeSdk.CanonInstant — the text of an instant is its own, and what is read as an aware time
is read as the same instant.

`time` writes every number on as many digits as it can have, so the text determines the
calendar fields (`strftime_inj`) and they the instant (`time_inj`). `instant` replaces
every `Z` before it reads; where the text is an aware time without that, it is the same
one (`readInstant_of_aware`).
-/
import BeSdk.Canon
import BeSdk.Py.DatetimeTheorems
import BeSdk.Py.PlainDecimal

namespace BeSdk.Canon

/-! ## The text of a time -/

theorem digitsVal_padded (width n : Nat) : digitsVal (padded width n) = n := by
  rw [padded, digitsVal_zeros_append, digitsVal_natText]

theorem length_padded {width n : Nat} (hw : 0 < width) (h : n < 10 ^ width) :
    (padded width n).length = width := by
  have hle := length_natText_le h hw
  rw [padded, List.length_append, List.length_replicate]
  omega

/-- A padded number is read off the front of a text. -/
theorem padded_append_inj {width m n : Nat} {s t : Str} (hw : 0 < width) (hm : m < 10 ^ width)
    (hn : n < 10 ^ width) (h : padded width m ++ s = padded width n ++ t) : m = n ∧ s = t := by
  obtain ⟨hpad, hrest⟩ := List.append_inj h (by rw [length_padded hw hm, length_padded hw hn])
  have hval := congrArg digitsVal hpad
  rw [digitsVal_padded, digitsVal_padded] at hval
  exact ⟨hval, hrest⟩

theorem strftime_inj {d d' : Date} {t t' : Time} (h : Fitting d t) (h' : Fitting d' t')
    (heq : strftime d t = strftime d' t') : d = d' ∧ t = t' := by
  unfold strftime at heq
  obtain ⟨hyear, heq⟩ := padded_append_inj (by decide) h.year h'.year heq
  obtain ⟨hmonth, heq⟩ := padded_append_inj (by decide) h.month h'.month (List.cons.inj heq).2
  obtain ⟨hday, heq⟩ := padded_append_inj (by decide) h.day h'.day (List.cons.inj heq).2
  obtain ⟨hhour, heq⟩ := padded_append_inj (by decide) h.hour h'.hour (List.cons.inj heq).2
  obtain ⟨hminute, heq⟩ := padded_append_inj (by decide) h.minute h'.minute (List.cons.inj heq).2
  obtain ⟨hsecond, heq⟩ := padded_append_inj (by decide) h.second h'.second (List.cons.inj heq).2
  obtain ⟨hmicro, -⟩ := padded_append_inj (by decide) h.micro h'.micro (List.cons.inj heq).2
  obtain ⟨year, month, day⟩ := d
  obtain ⟨hour, minute, second, micro⟩ := t
  simp_all

/-- **The text of an instant is its own.** -/
theorem time_inj {i j : Instant} {a : Str} (hi : time i = .ok a) (hj : time j = .ok a) : i = j := by
  unfold time at hi hj
  split at hi
  · cases hi
  next d t hd =>
  split at hj
  · cases hj
  next d' t' hd' =>
  obtain ⟨hinst, hfit⟩ := fields_spec hd
  obtain ⟨hinst', hfit'⟩ := fields_spec hd'
  obtain ⟨rfl, rfl⟩ := strftime_inj hfit hfit'
    ((Except.ok.inj hi).trans (Except.ok.inj hj).symm)
  rw [hinst, hinst']

/-! ## Reading -/

/-- What contains a `T` in upper case has a character that is in no date and no time. -/
theorem exists_mark {s : Str} (h : upperHasT s = true) : ∃ x ∈ s, isDateChar x = false ∧
    isTimeChar x = false ∧ x ≠ chr '-' ∧ x ≠ chr '+' ∧ x ≠ chr 'Z' ∧ x ≠ chr 'z' := by
  obtain ⟨x, hx, hmark⟩ := List.any_eq_true.mp h
  refine ⟨x, hx, ?_⟩
  simp only [Bool.or_eq_true, decide_eq_true_eq] at hmark
  rcases hmark with (((rfl | rfl) | hval) | hval) | hval
  · decide
  · decide
  · obtain rfl : x = ⟨0x1E97, by decide⟩ := Fin.ext hval
    decide
  · obtain rfl : x = ⟨0xFB05, by decide⟩ := Fin.ext hval
    decide
  · obtain rfl : x = ⟨0xFB06, by decide⟩ := Fin.ext hval
    decide

/-- **An aware time is read as its instant.** -/
theorem readInstant_of_aware {s : Str} {t : DateTime} {i : Instant} (h : fromisoformat s = some t)
    (hi : t.instant = some i) (hmark : upperHasT s = true) : readInstant s = some i := by
  obtain ⟨off, hoff, -⟩ := Option.map_eq_some_iff.mp hi
  obtain ⟨x, hx, hdate, htime, hne⟩ := exists_mark hmark
  unfold readInstant
  dsimp only
  rw [fromisoformat_replace h hoff hx hdate htime hne]
  dsimp only
  rw [if_pos hmark, hi]

end BeSdk.Canon
