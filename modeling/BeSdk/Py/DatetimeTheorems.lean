/-
BeSdk.Py.DatetimeTheorems — what `fromisoformat` reads a `Z` as, and that an instant is
the one its calendar fields denote.

A reader that goes through a text by positions has seen characters of a few kinds up to
where it is (`Upto`): a date is digits, dashes and a `W` (`dateChars`), a time of day
digits, colons and a fraction (`timeChars`). In a text that is read as an aware time a `Z`
can therefore stand at its end alone, or where the separator is, and at its end it reads as
`+00:00` does (`fromisoformat_replace`).

`fields` counts days by cycles of 400, 100, 4 and 1 years; the day number of the date it
comes to is the one it began with (`days_dateOfDays`).
-/
import BeSdk.Py.Datetime

namespace BeSdk

/-! ## Where a reader has been -/

/-- The characters before a position are of a kind. -/
def Upto (p : CodePoint → Bool) (s : Str) (k : Nat) : Prop := ∀ c ∈ s.take k, p c = true

section
variable {p : CodePoint → Bool} {s : Str} {k : Nat}

theorem upto_zero : Upto p s 0 := by simp [Upto]

/-- A character further. -/
theorem Upto.succ (h : Upto p s k) (hc : ∀ c, s[k]? = some c → p c = true) : Upto p s (k + 1) := by
  intro c hmem
  rw [List.take_add_one, List.mem_append, Option.mem_toList] at hmem
  exact hmem.elim (h c) (hc c)

theorem Upto.all (h : Upto p s k) (hlen : s.length ≤ k) : ∀ c ∈ s, p c = true := by
  rwa [Upto, List.take_of_length_le hlen] at h

theorem Upto.all_of_drop (h : Upto p s k) (hrest : ∀ c ∈ s.drop k, p c = true) :
    ∀ c ∈ s, p c = true := by
  rw [← List.take_append_drop k s, List.forall_mem_append]
  exact ⟨h, hrest⟩

theorem isDigit_of_digitVal {c : CodePoint} {n : Nat} (h : digitVal c = some n) :
    isDigit c = true := by rw [isDigit, h]; rfl

/-- Two digits further. -/
theorem Upto.twoDigits (hp : ∀ c, isDigit c = true → p c = true) {n : Nat} (h : Upto p s k)
    (hread : twoDigits s k = some n) : Upto p s (k + 2) := by
  unfold BeSdk.twoDigits at hread
  simp only [Option.bind_eq_bind, Option.bind_eq_some_iff] at hread
  obtain ⟨x, hx, _, hxd, y, hy, _, hyd, -⟩ := hread
  refine (h.succ fun c hc => ?_).succ fun c hc => ?_
  · obtain rfl := Option.some.inj (hx.symm.trans hc)
    exact hp x (isDigit_of_digitVal hxd)
  · obtain rfl := Option.some.inj (hy.symm.trans hc)
    exact hp y (isDigit_of_digitVal hyd)

end

def isTimeChar (c : CodePoint) : Bool :=
  isDigit c || c = chr ':' || c = chr '.' || c = chr ','

def isDateChar (c : CodePoint) : Bool := isDigit c || c = chr '-' || c = chr 'W'

theorem guard_eq_some {q : Prop} [Decidable q] {u : Unit} (h : (guard q : Option Unit) = some u) :
    q := by
  by_contra hq
  rw [guard, if_neg hq] at h
  cases h

/-- A character that is told is further of its kind. -/
theorem Upto.told {p : CodePoint → Bool} {s : Str} {k : Nat} {x : CodePoint} (h : Upto p s k)
    (hx : s[k]? = some x) (hp : p x = true) : Upto p s (k + 1) := by
  refine h.succ fun c hc => ?_
  obtain rfl := Option.some.inj (hx.symm.trans hc)
  exact hp

/-- The seconds and their fraction end the text. -/
theorem timeChars_of_seconds {s : Str} {k hour minute : Nat} {t : Time}
    (hk : Upto isTimeChar s k)
    (h : (do
      let second ← twoDigits s k
      match s.drop (k + 2) with
      | [] => return ⟨hour, minute, second, 0⟩
      | c :: frac =>
          guard (c = chr '.' ∨ c = chr ',')
          return ⟨hour, minute, second, ← parseFraction frac⟩) = some t) :
    ∀ c ∈ s, isTimeChar c = true := by
  have hdigit : ∀ c, isDigit c = true → isTimeChar c = true := by
    intro c hc
    simp [isTimeChar, hc]
  obtain ⟨second, hsecond, h⟩ := Option.bind_eq_some_iff.mp h
  refine (hk.twoDigits hdigit hsecond).all_of_drop fun c hc => ?_
  split at h
  · next hnil =>
    rw [hnil] at hc
    simp at hc
  · next x frac hdrop =>
    obtain ⟨u, hpoint, h⟩ := Option.bind_eq_some_iff.mp h
    obtain ⟨micro, hfrac, -⟩ := Option.bind_eq_some_iff.mp h
    rw [hdrop] at hc
    rcases List.mem_cons.mp hc with rfl | hc
    · rcases guard_eq_some hpoint with rfl | rfl <;> decide
    · unfold parseFraction at hfrac
      split at hfrac
      · cases hfrac
      · next hall =>
        rw [not_or, not_not] at hall
        exact hdigit c (List.all_eq_true.mp hall.2 c hc)

/-- A time of day is written in digits, colons and a fraction. -/
theorem timeChars {s : Str} {t : Time} (h : parseTimeParts s = some t) :
    ∀ c ∈ s, isTimeChar c = true := by
  have hdigit : ∀ c, isDigit c = true → isTimeChar c = true := by
    intro c hc
    simp [isTimeChar, hc]
  unfold parseTimeParts at h
  obtain ⟨hour, hhour, h⟩ := Option.bind_eq_some_iff.mp h
  have hhours := upto_zero.twoDigits hdigit hhour
  split at h
  · next hlen => exact hhours.all hlen.le
  by_cases hsep : s[2]? = some (chr ':')
  · simp only [hsep, decide_true, if_true, Bool.not_true, Bool.false_or] at h
    obtain ⟨minute, hminute, h⟩ := Option.bind_eq_some_iff.mp h
    have hminutes := (hhours.told hsep (by decide)).twoDigits hdigit hminute
    split at h
    · next hlen => exact hminutes.all hlen.le
    obtain ⟨u, hguard, h⟩ := Option.bind_eq_some_iff.mp h
    exact timeChars_of_seconds
      (hminutes.told (of_decide_eq_true (guard_eq_some hguard)) (by decide)) h
  · simp only [hsep, decide_false, Bool.false_eq_true, if_false, Bool.not_false, Bool.true_or] at h
    obtain ⟨minute, hminute, h⟩ := Option.bind_eq_some_iff.mp h
    have hminutes := hhours.twoDigits hdigit hminute
    split at h
    · next hlen => exact hminutes.all hlen.le
    obtain ⟨u, -, h⟩ := Option.bind_eq_some_iff.mp h
    exact timeChars_of_seconds hminutes h

/-- A date is written in digits, dashes and the letter of a week. -/
theorem dateChars {s : Str} {d : Date} (h : parseIsoDate s = some d) :
    ∀ c ∈ s, isDateChar c = true := by
  have hdigit : ∀ c, isDigit c = true → isDateChar c = true := by
    intro c hc
    simp [isDateChar, hc]
  unfold parseIsoDate at h
  obtain ⟨_, hlen, h⟩ := Option.bind_eq_some_iff.mp h
  obtain ⟨year, hyear, h⟩ := Option.bind_eq_some_iff.mp h
  unfold fourDigits at hyear
  obtain ⟨century, hcentury, hyear⟩ := Option.bind_eq_some_iff.mp hyear
  obtain ⟨rest, hrest, -⟩ := Option.bind_eq_some_iff.mp hyear
  have hyears := (upto_zero.twoDigits hdigit hcentury).twoDigits hdigit hrest
  -- what follows the year, from `pos` on
  have hbody : ∀ {pos : Nat}, Upto isDateChar s pos → ∀ sep : Bool,
      (if s[pos]? = some (chr 'W') then do
        let week ← twoDigits s (pos + 1)
        let pos := pos + 3
        if pos < s.length then
          guard (decide (s[pos]? = some (chr '-')) = sep)
          let pos := if sep then pos + 1 else pos
          guard (s.length = pos + 1)
          isoWeekToGregorian year week (← digitVal (← s[pos]?))
        else isoWeekToGregorian year week 1
      else do
        let month ← twoDigits s pos
        let pos := pos + 2
        guard (decide (s[pos]? = some (chr '-')) = sep)
        let pos := if sep then pos + 1 else pos
        let day ← twoDigits s pos
        guard (s.length = pos + 2)
        return ⟨year, month, day⟩) = some d → ∀ c ∈ s, isDateChar c = true := by
    intro pos hpos sep h
    have hdash : ∀ {i : Nat}, Upto isDateChar s i → decide (s[i]? = some (chr '-')) = sep →
        Upto isDateChar s (if sep = true then i + 1 else i) := by
      intro i hi hsep
      cases sep with
      | false => exact hi
      | true => exact hi.told (of_decide_eq_true hsep) (by decide)
    split at h
    · next hweek =>
      obtain ⟨week, hread, h⟩ := Option.bind_eq_some_iff.mp h
      have hweeks := (hpos.told hweek (by decide)).twoDigits hdigit hread
      dsimp only at h
      split at h
      · obtain ⟨_, hsep, h⟩ := Option.bind_eq_some_iff.mp h
        obtain ⟨_, hend, h⟩ := Option.bind_eq_some_iff.mp h
        obtain ⟨c, hc, h⟩ := Option.bind_eq_some_iff.mp h
        obtain ⟨day, hday, -⟩ := Option.bind_eq_some_iff.mp h
        have hdays := (hdash hweeks (guard_eq_some hsep)).told hc
          (hdigit c (isDigit_of_digitVal hday))
        exact hdays.all (le_of_eq (guard_eq_some hend))
      · next hend => exact hweeks.all (by omega)
    · obtain ⟨month, hmonth, h⟩ := Option.bind_eq_some_iff.mp h
      obtain ⟨_, hsep, h⟩ := Option.bind_eq_some_iff.mp h
      obtain ⟨day, hday, h⟩ := Option.bind_eq_some_iff.mp h
      obtain ⟨_, hend, -⟩ := Option.bind_eq_some_iff.mp h
      have hmonths := hpos.twoDigits hdigit hmonth
      have hdays := (hdash hmonths (guard_eq_some hsep)).twoDigits hdigit hday
      exact hdays.all (le_of_eq (guard_eq_some hend))
  by_cases hsep : s[4]? = some (chr '-')
  · simp only [hsep, decide_true, if_true] at h
    exact hbody (hyears.told hsep (by decide)) true h
  · simp only [hsep, decide_false, Bool.false_eq_true, if_false] at h
    exact hbody hyears false h

/-! ## Zones -/

/-- Where the zone starts: at the only `Z`, or at a sign. -/
theorem zoneAt_spec {s : Str} {i : Nat} (h : zoneAt s = some i) :
    (s[i]? = some (chr 'Z') ∧ chr '-' ∉ s ∧ chr '+' ∉ s) ∨ s[i]? = some (chr '-') ∨
      s[i]? = some (chr '+') := by
  have hat : ∀ {c : CodePoint}, s.idxOf? c = some i → s[i]? = some c := by
    intro c hc
    obtain ⟨hi, hget, -⟩ := List.idxOf?_eq_some_iff.mp hc
    rw [List.getElem?_eq_getElem hi, hget]
  unfold zoneAt at h
  split at h
  · next hdash => exact .inr (.inl (hat (h ▸ hdash)))
  · next hdash =>
    split at h
    · next hplus => exact .inr (.inr (hat (h ▸ hplus)))
    · next hplus =>
      exact .inl ⟨hat h, List.idxOf?_eq_none_iff.mp hdash, List.idxOf?_eq_none_iff.mp hplus⟩

/-- A text around one of its characters. -/
theorem eq_around {s : Str} {i : Nat} {x : CodePoint} (h : s[i]? = some x) :
    s = s.take i ++ x :: s.drop (i + 1) := by
  obtain ⟨hi, hx⟩ := List.getElem?_eq_some_iff.mp h
  rw [← hx, List.getElem_cons_drop, List.take_append_drop]

/-- A time with a zone is written without a `Z`, or ends in the only one. -/
theorem isoTime_spec {s : Str} {t : Time} {off : Int} (h : parseIsoTime s = some (t, some off)) :
    (∀ c ∈ s, isTimeChar c = true ∨ c = chr '-' ∨ c = chr '+') ∨
      ∃ body, s = body ++ [chr 'Z'] ∧ parseTimeParts body = some t ∧ off = 0 := by
  unfold parseIsoTime at h
  obtain ⟨_, -, h⟩ := Option.bind_eq_some_iff.mp h
  split at h
  · obtain ⟨t', -, h⟩ := Option.bind_eq_some_iff.mp h
    cases h
  · next i hzone =>
    obtain ⟨t', hparts, h⟩ := Option.bind_eq_some_iff.mp h
    split at h
    · next hz =>
      obtain ⟨_, hend, h⟩ := Option.bind_eq_some_iff.mp h
      cases h
      refine .inr ⟨s.take i, ?_, hparts, rfl⟩
      have haround := eq_around hz
      rwa [List.drop_of_length_le (guard_eq_some hend).le] at haround
    · next hz =>
      obtain ⟨off', hoff, h⟩ := Option.bind_eq_some_iff.mp h
      unfold parseZone at hoff
      obtain ⟨_, -, hoff⟩ := Option.bind_eq_some_iff.mp hoff
      obtain ⟨zone, hzoneparts, -⟩ := Option.bind_eq_some_iff.mp hoff
      have hsign : ∃ x, s[i]? = some x ∧ (x = chr '-' ∨ x = chr '+') := by
        rcases zoneAt_spec hzone with ⟨hz', -⟩ | hdash | hplus
        · exact absurd hz' hz
        · exact ⟨_, hdash, .inl rfl⟩
        · exact ⟨_, hplus, .inr rfl⟩
      obtain ⟨x, hx, hsign⟩ := hsign
      left
      intro c hc
      rw [eq_around hx, List.mem_append, List.mem_cons] at hc
      rcases hc with hc | rfl | hc
      · exact .inl (timeChars hparts c hc)
      · exact .inr hsign
      · exact .inl (timeChars hzoneparts c hc)

/-- The offset of UTC reads as a `Z` does. -/
theorem isoTime_utc {body : Str} {t : Time} (h : parseTimeParts body = some t) :
    parseIsoTime (body ++ str "+00:00") = some (t, some 0) := by
  have hnot : ∀ {x : CodePoint}, isTimeChar x = false → x ∉ body := by
    intro x hx hmem
    rw [timeChars h x hmem] at hx
    cases hx
  have hzone : zoneAt (body ++ str "+00:00") = some body.length := by
    have hdash : (body ++ str "+00:00").idxOf? (chr '-') = none := by
      rw [List.idxOf?_eq_none_iff, List.mem_append, not_or]
      exact ⟨hnot (by decide), by decide⟩
    have hplus : (body ++ str "+00:00").idxOf? (chr '+') = some body.length := by
      refine List.idxOf?_eq_some_iff.mpr ⟨by simp [str], by simp [str], fun j hj => ?_⟩
      rw [List.getElem_append_left hj]
      exact fun heq => hnot (x := chr '+') (by decide) (heq ▸ List.getElem_mem hj)
    rw [zoneAt, hdash, hplus]
  have hget : (body ++ str "+00:00")[body.length]? = some (chr '+') := by simp [str]
  have hoff : parseZone (decide (some (chr '+') = some (chr '-'))) (str "00:00") = some 0 := by
    decide
  have hdrop : (body ++ str "+00:00").drop (body.length + 1) = str "00:00" := by
    rw [← List.drop_drop, List.drop_left]
    rfl
  have hne : ¬ some (chr '+') = some (chr 'Z') := by decide
  have hlen : 2 ≤ (body ++ str "+00:00").length := by simp [str]
  unfold parseIsoTime
  simp only [hzone, hget, List.take_left, h, hdrop, if_neg hne, hoff, guard, if_pos hlen]
  rfl

/-- A run of digits ends before what is none. -/
theorem takeWhile_digits {z : CodePoint} (hz : isDigit z = false) (w : Str) : ∀ pre : Str,
    (pre ++ z :: w).takeWhile isDigit = pre.takeWhile isDigit
  | [] => by simp [hz]
  | c :: pre => by
      rw [List.cons_append, List.takeWhile_cons, List.takeWhile_cons, takeWhile_digits hz w pre]

/-- The separator is found before the zone, however that is written. -/
theorem separatorAt_append {pre : Str} {z z' : CodePoint} (w w' : Str) (hz : isDigit z = false)
    (hz' : isDigit z' = false) (hlen : 10 ≤ pre.length) :
    separatorAt (pre ++ z :: w) = separatorAt (pre ++ z' :: w') := by
  have hget : ∀ {x : CodePoint} {v : Str} {i : Nat}, i < 10 → (pre ++ x :: v)[i]? = pre[i]? :=
    fun hi => List.getElem?_append_left (by omega)
  have hany : ∀ {x : CodePoint} {v : Str}, isDigit x = false →
      (pre ++ x :: v)[10]?.any isDigit = pre[10]?.any isDigit := by
    intro x v hx
    rcases hlen.eq_or_lt with heq | hlt
    · rw [heq, List.getElem?_append_right le_rfl]
      simp [hx]
    · rw [List.getElem?_append_left hlt]
  have hrun : ∀ {x : CodePoint} {v : Str}, isDigit x = false →
      ((pre ++ x :: v).drop 7).takeWhile isDigit = (pre.drop 7).takeWhile isDigit := by
    intro x v hx
    rw [List.drop_append_of_le_length (by omega), takeWhile_digits hx]
  have hlong : ∀ {x : CodePoint} {v : Str} {n : Nat}, n < 10 → (pre ++ x :: v).length ≠ n := by
    intro x v n hn
    rw [List.length_append, List.length_cons]
    omega
  have hshort : ∀ {x : CodePoint} {v : Str}, ¬ (pre ++ x :: v).length < 8 := by
    intro x v
    rw [List.length_append, List.length_cons]
    omega
  unfold separatorAt
  simp only [hget (show 4 < 10 by decide), hget (show 5 < 10 by decide),
    hget (show 8 < 10 by decide), hany hz, hany hz', hrun hz, hrun hz', hshort,
    hlong (show 7 < 10 by decide), hlong (show 9 < 10 by decide), if_false]

theorem seven_le_separatorAt {s : Str} {k : Nat} (h : separatorAt s = some k) : 7 ≤ k := by
  unfold separatorAt at h
  simp only at h
  repeat' split at h
  all_goals first | (obtain rfl := Option.some.inj h; omega) | cases h

/-- A time has two digits at least. -/
theorem two_le_length {s : Str} {t : Time} (h : parseTimeParts s = some t) : 2 ≤ s.length := by
  unfold parseTimeParts at h
  obtain ⟨hour, hhour, -⟩ := Option.bind_eq_some_iff.mp h
  unfold twoDigits at hhour
  obtain ⟨x, -, hhour⟩ := Option.bind_eq_some_iff.mp hhour
  obtain ⟨a, -, hhour⟩ := Option.bind_eq_some_iff.mp hhour
  obtain ⟨y, hy, -⟩ := Option.bind_eq_some_iff.mp hhour
  obtain ⟨hlt, -⟩ := List.getElem?_eq_some_iff.mp hy
  omega

/-- What stands behind the separator matters as the time it reads as. -/
theorem fromisoformat_congr {pre rest rest' : Str} {k : Nat}
    (h : separatorAt (pre ++ rest) = some k) (h' : separatorAt (pre ++ rest') = some k)
    (hlen : pre.length = k + 1) (hne : rest ≠ []) (hne' : rest' ≠ [])
    (htime : parseIsoTime rest = parseIsoTime rest') :
    fromisoformat (pre ++ rest) = fromisoformat (pre ++ rest') := by
  have hlong : ∀ x : Str, 7 ≤ (pre ++ x).length := by
    intro x
    have hk := seven_le_separatorAt h
    rw [List.length_append]
    omega
  have htake : ∀ x : Str, (pre ++ x).take k = pre.take k := fun x =>
    List.take_append_of_le_length (by omega)
  have hdrop : ∀ x : Str, (pre ++ x).drop (k + 1) = x := fun x => by rw [← hlen, List.drop_left]
  obtain ⟨c, rest, rfl⟩ := List.exists_cons_of_ne_nil hne
  obtain ⟨c', rest', rfl⟩ := List.exists_cons_of_ne_nil hne'
  unfold fromisoformat
  simp only [guard, if_pos (hlong _), h, h', Option.bind_eq_bind, Option.bind_some, htake, hdrop,
    htime]

/-- The parts of a text that is read as an aware time. -/
theorem fromisoformat_spec {s : Str} {t : DateTime} {off : Int} (h : fromisoformat s = some t)
    (hoff : t.offset = some off) : ∃ k d time, separatorAt s = some k ∧
      parseIsoDate (s.take k) = some d ∧ parseIsoTime (s.drop (k + 1)) = some (time, some off) := by
  unfold fromisoformat at h
  obtain ⟨_, -, h⟩ := Option.bind_eq_some_iff.mp h
  obtain ⟨k, hk, h⟩ := Option.bind_eq_some_iff.mp h
  obtain ⟨d, hd, h⟩ := Option.bind_eq_some_iff.mp h
  dsimp only at h
  split at h
  · -- without a time there is no zone
    obtain ⟨⟨time, offset⟩, hnone, h⟩ := Option.bind_eq_some_iff.mp h
    obtain ⟨_, -, h⟩ := Option.bind_eq_some_iff.mp h
    obtain rfl := Option.some.inj h
    obtain rfl : offset = some off := hoff
    cases hnone
  · obtain ⟨⟨time, offset⟩, htime, h⟩ := Option.bind_eq_some_iff.mp h
    obtain ⟨_, -, h⟩ := Option.bind_eq_some_iff.mp h
    obtain rfl := Option.some.inj h
    obtain rfl : offset = some off := hoff
    exact ⟨k, d, time, hk, hd, htime⟩

/-- **A `Z` reads as the offset it stands for**, in a text that is read as an aware time
and marks where the time starts. -/
theorem fromisoformat_replace {s : Str} {t : DateTime} {off : Int} {x : CodePoint}
    (h : fromisoformat s = some t) (hoff : t.offset = some off) (hx : x ∈ s)
    (hdate : isDateChar x = false) (htime : isTimeChar x = false)
    (hmark : x ≠ chr '-' ∧ x ≠ chr '+' ∧ x ≠ chr 'Z' ∧ x ≠ chr 'z') :
    fromisoformat (Str.replace (Str.replace s (chr 'Z') (str "+00:00")) (chr 'z')
      (str "+00:00")) = some t := by
  obtain ⟨k, d, time, hk, hd, hrest⟩ := fromisoformat_spec h hoff
  have hdates := dateChars hd
  have hlt : k < s.length := by
    by_contra hle
    rw [List.drop_of_length_le (by omega)] at hrest
    cases hrest
  have haround := eq_around (List.getElem?_eq_getElem hlt)
  have hlen : (s.take k).length = k := List.length_take_of_le hlt.le
  generalize s[k] = y at haround
  generalize s.take k = date at hdates haround hlen
  generalize s.drop (k + 1) = rest at hrest haround
  have htimes : ∀ c ∈ rest, isTimeChar c = true ∨ c = chr '-' ∨ c = chr '+' ∨ c = chr 'Z' := by
    intro c hc
    rcases isoTime_spec hrest with hall | ⟨body, rfl, hbody, -⟩
    · rcases hall c hc with hc | hc | hc
      · exact .inl hc
      · exact .inr (.inl hc)
      · exact .inr (.inr (.inl hc))
    · rcases List.mem_append.mp hc with hc | hc
      · exact .inl (timeChars hbody c hc)
      · exact .inr (.inr (.inr (List.mem_singleton.mp hc)))
  -- the mark is the separator
  obtain rfl : x = y := by
    rw [haround, List.mem_append, List.mem_cons] at hx
    rcases hx with hx | hx | hx
    · rw [hdates x hx] at hdate
      cases hdate
    · exact hx
    · rcases htimes x hx with hx | hx | hx | hx
      · rw [hx] at htime
        cases htime
      · exact absurd hx hmark.1
      · exact absurd hx hmark.2.1
      · exact absurd hx hmark.2.2.1
  subst haround
  have hclean : ∀ {c : CodePoint}, isDateChar c = false → x ≠ c → c ∉ date ++ [x] := by
    intro c hc hne hmem
    rcases List.mem_append.mp hmem with hmem | hmem
    · rw [hdates c hmem] at hc
      cases hc
    · exact hne (List.mem_singleton.mp hmem).symm
  have hZ : chr 'Z' ∉ date ++ [x] := hclean (by decide) hmark.2.2.1
  have hz : chr 'z' ∉ date ++ [x] := hclean (by decide) hmark.2.2.2
  have hsplit : ∀ w, date ++ x :: w = (date ++ [x]) ++ w := fun w => by simp
  rw [hsplit] at h hk ⊢
  rcases isoTime_spec hrest with hall | ⟨body, rfl, hbody, rfl⟩
  · have hfree : ∀ {c : CodePoint}, isTimeChar c = false → c ≠ chr '-' → c ≠ chr '+' →
        c ∉ rest := by
      intro c hc hdash hplus hmem
      rcases hall c hmem with hmem | hmem | hmem
      · rw [hmem] at hc
        cases hc
      · exact hdash hmem
      · exact hplus hmem
    have hnone : ∀ {c : CodePoint}, c ∉ date ++ [x] → c ∉ rest → c ∉ (date ++ [x]) ++ rest :=
      fun h h' hmem => (List.mem_append.mp hmem).elim h h'
    rw [Str.replace_of_not_mem (hnone hZ (hfree (by decide) (by decide) (by decide))),
      Str.replace_of_not_mem (hnone hz (hfree (by decide) (by decide) (by decide)))]
    exact h
  · have hfree : ∀ {c : CodePoint}, isTimeChar c = false → c ∉ body := by
      intro c hc hmem
      rw [timeChars hbody c hmem] at hc
      cases hc
    have hreplaced : Str.replace (Str.replace ((date ++ [x]) ++ (body ++ [chr 'Z'])) (chr 'Z')
        (str "+00:00")) (chr 'z') (str "+00:00") = (date ++ [x]) ++ (body ++ str "+00:00") := by
      simp only [Str.replace_append, Str.replace_of_not_mem hZ, Str.replace_of_not_mem hz,
        Str.replace_of_not_mem (hfree (show isTimeChar (chr 'Z') = false by decide)),
        Str.replace_of_not_mem (hfree (show isTimeChar (chr 'z') = false by decide))]
      rfl
    have htwo := two_le_length hbody
    have hseven := seven_le_separatorAt hk
    have hsep : separatorAt ((date ++ [x]) ++ (body ++ str "+00:00")) = some k := by
      rw [← List.append_assoc] at hk ⊢
      rw [← hk]
      refine separatorAt_append _ _ (by decide) (by decide) ?_
      simp only [List.length_append, List.length_singleton]
      omega
    rw [hreplaced, ← h]
    refine (fromisoformat_congr hk hsep (by simp [hlen]) (by simp) (by simp [str]) ?_).symm
    rw [hrest, isoTime_utc hbody]

/-! ## The calendar -/

theorem monthDay_spec : ∀ leap : Bool, ∀ n < 366,
    daysBeforeMonth leap (monthDay leap n).1 + ((monthDay leap n).2 - 1) = n ∧
      (monthDay leap n).1 < 100 ∧ (monthDay leap n).2 < 100 := by
  decide +kernel

/-- The days before a year written in the cycles of the calendar. -/
theorem daysBeforeYear_cycles {a b c d : Nat} (hb : b ≤ 3) (hc : c ≤ 24) (hd : d ≤ 3) :
    daysBeforeYear (a * 400 + b * 100 + c * 4 + d + 1)
      = a * 146097 + b * 36524 + c * 1461 + d * 365 := by
  have h4 : (a * 400 + b * 100 + c * 4 + d) / 4 = a * 100 + b * 25 + c := by omega
  have h100 : (a * 400 + b * 100 + c * 4 + d) / 100 = a * 4 + b := by omega
  have h400 : (a * 400 + b * 100 + c * 4 + d) / 400 = a := by omega
  rw [daysBeforeYear, Nat.add_sub_cancel, h4, h100, h400]
  omega

/-- December 31 of a leap year is the last day of its cycle of four years. -/
theorem days_dec31_of_leap {a b c : Nat} (hb : b ≤ 3) (hc : c ≤ 24) (hleap : c ≠ 24 ∨ b = 3) :
    (Date.mk (a * 400 + b * 100 + c * 4 + 3 + 1) 12 31).days
      = a * 146097 + b * 36524 + c * 1461 + 1460 := by
  have hy : isLeap (a * 400 + b * 100 + c * 4 + 3 + 1) = true := by
    simp only [isLeap, Bool.and_eq_true, Bool.or_eq_true, beq_iff_eq, bne_iff_ne]
    omega
  have hdec31 : daysBeforeMonth true 12 + (31 - 1) = 365 := rfl
  rw [Date.days, hy, daysBeforeYear_cycles hb hc (le_refl 3), Nat.add_assoc, hdec31]

/-- Every day number is the day number of its date. -/
theorem days_dateOfDays (n : Nat) : (dateOfDays n).days = n := by
  unfold dateOfDays
  simp only
  generalize h400 : n / 146097 = a
  generalize h100 : n % 146097 / 36524 = b
  generalize h4 : n % 146097 % 36524 / 1461 = c
  generalize h1 : n % 146097 % 36524 % 1461 / 365 = d
  generalize hr : n % 146097 % 36524 % 1461 % 365 = r
  have hn : n = a * 146097 + b * 36524 + c * 1461 + d * 365 + r := by omega
  have hc : c ≤ 24 := by omega
  have hr365 : r < 365 := by omega
  have hb4 : b ≤ 3 ∨ (b = 4 ∧ c = 0 ∧ d = 0 ∧ r = 0) := by omega
  have hd4 : d ≤ 3 ∨ (d = 4 ∧ r = 0 ∧ c ≤ 23 ∧ b ≤ 3) := by omega
  clear h400 h100 h4 h1 hr
  split
  · next hlast =>
    -- the last day of a leap year: of four years or of four centuries
    rcases hb4 with hb | hb
    · have hy : a * 400 + b * 100 + c * 4 + d + 1 - 1 = a * 400 + b * 100 + c * 4 + 3 + 1 := by
        omega
      rw [hy, days_dec31_of_leap hb hc (by omega)]
      omega
    · have hy : a * 400 + b * 100 + c * 4 + d + 1 - 1 = a * 400 + 3 * 100 + 24 * 4 + 3 + 1 := by
        omega
      rw [hy, days_dec31_of_leap (le_refl 3) (le_refl 24) (Or.inr rfl)]
      omega
  · next hmid =>
    have hmd := (monthDay_spec (isLeap (a * 400 + b * 100 + c * 4 + d + 1)) r (by omega)).1
    simp only [Date.days]
    rw [daysBeforeYear_cycles (by omega) hc (by omega)]
    omega

/-- The numbers of a time have the digits that a text of it has room for. -/
structure Fitting (d : Date) (t : Time) : Prop where
  year : d.year < 10 ^ 4
  month : d.month < 10 ^ 2
  day : d.day < 10 ^ 2
  hour : t.hour < 10 ^ 2
  minute : t.minute < 10 ^ 2
  second : t.second < 10 ^ 2
  micro : t.micro < 10 ^ 6

theorem dateOfDays_fitting {n : Nat} (h : n < 3652059) : (dateOfDays n).year < 10 ^ 4 ∧
    (dateOfDays n).month < 10 ^ 2 ∧ (dateOfDays n).day < 10 ^ 2 := by
  unfold dateOfDays
  simp only
  split
  · refine ⟨?_, (by decide : 12 < 10 ^ 2), (by decide : 31 < 10 ^ 2)⟩
    simp only
    omega
  · have hmd := monthDay_spec (isLeap (n / 146097 * 400 + n % 146097 / 36524 * 100 +
      n % 146097 % 36524 / 1461 * 4 + n % 146097 % 36524 % 1461 / 365 + 1))
      (n % 146097 % 36524 % 1461 % 365) (by omega)
    refine ⟨?_, hmd.2.1, hmd.2.2⟩
    simp only
    omega

/-- An instant is the one its numbers denote. -/
theorem fields_spec {i : Int} {d : Date} {t : Time} (h : fields i = some (d, t)) :
    i = d.days * microsPerDay + t.micros ∧ Fitting d t := by
  unfold fields at h
  split at h
  · cases h
  next hrange =>
  simp only [Option.some.injEq, Prod.mk.injEq] at h
  obtain ⟨rfl, rfl⟩ := h
  have hday : 0 < microsPerDay := by decide
  have hi0 : 0 ≤ i := not_lt.mp fun h => hrange (Or.inl h)
  have hsplit := Int.mul_ediv_add_emod i microsPerDay
  have hq : 0 ≤ i / microsPerDay := Int.ediv_nonneg hi0 hday.le
  have hr := Int.emod_nonneg i hday.ne'
  have hlast : i / microsPerDay < 3652059 :=
    Int.ediv_lt_of_lt_mul hday (not_le.mp fun h => hrange (Or.inr h))
  have hrest : i % microsPerDay < 86400000000 := Int.emod_lt_of_pos i hday
  constructor
  · rw [days_dateOfDays, Int.toNat_of_nonneg hq]
    generalize i / microsPerDay = q at *
    generalize i % microsPerDay = u at *
    have hu : (u.toNat / 3600000000 * 60 + u.toNat / 60000000 % 60) * 60 +
        u.toNat / 1000000 % 60 = u.toNat / 1000000 := by omega
    have hmicros : ((u.toNat / 1000000 : Nat) : Int) * 1000000 + (u.toNat % 1000000 : Nat) = u := by
      omega
    simp only [Time.micros, hu, microsPerSecond, hmicros]
    rw [mul_comm q, hsplit]
  · obtain ⟨hyear, hmonth, hdayOf⟩ := dateOfDays_fitting (n := (i / microsPerDay).toNat) (by omega)
    exact ⟨hyear, hmonth, hdayOf, by dsimp only; omega, by dsimp only; omega, by dsimp only; omega,
      by dsimp only; omega⟩

end BeSdk
