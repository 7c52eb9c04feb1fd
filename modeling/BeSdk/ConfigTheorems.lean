/-
BeSdk.ConfigTheorems — what `parse` makes of a source of texts: values, or every problem
at once.

`Given` is what a source gives a key, `Fits` what a text of the key's type is; both are
told without the parser. `parseOne_cases` compares `_parse_one` with `Fits`: a text fits,
or is refused, or is one of those that raise (`Raising`: more digits than `int` reads, or
a duration beyond the longest `timedelta`). One key adds a value or a problem
(`parseKey_eq`), and a parse is what its keys come to, in their order (`parse_eq`).

A secret is hidden when nothing a problem shows depends on it (`Conceals`): sources that
differ in secrets only have problems that show the same.

* `parse_reports_iff`: a parse reports everything and shows no secret, if and only if no
  text raises and no file that cannot be read is named by another secret.
* `long_duration_raises`: a duration that raises.
* `not_conceals`: a secret whose file cannot be read, where another secret names the file.
-/
import BeSdk.Config
import BeSdk.Lib.Fallible
import BeSdk.Py.PlainDecimal

namespace BeSdk.Config

/-! ## Numerals -/

/-- A numeral is the text of a natural number. -/
theorem isNumeral_iff {s : Str} : isNumeral s = true ↔ ∃ n, s = natText n := by
  constructor
  · intro h
    have hleading : Leading s := by
      simp only [isNumeral, Bool.or_eq_true, decide_eq_true_eq, Bool.and_eq_true] at h
      rcases h with rfl | ⟨hhead, hall⟩
      · exact leading_natText 0
      · cases s with
        | nil => cases hhead
        | cons c rest =>
          simp only [List.head?_cons, Option.any_some, Bool.and_eq_true, decide_eq_true_eq] at hhead
          refine ⟨List.all_eq_true.mp hall, by simp, ?_⟩
          intro hzero
          exact absurd (Option.some.inj hzero) hhead.2
    exact ⟨digitsVal s, (natText_digitsVal hleading).symm⟩
  · rintro ⟨n, rfl⟩
    have hleading := leading_natText n
    simp only [isNumeral, Bool.or_eq_true, decide_eq_true_eq, Bool.and_eq_true]
    by_cases hzero : (natText n).head? = some (chr '0')
    · exact .inl (hleading.first hzero)
    · refine .inr ⟨?_, List.all_eq_true.mpr hleading.digits⟩
      obtain ⟨c, rest, hcons⟩ := List.exists_cons_of_ne_nil hleading.nonempty
      rw [hcons] at hzero ⊢
      have hdigit := hleading.digits c (by rw [hcons]; simp)
      simpa [hdigit] using hzero

theorem natText_inj {m n : Nat} (h : natText m = natText n) : m = n := by
  rw [← digitsVal_natText m, h, digitsVal_natText]

/-- `int` reads the numeral of a number below its limit. -/
theorem intOfNumeral_natText (n : Nat) :
    intOfNumeral (natText n) = if 10 ^ maxStrDigits ≤ n then .error .valueError else .ok n := by
  have hlength : maxStrDigits < (natText n).length ↔ 10 ^ maxStrDigits ≤ n := by
    constructor
    · intro h
      by_contra hlt
      exact absurd (length_natText_le (not_le.mp hlt) (by decide)) (not_le.mpr h)
    · intro h
      by_contra hle
      have hlt := digitsVal_lt (allDigits_natText n)
      rw [digitsVal_natText] at hlt
      exact absurd (hlt.trans_le (Nat.pow_le_pow_right (by norm_num) (not_lt.mp hle)))
        (not_lt.mpr h)
  simp only [intOfNumeral, hlength, digitsVal_natText]

theorem head_natText_ne (n : Nat) : (natText n).head? ≠ some (chr '-') := by
  obtain ⟨c, rest, hcons, hdigit⟩ := natText_head n
  rw [hcons]
  rintro h
  rw [List.head?_cons, Option.some.injEq] at h
  rw [h] at hdigit
  exact absurd hdigit (by decide)

theorem natText_eq_zero_iff {n : Nat} : natText n = str "0" ↔ n = 0 :=
  ⟨fun h => natText_inj (n := 0) h, fun h => by rw [h]; rfl⟩

/-- An integer is written as its magnitude, behind a sign below zero. -/
theorem intText_eq (n : Int) : intText n = if n < 0 then chr '-' :: natText n.natAbs
    else natText n.natAbs := by
  simp [intText, str]

/-! ## What a text is -/

/-- The first number of microseconds that no `timedelta` has. -/
def maxDelta : Nat := 1000000000 * 86400000000

/-- A text is a value of the key's type, within its bounds. -/
inductive Fits (k : Key) : Str → Value → Prop
  | string {s : Str} : k.type = .string → Fits k s (.raw (.str s))
  | integer {n : Int} : k.type = .integer → -(2 ^ 63) ≤ n ∧ n ≤ 2 ^ 63 - 1 →
      (∀ m ∈ k.min, m ≤ n) → (∀ m ∈ k.max, n ≤ m) → Fits k (intText n) (.int n)
  | true_ : k.type = .boolean → Fits k (str "true") (.bool true)
  | false_ : k.type = .boolean → Fits k (str "false") (.bool false)
  | duration {n unit : Nat} {u : Str} : k.type = .duration → (u, unit) ∈ units →
      n ≤ 2 ^ 63 - 1 → n * unit < maxDelta → Fits k (natText n ++ u) (.duration (n * unit : Nat))
  | enum_ {s : Str} : k.type = .enum_ → s ∈ k.values → Fits k s (.raw (.str s))

/-- The texts that raise: more digits than `int` reads, or a duration longer than any
`timedelta`. -/
inductive Raising (k : Key) : Str → Prop
  | integer {n : Int} : k.type = .integer → 10 ^ maxStrDigits ≤ n.natAbs → Raising k (intText n)
  | count {n unit : Nat} {u : Str} : k.type = .duration → (u, unit) ∈ units →
      10 ^ maxStrDigits ≤ n → Raising k (natText n ++ u)
  | long {n unit : Nat} {u : Str} : k.type = .duration → (u, unit) ∈ units → n ≤ 2 ^ 63 - 1 →
      maxDelta ≤ n * unit → Raising k (natText n ++ u)

theorem int64_lt : 2 ^ 63 < 10 ^ maxStrDigits :=
  calc 2 ^ 63 < 10 ^ 63 := by norm_num
    _ ≤ 10 ^ maxStrDigits := Nat.pow_le_pow_right (by norm_num) (by decide)

/-! ### Integers -/

/-- What the text of an integer is parsed as. -/
theorem parseInteger_intText (k : Key) (n : Int) : parseInteger k (intText n) =
    if 10 ^ maxStrDigits ≤ n.natAbs then .error .valueError
    else if ¬ (-(2 ^ 63) ≤ n ∧ n ≤ 2 ^ 63 - 1) then .ok (.error (str "invalid"))
    else if k.min.any (n < ·) ∨ k.max.any (· < n) then .ok (.error (str "out_of_range"))
    else .ok (.ok (.int n)) := by
  have hnumeral := isNumeral_iff.mpr ⟨n.natAbs, rfl⟩
  by_cases hneg : n < 0
  · have hzero : intText n ≠ str "-0" := by
      rw [intText_eq, if_pos hneg]
      intro h
      have := natText_eq_zero_iff.mp (List.cons.inj h).2
      omega
    have hvalue : -(n.natAbs : Int) = n := by omega
    have htext : intText n = chr '-' :: natText n.natAbs := by rw [intText_eq, if_pos hneg]
    unfold parseInteger
    simp only [hzero, or_false]
    simp only [htext, List.head?_cons, if_true, List.drop_one, List.tail_cons, hnumeral,
      Bool.not_true, Bool.false_eq_true, if_false, intOfNumeral_natText]
    by_cases hlong : 10 ^ maxStrDigits ≤ n.natAbs
    · simp only [if_pos hlong]
      rfl
    · simp only [if_neg hlong, bind, Except.bind, hvalue]
  · have htext : intText n = natText n.natAbs := by rw [intText_eq, if_neg hneg]
    have hzero : natText n.natAbs ≠ str "-0" := fun h => head_natText_ne n.natAbs (by rw [h]; rfl)
    have hvalue : (n.natAbs : Int) = n := by omega
    unfold parseInteger
    simp only [htext, hzero, or_false, head_natText_ne, if_false, hnumeral, Bool.not_true,
      Bool.false_eq_true, intOfNumeral_natText]
    by_cases hlong : 10 ^ maxStrDigits ≤ n.natAbs
    · simp only [if_pos hlong]
      rfl
    · simp only [if_neg hlong, bind, Except.bind, hvalue]

/-- Any other text is no integer. -/
theorem parseInteger_other (k : Key) {s : Str} (h : ∀ n, s ≠ intText n) :
    parseInteger k s = .ok (.error (str "invalid")) := by
  unfold parseInteger
  refine if_pos ?_
  by_contra hread
  obtain ⟨hnumeral, hzero⟩ := not_or.mp hread
  simp only [Bool.not_eq_true', Bool.not_eq_false] at hnumeral
  obtain ⟨m, hm⟩ := isNumeral_iff.mp hnumeral
  by_cases hneg : s.head? = some (chr '-')
  · rw [if_pos hneg] at hm
    obtain ⟨rest, rfl⟩ : ∃ rest, s = chr '-' :: rest := by
      cases s with
      | nil => cases hneg
      | cons c rest => exact ⟨rest, by rw [Option.some.inj hneg]⟩
    obtain rfl : rest = natText m := hm
    have hpos : m ≠ 0 := by
      rintro rfl
      exact hzero rfl
    refine h (-(m : Int)) ?_
    rw [intText_eq, if_pos (by omega), Int.natAbs_neg, Int.natAbs_natCast]
  · rw [if_neg hneg] at hm
    refine h m ?_
    rw [intText_eq, if_neg (by omega), Int.natAbs_natCast, hm]

/-! ### Durations -/

/-- A duration is its microseconds, or too long. -/
theorem timedelta_eq (n unit : Nat) :
    timedelta n unit = if maxDelta ≤ n * unit then .error .overflowError
    else .ok (n * unit : Nat) := by
  have hdays : 999999999 < n * unit / 86400000000 ↔ maxDelta ≤ n * unit := by
    rw [maxDelta]
    omega
  rw [timedelta]
  simp only [hdays]

/-- A unit begins with no digit, and is found under its name. -/
theorem lookup_unit {u : Str} {unit : Nat} (h : (u, unit) ∈ units) :
    u.takeWhile isDigit = [] ∧ lookup u units = some unit := by
  simp only [units, List.mem_cons, Prod.mk.injEq, List.not_mem_nil, or_false] at h
  rcases h with ⟨rfl, rfl⟩ | ⟨rfl, rfl⟩ | ⟨rfl, rfl⟩ | ⟨rfl, rfl⟩ <;> decide

/-- What a number with a unit is parsed as. -/
theorem parseDuration_text (n : Nat) {unit : Nat} {u : Str} (h : (u, unit) ∈ units) :
    parseDuration (natText n ++ u) = if 10 ^ maxStrDigits ≤ n then .error .valueError
    else if 2 ^ 63 - 1 < n then .ok (.error (str "invalid"))
    else if maxDelta ≤ n * unit then .error .overflowError
    else .ok (.ok (.duration (n * unit : Nat))) := by
  obtain ⟨hdigits, hfound⟩ := lookup_unit h
  obtain ⟨htake, hdrop⟩ := span_digits u (allDigits_natText n) hdigits
  unfold parseDuration
  simp only [htake, hdrop, hfound, isNumeral_iff.mpr ⟨n, rfl⟩, Bool.not_true,
    Bool.false_eq_true, if_false, intOfNumeral_natText]
  by_cases hlong : 10 ^ maxStrDigits ≤ n
  · simp only [if_pos hlong]
    rfl
  simp only [if_neg hlong, bind, Except.bind, timedelta_eq]
  by_cases hbeyond : maxDelta ≤ n * unit
  · simp only [if_pos hbeyond]
  · simp only [if_neg hbeyond]

/-- Any other text is no duration. -/
theorem parseDuration_other {s : Str} (h : ∀ n unit u, (u, unit) ∈ units → s ≠ natText n ++ u) :
    parseDuration s = .ok (.error (str "invalid")) := by
  unfold parseDuration
  cases hfound : lookup (s.dropWhile isDigit) units with
  | none => rfl
  | some unit =>
    refine if_pos ?_
    by_contra hread
    simp only [Bool.not_eq_true', Bool.not_eq_false] at hread
    obtain ⟨n, hn⟩ := isNumeral_iff.mp hread
    refine h n unit _ (mem_of_lookup hfound) ?_
    rw [← hn, List.takeWhile_append_dropWhile]

/-! ### Every type -/

/-- A text that fits is parsed as the value it fits. -/
theorem parseOne_of_fits {k : Key} {s : Str} {v : Value} (h : Fits k s v) :
    parseOne k (.str s) = .ok (.ok v) := by
  have hint := int64_lt
  cases h with
  | string htype => simp only [parseOne, htype]
  | @integer n htype hrange hmin hmax =>
    simp only [parseOne, htype]
    have hsmall : ¬ 10 ^ maxStrDigits ≤ n.natAbs := by omega
    have hbounds : ¬ (k.min.any (n < ·) ∨ k.max.any (· < n)) := by
      simp only [Option.any_eq_true, decide_eq_true_eq, not_or, not_exists, not_and, not_lt]
      exact ⟨hmin, hmax⟩
    rw [parseInteger_intText, if_neg hsmall, if_neg (not_not.mpr hrange), if_neg hbounds]
  | true_ htype => simp only [parseOne, htype, if_true]
  | false_ htype =>
    simp only [parseOne, htype]
    rfl
  | @duration n unit u htype hunit hcount hlong =>
    simp only [parseOne, htype]
    rw [parseDuration_text n hunit, if_neg (by omega), if_neg (not_lt.mpr hcount),
      if_neg (not_le.mpr hlong)]
  | enum_ htype hs => simp only [parseOne, htype, hs, if_true]

/-- A text that raises does so. -/
theorem parseOne_of_raising {k : Key} {s : Str} (h : Raising k s) :
    ∃ e, parseOne k (.str s) = .error e := by
  have hint := int64_lt
  cases h with
  | integer htype hlong =>
    simp only [parseOne, htype]
    exact ⟨_, by rw [parseInteger_intText, if_pos hlong]⟩
  | @count n unit u htype hunit hlong =>
    simp only [parseOne, htype]
    exact ⟨_, by rw [parseDuration_text n hunit, if_pos hlong]⟩
  | @long n unit u htype hunit hcount hlong =>
    simp only [parseOne, htype]
    exact ⟨_, by rw [parseDuration_text n hunit, if_neg (by omega),
      if_neg (not_lt.mpr hcount), if_pos hlong]⟩

/-- A text that raises is no value. -/
theorem not_fits_of_raising {k : Key} {s : Str} (h : Raising k s) (v : Value) : ¬ Fits k s v := by
  intro hfits
  obtain ⟨e, he⟩ := parseOne_of_raising h
  rw [parseOne_of_fits hfits] at he
  cases he

/-- **One text**: it is a value, or it raises, or it is refused with what is wrong. -/
theorem parseOne_cases (k : Key) (s : Str) : (∃ v, Fits k s v) ∨ Raising k s ∨
    (∃ kind, parseOne k (.str s) = .ok (.error kind)) := by
  cases htype : k.type with
  | string => exact .inl ⟨_, .string htype⟩
  | integer =>
    by_cases hread : ∃ n, s = intText n
    · obtain ⟨n, rfl⟩ := hread
      by_cases hlong : 10 ^ maxStrDigits ≤ n.natAbs
      · exact .inr (.inl (.integer htype hlong))
      by_cases hrange : -(2 ^ 63) ≤ n ∧ n ≤ 2 ^ 63 - 1
      swap
      · refine .inr (.inr ⟨str "invalid", ?_⟩)
        simp only [parseOne, htype]
        rw [parseInteger_intText, if_neg hlong, if_pos hrange]
      by_cases hbounds : k.min.any (n < ·) ∨ k.max.any (· < n)
      · refine .inr (.inr ⟨str "out_of_range", ?_⟩)
        simp only [parseOne, htype]
        rw [parseInteger_intText, if_neg hlong, if_neg (not_not.mpr hrange), if_pos hbounds]
      · simp only [Option.any_eq_true, decide_eq_true_eq, not_or, not_exists, not_and,
          not_lt] at hbounds
        exact .inl ⟨_, .integer htype hrange hbounds.1 hbounds.2⟩
    · refine .inr (.inr ⟨str "invalid", ?_⟩)
      simp only [parseOne, htype]
      exact parseInteger_other k (not_exists.mp hread)
  | boolean =>
    by_cases hyes : s = str "true"
    · rw [hyes]
      exact .inl ⟨_, .true_ htype⟩
    by_cases hno : s = str "false"
    · rw [hno]
      exact .inl ⟨_, .false_ htype⟩
    · refine .inr (.inr ⟨str "invalid", ?_⟩)
      simp only [parseOne, htype, hyes, hno, if_false]
  | duration =>
    by_cases hread : ∃ n unit u, (u, unit) ∈ units ∧ s = natText n ++ u
    · obtain ⟨n, unit, u, hunit, rfl⟩ := hread
      by_cases hdigits : 10 ^ maxStrDigits ≤ n
      · exact .inr (.inl (.count htype hunit hdigits))
      by_cases hcount : n ≤ 2 ^ 63 - 1
      swap
      · refine .inr (.inr ⟨str "invalid", ?_⟩)
        simp only [parseOne, htype]
        rw [parseDuration_text n hunit, if_neg hdigits, if_pos (not_le.mp hcount)]
      by_cases hlong : maxDelta ≤ n * unit
      · exact .inr (.inl (.long htype hunit hcount hlong))
      · exact .inl ⟨_, .duration htype hunit hcount (not_le.mp hlong)⟩
    · refine .inr (.inr ⟨str "invalid", ?_⟩)
      simp only [parseOne, htype]
      refine parseDuration_other ?_
      intro n unit u hunit hs
      exact hread ⟨n, unit, u, hunit, hs⟩
  | enum_ =>
    by_cases hmem : s ∈ k.values
    · exact .inl ⟨_, .enum_ htype hmem⟩
    · refine .inr (.inr ⟨str "unknown_enum", ?_⟩)
      simp only [parseOne, htype, hmem, if_false]

/-! ## What a key is given -/

/-- A source whose lookups give text or nothing, and files bytes or nothing. -/
structure TextSource where
  lookup : Str → Option Str
  readFile : Option (Str → Option Bytes) := none

def TextSource.source (src : TextSource) : Source where
  lookup name := (src.lookup name).map .str
  readFile := src.readFile

/-- `<KEY>_FILE` -/
def Key.file (k : Key) : Str := k.name ++ str "_FILE"

/-- The value of a key, empty when there is none. -/
def TextSource.own (src : TextSource) (k : Key) : Str := (src.lookup k.name).getD []

/-- The path of a secret's file, empty when there is none. -/
def TextSource.path (src : TextSource) (k : Key) : Str :=
  if k.secret ∧ src.readFile.isSome then (src.lookup k.file).getD [] else []

/-- The text of a file, without the end of its line. -/
def TextSource.content (src : TextSource) (path : Str) : Option Str :=
  (src.readFile.bind (· path)).bind trim

inductive Given where
  | unset
  | set (raw path : Str)
  /-- A value and a file. -/
  | conflict
  /-- A file that is not there or is no text. -/
  | unreadable (path : Str)
  deriving DecidableEq

/-- A text that is empty is none. -/
def Given.of (raw path : Str) : Given := if raw = [] then .unset else .set raw path

def TextSource.given (src : TextSource) (k : Key) : Given :=
  if src.path k = [] then .of (src.own k) []
  else if src.own k ≠ [] then .conflict
  else
    match src.content (src.path k) with
    | none => .unreadable (src.path k)
    | some raw => .of raw (src.path k)

/-- Only a secret has a file, and only of a source that reads files. -/
theorem secret_of_path {src : TextSource} {k : Key} (h : src.path k ≠ []) :
    k.secret = true ∧ src.readFile.isSome = true ∧ src.lookup k.file = some (src.path k) := by
  by_cases hcan : k.secret = true ∧ src.readFile.isSome = true
  · have hget : src.path k = (src.lookup k.file).getD [] := if_pos hcan
    refine ⟨hcan.1, hcan.2, ?_⟩
    cases hfound : src.lookup k.file with
    | none => exact absurd (by rw [hget, hfound]; rfl) h
    | some path => rw [hget, hfound, Option.getD_some]
  · exact absurd (if_neg hcan) h

theorem given_of_no_path {src : TextSource} {k : Key} (h : src.path k = []) :
    src.given k = .of (src.own k) [] := if_pos h

/-- A file that cannot be read is a secret's. -/
theorem given_unreadable {src : TextSource} {k : Key} {path : Str}
    (h : src.given k = .unreadable path) : src.path k ≠ [] ∧ path = src.path k := by
  by_cases hpath : src.path k = []
  · rw [given_of_no_path hpath, Given.of] at h
    split at h <;> cases h
  · refine ⟨hpath, ?_⟩
    rw [TextSource.given, if_neg hpath] at h
    split at h
    · cases h
    split at h
    · cases h
      rfl
    · rw [Given.of] at h
      split at h <;> cases h

/-! ## One key -/

def conflictProblem (k : Key) : Problem :=
  { key := k.name, kind := str "conflict", expected := str "either " ++ k.name ++
    str " or " ++ k.name ++ str "_FILE" }

def fileProblem (k : Key) (path : Str) : Problem :=
  { key := k.file, kind := str "invalid", expected := str "a readable file", got := .str path }

/-- A value is wrong, or missing; a secret's is not shown. -/
def valueProblem (k : Key) (kind raw : Str) : Problem :=
  { key := k.name, kind, expected := expectedOf k, got := if k.secret then .str []
    else .str (raw.take 64) }

/-- What a key comes to. -/
inductive Verdict where
  | unset
  | value (v : Value) (secret : Option Secret)
  | problem (p : Problem)

def TextSource.verdict (src : TextSource) (k : Key) : Except Exc Verdict :=
  match src.given k with
  | .conflict => .ok (.problem (conflictProblem k))
  | .unreadable path => .ok (.problem (fileProblem k path))
  | .unset =>
      if k.required then .ok (.problem (valueProblem k (str "missing") []))
      else .ok (match k.default_ with | some d => .value d none | none => .unset)
  | .set raw path =>
      match parseOne k (.str raw) with
      | .error e => .error e
      | .ok (.error kind) => .ok (.problem (valueProblem k kind raw))
      | .ok (.ok v) => .ok (.value v (if k.secret then some ⟨.str raw, path⟩ else none))

/-- The values after one more key. -/
def Values.keep (k : Key) (v : Values) : Verdict → Values
  | .value x secret =>
      { v with vals := v.vals.set k.name x
               secrets := match secret with | some s => v.secrets.set k.name s | none => v.secrets }
  | _ => v

def Verdict.problems : Verdict → List Problem
  | .problem p => [p]
  | _ => []

/-- What is read of what is given; an empty text is as good as none. -/
def Reads (r : Except Problem (Option Json × Str)) (k : Key) : Given → Prop
  | .conflict => r = .error (conflictProblem k)
  | .unreadable path => r = .error (fileProblem k path)
  | .unset => ∃ path, r = .ok (none, path) ∨ r = .ok (some (.str []), path)
  | .set raw path => raw ≠ [] ∧ r = .ok (some (.str raw), path)

theorem reads_of (k : Key) (raw path : Str) :
    Reads (.ok (some (.str raw), path)) k (.of raw path) := by
  rw [Given.of]
  split
  · next h => exact ⟨path, .inr (by rw [h])⟩
  · next h => exact ⟨h, rfl⟩

/-- Without a path the key's own value is read. -/
theorem reads_own (src : TextSource) (k : Key) :
    Reads (.ok (src.source.lookup k.name, [])) k (.of (src.own k) []) := by
  simp only [TextSource.source, TextSource.own]
  cases src.lookup k.name with
  | none => exact ⟨[], .inl rfl⟩
  | some raw => exact reads_of k raw []

/-- A key is read as its source gives it. -/
theorem readKey_reads (o : Objects) (src : TextSource) (k : Key) :
    Reads (readKey o src.source k) k (src.given k) := by
  by_cases hpath : src.path k = []
  · have hread : readKey o src.source k = .ok (src.source.lookup k.name, []) := by
      unfold readKey
      simp only [TextSource.path, Key.file] at hpath
      simp only [TextSource.source]
      cases hsecret : k.secret with
      | false => rfl
      | true =>
      cases hfiles : src.readFile with
      | none => rfl
      | some read =>
      cases hfile : src.lookup (k.name ++ str "_FILE") with
      | none => rfl
      | some path =>
        simp only [hsecret, hfiles, hfile, Option.isSome_some, and_self, if_true,
          Option.getD_some] at hpath
        simp only [Option.map_some, hpath, if_true]
    rw [hread, given_of_no_path hpath]
    exact reads_own src k
  · obtain ⟨hsecret, hcan, hfile⟩ := secret_of_path hpath
    obtain ⟨read, hfiles⟩ := Option.isSome_iff_exists.mp hcan
    rw [Key.file] at hfile
    have hown : (src.source.lookup k.name).any o.truthy = true ↔ src.own k ≠ [] := by
      simp only [TextSource.source, TextSource.own]
      cases src.lookup k.name <;> simp [Objects.truthy]
    rw [TextSource.given, if_neg hpath]
    unfold readKey
    simp only [TextSource.source] at hown ⊢
    simp only [hsecret, hfiles, hfile, Option.map_some, if_neg hpath, hown]
    by_cases hset : src.own k ≠ []
    · simp only [if_pos hset]
      rfl
    · simp only [if_neg hset, TextSource.content, hfiles, Option.bind_some]
      cases (read (src.path k)).bind trim with
      | none => rfl
      | some raw => exact reads_of k raw _

/-- A key adds its value or its problem. -/
theorem parseKey_eq (o : Objects) (src : TextSource) (k : Key) (v : Values)
    (problems : List Problem) : parseKey o src.source k v problems =
    (src.verdict k).map fun r => (v.keep k r, problems ++ r.problems) := by
  have hunset : parseKey.unset k v problems =
    (if k.required then .ok (.problem (valueProblem k (str "missing") []))
      else .ok (match k.default_ with | some d => .value d none | none => .unset) :
      Except Exc Verdict).map
        fun r => (v.keep k r, problems ++ r.problems) := by
    unfold parseKey.unset
    cases k.required with
    | true =>
      simp [Except.map, Values.keep, Verdict.problems, valueProblem]
    | false => cases k.default_ <;> simp [Except.map, Values.keep, Verdict.problems]
  have hread := readKey_reads o src k
  unfold parseKey TextSource.verdict
  cases hgiven : src.given k with
  | unset =>
    rw [hgiven] at hread
    obtain ⟨path, hread | hread⟩ := hread <;> rw [hread] <;> exact hunset
  | conflict =>
    rw [hgiven] at hread
    rw [show readKey o src.source k = _ from hread]
    rfl
  | unreadable path =>
    rw [hgiven] at hread
    rw [show readKey o src.source k = _ from hread]
    rfl
  | set raw path =>
    rw [hgiven] at hread
    obtain ⟨hne, hread⟩ := hread
    rw [hread]
    have htruthy : o.truthy (.str raw) = true := by simpa [Objects.truthy] using hne
    simp only [htruthy, Bool.not_true, Bool.false_eq_true, if_false]
    cases parseOne k (.str raw) with
    | error e => rfl
    | ok r =>
    cases r with
    | error kind =>
      cases hsecret : k.secret <;>
        simp [bind, Except.bind, Except.map, Values.keep, Verdict.problems, valueProblem,
          hsecret, slice64, pure, Except.pure]
    | ok x => cases k.secret <;> simp [bind, Except.bind, Except.map, Values.keep,
        Verdict.problems, pure, Except.pure]

/-! ## All keys -/

/-- The values after some keys. -/
def Values.keepAll (v : Values) (rs : List (Key × Verdict)) : Values :=
  rs.foldl (fun v x => v.keep x.1 x.2) v

/-- A parse goes through its keys, in their order. -/
theorem parseKeys_eq (o : Objects) (src : TextSource) :
    ∀ (keys : List Key) (v : Values) (problems : List Problem),
    parseKeys o src.source keys v problems =
      (keys.mapM src.verdict).map fun rs =>
      (v.keepAll (keys.zip rs), problems ++ rs.flatMap Verdict.problems)
  | [], v, problems => by simp [parseKeys, Values.keepAll, pure, Except.pure, Except.map]
  | k :: ks, v, problems => by
      rw [parseKeys, parseKey_eq, List.mapM_cons]
      cases src.verdict k with
      | error e => rfl
      | ok r =>
        simp only [Except.map, bind, Except.bind]
        rw [parseKeys_eq o src ks]
        cases ks.mapM src.verdict with
        | error e => rfl
        | ok rs => simp [Except.map, pure, Except.pure, Values.keepAll]

/-- What a verdict leaves under its key. -/
def Verdict.value? : Verdict → Option Value
  | .value x _ => some x
  | _ => none

def Verdict.secret? : Verdict → Option Secret
  | .value _ secret => secret
  | _ => none

/-- Keeping a key's value changes no other key. -/
theorem keep_of_ne (v : Values) {k : Key} (r : Verdict) {name : Str} (h : name ≠ k.name) :
    (v.keep k r).vals.get? name = v.vals.get? name ∧
    (v.keep k r).secrets.get? name = v.secrets.get? name := by
  cases r with
  | unset => exact ⟨rfl, rfl⟩
  | problem p => exact ⟨rfl, rfl⟩
  | value x secret => cases secret <;> simp [Values.keep, Dict.get?_set_of_ne _ _ h]

/-- What is kept of a key is its value. -/
theorem keep_self {v : Values} {k : Key} (r : Verdict) (hvals : v.vals.get? k.name = none)
    (hsecrets : v.secrets.get? k.name = none) :
    (v.keep k r).vals.get? k.name = r.value? ∧ (v.keep k r).secrets.get? k.name = r.secret? := by
  cases r with
  | unset => exact ⟨hvals, hsecrets⟩
  | problem p => exact ⟨hvals, hsecrets⟩
  | value x secret => cases secret <;> simp [Values.keep, Verdict.value?, Verdict.secret?, hsecrets]

/-- Keeping other keys changes nothing of a name. -/
theorem keepAll_of_not_mem : ∀ {rs : List (Key × Verdict)} {name : Str}, name ∉ rs.map
    (·.1.name) → ∀ v : Values, (v.keepAll rs).vals.get? name = v.vals.get? name ∧
    (v.keepAll rs).secrets.get? name = v.secrets.get? name
  | [], _, _, _ => ⟨rfl, rfl⟩
  | x :: rs, name, h, v => by
      rw [List.map_cons, List.mem_cons, not_or] at h
      have hfirst := keep_of_ne v x.2 h.1
      have hrest := keepAll_of_not_mem h.2 (v.keep x.1 x.2)
      exact ⟨hrest.1.trans hfirst.1, hrest.2.trans hfirst.2⟩

/-- Each key keeps its own. -/
theorem keepAll_of_mem {rs : List (Key × Verdict)} (hnodup : (rs.map (·.1.name)).Nodup) {v : Values}
    (hnone : ∀ x ∈ rs, v.vals.get? x.1.name = none ∧ v.secrets.get? x.1.name = none)
    {k : Key} {r : Verdict} (hmem : (k, r) ∈ rs) :
    (v.keepAll rs).vals.get? k.name = r.value? ∧
    (v.keepAll rs).secrets.get? k.name = r.secret? := by
  induction rs generalizing v with
  | nil => cases hmem
  | cons x rs ih =>
    rw [List.map_cons, List.nodup_cons] at hnodup
    have hempty := hnone x List.mem_cons_self
    rcases List.mem_cons.mp hmem with rfl | hmem
    · have hself := keep_self r hempty.1 hempty.2
      have hrest := keepAll_of_not_mem hnodup.1 (v.keep k r)
      exact ⟨hrest.1.trans hself.1, hrest.2.trans hself.2⟩
    · refine ih hnodup.2 (v := v.keep x.1 x.2) ?_ hmem
      intro y hy
      have hne : y.1.name ≠ x.1.name := fun h => hnodup.1 (h ▸ List.mem_map_of_mem hy)
      have hkeep := keep_of_ne v x.2 hne
      have hy' := hnone y (List.mem_cons_of_mem _ hy)
      exact ⟨hkeep.1.trans hy'.1, hkeep.2.trans hy'.2⟩

/-- A declaration that passes its check names each key once. -/
theorem nodup_of_checked {keys : List Key} (h : checkDeclaration keys = []) :
    (keys.map Key.name).Nodup := by
  have hfrom : ∀ (keys : List Key) (seen : List Str), checkDeclarationFrom seen keys = [] →
      (keys.map Key.name).Nodup ∧ ∀ k ∈ keys, k.name ∉ seen := by
    intro keys
    induction keys with
    | nil => exact fun _ _ => ⟨List.nodup_nil, by simp⟩
    | cons k ks ih =>
      intro seen hnil
      rw [checkDeclarationFrom, List.append_eq_nil_iff, Option.toList_eq_nil_iff] at hnil
      obtain ⟨hnodup, hseen⟩ := ih _ hnil.2
      have hself : k.name ∉ seen := by
        intro hmem
        have hproblem := hnil.1
        unfold declarationProblem at hproblem
        rw [if_pos hmem] at hproblem
        split at hproblem
        · cases hproblem
        split at hproblem <;> cases hproblem
      refine ⟨List.nodup_cons.mpr ⟨?_, hnodup⟩, ?_⟩
      · intro hmem
        obtain ⟨k', hk', hname⟩ := List.mem_map.mp hmem
        exact hseen k' hk' (by rw [hname]; exact List.mem_cons_self)
      · intro k' hk'
        rcases List.mem_cons.mp hk' with rfl | hk'
        · exact hself
        · exact fun hmem => hseen k' hk' (List.mem_cons_of_mem _ hmem)
  exact (hfrom keys [] h).1

/-- A parse of a declaration that passes its check, by what its keys come to. -/
theorem parse_eq (o : Objects) {keys : List Key} (hchecked : checkDeclaration keys = [])
    (src : TextSource) : parse o keys src.source = (keys.mapM src.verdict).map fun rs =>
      if rs.flatMap Verdict.problems = [] then .ok (({ keys } : Values).keepAll (keys.zip rs))
      else .error (rs.flatMap Verdict.problems) := by
  rw [parse, if_neg (not_not.mpr hchecked), parseChecked, parseKeys_eq]
  cases keys.mapM src.verdict <;> rfl

/-! ## What a parse owes -/

/-- The key's value is wrong, or missing. -/
def Faulty (src : TextSource) (k : Key) : Prop :=
  match src.given k with
  | .unset => k.required = true
  | .set raw _ => ∀ v, ¬ Fits k raw v
  | .conflict => True
  | .unreadable _ => True

/-- A value and a secret are those that the source or the declaration gives a key. -/
def Holds (src : TextSource) (k : Key) (value : Option Value) (secret : Option Secret) : Prop :=
  match src.given k with
  | .unset => value = k.default_ ∧ secret = none
  | .set raw path => (∃ x, Fits k raw x ∧ value = some x) ∧
      secret = if k.secret then some ⟨.str raw, path⟩ else none
  | .conflict => False
  | .unreadable _ => False

/-- A problem of a key: it names the key, or the key of its file, and what it expects is
the declaration's text. -/
def Problem.Of (k : Key) (p : Problem) : Prop :=
  (p.key = k.name ∧ (p.expected = expectedOf k ∨ p.expected = (conflictProblem k).expected)) ∨
    (k.secret = true ∧ p.key = k.file ∧ p.expected = str "a readable file")

/-- Two sources that differ in secrets only: in their values and in what their files
hold. -/
structure SameApart (keys : List Key) (a b : TextSource) : Prop where
  files : a.readFile.isSome = b.readFile.isSome
  lookup : ∀ name, (∀ k ∈ keys, k.secret = true → k.name ≠ name) → a.lookup name = b.lookup name

/-- No problem shows a secret: whatever else the secrets were, a problem that says the
same of the same key would show the same. -/
def Conceals (o : Objects) (keys : List Key) (src : TextSource) (problems : List Problem) : Prop :=
  ∀ src' problems', SameApart keys src src' → parse o keys src'.source = .ok (.error problems') →
    ∀ p ∈ problems, ∀ p' ∈ problems', p.key = p'.key → p.kind = p'.kind →
    p.expected = p'.expected → p.got = p'.got

/-- A parse that reports everything: values that hold what each key is given, or one
problem for each faulty key and none for others, and nothing of a secret. -/
def Reports (o : Objects) (keys : List Key) (src : TextSource) :
    Except Exc (Except (List Problem) Values) → Prop
  | .ok (.ok v) => ∀ k ∈ keys, ¬ Faulty src k ∧ Holds src k (v.vals.get? k.name)
      (v.secrets.get? k.name)
  | .ok (.error problems) =>
      (∃ faulty, faulty ≠ [] ∧ faulty.Sublist keys ∧ (∀ k ∈ keys, k ∈ faulty ↔ Faulty src k) ∧
        List.Forall₂ Problem.Of faulty problems) ∧ Conceals o keys src problems
  | .error _ => False

/-- What a parse needs for it: no text raises, and no file that cannot be read is named by
another secret. -/
structure Reportable (keys : List Key) (src : TextSource) : Prop where
  read : ∀ k ∈ keys, ∀ raw path, src.given k = .set raw path → ¬ Raising k raw
  apart : ∀ k ∈ keys, ∀ path, src.given k = .unreadable path → ∀ k' ∈ keys, k'.secret = true →
    k'.name ≠ k.file

/-! ### Verdicts -/

/-- **One key**: its text raises, or it is faulty and has its problem, or it has what it is
given. -/
theorem verdict_cases (src : TextSource) (k : Key) :
    ((∃ raw path, src.given k = .set raw path ∧ Raising k raw) ∧ ∃ e, src.verdict k = .error e) ∨
    (Faulty src k ∧ ∃ p, src.verdict k = .ok (.problem p) ∧ p.Of k) ∨
    (¬ Faulty src k ∧ ∃ r, src.verdict k = .ok r ∧ r.problems = [] ∧
      Holds src k r.value? r.secret?) := by
  unfold Faulty Holds TextSource.verdict
  cases hgiven : src.given k with
  | conflict => exact .inr (.inl ⟨trivial, _, rfl, .inl ⟨rfl, .inr rfl⟩⟩)
  | unreadable path =>
    have hsecret := (secret_of_path (given_unreadable hgiven).1).1
    exact .inr (.inl ⟨trivial, _, rfl, .inr ⟨hsecret, rfl, rfl⟩⟩)
  | unset =>
    cases hrequired : k.required with
    | true => exact .inr (.inl ⟨rfl, _, rfl, .inl ⟨rfl, .inl rfl⟩⟩)
    | false =>
      refine .inr (.inr ⟨by simp, _, rfl, ?_⟩)
      cases k.default_ <;> exact ⟨rfl, rfl, rfl⟩
  | set raw path =>
    rcases parseOne_cases k raw with ⟨v, hfits⟩ | hraising | ⟨kind, hkind⟩
    · simp only [parseOne_of_fits hfits]
      refine .inr (.inr ⟨fun h => h v hfits, _, rfl, rfl, ?_⟩)
      exact ⟨⟨v, hfits, rfl⟩, rfl⟩
    · obtain ⟨e, he⟩ := parseOne_of_raising hraising
      exact .inl ⟨⟨raw, path, rfl, hraising⟩, e, by simp only [he]⟩
    · simp only [hkind]
      refine .inr (.inl ⟨?_, _, rfl, .inl ⟨rfl, .inl rfl⟩⟩)
      intro v hfits
      rw [parseOne_of_fits hfits] at hkind
      cases hkind

/-- A key whose text raises has no verdict. -/
theorem verdict_raises {src : TextSource} {k : Key} {raw path : Str}
    (hgiven : src.given k = .set raw path) (h : Raising k raw) : ∃ e, src.verdict k = .error e := by
  obtain ⟨e, he⟩ := parseOne_of_raising h
  exact ⟨e, by simp only [TextSource.verdict, hgiven, he]⟩

/-- A key whose text does not raise has a verdict. -/
theorem exists_verdict {src : TextSource} {k : Key}
    (h : ∀ raw path, src.given k = .set raw path → ¬ Raising k raw) :
    ∃ r, src.verdict k = .ok r := by
  rcases verdict_cases src k with ⟨⟨raw, path, hgiven, hraising⟩, -⟩ | ⟨-, p, hp, -⟩ | ⟨-, r, hr, -⟩
  · exact absurd hraising (h raw path hgiven)
  · exact ⟨_, hp⟩
  · exact ⟨_, hr⟩

/-- The problem of a key is among those of all. -/
theorem mem_problems {src : TextSource} {keys : List Key} {rs : List Verdict}
    (hrs : keys.mapM src.verdict = .ok rs) {k : Key} (hk : k ∈ keys)
    {p : Problem} (h : src.verdict k = .ok (.problem p)) : p ∈ rs.flatMap Verdict.problems := by
  obtain ⟨r, hr, hverdict⟩ := exists_mem_zip_of_mapM hrs k hk
  rw [h] at hverdict
  obtain rfl := Except.ok.inj hverdict
  exact List.mem_flatMap.mpr ⟨_, (List.of_mem_zip hr).2, List.mem_singleton.mpr rfl⟩

theorem verdict_of_unreadable {src : TextSource} {k : Key} {path : Str}
    (h : src.given k = .unreadable path) :
    src.verdict k = .ok (.problem (fileProblem k path)) := by rw [TextSource.verdict, h]

/-- Verdicts have one problem for each faulty key, in the order of the keys. -/
theorem exists_faulty {src : TextSource} {keys : List Key} {rs : List Verdict}
    (h : List.Forall₂ (fun k r => src.verdict k = .ok r) keys rs) :
    ∃ faulty, faulty.Sublist keys ∧ (∀ k ∈ keys, k ∈ faulty ↔ Faulty src k) ∧
      List.Forall₂ Problem.Of faulty (rs.flatMap Verdict.problems) := by
  induction h with
  | nil => exact ⟨[], .slnil, by simp, .nil⟩
  | @cons k r ks rs hr hrest ih =>
    obtain ⟨faulty, hsub, hmem, hof⟩ := ih
    rcases verdict_cases src k with ⟨-, e, he⟩ | ⟨hfaulty, p, hp, hof'⟩ | ⟨hsound, r',
      hr', hnone, -⟩
    · rw [hr] at he
      cases he
    · rw [hr] at hp
      obtain rfl := Except.ok.inj hp
      refine ⟨k :: faulty, hsub.cons_cons k, List.forall_mem_cons.mpr ⟨?_, ?_⟩, .cons hof' hof⟩
      · simp [hfaulty]
      · intro k' hk'
        by_cases heq : k' = k
        · simp [heq, hfaulty]
        · simp [heq, hmem k' hk']
    · rw [hr] at hr'
      obtain rfl := Except.ok.inj hr'
      refine ⟨faulty, hsub.cons k, List.forall_mem_cons.mpr ⟨?_, hmem⟩, by simpa [hnone] using hof⟩
      exact ⟨fun hk => absurd ((hmem k (hsub.subset hk)).mp hk) hsound, fun hk => absurd hk hsound⟩

/-! ### Secrets -/

/-- No text that a value is asked for is that of a file. -/
theorem expected_ne_file (k : Key) : expectedOf k ≠ str "a readable file" := by
  unfold expectedOf
  cases k.type with
  | string => exact (by decide : str "string" ≠ str "a readable file")
  | integer => exact (by decide : str "a base-10 integer" ≠ str "a readable file")
  | boolean => exact (by decide : str "true or false" ≠ str "a readable file")
  | duration => exact (by decide : str "an integer with ms, s, m or h" ≠ str "a readable file")
  | enum_ =>
      exact fun h => absurd (congrArg List.head? h) (by decide : some (chr 'o') ≠ some (chr 'a'))

/-- A key that is no secret is given its own value. -/
theorem given_plain {src : TextSource} {k : Key} (h : k.secret = false) :
    src.given k = .of (src.own k) [] :=
  given_of_no_path (by_contra fun hpath => absurd (secret_of_path hpath).1 (by simp [h]))

/-- The value that a problem shows: of a secret none. -/
def shown (src : TextSource) (k : Key) : Json :=
  if k.secret then .str [] else .str ((src.own k).take 64)

/-- A problem is about the key's value, or about its file. -/
theorem problem_cases {src : TextSource} {k : Key} {p : Problem}
    (h : src.verdict k = .ok (.problem p)) :
    (p.key = k.name ∧ p.expected ≠ str "a readable file" ∧ p.got = shown src k) ∨
      (p = fileProblem k (src.path k) ∧ src.given k = .unreadable (src.path k)) := by
  unfold TextSource.verdict at h
  cases hgiven : src.given k with
  | conflict =>
    rw [hgiven] at h
    obtain rfl : conflictProblem k = p := Verdict.problem.inj (Except.ok.inj h)
    have hsecret : k.secret = true := by
      by_contra hplain
      rw [given_plain (Bool.eq_false_iff.mpr hplain), Given.of] at hgiven
      split at hgiven <;> cases hgiven
    refine .inl ⟨rfl, ?_, by rw [shown, if_pos hsecret]; rfl⟩
    exact fun h => absurd (congrArg (·[1]?) h) (by decide : some (chr 'i') ≠ _)
  | unreadable path =>
    obtain ⟨-, rfl⟩ := given_unreadable hgiven
    rw [hgiven] at h
    exact .inr ⟨(Verdict.problem.inj (Except.ok.inj h)).symm, rfl⟩
  | unset =>
    rw [hgiven] at h
    cases hrequired : k.required with
    | false =>
      rw [hrequired] at h
      cases hdefault : k.default_ <;> rw [hdefault] at h <;> cases h
    | true =>
      rw [hrequired] at h
      obtain rfl : valueProblem k (str "missing") [] = p := Verdict.problem.inj (Except.ok.inj h)
      refine .inl ⟨rfl, expected_ne_file k, ?_⟩
      rw [shown]
      cases hsecret : k.secret with
      | true => simp [valueProblem, hsecret]
      | false =>
        rw [given_plain hsecret, Given.of] at hgiven
        have hown : src.own k = [] := by
          by_contra hne
          rw [if_neg hne] at hgiven
          cases hgiven
        simp [valueProblem, hsecret, hown]
  | set raw path =>
    rw [hgiven] at h
    have hraw : k.secret = false → raw = src.own k := by
      intro hsecret
      rw [given_plain hsecret, Given.of] at hgiven
      split at hgiven
      · cases hgiven
      · exact (Given.set.inj hgiven).1.symm
    cases hone : parseOne k (.str raw) with
    | error e =>
      simp only [hone] at h
      cases h
    | ok r =>
    cases r with
    | ok x =>
      simp only [hone] at h
      cases h
    | error kind =>
      simp only [hone] at h
      obtain rfl : valueProblem k kind raw = p := Verdict.problem.inj (Except.ok.inj h)
      refine .inl ⟨rfl, expected_ne_file k, ?_⟩
      rw [shown]
      cases hsecret : k.secret with
      | true => simp [valueProblem, hsecret]
      | false => simp [valueProblem, hsecret, hraw hsecret]

theorem name_of_file {k k' : Key} (h : k.file = k'.file) :
    k.name = k'.name := List.append_cancel_right h

/-- **Nothing of a secret is shown**, where no unreadable file is named by another
secret. -/
theorem conceals {o : Objects} {keys : List Key} (hchecked : checkDeclaration keys = [])
    {src : TextSource} (hapart : ∀ k ∈ keys, ∀ path, src.given k = .unreadable path →
      ∀ k' ∈ keys, k'.secret = true → k'.name ≠ k.file)
    {rs : List Verdict} (hrs : keys.mapM src.verdict = .ok rs) :
    Conceals o keys src (rs.flatMap Verdict.problems) := by
  have hnodup := nodup_of_checked hchecked
  have hsame : ∀ k ∈ keys, ∀ k' ∈ keys, k.name = k'.name → k = k' := fun k hk k' hk' h =>
    List.inj_on_of_nodup_map hnodup hk hk' h
  have horigin : ∀ {src : TextSource} {rs : List Verdict}, keys.mapM src.verdict = .ok rs →
      ∀ p ∈ rs.flatMap Verdict.problems, ∃ k ∈ keys, src.verdict k = .ok (.problem p) := by
    intro src rs hrs p hp
    obtain ⟨r, hr, hpr⟩ := List.mem_flatMap.mp hp
    obtain ⟨k, hk, hverdict⟩ := exists_of_mem_mapM hrs r hr
    cases r with
    | problem q =>
      obtain rfl : p = q := List.mem_singleton.mp hpr
      exact ⟨k, hk, hverdict⟩
    | unset => cases hpr
    | value x s => cases hpr
  intro src' problems' hsrc' hparse p hp p' hp' hkey hkind hexpected
  rw [parse_eq o hchecked, map_eq_ok_iff] at hparse
  obtain ⟨rs', hrs', hproblems'⟩ := hparse
  obtain rfl : rs'.flatMap Verdict.problems = problems' := by
    split at hproblems'
    · cases hproblems'
    · exact Except.error.inj hproblems'
  obtain ⟨k, hk, hverdict⟩ := horigin hrs p hp
  obtain ⟨k', hk', hverdict'⟩ := horigin hrs' p' hp'
  rcases problem_cases hverdict with ⟨hname, hvalue, hgot⟩ | ⟨rfl, hgiven⟩ <;>
    rcases problem_cases hverdict' with ⟨hname', hvalue', hgot'⟩ | ⟨rfl, hgiven'⟩
  · -- both about a value: of one key, a secret or not
    obtain rfl := hsame k hk k' hk' (by rw [← hname, hkey, hname'])
    rw [hgot, hgot', shown, shown]
    cases hsecret : k.secret with
    | true => rfl
    | false =>
      have hlookup : src.lookup k.name = src'.lookup k.name := by
        refine hsrc'.lookup _ ?_
        intro s hs hssecret hsname
        rw [hsame s hs k hk hsname, hsecret] at hssecret
        cases hssecret
      simp only [TextSource.own, hlookup]
  · exact absurd hexpected hvalue
  · exact absurd hexpected.symm hvalue'
  · -- both about a file: of one secret, named by no secret
    obtain rfl := hsame k hk k' hk' (name_of_file hkey)
    have hpath := secret_of_path (given_unreadable hgiven).1
    have hpath' := secret_of_path (given_unreadable hgiven').1
    have hlookup := hsrc'.lookup k.file (hapart k hk _ hgiven)
    rw [hpath.2.2, hpath'.2.2] at hlookup
    simp only [fileProblem, Option.some.inj hlookup]

/-! ## Texts that raise and secrets that are shown -/

/-- A text that raises begins with a digit or a sign. -/
theorem head_of_raising {k : Key} {s : Str} (h : Raising k s) :
    ∃ c rest, s = c :: rest ∧ (isDigit c = true ∨ c = chr '-') := by
  have hnat : ∀ n u, ∃ c rest, natText n ++ u = c :: rest ∧ (isDigit c = true ∨ c = chr '-') := by
    intro n u
    obtain ⟨c, rest, hcons, hdigit⟩ := natText_head n
    exact ⟨c, rest ++ u, by rw [hcons]; rfl, .inl hdigit⟩
  cases h with
  | @integer n => exact intText_head n
  | @count n unit u => exact hnat n u
  | @long n unit u => exact hnat n u

/-- The source with another path under one name, no other secrets, and no readable
file. -/
def TextSource.withPath (src : TextSource) (keys : List Key) (name path : Str) : TextSource where
  lookup n := if n = name then some path else if ∃ s ∈ keys, s.secret = true ∧
    s.name = n then none else src.lookup n
  readFile := src.readFile.map fun _ _ => none

section
variable {keys : List Key} {src : TextSource} {k k' : Key} (hk : k ∈ keys)
  (hk' : k' ∈ keys) (hsecret' : k'.secret = true) (hname : k'.name = k.file)

include hk' hsecret' hname in
/-- Another path for one file changes that setting only. -/
theorem sameApart_withPath (path : Str) : SameApart keys src (src.withPath keys k.file path) where
  files := by simp [TextSource.withPath]
  lookup := by
    intro n hn
    have hne : n ≠ k.file := fun h => hn k' hk' hsecret' (h ▸ hname)
    have hnone : ¬ ∃ s ∈ keys, s.secret = true ∧ s.name = n := fun ⟨s, hs, hsecret, heq⟩ =>
      hn s hs hsecret heq
    simp only [TextSource.withPath, if_neg hne, if_neg hnone]

include hk in
/-- The other path is read in vain. -/
theorem given_withPath (hpath : src.path k ≠ []) {path : Str} (hne : path ≠ []) :
    (src.withPath keys k.file path).given k = .unreadable path := by
  obtain ⟨hsecret, hfiles, -⟩ := secret_of_path hpath
  have hself : k.name ≠ k.file := fun h => absurd (congrArg List.length h) (by simp [Key.file, str])
  have hpath' : (src.withPath keys k.file path).path k = path := by
    simp [TextSource.path, TextSource.withPath, hsecret, hfiles]
  have hown : (src.withPath keys k.file path).own k = [] := by
    have hsome : ∃ s ∈ keys, s.secret = true ∧ s.name = k.name := ⟨k, hk, hsecret, rfl⟩
    simp only [TextSource.own, TextSource.withPath, if_neg hself, if_pos hsome, Option.getD_none]
  have hcontent : (src.withPath keys k.file path).content path = none := by
    obtain ⟨read, hread⟩ := Option.isSome_iff_exists.mp hfiles
    simp [TextSource.content, TextSource.withPath, hread]
  rw [TextSource.given, hpath', if_neg hne, hown, if_neg (not_not.mpr rfl), hcontent]

/-- With another path no text raises, where none did. -/
theorem withPath_read (hread : ∀ q ∈ keys, ∀ raw path, src.given q = .set raw path →
    ¬ Raising q raw) {c : CodePoint} (hc : isDigit c = false ∧ c ≠ chr '-') {q : Key} (hq :
    q ∈ keys) {raw path : Str} (hgiven :
    (src.withPath keys k.file [c]).given q = .set raw path) : ¬ Raising q raw := by
  by_cases hpath : (src.withPath keys k.file [c]).path q = []
  swap
  · -- every file is unreadable
    have hcontent : ∀ path, (src.withPath keys k.file [c]).content path = none := by
      intro path
      cases hfiles : src.readFile <;> simp [TextSource.content, TextSource.withPath, hfiles]
    rw [TextSource.given, if_neg hpath, hcontent] at hgiven
    split at hgiven <;> cases hgiven
  have hset := hgiven
  rw [given_of_no_path hpath, Given.of] at hset
  split at hset
  · cases hset
  · next hne =>
    obtain ⟨rfl, -⟩ := Given.set.inj hset
    simp only [TextSource.own, TextSource.withPath] at hne ⊢
    by_cases hfile : q.name = k.file
    · simp only [if_pos hfile, Option.getD_some]
      intro hraising
      obtain ⟨d, rest, hcons, hd⟩ := head_of_raising hraising
      obtain rfl := (List.cons.inj hcons).1
      rcases hd with hdigit | hsign
      · rw [hc.1] at hdigit
        cases hdigit
      · exact hc.2 hsign
    · by_cases hsecret : ∃ s ∈ keys, s.secret = true ∧ s.name = q.name
      · simp [if_neg hfile, if_pos hsecret] at hne
      · simp only [if_neg hfile, if_neg hsecret] at hne ⊢
        have hplain : q.secret = false := by
          by_contra h
          exact hsecret ⟨q, hq, by simpa using h, rfl⟩
        refine hread q hq _ [] ?_
        rw [given_plain hplain, Given.of]
        exact if_neg hne

include hk hk' hsecret' hname in
/-- **A secret that is shown**: the path of an unreadable file that is another secret's
value. -/
theorem not_conceals {o : Objects} (hchecked : checkDeclaration keys = [])
    (hread : ∀ q ∈ keys, ∀ raw path, src.given q = .set raw path → ¬ Raising q raw) {path : Str}
    (hgiven : src.given k = .unreadable path) {problems : List Problem}
    (hmem : fileProblem k path ∈ problems) : ¬ Conceals o keys src problems := by
  intro hconceals
  obtain ⟨c, hc, hne⟩ : ∃ c : CodePoint, (isDigit c = false ∧ c ≠ chr '-') ∧ path ≠ [c] := by
    by_cases hx : path = [chr 'x']
    · exact ⟨chr 'y', by decide, by rw [hx]; decide⟩
    · exact ⟨chr 'x', by decide, hx⟩
  have hother : (src.withPath keys k.file [c]).given k = .unreadable [c] :=
    given_withPath hk (given_unreadable hgiven).1 (List.cons_ne_nil c [])
  obtain ⟨rs, hrs⟩ := exists_mapM fun q hq => exists_verdict fun raw p h =>
    withPath_read (k := k) hread hc hq h
  have hproblem := mem_problems hrs hk (verdict_of_unreadable hother)
  have hparse : parse o keys (src.withPath keys k.file [c]).source =
    .ok (.error (rs.flatMap Verdict.problems)) := by
    rw [parse_eq o hchecked, hrs]
    exact congrArg Except.ok (if_neg (List.ne_nil_of_mem hproblem))
  have hgot := hconceals _ _ (sameApart_withPath hk' hsecret' hname [c]) hparse _ hmem _
    hproblem rfl rfl rfl
  exact hne (Json.str.inj hgot)

end

/-- **When a parse reports everything.** For every declaration that passes its check and
every source of texts: `parse` returns values that hold what each key is given, or raises
`ConfigError` with one problem for each faulty key that shows nothing of a secret, if and
only if no text raises and no file that cannot be read is named by another secret. -/
theorem parse_reports_iff (o : Objects)
    {keys : List Key} (hchecked : checkDeclaration keys = []) (src : TextSource) :
    Reports o keys src (parse o keys src.source) ↔ Reportable keys src := by
  rw [parse_eq o hchecked]
  constructor
  · intro hreports
    cases hrs : keys.mapM src.verdict with
    | error e => exact absurd hreports (by rw [hrs]; exact id)
    | ok rs =>
    have hread : ∀ k ∈ keys, ∀ raw path, src.given k = .set raw path → ¬ Raising k raw := by
      intro k hk raw path hgiven hraising
      obtain ⟨e, he⟩ := verdict_raises hgiven hraising
      obtain ⟨r, -, hr⟩ := exists_mem_zip_of_mapM hrs k hk
      rw [he] at hr
      cases hr
    refine ⟨hread, ?_⟩
    intro k hk path hgiven k' hk' hsecret' hname
    have hmem := mem_problems hrs hk (verdict_of_unreadable hgiven)
    rw [hrs] at hreports
    simp only [Except.map, if_neg (List.ne_nil_of_mem hmem)] at hreports
    exact not_conceals hk hk' hsecret' hname hchecked hread hgiven hmem hreports.2
  · rintro ⟨hread, hapart⟩
    obtain ⟨rs, hrs⟩ := exists_mapM fun k hk => exists_verdict (hread k hk)
    obtain ⟨faulty, hsub, hmem, hof⟩ := exists_faulty (mapM_eq_ok_iff.mp hrs)
    rw [hrs]
    simp only [Except.map]
    by_cases hnone : rs.flatMap Verdict.problems = []
    · rw [if_pos hnone]
      intro k hk
      obtain ⟨r, hr, hverdict⟩ := exists_mem_zip_of_mapM hrs k hk
      rcases verdict_cases src k with ⟨-, e, he⟩ | ⟨-, p, hp, -⟩ | ⟨hsound, r', hr', -, hholds⟩
      · rw [hverdict] at he
        cases he
      · exact absurd hnone (List.ne_nil_of_mem (mem_problems hrs hk hp))
      · rw [hverdict] at hr'
        obtain rfl := Except.ok.inj hr'
        have hlength : keys.length = rs.length := (mapM_eq_ok_iff.mp hrs).length_eq
        have hnames : ((keys.zip rs).map (·.1.name)).Nodup := by
          have hkeys : (keys.zip rs).map (·.1.name) = keys.map Key.name := by
            conv_rhs => rw [← List.map_fst_zip hlength.le, List.map_map]
            rfl
          rw [hkeys]
          exact nodup_of_checked hchecked
        have hkeep := keepAll_of_mem hnames (v := { keys }) (fun _ _ => ⟨rfl, rfl⟩) hr
        rw [hkeep.1, hkeep.2]
        exact ⟨hsound, hholds⟩
    · rw [if_neg hnone]
      refine ⟨⟨faulty, ?_, hsub, hmem, hof⟩, conceals hchecked hapart hrs⟩
      rintro rfl
      exact hnone (List.forall₂_nil_left_iff.mp hof)

/-- Objects that no text comes to. -/
def bareObjects : Objects :=
  ⟨fun _ => .error .valueError, fun _ => false, fun _ _ => false, fun _ _ => false,
    fun _ => [], fun _ => []⟩

/-- Keys that are given texts which fit them are reported. -/
theorem reportable_of_fits {keys : List Key} {src : TextSource}
    (h : ∀ k ∈ keys, ∃ raw v, src.given k = .set raw [] ∧ Fits k raw v) : Reportable keys src := by
  refine ⟨fun k hk raw path hgiven => ?_, fun k hk path hgiven => ?_⟩
  · obtain ⟨raw', v, hset, hfits⟩ := h k hk
    obtain ⟨rfl, -⟩ := Given.set.inj (hset.symm.trans hgiven)
    exact fun hraising => not_fits_of_raising hraising v hfits
  · obtain ⟨raw', v, hset, -⟩ := h k hk
    rw [hset] at hgiven
    cases hgiven

def timeoutKey : Key := { name := str "TIMEOUT", type := .duration }

def retriesKey : Key := { name := str "RETRIES", type := .integer, max := some 9 }

def retryKeys : List Key := [timeoutKey, retriesKey]

theorem retryKeys_checked : checkDeclaration retryKeys = [] := by
  have htimeout : declarationProblem [] timeoutKey = none := by decide +kernel
  have hretries : declarationProblem [timeoutKey.name] retriesKey = none := by decide +kernel
  rw [checkDeclaration, retryKeys, checkDeclarationFrom, htimeout, checkDeclarationFrom, hretries]
  rfl

def retrySource : TextSource where
  lookup := fun name =>
    if name = str "TIMEOUT" then some (str "30s")
    else if name = str "RETRIES" then some (str "3") else none

theorem retrySource_fits :
    ∀ k ∈ retryKeys, ∃ raw v, retrySource.given k = .set raw [] ∧ Fits k raw v := by
  have htimeout : Fits timeoutKey (natText 30 ++ str "s") (.duration (30 * 1000000 : Nat)) :=
    .duration rfl (by decide) (by decide) (by decide)
  have hretries : Fits retriesKey (intText 3) (.int 3) :=
    .integer rfl (by decide) (by decide) (by decide)
  exact List.forall_mem_cons.mpr ⟨⟨str "30s", _, by decide +kernel, htimeout⟩,
    List.forall_mem_singleton.mpr ⟨str "3", _, by decide +kernel, hretries⟩⟩

/-- Thirty seconds and three retries are reported. -/
theorem parse_reports_iff_retries :
    Reports bareObjects retryKeys retrySource (parse bareObjects retryKeys retrySource.source) :=
  (parse_reports_iff bareObjects retryKeys_checked retrySource).mpr
    (reportable_of_fits retrySource_fits)

theorem timeout_checked : checkDeclaration [timeoutKey] = [] := by
  have hproblem : declarationProblem [] timeoutKey = none := by decide +kernel
  rw [checkDeclaration, checkDeclarationFrom, hproblem]
  rfl

def timeoutSource (raw : String) : TextSource where
  lookup := fun name => if name = str "TIMEOUT" then some (str raw) else none

/-- **A duration that is not refused** but raises: `2^63 - 1` hours, which the pattern and
the bound of a duration allow. -/
theorem long_duration_raises : checkDeclaration [timeoutKey] = [] ∧
    parse bareObjects [timeoutKey] (timeoutSource "9223372036854775807h").source =
    .error .overflowError ∧ ¬ Reports bareObjects [timeoutKey]
    (timeoutSource "9223372036854775807h")
      (parse bareObjects [timeoutKey] (timeoutSource "9223372036854775807h").source) := by
  have hone : parseOne timeoutKey (.str (str "9223372036854775807h")) = .error .overflowError := by
    have hunit : (str "h", 3600000000) ∈ units := by decide
    have htext : str "9223372036854775807h" = natText (2 ^ 63 - 1) ++ str "h" := by decide +kernel
    have hsmall : ¬ 10 ^ maxStrDigits ≤ 2 ^ 63 - 1 := by
      have := int64_lt
      omega
    rw [htext]
    simp only [parseOne, timeoutKey]
    rw [parseDuration_text _ hunit, if_neg hsmall, if_neg (lt_irrefl _), if_pos (by decide)]
  have hparse : parse bareObjects [timeoutKey] (timeoutSource "9223372036854775807h").source =
    .error .overflowError := by
    have hgiven : (timeoutSource "9223372036854775807h").given timeoutKey =
      .set (str "9223372036854775807h") [] := by
      decide +kernel
    have hverdict : (timeoutSource "9223372036854775807h").verdict timeoutKey =
      .error .overflowError := by
      simp only [TextSource.verdict, hgiven, hone]
    rw [parse_eq _ timeout_checked, List.mapM_cons, hverdict]
    rfl
  exact ⟨timeout_checked, hparse, by rw [hparse]; exact id⟩

end BeSdk.Config
