/-
BeSdk.HttpTheorems — what the caller's timeout header may do to a request.

Inside a request a scope only ever shortens the deadline: in every run of its tasks, every
deadline in force, every one that a scope restores, and the end of every attempt stay
within the request's (`run_bounded`).

A header is read in three ways that do not agree: `isdigit` takes superscripts, `int`
refuses them and long numerals, and the division refuses what is beyond the floats. Each
header is one of a few kinds (`limitOf_cases`), and `Readable` are those on which the
three agree.

* `deadline_governed_iff`: a request is refused or runs under a deadline that only
  shortens, exactly where its header is absent or readable.
* `superscript_raises`: a header of one byte that raises.
* `limitOf_sent`: a header that a call sends is read as the timeout it was made of.
-/
import BeSdk.Http
import BeSdk.Py.PlainDecimal

namespace BeSdk.Reqctx

/-! ## Deadlines inside a request -/

theorem deadlineScope_le_left (current deadline : Seconds) :
    deadlineScope (some current) deadline ≤ current :=
  min_le_left current deadline

/-- An attempt's timeout ends before the deadline, with the reserve left. -/
theorem attemptTimeout_le {deadline now timeout : Seconds}
    (h : attemptTimeout (remaining (some deadline) now) = some timeout) :
    now + timeout + deadlineReserve ≤ deadline := by
  simp only [attemptTimeout, remaining, Option.map_some] at h
  split at h
  · cases h
  · obtain rfl := Option.some.inj h
    have := min_le_right maxAttemptTimeout (deadline - now - deadlineReserve)
    linarith

/-- The deadline of a task and those its scopes restore, from the innermost on. -/
def Task.deadlines (t : Task) : List (Option Seconds) := t.deadline :: t.saved

/-- Deadlines that end in turn, the last of them by `d`. -/
def Nested (d : Seconds) : List (Option Seconds) → Prop
  | [] => True
  | x :: rest => (∃ v, x = some v ∧ v ≤ d ∧ ∀ w, rest.head? = some (some w) → v ≤ w) ∧ Nested d rest

/-- What an event shows ends by `d`. -/
def Event.EndsBy (d : Seconds) : Event → Prop
  | .scope deadline => deadline ≤ d
  | .attempt now timeout deadline => now + timeout + deadlineReserve ≤ d ∧ deadline ≤ d
  | .quiet => True

/-- A scope opened in a task shortens the deadline. -/
theorem nested_enter {d : Seconds} {t : Task} (h : Nested d t.deadlines) (deadline : Seconds) :
    Nested d (t.enter deadline).deadlines ∧ deadlineScope t.deadline deadline ≤ d := by
  obtain ⟨v, hv, hle, -⟩ := h.1
  have hshort : deadlineScope t.deadline deadline ≤ v := by
    rw [hv]
    exact deadlineScope_le_left v deadline
  refine ⟨⟨⟨_, rfl, le_trans hshort hle, ?_⟩, h⟩, le_trans hshort hle⟩
  intro w hw
  have hvw : v = w := by
    simp only [Task.enter, List.head?_cons, Option.some.injEq, hv] at hw
    exact hw
  exact hvw ▸ hshort

/-- One step keeps the deadlines of all tasks nested, and what it shows ends in time. -/
theorem step_nested {d : Seconds} {s : State} (h : ∀ t ∈ s, Nested d t.deadlines) (o : Nat × Act) :
    (∀ t ∈ (step s o).1, Nested d t.deadlines) ∧ (step s o).2.EndsBy d := by
  obtain ⟨i, a⟩ := o
  have hset : ∀ {t : Task}, Nested d t.deadlines → ∀ u ∈ s.set i t, Nested d u.deadlines := by
    intro t ht u hu
    rcases List.mem_or_eq_of_mem_set hu with hu | rfl
    · exact h u hu
    · exact ht
  unfold step
  cases hget : s[i]? with
  | none => exact ⟨h, trivial⟩
  | some t =>
      have ht := h t (List.mem_of_getElem? hget)
      cases a with
      | spawn =>
          refine ⟨fun u hu => ?_, trivial⟩
          rcases List.mem_append.mp hu with hu | hu
          · exact h u hu
          · obtain rfl := List.mem_singleton.mp hu
            obtain ⟨v, hv, hle, -⟩ := ht.1
            exact ⟨⟨v, hv, hle, fun w hw => nomatch hw⟩, trivial⟩
      | enter deadline =>
          obtain ⟨hnested, hle⟩ := nested_enter ht deadline
          exact ⟨hset hnested, hle⟩
      | leave =>
          simp only [act]
          cases hsaved : t.saved with
          | nil => exact ⟨h, trivial⟩
          | cons deadline saved =>
              have hrest : Nested d (deadline :: saved) := hsaved ▸ ht.2
              exact ⟨hset (t := ⟨deadline, saved⟩) hrest, trivial⟩
      | attempt now started =>
          simp only [act]
          cases htimeout : attemptTimeout (remaining t.deadline now) with
          | none => exact ⟨h, trivial⟩
          | some timeout =>
              obtain ⟨v, hv, hle, -⟩ := ht.1
              obtain ⟨hnested, hscope⟩ := nested_enter ht (started + timeout)
              rw [hv] at htimeout
              exact ⟨hset hnested, le_trans (attemptTimeout_le htimeout) hle, hscope⟩

/-- What a deadline promises for everything inside the request. -/
def Bounds (d : Seconds) : Prop :=
  ∀ (h : List Event) (s : State), Reach step anyOp (serving d) h s →
    (∀ t ∈ s, ∃ v, t.deadline = some v ∧ v ≤ d) ∧ ∀ e ∈ h, e.EndsBy d

/-- The deadlines of every task are nested, in every run. -/
theorem run_nested {d : Seconds} {h : List Event} {s : State}
    (hrun : Reach step anyOp (serving d) h s) :
    (∀ t ∈ s, Nested d t.deadlines) ∧ ∀ e ∈ h, e.EndsBy d := by
  refine @Reach.invariant _ _ _ step anyOp (serving d)
    (fun h s => (∀ t ∈ s, Nested d t.deadlines) ∧ ∀ e ∈ h, e.EndsBy d)
    ⟨?_, ?_⟩ (fun h s o _ hs => ?_) h s hrun
  · intro t ht
    obtain rfl := List.mem_singleton.mp ht
    exact ⟨⟨d, rfl, le_rfl, fun w hw => nomatch hw⟩, trivial⟩
  · exact fun e he => nomatch he
  · obtain ⟨hnested, hends⟩ := step_nested hs.1 o
    exact ⟨hnested, List.forall_mem_cons.mpr ⟨hends, hs.2⟩⟩

/-- Everything inside a request ends by its deadline. -/
theorem run_bounded (d : Seconds) : Bounds d := by
  intro h s hrun
  obtain ⟨hnested, hends⟩ := run_nested hrun
  refine ⟨fun t ht => ?_, hends⟩
  obtain ⟨v, hv, hle, -⟩ := (hnested t ht).1
  exact ⟨v, hv, hle⟩

end BeSdk.Reqctx

namespace BeSdk.Http

/-! ## Numerals in Latin-1 -/

/-- An ASCII digit. -/
def isDigitByte (b : UInt8) : Bool := 0x30 ≤ b && b ≤ 0x39

/-- `¹`, `²` or `³` -/
def isSuperscript (b : UInt8) : Bool := b = 0xB2 || b = 0xB3 || b = 0xB9

/-- The number a header of digits denotes. -/
def valueOf (raw : Bytes) : Nat := digitsVal (latin1 raw)

theorem isDigit_latin1 (b : UInt8) : isDigit (latin1Char b) = isDigitByte b := by
  rw [Bool.eq_iff_iff]
  constructor
  · intro h
    obtain ⟨hlow, hhigh⟩ := digit_range h
    simp only [isDigitByte, Bool.and_eq_true, decide_eq_true_eq, UInt8.le_iff_toNat_le]
    exact ⟨hlow, hhigh⟩
  · intro h
    simp only [isDigitByte, Bool.and_eq_true, decide_eq_true_eq, UInt8.le_iff_toNat_le] at h
    have hlow : 0x30 ≤ b.toNat := h.1
    have hhigh : b.toNat ≤ 0x39 := h.2
    simp [isDigit, digitVal, hlow, hhigh]

section
variable [HeaderTables]

/-- `isdigit` takes digits and superscripts. -/
theorem isDigits_latin1 (raw : Bytes) :
    (latin1 raw).isDigits = (!raw.isEmpty && raw.all fun b => isDigitByte b ||
      isSuperscript b) := by
  have hempty : (latin1 raw).isEmpty = raw.isEmpty := by
    rw [latin1, List.isEmpty_map]
  rw [Str.isDigits, hempty, latin1, List.all_map]
  congr 2
  funext b
  rw [Function.comp_apply, isDigit_latin1]
  cases hdigit : isDigitByte b with
  | true => rfl
  | false =>
      rw [Bool.false_or, Bool.false_or]
      by_cases hascii : b.toNat ≤ 127
      · -- An ASCII character is no superscript.
        have hno : isSuperscript b = false := by
          simp only [isSuperscript, Bool.or_eq_false_iff, decide_eq_false_iff_not]
          refine ⟨⟨?_, ?_⟩, ?_⟩ <;> rintro rfl <;> exact absurd hascii (by decide)
        simp [hno, Nat.not_lt.mpr hascii]
      · have hlow : 127 < b.toNat := by omega
        have hhigh : b.toNat < 256 := b.toNat_lt
        rw [HeaderTables.noDecimal _ hlow hhigh, Option.isSome_none, Bool.false_or,
          latin1Char_val, decide_eq_true hlow, Bool.true_and, Bool.eq_iff_iff,
          HeaderTables.superscripts _ hlow hhigh]
        simp only [isSuperscript, Bool.or_eq_true, decide_eq_true_eq, ← UInt8.toNat_inj, or_assoc]
        rfl

end

/-! ## Reading a numeral -/

theorem scanUnderscored_digits : ∀ {s : Str} {prev : Bool}, (∀ c ∈ s, isDigit c = true) →
    (s ≠ [] ∨ prev = true) → scanUnderscored prev s = some s
  | [], prev, _, hne => by
      rw [scanUnderscored, if_pos (hne.resolve_left fun h => h rfl)]
  | c :: rest, prev, h, _ => by
      obtain ⟨hc, hrest⟩ := List.forall_mem_cons.mp h
      rw [scanUnderscored, if_pos hc, scanUnderscored_digits hrest (.inr rfl), Option.map_some]

/-- A character that is neither a digit nor an underscore ends the reading. -/
theorem scanUnderscored_other {x : CodePoint} (hx : isDigit x = false)
    (hunder : x ≠ chr '_') : ∀ {s : Str} {prev : Bool}, x ∈ s →
    scanUnderscored prev s = none
  | c :: rest, prev, h => by
      rw [scanUnderscored]
      rcases List.mem_cons.mp h with rfl | hrest
      · rw [if_neg (by simp [hx]), if_neg fun hand => hunder hand.1]
      · rw [scanUnderscored_other hx hunder hrest, scanUnderscored_other hx hunder hrest,
          Option.map_none]
        split
        · rfl
        · exact ite_self _

theorem dropWhile_of_forall {p : CodePoint → Bool} {s : Str} (h : ∀ c ∈ s, p c = false) :
    s.dropWhile p = s := by
  cases s with
  | nil => rfl
  | cons c rest => exact List.dropWhile_cons_of_neg (by simp [h c (List.mem_cons_self ..)])

/-- `int` on a text without white space and signs. -/
theorem toInt_eq [Interp] {s : Str} (h : ∀ c ∈ digitsToAscii s, isDigit c = true ∨ c = chr '?') :
    toInt s = (scanUnderscored false (digitsToAscii s)).bind fun ds =>
      if maxStrDigits < ds.length then none else some (digitsVal ds : Int) := by
  have hspace : ∀ c ∈ digitsToAscii s, isAsciiSpace c = false := by
    intro c hc
    rcases h c hc with hdigit | rfl
    · have := digit_range hdigit
      simp only [isAsciiSpace, Bool.or_eq_false_iff, Bool.and_eq_false_iff,
        decide_eq_false_iff_not, beq_eq_false_iff_ne]
      omega
    · decide
  have hsign : takeSign (digitsToAscii s) = (none, digitsToAscii s) := by
    cases hs : digitsToAscii s with
    | nil => rfl
    | cons c rest =>
        rcases h c (by rw [hs]; exact List.mem_cons_self ..) with hdigit | rfl
        · exact takeSign_of_digit hdigit
        · rfl
  rw [toInt, dropWhile_of_forall hspace,
    dropWhile_of_forall (fun c hc => hspace c (List.mem_reverse.mp hc)), List.reverse_reverse,
    hsign]
  dsimp only
  cases scanUnderscored false (digitsToAscii s) with
  | none => rfl
  | some ds => rfl

section
variable [HeaderTables]

/-- A superscript is nothing that `int` reads. -/
theorem digitsToAscii_latin1 (raw : Bytes)
    (h : ∀ b ∈ raw, isDigitByte b = true ∨ isSuperscript b = true) :
    digitsToAscii (latin1 raw) = raw.map fun b =>
      if isDigitByte b then latin1Char b else chr '?' := by
  rw [digitsToAscii, latin1, List.map_map]
  refine List.map_congr_left fun b hb => ?_
  rw [Function.comp_apply]
  cases hdigit : isDigitByte b with
  | true =>
      have hrange := digit_range ((isDigit_latin1 b).trans hdigit)
      rw [if_pos (by omega), if_pos rfl]
  | false =>
      have hsuper := (h b hb).resolve_left (by simp [hdigit])
      have hvalues : b.toNat = 0xB2 ∨ b.toNat = 0xB3 ∨ b.toNat = 0xB9 := by
        simpa [isSuperscript, ← UInt8.toNat_inj, or_assoc] using hsuper
      have hlow : 127 < b.toNat := by omega
      have hhigh : b.toNat < 256 := b.toNat_lt
      have hspace : isSpace (latin1Char b) = false := by
        have hval := latin1Char_val b
        simp only [isSpace, Bool.or_eq_false_iff, Bool.and_eq_false_iff,
          decide_eq_false_iff_not, beq_eq_false_iff_ne]
        omega
      rw [if_neg (by simpa using hlow), hspace, if_neg (by simp),
        HeaderTables.noDecimal _ hlow hhigh, if_neg (by simp)]

/-- `int` on a header that `isdigit` takes. -/
theorem toInt_superscript {raw : Bytes} (h : ∀ b ∈ raw, isDigitByte b = true ∨
    isSuperscript b = true) {b : UInt8} (hb : b ∈ raw) (hsuper :
    isDigitByte b = false) : toInt (latin1 raw) = none := by
  have hascii := digitsToAscii_latin1 raw h
  have hchars : ∀ c ∈ digitsToAscii (latin1 raw), isDigit c = true ∨ c = chr '?' := by
    intro c hc
    rw [hascii] at hc
    obtain ⟨x, hx, rfl⟩ := List.mem_map.mp hc
    split
    · next hdigit => exact .inl ((isDigit_latin1 x).trans hdigit)
    · exact .inr rfl
  have hmem : chr '?' ∈ digitsToAscii (latin1 raw) := by
    rw [hascii]
    exact List.mem_map.mpr ⟨b, hb, if_neg (by simp [hsuper])⟩
  rw [toInt_eq hchars, scanUnderscored_other (by decide) (by decide) hmem, Option.bind_none]

/-- Digits are read as their number, up to the limit of `int`. -/
theorem toInt_digits {raw : Bytes} (hne : raw ≠ []) (h : ∀ b ∈ raw, isDigitByte b = true) :
    toInt (latin1 raw) = if maxStrDigits < raw.length then none else some (valueOf raw : Int) := by
  have hascii : digitsToAscii (latin1 raw) = latin1 raw := by
    rw [digitsToAscii_latin1 raw fun b hb => .inl (h b hb), latin1]
    exact List.map_congr_left fun b hb => if_pos (h b hb)
  have hdigits : ∀ c ∈ latin1 raw, isDigit c = true := by
    intro c hc
    obtain ⟨b, hb, rfl⟩ := List.mem_map.mp hc
    exact (isDigit_latin1 b).trans (h b hb)
  have hne' : latin1 raw ≠ [] := by
    rw [latin1, ne_eq, List.map_eq_nil_iff]
    exact hne
  rw [toInt_eq (by rw [hascii]; exact fun c hc => .inl (hdigits c hc)), hascii,
    scanUnderscored_digits hdigits (.inl hne'), Option.bind_some, show (latin1 raw).length =
    raw.length from List.length_map ..]
  rfl

end

/-! ## The kinds of headers -/

/-- From here on an integer divided by a thousand is beyond the floats. -/
def floatLimit : ℚ := 2 ^ (1024 : ℤ) - 2 ^ (970 : ℤ)

/-- A division of integers overflows past the largest float. -/
theorem trueDiv_eq (n : Nat) :
    trueDiv n 1000 = if (n : ℚ) / 1000 < floatLimit then .ok ((n : ℚ) / 1000)
    else .error .overflowError := by
  have hcast : (((n : ℤ) : ℚ) / ((1000 : ℤ) : ℚ)) = (n : ℚ) / 1000 := by push_cast; ring
  have habs : |(n : ℚ) / 1000| = (n : ℚ) / 1000 := abs_of_nonneg (by positivity)
  rw [trueDiv, hcast]
  split_ifs with hlt
  · rw [Binary64.round_finite_iff.mpr (by rw [habs]; exact hlt)]
  · have hinfinite : Binary64.round ((n : ℚ) / 1000) = .infinite ((n : ℚ) / 1000 < 0) := by
      refine (Binary64.round_eq _).resolve_right fun hfinite => hlt ?_
      rw [Binary64.round_finite_iff, habs] at hfinite
      exact hfinite
    rw [hinfinite]

section
variable [HeaderTables] (r : Route)

theorem limitOf_empty : limitOf r none = .ok r.deadline ∧ limitOf r (some []) =
    .ok r.deadline := ⟨rfl, rfl⟩

/-- A header with anything but digits and superscripts is refused. -/
theorem limitOf_other {raw : Bytes} (hne : raw ≠ []) {b : UInt8} (hb : b ∈ raw)
    (hdigit : isDigitByte b = false) (hsuper : isSuperscript b = false) :
    limitOf r (some raw) = .error (.error timeoutInvalid) := by
  have hempty : (latin1 raw).isEmpty = false := by
    rw [latin1, List.isEmpty_map, List.isEmpty_eq_false_iff]
    exact hne
  have hnot : (latin1 raw).isDigits = false := by
    rw [isDigits_latin1, Bool.and_eq_false_iff]
    refine .inr (List.all_eq_false.mpr ⟨b, hb, ?_⟩)
    simp [hdigit, hsuper]
  simp [limitOf, hempty, hnot]

/-- `_run` on a header that `isdigit` takes. -/
theorem limitOf_taken {raw : Bytes} (hne : raw ≠ [])
    (h : ∀ b ∈ raw, isDigitByte b = true ∨ isSuperscript b = true) :
    limitOf r (some raw) = match toInt (latin1 raw) with
      | none => .error .valueError
      | some n => if n ≤ 0 then .error (.error timeoutInvalid)
          else (trueDiv n 1000).map fun seconds => min r.deadline seconds := by
  have hempty : (latin1 raw).isEmpty = false := by
    rw [latin1, List.isEmpty_map, List.isEmpty_eq_false_iff]
    exact hne
  have htaken : (latin1 raw).isDigits = true := by
    rw [isDigits_latin1, Bool.and_eq_true]
    refine ⟨by simpa using hne, List.all_eq_true.mpr fun b hb => ?_⟩
    rw [Bool.or_eq_true]
    exact h b hb
  cases hint : toInt (latin1 raw) with
  | none => simp [limitOf, hempty, htaken, hint]
  | some n => simp [limitOf, hempty, htaken, hint]

/-- A superscript digit raises. -/
theorem limitOf_superscript {raw : Bytes} (h : ∀ b ∈ raw, isDigitByte b = true ∨
    isSuperscript b = true) {b : UInt8} (hb : b ∈ raw) (hsuper :
    isDigitByte b = false) : limitOf r (some raw) = .error .valueError := by
  rw [limitOf_taken r (List.ne_nil_of_mem hb) h, toInt_superscript h hb hsuper]

/-- A header of digits. -/
theorem limitOf_digits {raw : Bytes} (hne : raw ≠ []) (h : ∀ b ∈ raw, isDigitByte b = true) :
    limitOf r (some raw) =
      if maxStrDigits < raw.length then .error .valueError
      else if valueOf raw = 0 then .error (.error timeoutInvalid)
      else if (valueOf raw : ℚ) / 1000 < floatLimit then
      .ok (min r.deadline ((valueOf raw : ℚ) / 1000)) else .error .overflowError := by
  rw [limitOf_taken r hne fun b hb => .inl (h b hb), toInt_digits hne h]
  by_cases hlong : maxStrDigits < raw.length
  · rw [if_pos hlong, if_pos hlong]
  · rw [if_neg hlong, if_neg hlong]
    dsimp only
    by_cases hzero : valueOf raw = 0
    · rw [if_pos (by rw [hzero]; exact le_rfl), if_pos hzero]
    · rw [if_neg (by omega), if_neg hzero, trueDiv_eq]
      split_ifs <;> rfl

end

/-! ## Who is refused, and what the others get -/

/-- A positive integer in base 10. -/
def PositiveInteger (raw : Bytes) : Prop :=
  raw ≠ [] ∧ (∀ b ∈ raw, isDigitByte b = true) ∧ 0 < valueOf raw

/-- What a request owes to its caller's header: it is refused exactly for a header that is
no positive integer, and else runs under a deadline that only shortens; no header
leads to any other error. -/
structure Governed (r : Route) (header : Option Bytes) (now : Seconds)
    (outcome : Except Exc Seconds) : Prop where
  refused : outcome = .error (.error timeoutInvalid) ↔ ∃ raw, header = some raw ∧
    ¬ PositiveInteger raw
  only : ∀ e, outcome = .error e → e = .error timeoutInvalid
  route : ∀ d, outcome = .ok d → d ≤ now + r.deadline
  caller : ∀ d raw, outcome = .ok d → header = some raw → PositiveInteger raw →
    d ≤ now + (valueOf raw : ℚ) / 1000
  inside : ∀ d, outcome = .ok d → Reqctx.Bounds d

/-- The headers that are read in one way only. -/
structure Readable (raw : Bytes) : Prop where
  present : raw ≠ []
  plain : (∀ b ∈ raw, isDigitByte b = true ∨ isSuperscript b = true) →
    ∀ b ∈ raw, isDigitByte b = true
  short : (∀ b ∈ raw, isDigitByte b = true) → raw.length ≤ maxStrDigits
  small : (∀ b ∈ raw, isDigitByte b = true) → (valueOf raw : ℚ) / 1000 < floatLimit

theorem four_le_floatLimit : 4 ≤ floatLimit := by
  obtain ⟨p, -, h970, -, -, h1024⟩ := Binary64.top_powers
  have hp : 4 ≤ p := by
    calc (4 : ℚ) = 2 ^ (2 : ℤ) := by norm_num
      _ ≤ 2 ^ (970 : ℤ) := zpow_le_zpow_right₀ (by norm_num) (by norm_num)
      _ = p := h970
  rw [floatLimit, h970, h1024]
  linarith only [hp]

section
variable [HeaderTables] {r : Route} {now : Seconds}

/-- The outcome of a header that is refused as it should be. -/
theorem governed_of_refused {raw : Bytes} (hnot : ¬ PositiveInteger raw)
    (h : limitOf r (some raw) = .error (.error timeoutInvalid)) :
    Governed r (some raw) now (run r (some raw) now) := by
  have hrun : run r (some raw) now = .error (.error timeoutInvalid) := by rw [run, h]; rfl
  rw [hrun]
  refine ⟨⟨fun _ => ⟨raw, rfl, hnot⟩, fun _ => rfl⟩, fun e he => ?_, ?_, ?_, ?_⟩
  · exact (Except.error.inj he).symm
  · exact fun d hd => nomatch hd
  · exact fun d raw hd => nomatch hd
  · exact fun d hd => nomatch hd

/-- The outcome of a request that runs. -/
theorem governed_of_limit {header : Option Bytes} {limit : Seconds}
    (h : limitOf r header = .ok limit) (hroute : limit ≤ r.deadline)
    (hcaller : ∀ raw, header = some raw → PositiveInteger raw ∧ limit ≤ (valueOf raw : ℚ) / 1000) :
    Governed r header now (run r header now) := by
  have hrun : run r header now = .ok (now + limit) := by rw [run, h]; rfl
  rw [hrun]
  refine ⟨⟨fun hno => (nomatch hno), ?_⟩, fun e he => (nomatch he), ?_, ?_, ?_⟩
  · rintro ⟨raw, hraw, hnot⟩
    exact absurd (hcaller raw hraw).1 hnot
  · intro d hd
    obtain rfl := Except.ok.inj hd
    exact add_le_add_right hroute now
  · intro d raw hd hraw _
    obtain rfl := Except.ok.inj hd
    exact add_le_add_right (hcaller raw hraw).2 now
  · exact fun d _ => Reqctx.run_bounded d

/-- A readable header governs the deadline. -/
theorem governed_of_readable {raw : Bytes} (h : Readable raw) :
    Governed r (some raw) now (run r (some raw) now) := by
  by_cases htaken : ∀ b ∈ raw, isDigitByte b = true ∨ isSuperscript b = true
  · have hdigits := h.plain htaken
    have hlimit := limitOf_digits r h.present hdigits
    rw [if_neg (not_lt.mpr (h.short hdigits))] at hlimit
    by_cases hzero : valueOf raw = 0
    · rw [if_pos hzero] at hlimit
      exact governed_of_refused (fun hpos => absurd hpos.2.2 (by omega)) hlimit
    · rw [if_neg hzero, if_pos (h.small hdigits)] at hlimit
      refine governed_of_limit hlimit (min_le_left ..) fun raw' hraw => ?_
      obtain rfl := Option.some.inj hraw
      exact ⟨⟨h.present, hdigits, Nat.pos_of_ne_zero hzero⟩, min_le_right ..⟩
  · obtain ⟨b, hb, hnot⟩ := not_forall₂.mp htaken
    rw [not_or, Bool.not_eq_true, Bool.not_eq_true] at hnot
    refine governed_of_refused (fun hpos => ?_) (limitOf_other r h.present hb hnot.1 hnot.2)
    exact absurd (hpos.2.1 b hb) (by simp [hnot.1])

/-- A header that governs is readable. -/
theorem readable_of_governed {raw : Bytes}
    (h : Governed r (some raw) now (run r (some raw) now)) : Readable raw := by
  -- An error of reading the header is its refusal.
  have honly : ∀ e, limitOf r (some raw) = .error e → e = .error timeoutInvalid := by
    intro e he
    exact h.only e (by rw [run, he]; rfl)
  have hne : raw ≠ [] := by
    rintro rfl
    have hrefused := h.refused.mpr ⟨[], rfl, fun hpos => hpos.1 rfl⟩
    rw [run, (limitOf_empty r).2] at hrefused
    cases hrefused
  have hdigits : ∀ hall : ∀ b ∈ raw, isDigitByte b = true, ¬ maxStrDigits < raw.length ∧
    (valueOf raw : ℚ) / 1000 < floatLimit := by
    intro hall
    have hlimit := limitOf_digits r hne hall
    by_cases hlong : maxStrDigits < raw.length
    · rw [if_pos hlong] at hlimit
      exact absurd (honly _ hlimit) (by simp)
    · refine ⟨hlong, ?_⟩
      by_cases hzero : valueOf raw = 0
      · rw [hzero, Nat.cast_zero, zero_div]
        exact lt_of_lt_of_le (by norm_num) four_le_floatLimit
      · by_contra hbig
        rw [if_neg hlong, if_neg hzero, if_neg hbig] at hlimit
        exact absurd (honly _ hlimit) (by simp)
  refine ⟨hne, fun htaken b hb => ?_, fun hall => not_lt.mp (hdigits hall).1,
    fun hall => (hdigits hall).2⟩
  by_contra hsuper
  rw [Bool.not_eq_true] at hsuper
  exact absurd (honly _ (limitOf_superscript r htaken hb hsuper)) (by simp)

end

/-- **When the caller's deadline only shortens and never crashes a request.** For every
route, every value of the header (or none) and every reading of the clock: the request is
refused exactly for a header that is no positive integer, or runs under a deadline that is
at most the route's and at most the header's milliseconds away and bounds everything
inside it, and nothing else is raised, if and only if the header is absent or readable. -/
theorem deadline_governed_iff [HeaderTables] (r : Route) (header : Option Bytes) (now : Seconds) :
    Governed r header now (run r header now) ↔ ∀ raw, header = some raw → Readable raw := by
  cases header with
  | none =>
      refine ⟨fun _ raw hraw => (nomatch hraw), fun _ => ?_⟩
      exact governed_of_limit (limitOf_empty r).1 le_rfl fun raw hraw => nomatch hraw
  | some raw =>
      refine ⟨fun h raw' hraw => ?_, fun h => governed_of_readable (h raw rfl)⟩
      obtain rfl := Option.some.inj hraw
      exact readable_of_governed h

/-! ## Headers that raise -/

/-- Tables whose Latin-1 part is Unicode's, and no others. -/
abbrev HeaderTables.latin1 : HeaderTables where
  nfc := id
  toDecimal := fun _ => none
  nesting := 1000
  room := three_le_thousand
  otherDigit := fun c => c.val = 0xB2 || c.val = 0xB3 || c.val = 0xB9
  noDecimal := fun _ _ _ => rfl
  superscripts := by simp [or_assoc]

/-- The header `²` raises, and the empty one is not refused. -/
theorem superscript_raises :
    @run HeaderTables.latin1.toInterp HeaderTables.latin1.toDigitTable {} (some [0xB2]) 0 =
    .error .valueError ∧
      @run HeaderTables.latin1.toInterp HeaderTables.latin1.toDigitTable {} (some []) 0 = .ok 10 ∧
      ¬ Governed {} (some [0xB2]) 0 (@run HeaderTables.latin1.toInterp
        HeaderTables.latin1.toDigitTable {} (some [0xB2]) 0) ∧
      ¬ Governed {} (some []) 0 (@run HeaderTables.latin1.toInterp
        HeaderTables.latin1.toDigitTable {} (some []) 0) := by
  have hsuper : @run HeaderTables.latin1.toInterp HeaderTables.latin1.toDigitTable {}
    (some [0xB2]) 0 = .error .valueError := by
    decide +kernel
  have hempty : @run HeaderTables.latin1.toInterp HeaderTables.latin1.toDigitTable {}
    (some []) 0 = .ok 10 := by
    decide +kernel
  refine ⟨hsuper, hempty, fun h => ?_, fun h => ?_⟩
  · exact absurd (h.only _ hsuper) (by simp)
  · have hrefused := h.refused.mpr ⟨[], rfl, fun hpos => hpos.1 rfl⟩
    rw [hempty] at hrefused
    cases hrefused

/-! ## The header of a call -/

/-- The milliseconds that a call sends for a timeout. -/
def sentMs (timeout : Seconds) : Nat := (max 1 ⌊timeout * 1000⌋).toNat

/-- What is sent is the timeout in milliseconds. -/
theorem sentTimeout_eq {timeout : Seconds} (h : 0 ≤ timeout) :
    latin1 (sentTimeout timeout) = natText (sentMs timeout) := by
  have hpos : ¬ timeout * 1000 < 0 := not_lt.mpr (by positivity)
  have hone : (1 : ℤ) ≤ max 1 ⌊timeout * 1000⌋ := le_max_left ..
  have htext : intText (max 1 ⌊timeout * 1000⌋) = natText (sentMs timeout) := by
    rw [intText, if_neg (by omega), sentMs]
    congr 1
    omega
  have hfloor : (timeout * 1000).floor = ⌊timeout * 1000⌋ := rfl
  rw [sentTimeout, if_neg hpos, hfloor, htext, latin1, List.map_map]
  calc (natText (sentMs timeout)).map _ = (natText (sentMs timeout)).map id := by
        refine List.map_congr_left fun c hc => Fin.ext ?_
        have hrange := digit_range (isDigit_of_mem_natText hc)
        have hsmall : c.val < 256 := by omega
        simp [Function.comp_apply, Nat.mod_eq_of_lt hsmall]
    _ = natText (sentMs timeout) := List.map_id _

/-- **A header that a call sends is read as the timeout it was made of**, in whole
milliseconds and at least one: no component refuses the deadline of another. -/
theorem limitOf_sent [HeaderTables] (r : Route) {timeout : Seconds} (h : 0 ≤ timeout)
    (hmax : timeout ≤ maxAttemptTimeout) : limitOf r (some (sentTimeout timeout)) =
    .ok (min r.deadline ((sentMs timeout : ℚ) / 1000)) := by
  have hfloor : ⌊timeout * 1000⌋ ≤ 3000 := by
    have hle : timeout * 1000 ≤ (3000 : ℤ) := by
      have : timeout ≤ 3 := hmax
      push_cast
      linarith
    exact_mod_cast Int.floor_le_floor hle |>.trans (by simp)
  have hms : 1 ≤ sentMs timeout ∧ sentMs timeout ≤ 3000 := by
    unfold sentMs
    omega
  have htext := sentTimeout_eq h
  have hdigits : ∀ b ∈ sentTimeout timeout, isDigitByte b = true := by
    intro b hb
    rw [← isDigit_latin1]
    have hmem : (⟨b.toNat, by have := b.toNat_lt; omega⟩ : CodePoint) ∈
      latin1 (sentTimeout timeout) :=
      List.mem_map.mpr ⟨b, hb, rfl⟩
    rw [htext] at hmem
    exact isDigit_of_mem_natText hmem
  have hlength : (sentTimeout timeout).length ≤ maxStrDigits := by
    calc (sentTimeout timeout).length = (latin1 (sentTimeout timeout)).length :=
      (List.length_map ..).symm
      _ ≤ 4 := by rw [htext]; exact length_natText_le (by omega) (by decide)
      _ ≤ maxStrDigits := by decide
  have hne : sentTimeout timeout ≠ [] := by
    intro hnil
    rw [hnil] at htext
    exact (leading_natText _).nonempty htext.symm
  have hvalue : valueOf (sentTimeout timeout) = sentMs timeout := by
    rw [valueOf, htext, digitsVal_natText]
  have hsmall : (sentMs timeout : ℚ) / 1000 < floatLimit := by
    have hle : (sentMs timeout : ℚ) ≤ 3000 := by exact_mod_cast hms.2
    have hthree := four_le_floatLimit
    linarith
  rw [limitOf_digits r hne hdigits, if_neg (not_lt.mpr hlength), hvalue, if_neg (by omega),
    if_pos hsmall]

end BeSdk.Http
