/-
BeSdk.Sql.LexerTheorems — what the parts of the lexer read.

Each reader takes a text from the front: what it returns and what it leaves make up the
text again, and the returned part has the characters of its kind. A quoted name is its
parts with a quote after each (`quoted_cases`), and a number has a sign only before
digits (`number_ok`).
-/
import BeSdk.Sql.Lexer
import Mathlib.Data.List.Chain

namespace BeSdk.Sql.Lexer

/-! ## Cutting -/

/-- A text is cut at a separator in front. -/
theorem cut_of_front {s sep : Str} (rest : Str) (h : s = sep ++ rest) :
    Str.cut s sep = some ([], rest) := by
  subst h
  unfold Str.cut
  rw [if_pos (by simp)]
  simp

/-- Otherwise it is cut in what follows. -/
theorem cut_cons {c : CodePoint} {s sep : Str} (h : sep.isPrefixOf (c :: s) = false) :
    Str.cut (c :: s) sep = (Str.cut s sep).map fun x => (c :: x.1, x.2) := by
  rw [Str.cut, if_neg (by rw [h]; decide)]

/-- What is behind a cut is no longer than the text. -/
theorem length_of_cut {sep : Str} :
    ∀ {s : Str} {x : Str × Str}, Str.cut s sep = some x → x.2.length ≤ s.length
  | [], x, h => by
      unfold Str.cut at h
      split at h
      · obtain rfl := Option.some.inj h
        simp
      · cases h
  | c :: s, x, h => by
      unfold Str.cut at h
      split at h
      · obtain rfl := Option.some.inj h
        simp
      · obtain ⟨y, hy, rfl⟩ := Option.map_eq_some_iff.mp h
        have := length_of_cut hy
        simp only [List.length_cons]
        omega

/-- One character is found where it first stands. -/
theorem cut_singleton {d : CodePoint} :
    ∀ {p : Str} (rest : Str), d ∉ p → Str.cut (p ++ d :: rest) [d] = some (p, rest)
  | [], rest, _ => cut_of_front rest rfl
  | c :: p, rest, h => by
      have hne : c ≠ d := fun heq => h (heq ▸ List.mem_cons_self)
      rw [List.cons_append, cut_cons (by simpa [List.isPrefixOf] using Ne.symm hne),
        cut_singleton rest fun hmem => h (List.mem_cons_of_mem _ hmem)]
      rfl

/-! ## Strings, names and comments -/

/-- What is behind a literal is no longer than the text. -/
theorem literal_length {escapes : Bool} :
    ∀ {s : Str} {x : Str × Str}, literal escapes s = some x → x.2.length ≤ s.length
  | [], _, h => by cases h
  | [c], x, h => by
      unfold literal at h
      split at h
      · obtain rfl := Option.some.inj h
        simp
      · cases h
  | c :: d :: s, x, h => by
      unfold literal at h
      simp only [List.length_cons]
      split at h
      · split at h
        · obtain ⟨y, hy, rfl⟩ := Option.map_eq_some_iff.mp h
          have hle := literal_length hy
          exact hle.trans (by omega)
        · obtain rfl := Option.some.inj h
          simp
      · split at h
        · obtain ⟨y, hy, rfl⟩ := Option.map_eq_some_iff.mp h
          have hle := literal_length hy
          exact hle.trans (by omega)
        · obtain ⟨y, hy, rfl⟩ := Option.map_eq_some_iff.mp h
          exact (literal_length hy).trans (by simp)

/-- A quoted name is one part up to a quote, and ends there or goes on after a second
one. -/
theorem quoted_cases : ∀ {s : Str} {parts : List Str} {rest : Str}, quoted s = some (parts, rest) →
    ∃ p ps s', parts = p :: ps ∧ chr '"' ∉ p ∧ s = p ++ chr '"' :: s' ∧
      ((ps = [] ∧ s' = rest) ∨ ∃ s'', s' = chr '"' :: s'' ∧ quoted s'' = some (ps, rest))
  | [], _, _, h => by cases h
  | [c], parts, rest, h => by
      unfold quoted at h
      split at h
      · rename_i hc
        obtain ⟨rfl, rfl⟩ := Prod.mk.inj (Option.some.inj h)
        exact ⟨[], [], [], rfl, by simp, by rw [hc]; rfl, .inl ⟨rfl, rfl⟩⟩
      · cases h
  | c :: d :: s, parts, rest, h => by
      unfold quoted at h
      split at h
      · rename_i hc
        split at h
        · rename_i hd
          obtain ⟨⟨ps, _⟩, hy, heq⟩ := Option.map_eq_some_iff.mp h
          obtain ⟨rfl, rfl⟩ := Prod.mk.inj heq
          exact ⟨[], ps, d :: s, rfl, by simp, by rw [hc]; rfl, .inr ⟨s, by rw [hd], hy⟩⟩
        · obtain ⟨rfl, rfl⟩ := Prod.mk.inj (Option.some.inj h)
          exact ⟨[], [], d :: s, rfl, by simp, by rw [hc]; rfl, .inl ⟨rfl, rfl⟩⟩
      · rename_i hc
        obtain ⟨⟨parts', _⟩, hy, heq⟩ := Option.map_eq_some_iff.mp h
        obtain ⟨rfl, rfl⟩ := Prod.mk.inj heq
        obtain ⟨p, ps, s', rfl, hp, hs, hend⟩ := quoted_cases hy
        refine ⟨c :: p, ps, s', rfl, ?_, by rw [hs]; rfl, hend⟩
        simpa using ⟨Ne.symm hc, hp⟩

/-- A comment in which no other one begins ends at its first end. -/
theorem comment_flat : ∀ {s : Str} {x : Str × Str}, comment 0 s = some x →
    Str.cut x.1 (str "/*") = none → Str.cut s (str "*/") = some x
  | [], _, h, _ => by cases h
  | [_], _, h, _ => by cases h
  | c :: d :: s, x, h, hflat => by
      unfold comment at h
      split at h
      · rename_i hend
        obtain rfl := Option.some.inj h
        obtain ⟨rfl, rfl⟩ := hend
        exact cut_of_front s rfl
      · rename_i hend
        split at h
        · rename_i hbegin
          obtain ⟨y, -, rfl⟩ := Option.map_eq_some_iff.mp h
          obtain ⟨rfl, rfl⟩ := hbegin
          have hcut : Str.cut (chr '/' :: chr '*' :: y.1) (str "/*") = some ([], y.1) :=
            cut_of_front y.1 rfl
          rw [hcut] at hflat
          cases hflat
        · obtain ⟨y, hy, rfl⟩ := Option.map_eq_some_iff.mp h
          have hnext : Str.cut y.1 (str "/*") = none := by
            unfold Str.cut at hflat
            split at hflat
            · cases hflat
            · exact Option.map_eq_none_iff.mp hflat
          rw [cut_cons, comment_flat hy hnext]
          · rfl
          · have hne : ¬ (chr '*' = c ∧ chr '/' = d) := fun heq => hend ⟨heq.1.symm, heq.2.symm⟩
            simpa [str, List.isPrefixOf] using hne

/-! ## Dollar quotes -/

/-- A class of characters ends where another character follows. -/
theorem span_eq {p : CodePoint → Bool} {t : Str} (rest : Str) (ht : t.all p = true)
    (hrest : rest.head?.any p = false) :
    (t ++ rest).takeWhile p = t ∧ (t ++ rest).dropWhile p = rest := by
  have hstop : rest.takeWhile p = [] ∧ rest.dropWhile p = rest := by
    cases rest with
    | nil => exact ⟨rfl, rfl⟩
    | cons c rest =>
        have hc : p c = false := by simpa using hrest
        simp [hc]
  rw [List.takeWhile_append_of_pos (List.all_eq_true.mp ht),
    List.dropWhile_append_of_pos (List.all_eq_true.mp ht), hstop.1,
    hstop.2, List.append_nil]
  exact ⟨rfl, rfl⟩

/-- A tag is what the class allows up to the next dollar sign. -/
theorem tagged_eq_some_iff {word letter : CodePoint → Bool} (hdollar : word (chr '$') = false)
    {s tag rest : Str} : tagged word letter s = some (tag, rest) ↔
      s = tag ++ chr '$' :: rest ∧ tag.all word = true ∧ tag.head?.all letter = true := by
  constructor
  · intro h
    unfold tagged at h
    have hall := List.all_takeWhile (p := word) (l := s)
    have happ := List.takeWhile_append_dropWhile (p := word) (l := s)
    split at h
    · cases h
    · rename_i c rest' hdrop
      split at h
      · rename_i hc
        obtain ⟨rfl, rfl⟩ := Prod.mk.inj (Option.some.inj h)
        obtain ⟨hc, hletter⟩ := (Bool.and_eq_true _ _).mp hc
        rw [hdrop, of_decide_eq_true hc] at happ
        exact ⟨happ.symm, hall, hletter⟩
      · cases h
  · rintro ⟨rfl, hall, hletter⟩
    obtain ⟨htake, hdrop⟩ := span_eq (chr '$' :: rest) hall hdollar
    rw [tagged, hdrop, htake]
    simp [hletter]

/-! ## Numbers -/

/-- The characters of a number, but for the sign of its exponent. -/
def isNumeral (c : CodePoint) : Bool := isWord c || c = chr '.'

theorem isNumeral_of_isWord {c : CodePoint} (h : isWord c = true) :
    isNumeral c = true := by rw [isNumeral, h]; rfl

theorem isNumeral_of_isDigit {c : CodePoint} (h : isDigit c = true) : isNumeral c = true :=
  isNumeral_of_isWord (by rw [isWord, h, Bool.or_true])

/-- Digits, letters and dots, and at most one sign, before the digits of the exponent. -/
def Numeral (t : Str) : Prop := ∃ m e, t = m ++ e ∧ m.all isNumeral = true ∧
  (e = [] ∨ ∃ sign d, e = sign :: d ∧ (sign = chr '+' ∨ sign = chr '-') ∧ d ≠ [] ∧
    d.all isNumeral = true)

theorem Numeral.append {a b : Str} (ha : a.all isNumeral = true) (hb : Numeral b) :
    Numeral (a ++ b) := by
  obtain ⟨m, e, rfl, hm, he⟩ := hb
  exact ⟨a ++ m, e, (List.append_assoc a m e).symm, by rw [List.all_append, ha, hm]; rfl, he⟩

theorem Numeral.of_all {a : Str} (ha : a.all isNumeral = true) :
    Numeral a := ⟨a, [], (List.append_nil a).symm, ha, .inl rfl⟩

/-- Digits are read from the front, and they are digits. -/
theorem digits_ok {p : CodePoint → Bool} (hp : ∀ c, p c = true → isNumeral c = true) : ∀ (s : Str),
    s = (digits p s).1 ++ (digits p s).2 ∧ (digits p s).1.all isNumeral = true
  | [] => ⟨rfl, rfl⟩
  | c :: s => by
      obtain ⟨happ, hall⟩ := digits_ok hp s
      unfold digits
      split
      · rename_i hc
        refine ⟨congrArg (c :: ·) happ, ?_⟩
        have hcn : isNumeral c = true := by
          rcases (Bool.or_eq_true _ _).mp hc with hc | hc
          · exact hp c hc
          · rw [of_decide_eq_true ((Bool.and_eq_true _ _).mp hc).1]
            decide
        simpa [hcn] using hall
      · exact ⟨rfl, rfl⟩

theorem digits_ne_nil {p : CodePoint → Bool} {s : Str} (h : s.head?.any p = true) :
    (digits p s).1 ≠ [] := by
  cases s with
  | nil => cases h
  | cons c s =>
      have hc : p c = true := h
      rw [digits, hc]
      exact List.cons_ne_nil _ _

theorem isNumeral_of_isHexDigit {c : CodePoint} (h : isHexDigit c = true) : isNumeral c = true := by
  simp only [isHexDigit, Bool.or_eq_true, Bool.and_eq_true, decide_eq_true_eq] at h
  rcases h with (h | h) | h
  · exact isNumeral_of_isDigit h
  all_goals
    refine isNumeral_of_isWord ?_
    simp only [isWord, isLetter, Bool.or_eq_true, Bool.and_eq_true, decide_eq_true_eq, beq_iff_eq]
    omega

theorem isNumeral_of_isOctDigit {c : CodePoint} (h : isOctDigit c = true) : isNumeral c = true := by
  refine isNumeral_of_isDigit ?_
  simp only [isOctDigit, Bool.and_eq_true, decide_eq_true_eq] at h
  rw [isDigit, digitVal, if_pos (by omega)]
  rfl

theorem isNumeral_of_isBinDigit {c : CodePoint} (h : isBinDigit c = true) : isNumeral c = true := by
  rcases (Bool.or_eq_true _ _).mp h with h | h <;> rw [of_decide_eq_true h] <;> decide

/-- Only some letters have digits. -/
theorem baseDigit_ok {x c : CodePoint} (h : baseDigit x c = true) :
    isNumeral x = true ∧ isNumeral c = true := by
  unfold baseDigit at h
  split at h
  · rename_i hx
    exact ⟨by rcases hx with rfl | rfl <;> decide, isNumeral_of_isHexDigit h⟩
  · split at h
    · rename_i hx
      exact ⟨by rcases hx with rfl | rfl <;> decide, isNumeral_of_isOctDigit h⟩
    · split at h
      · rename_i hx
        exact ⟨by rcases hx with rfl | rfl <;> decide, isNumeral_of_isBinDigit h⟩
      · cases h

theorem exists_of_digits {p : CodePoint → Bool} {s : Str} (h : (digits p s).1 ≠ []) :
    ∃ c, p c = true := by
  cases s with
  | nil => exact absurd rfl h
  | cons c s =>
      unfold digits at h
      split at h
      · rename_i hc
        rcases (Bool.or_eq_true _ _).mp hc with hc | hc
        · exact ⟨c, hc⟩
        · exact (Option.any_eq_true _ _).mp ((Bool.and_eq_true _ _).mp hc).2 |>.imp fun _ hd => hd.2
      · exact absurd rfl h

/-- An integer with a base: its digits after `0` and a letter. -/
theorem radix_ok {s t rest : Str} (h : radix s = some (t, rest)) :
    s = t ++ rest ∧ t.all isNumeral = true := by
  match s, h with
  | z :: x :: s, h =>
      simp only [radix] at h
      split at h
      · rename_i hz
        obtain ⟨hz, hdigits⟩ := (Bool.and_eq_true _ _).mp hz
        obtain ⟨rfl, rfl⟩ := Prod.mk.inj (Option.some.inj h)
        obtain ⟨happ, hall⟩ := digits_ok (fun _ hc => (baseDigit_ok hc).2) s
        obtain ⟨c, hc⟩ := exists_of_digits (p := baseDigit x) (s := s) (by simpa using hdigits)
        refine ⟨congrArg (z :: x :: ·) happ, ?_⟩
        have hzn : isNumeral z = true := by rw [of_decide_eq_true hz]; decide
        simpa [hzn, (baseDigit_ok hc).1] using hall
      · cases h

/-- The fraction is read from the front. -/
theorem fraction_ok (s : Str) : s = (fraction s).1 ++ (fraction s).2 ∧
    (fraction s).1.all isNumeral = true := by
  cases s with
  | nil => exact ⟨rfl, rfl⟩
  | cons c s =>
      simp only [fraction]
      split
      · rename_i hc
        have hdot : c = chr '.' := of_decide_eq_true ((Bool.and_eq_true _ _).mp hc).1
        have hnumeral : isNumeral (chr '.') = true := by decide
        split
        · obtain ⟨happ, hall⟩ := digits_ok (fun _ => isNumeral_of_isDigit) s
          refine ⟨congrArg (c :: ·) happ, ?_⟩
          simpa [hdot, hnumeral] using hall
        · exact ⟨rfl, by simpa [hdot] using hnumeral⟩
      · exact ⟨rfl, rfl⟩

/-- The exponent is read from the front, and it is a numeral. -/
theorem exponent_ok {s t rest : Str} (h : exponent s = some (t, rest)) :
    s = t ++ rest ∧ Numeral t := by
  match s, h with
  | [], h =>
      obtain ⟨rfl, rfl⟩ := Prod.mk.inj (Option.some.inj h)
      exact ⟨rfl, .of_all rfl⟩
  | [e], h =>
      obtain ⟨rfl, rfl⟩ := Prod.mk.inj (Option.some.inj h)
      exact ⟨rfl, .of_all rfl⟩
  | e :: c :: s, h =>
      simp only [exponent] at h
      split at h
      · rename_i he
        have hnumeral : isNumeral e = true := by
          rcases (Bool.or_eq_true _ _).mp he with he | he <;> rw [of_decide_eq_true he] <;> decide
        split at h
        · obtain ⟨rfl, rfl⟩ := Prod.mk.inj (Option.some.inj h)
          obtain ⟨happ, hall⟩ := digits_ok (fun _ => isNumeral_of_isDigit) (c :: s)
          refine ⟨congrArg (e :: ·) happ, .of_all ?_⟩
          simpa [hnumeral] using hall
        · split at h
          · rename_i hsign
            split at h
            · rename_i hdigit
              obtain ⟨rfl, rfl⟩ := Prod.mk.inj (Option.some.inj h)
              obtain ⟨happ, hall⟩ := digits_ok (fun _ => isNumeral_of_isDigit) s
              refine ⟨congrArg (e :: c :: ·) happ, [e], _, rfl, by simpa using hnumeral,
                .inr ⟨c, _, rfl, ?_, digits_ne_nil hdigit, hall⟩⟩
              exact ((Bool.or_eq_true _ _).mp hsign).imp of_decide_eq_true of_decide_eq_true
            · cases h
          · obtain ⟨rfl, rfl⟩ := Prod.mk.inj (Option.some.inj h)
            exact ⟨rfl, .of_all rfl⟩
      · obtain ⟨rfl, rfl⟩ := Prod.mk.inj (Option.some.inj h)
        exact ⟨rfl, .of_all rfl⟩

/-- A number that begins with a digit, or with a dot and a digit. -/
theorem number_ok {s t rest : Str} (h : number s = some (t, rest)) :
    s = t ++ rest ∧ Numeral t ∧ rest.head?.any isLetter = false := by
  unfold number at h
  split at h
  · rename_i t' rest' hread
    split at h
    · cases h
    · rename_i hletter
      obtain ⟨rfl, rfl⟩ := Prod.mk.inj (Option.some.inj h)
      rcases Option.or_eq_some_iff.mp hread with hradix | ⟨-, hdecimal⟩
      · obtain ⟨happ, hall⟩ := radix_ok hradix
        exact ⟨happ, .of_all hall, Bool.eq_false_iff.mpr hletter⟩
      · obtain ⟨⟨e, rest⟩, he, heq⟩ := Option.map_eq_some_iff.mp hdecimal
        obtain ⟨rfl, rfl⟩ := Prod.mk.inj heq
        obtain ⟨hi, hiall⟩ := digits_ok (fun _ => isNumeral_of_isDigit) s
        obtain ⟨hf, hfall⟩ := fraction_ok (digits isDigit s).2
        obtain ⟨happ, hnumeral⟩ := exponent_ok he
        refine ⟨?_, hnumeral.append (by rw [List.all_append, hiall, hfall]; rfl),
          Bool.eq_false_iff.mpr hletter⟩
        rw [List.append_assoc, ← happ, List.append_assoc, ← hf, ← hi]
  · cases h

theorem digits_dot (s : Str) : digits isDigit (chr '.' :: s) = ([], chr '.' :: s) := by
  have hdot : isDigit (chr '.') = false := by decide
  have hne : chr '.' ≠ chr '_' := by decide
  rw [digits, hdot, if_neg (by simp [hne])]

theorem fraction_dot {s : Str} (h : s.head?.any isDigit = true) :
    (fraction (chr '.' :: s)).1 ≠ [] := by
  have hne : s.head? ≠ some (chr '.') := by
    intro heq
    rw [heq] at h
    revert h
    decide
  rw [fraction, if_pos (by simp [hne]), if_pos h]
  exact List.cons_ne_nil _ _

/-- A number that begins has a text. -/
theorem number_ne_nil {c : CodePoint} {s t rest : Str}
    (hc : isDigit c = true ∨ (c = chr '.' ∧ s.head?.any isDigit = true))
    (h : number (c :: s) = some (t, rest)) : t ≠ [] := by
  unfold number at h
  split at h
  · rename_i t' rest' hread
    split at h
    · cases h
    · obtain ⟨rfl, rfl⟩ := Prod.mk.inj (Option.some.inj h)
      rcases Option.or_eq_some_iff.mp hread with hradix | ⟨-, hdecimal⟩
      · match s, hradix with
        | x :: s, hradix =>
            simp only [radix] at hradix
            split at hradix
            · obtain ⟨rfl, -⟩ := Prod.mk.inj (Option.some.inj hradix)
              exact List.cons_ne_nil _ _
            · cases hradix
      · obtain ⟨e, -, heq⟩ := Option.map_eq_some_iff.mp hdecimal
        rw [← (Prod.mk.inj heq).1]
        refine List.append_ne_nil_of_left_ne_nil ?_ _
        rcases hc with hc | ⟨rfl, hdigit⟩
        · exact List.append_ne_nil_of_left_ne_nil (digits_ne_nil (p := isDigit) (s := c :: s) hc) _
        · rw [digits_dot]
          exact fraction_dot hdigit
  · cases h

/-! ## Tokens -/

/-- How a token is read. -/
inductive Reads (before : Before) (c : CodePoint) (s : Str) : Token → Str → Prop
  | space : isBlank c = true → Reads before c s (.space c) s
  | line (s' : Str) : c = chr '-' → s = chr '-' :: s' →
      Reads before c s (.lineComment (s'.takeWhile (!isNewline ·))) (s'.dropWhile (!isNewline ·))
  | block (s' text rest : Str) : c = chr '/' → s = chr '*' :: s' →
      comment 0 s' = some (text, rest) → Reads before c s (.blockComment text) rest
  | literal (text rest : Str) : c = chr '\'' → literal before.continues s = some (text, rest) →
      Reads before c s (.literal none before.continues text) rest
  | escape (s' text rest : Str) : c = chr 'e' ∨ c = chr 'E' → s = chr '\'' :: s' →
      literal true s' = some (text, rest) → Reads before c s (.literal (some c) true text) rest
  | quoted (parts : List Str) (rest : Str) : c = chr '"' → quoted s = some (parts, rest) →
      Reads before c s (.quoted parts) rest
  | dollar (tag s' body rest : Str) : c = chr '$' → delimiter s = some (tag, s') →
      Str.cut s' (chr '$' :: tag ++ [chr '$']) = some (body, rest) →
      Reads before c s (.dollar tag body) rest
  | sign : c = chr '$' → delimiter s = none → Reads before c s (.other c) s
  | semicolon : c = chr ';' → Reads before c s .semicolon s
  | word : isLetter c = true → Reads before c s (.word (c :: s.takeWhile isIdent))
      (s.dropWhile isIdent)
  | number (text rest : Str) : isDigit c = true ∨ (c = chr '.' ∧ s.head?.any isDigit = true) →
      number (c :: s) = some (text, rest) → Reads before c s (.number text) rest
  | other : isBlank c = false → ¬ (c = chr '-' ∧ s.head? = some (chr '-')) →
      ¬ (c = chr '/' ∧ s.head? = some (chr '*')) → c ≠ chr '\'' → c ≠ chr '"' → c ≠ chr '$' →
      c ≠ chr ';' → isLetter c = false → isDigit c = false → Reads before c s (.other c) s

/-- A token that is found is read by one of the rules. -/
theorem reads_of_token {before : Before} {c : CodePoint} {s : Str} {t : Token} {rest : Str}
    (h : token before c s = some (t, rest)) : Reads before c s t rest := by
  unfold token at h
  split at h
  · rename_i hblank
    obtain ⟨rfl, rfl⟩ := Prod.mk.inj (Option.some.inj h)
    exact .space hblank
  split at h
  · rename_i hdashes
    obtain ⟨rfl, rfl⟩ := Prod.mk.inj (Option.some.inj h)
    exact .line s.tail hdashes.1 (List.cons_head?_tail hdashes.2).symm
  split at h
  · rename_i hblock
    obtain ⟨y, hread, heq⟩ := Option.map_eq_some_iff.mp h
    obtain ⟨rfl, rfl⟩ := Prod.mk.inj heq
    exact .block s.tail _ _ hblock.1 (List.cons_head?_tail hblock.2).symm hread
  split at h
  · rename_i hquote
    obtain ⟨y, hread, heq⟩ := Option.map_eq_some_iff.mp h
    obtain ⟨rfl, rfl⟩ := Prod.mk.inj heq
    exact .literal _ _ hquote hread
  split at h
  · rename_i hescape
    obtain ⟨y, hread, heq⟩ := Option.map_eq_some_iff.mp h
    obtain ⟨rfl, rfl⟩ := Prod.mk.inj heq
    exact .escape s.tail _ _ hescape.1 (List.cons_head?_tail hescape.2).symm hread
  split at h
  · rename_i hname
    obtain ⟨y, hread, heq⟩ := Option.map_eq_some_iff.mp h
    obtain ⟨rfl, rfl⟩ := Prod.mk.inj heq
    exact .quoted _ _ hname hread
  split at h
  · rename_i hsign
    unfold Lexer.dollar at h
    split at h
    · rename_i hdelimiter
      obtain ⟨y, hread, heq⟩ := Option.map_eq_some_iff.mp h
      obtain ⟨rfl, rfl⟩ := Prod.mk.inj heq
      exact .dollar _ _ _ _ hsign hdelimiter hread
    · rename_i hdelimiter
      simp only at h
      split at h
      · cases h
      · obtain ⟨rfl, rfl⟩ := Prod.mk.inj (Option.some.inj h)
        rw [← hsign]
        exact .sign hsign hdelimiter
  split at h
  · rename_i hc
    obtain ⟨rfl, rfl⟩ := Prod.mk.inj (Option.some.inj h)
    exact .semicolon hc
  split at h
  · rename_i hletter
    obtain ⟨rfl, rfl⟩ := Prod.mk.inj (Option.some.inj h)
    exact .word hletter
  split at h
  · rename_i hdigit
    obtain ⟨y, hread, heq⟩ := Option.map_eq_some_iff.mp h
    obtain ⟨rfl, rfl⟩ := Prod.mk.inj heq
    exact .number _ _ hdigit hread
  · rename_i hblank hdashes hblock hquote _ hname hsign hsemicolon hletter hdigit
    obtain ⟨rfl, rfl⟩ := Prod.mk.inj (Option.some.inj h)
    exact .other (Bool.eq_false_iff.mpr hblank) hdashes hblock hquote hname hsign hsemicolon
      (Bool.eq_false_iff.mpr hletter) (Bool.eq_false_iff.mpr (not_or.mp hdigit).1)

/-- The tokens of a text that is not empty. -/
theorem lexFrom_cons {n : Nat} {before : Before} {c : CodePoint} {s : Str} {ts : List Token}
    (h : lexFrom n before (c :: s) = some ts) :
    ∃ m t rest ts', ts = t :: ts' ∧ Reads before c s t rest ∧
      lexFrom m (before.next t) rest = some ts' := by
  cases n with
  | zero => cases h
  | succ m =>
      simp only [lexFrom] at h
      split at h
      · rename_i t rest htoken
        obtain ⟨ts', hrest, rfl⟩ := Option.map_eq_some_iff.mp h
        exact ⟨m, t, rest, ts', rfl, reads_of_token htoken, hrest⟩
      · cases h

/-- The first character of a token. -/
def Token.first : Token → Option CodePoint
  | .space c | .other c => some c
  | .lineComment _ => some (chr '-')
  | .blockComment _ => some (chr '/')
  | .literal lead _ _ => some (lead.getD (chr '\''))
  | .quoted _ => some (chr '"')
  | .dollar _ _ => some (chr '$')
  | .word text | .number text => text.head?
  | .semicolon => some (chr ';')

/-- What is true of every token that is read. -/
def Token.IsRead : Token → Prop
  | .space c => isBlank c = true
  | .quoted parts => parts ≠ []
  | .word text | .number text => text ≠ []
  | .lineComment _ | .blockComment _ | .literal _ _ _ | .dollar _ _ | .semicolon | .other _ => True

/-- What a rule reads is a token that can be read. -/
theorem Reads.isRead {before : Before} {c : CodePoint} {s : Str} {t : Token} {rest : Str}
    (h : Reads before c s t rest) : t.IsRead := by
  cases h with
  | space hblank => exact hblank
  | quoted parts rest _ hread =>
      obtain ⟨p, ps, _, rfl, -⟩ := quoted_cases hread
      exact List.cons_ne_nil _ _
  | word => exact List.cons_ne_nil _ _
  | number text rest hdigit hread => exact number_ne_nil hdigit hread
  | line | block | literal | escape | dollar | sign | semicolon | other => trivial

/-- A token begins with the character it is read at. -/
theorem Reads.first {before : Before} {c : CodePoint} {s : Str} {t : Token} {rest : Str}
    (h : Reads before c s t rest) : t.first = some c := by
  cases h with
  | space | escape | word | sign | other => rfl
  | number text rest hdigit hread =>
      have hne := number_ne_nil hdigit hread
      obtain ⟨happ, -, -⟩ := number_ok hread
      cases text with
      | nil => exact absurd rfl hne
      | cons d text => exact congrArg some (List.cons.inj happ).1.symm
  | line _ hc | block _ _ _ hc | literal _ _ hc | quoted _ _ hc | dollar _ _ _ _ hc
  | semicolon hc => exact congrArg some hc.symm

/-- A name is as long as it can be, and a line comment ends with the line. -/
def Follows : Token → Token → Prop
  | .word _, t => t.first.any isIdent = false
  | .lineComment _, t => ∃ c, t = .space c ∧ isNewline c = true
  | _, _ => True

theorem isBlank_of_isNewline {c : CodePoint} (h : isNewline c = true) : isBlank c = true := by
  rcases (Bool.or_eq_true _ _).mp h with h | h <;> rw [of_decide_eq_true h] <;> decide

theorem isNewline_of_isBlank {c : CodePoint} (h : isBlank c = false) : isNewline c = false := by
  cases hc : isNewline c with
  | false => rfl
  | true =>
      rw [isBlank_of_isNewline hc] at h
      cases h

theorem isBlank_of_isWord {c : CodePoint} (h : isWord c = true) : isBlank c = false := by
  rcases (Bool.or_eq_true _ _).mp h with h | h
  · simp only [isLetter, Bool.or_eq_true, Bool.and_eq_true, decide_eq_true_eq, beq_iff_eq] at h
    simp only [isBlank, Bool.or_eq_false_iff, Bool.and_eq_false_iff, decide_eq_false_iff_not,
      beq_eq_false_iff_ne]
    omega
  · have hrange := digit_range h
    simp only [isBlank, Bool.or_eq_false_iff, Bool.and_eq_false_iff, decide_eq_false_iff_not,
      beq_eq_false_iff_ne]
    omega

/-- A blank is a token of its own. -/
theorem Reads.blank {before : Before} {c : CodePoint} {s : Str} {t : Token} {rest : Str}
    (h : Reads before c s t rest) (hc : isBlank c = true) : t = .space c := by
  cases h with
  | space => rfl
  | line _ hc' | block _ _ _ hc' | literal _ _ hc' | quoted _ _ hc' | dollar _ _ _ _ hc'
  | sign hc' | semicolon hc' =>
      rw [hc'] at hc
      exact absurd hc (by decide)
  | escape _ _ _ hc' => rcases hc' with rfl | rfl <;> exact absurd hc (by decide)
  | word hletter =>
      rw [isBlank_of_isWord (by rw [isWord, hletter]; rfl)] at hc
      cases hc
  | number _ _ hdigit =>
      rcases hdigit with hdigit | ⟨rfl, -⟩
      · rw [isBlank_of_isWord (by rw [isWord, hdigit, Bool.or_true])] at hc
        cases hc
      · exact absurd hc (by decide)
  | other hblank =>
      rw [hc] at hblank
      cases hblank

/-- Two tokens read one after the other may follow each other. -/
theorem Reads.follows {before before' : Before} {c c' : CodePoint} {s s' : Str} {t t' : Token}
    {rest rest' : Str} (h : Reads before c s t rest) (hrest : rest = c' :: s')
    (h' : Reads before' c' s' t' rest') : Follows t t' := by
  cases h with
  | word =>
      have hstop := List.head?_dropWhile_not isIdent s
      rw [hrest] at hstop
      rw [Follows, h'.first]
      exact hstop
  | line s₁ =>
      have hstop := List.head?_dropWhile_not (!isNewline ·) s₁
      rw [hrest] at hstop
      have hnewline : isNewline c' = true := by simpa using hstop
      exact ⟨c', h'.blank (isBlank_of_isNewline hnewline), hnewline⟩
  | space | block | literal | escape | quoted | dollar | sign | semicolon | number | other =>
      trivial

/-- The tokens of a text are read, and follow each other. -/
theorem lexFrom_ok : ∀ (ts : List Token) {n : Nat} {before : Before} {s : Str}, lexFrom n
    before s = some ts → (∀ t ∈ ts, t.IsRead) ∧ ts.IsChain Follows
  | [], _, _, _, _ => ⟨nofun, .nil⟩
  | t :: ts, n, before, [], h => by cases n <;> cases h
  | t :: ts, n, before, c :: s, h => by
      obtain ⟨m, t', rest, ts', heq, hreads, hlex⟩ := lexFrom_cons h
      obtain ⟨rfl, rfl⟩ := List.cons.inj heq
      obtain ⟨hall, hchain⟩ := lexFrom_ok ts hlex
      refine ⟨List.forall_mem_cons.mpr ⟨hreads.isRead, hall⟩, ?_⟩
      cases ts with
      | nil => exact .singleton t
      | cons t₂ ts₂ =>
          refine List.isChain_cons_cons.mpr ⟨?_, hchain⟩
          cases rest with
          | nil => cases m <;> cases hlex
          | cons c' s' =>
              obtain ⟨_, t₃, _, _, heq, hreads', -⟩ := lexFrom_cons hlex
              obtain ⟨rfl, -⟩ := List.cons.inj heq
              exact hreads.follows rfl hreads'

/-! ## Pieces -/

theorem pieces_ne_nil : ∀ ts : List Token, pieces ts ≠ []
  | [] => List.cons_ne_nil _ _
  | t :: ts => by
      cases t <;> exact List.cons_ne_nil _ _

/-- A token that is no semicolon goes to the first piece. -/
theorem pieces_cons {t : Token} (ht : t ≠ .semicolon) (ts : List Token) :
    ∃ p ps, pieces ts = p :: ps ∧ pieces (t :: ts) = (t :: p) :: ps := by
  obtain ⟨p, ps, hpieces⟩ := List.exists_cons_of_ne_nil (pieces_ne_nil ts)
  refine ⟨p, ps, hpieces, ?_⟩
  cases t with
  | semicolon => exact absurd rfl ht
  | space | lineComment | blockComment | literal | quoted | dollar | word | number | other =>
      rw [pieces, hpieces]
      · rfl
      · nofun

/-- The first piece begins the text, and no piece has a semicolon. -/
theorem pieces_ok : ∀ {ts p : List Token} {ps : List (List Token)}, pieces ts = p :: ps →
    p <+: ts ∧ (∀ q ∈ ps, q <:+: ts) ∧ ∀ q ∈ p :: ps, .semicolon ∉ q
  | [], p, ps, h => by
      obtain ⟨rfl, rfl⟩ := List.cons.inj h
      exact ⟨List.prefix_rfl, nofun, by simp⟩
  | t :: ts, p, ps, h => by
      obtain ⟨p', ps', hpieces⟩ := List.exists_cons_of_ne_nil (pieces_ne_nil ts)
      obtain ⟨hfront, hpart, hnone⟩ := pieces_ok hpieces
      by_cases ht : t = .semicolon
      · subst ht
        rw [pieces, hpieces] at h
        obtain ⟨rfl, rfl⟩ := List.cons.inj h
        refine ⟨List.nil_prefix, fun q hq => ?_, List.forall_mem_cons.mpr ⟨List.not_mem_nil, hnone⟩⟩
        rcases List.mem_cons.mp hq with rfl | hq
        · exact hfront.isInfix.trans (List.suffix_cons _ _).isInfix
        · exact (hpart q hq).trans (List.suffix_cons _ _).isInfix
      · obtain ⟨p'', ps'', hpieces', hcons⟩ := pieces_cons ht ts
        rw [hcons] at h
        rw [hpieces] at hpieces'
        obtain ⟨rfl, rfl⟩ := List.cons.inj hpieces'
        obtain ⟨rfl, rfl⟩ := List.cons.inj h
        refine ⟨(List.prefix_cons_inj t).mpr hfront,
          fun q hq => (hpart q hq).trans (List.suffix_cons _ _).isInfix, ?_⟩
        obtain ⟨hfirst, hothers⟩ := List.forall_mem_cons.mp hnone
        refine List.forall_mem_cons.mpr ⟨?_, hothers⟩
        simpa using ⟨Ne.symm ht, hfirst⟩

/-- A piece is a part of the tokens and has no semicolon. -/
theorem part_of_mem_pieces {ts p : List Token} (h : p ∈ pieces ts) :
    p <:+: ts ∧ .semicolon ∉ p := by
  obtain ⟨p', ps', hpieces⟩ := List.exists_cons_of_ne_nil (pieces_ne_nil ts)
  obtain ⟨hfront, hpart, hnone⟩ := pieces_ok hpieces
  rw [hpieces] at h
  refine ⟨?_, hnone p h⟩
  rcases List.mem_cons.mp h with rfl | h
  · exact hfront.isInfix
  · exact hpart p h

end BeSdk.Sql.Lexer
