/-
BeSdk.Db.LintTheorems — when `statements_with_bodies` reads a text as PostgreSQL does.

The loop of `statements_with_bodies` and the lexer part at a few kinds of tokens, which
`Plain` leaves out: an `E''` string with a backslash before a quote, a comment in a
comment, a name with a dollar quote in it, a dollar quote with a tag beyond ASCII, and a
line comment that a carriage return alone ends. At every other token the loop takes the
token's text and adds what `kept` says (`Goes.token`), so that it finds what is in the
tokens of the lexer (`loop_eq`).
-/
import BeSdk.Db.Lint
import BeSdk.Sql.LexerTheorems

namespace BeSdk.Db.Lint

open Sql.Lexer (Token Before isLetter isWord isIdent isBlank isNewline isBlank_of_isWord
    isNewline_of_isBlank lexFrom pieces)

/-! ## The loop -/

/-- A character that every turn adds as it is. -/
def isOrdinary (c : CodePoint) : Bool :=
  c ≠ chr '-' && c ≠ chr '/' && c ≠ chr '\'' && c ≠ chr '"' && c ≠ chr '$' && c ≠ chr ';'

/-- An ordinary character is kept. -/
theorem turn_ordinary {c : CodePoint} {s : Str} (h : isOrdinary c = true) :
    turn c s = (.code [c], s) := by
  simp only [isOrdinary, Bool.and_eq_true, decide_eq_true_eq] at h
  obtain ⟨⟨⟨⟨⟨hminus, hslash⟩, hquote⟩, hname⟩, hdollar⟩, hsemicolon⟩ := h
  rw [turn, if_neg fun h => hminus h.1, if_neg fun h => hslash h.1, if_neg hquote,
    if_neg hname, if_neg hdollar]
  exact if_neg hsemicolon

theorem turn_literal (s : Str) : turn (chr '\'') s = (.code (str "''"), afterLiteral s) := by
  rw [turn, if_neg fun h => absurd h.1 (by decide), if_neg fun h => absurd h.1 (by decide),
    if_pos rfl]

theorem turn_name (s : Str) : turn (chr '"') s =
    (let x := match Str.cut s (str "\"") with
      | some (name, rest) => (chr '"' :: name ++ str "\"", rest)
      | none => (chr '"' :: s, [])
     (.code (if x.1.contains (chr '.') then str "\"_\"" else x.1), x.2)) := by
  rw [turn, if_neg fun h => absurd h.1 (by decide), if_neg fun h => absurd h.1 (by decide),
    if_neg (by decide)]
  exact if_pos rfl

/-- A dollar-quoted body is found and kept as an empty one. -/
theorem turn_dollar {s : Str} {tag rest body rest' : Str} (htag : dollarTag s = some (tag, rest))
    (hbody : Str.cut rest (str "$" ++ tag ++ str "$") = some (body, rest')) :
    turn (chr '$') s = (.body body, rest') := by
  rw [turn, if_neg fun h => absurd h.1 (by decide), if_neg fun h => absurd h.1 (by decide),
    if_neg (by decide), if_neg (by decide), if_pos rfl, htag]
  simp only
  rw [hbody]

/-- A dollar sign that opens no body is kept. -/
theorem turn_sign {s : Str} (h : dollarTag s = none) : turn (chr '$') s = (.code (str "$"), s) := by
  rw [turn, if_neg fun h => absurd h.1 (by decide), if_neg fun h => absurd h.1 (by decide),
    if_neg (by decide), if_neg (by decide), if_pos rfl, h]
  rfl

theorem turn_block {s rest body : Str} (h : Str.cut s (str "*/") = some (body, rest)) :
    turn (chr '/') (chr '*' :: s) = (.code (str " "), rest) := by
  rw [turn, if_neg fun h => absurd h.1 (by decide), if_pos ⟨rfl, rfl⟩, List.tail_cons, h]

theorem turn_line (s : Str) : turn (chr '-') (chr '-' :: s) =
    (.code [], s.dropWhile (· ≠ chr '\n')) := by
  rw [turn, if_pos ⟨rfl, rfl⟩]
  rfl

theorem turn_semicolon (s : Str) : turn (chr ';') s = (.semicolon, s) := by
  rw [turn, if_neg fun h => absurd h.1 (by decide), if_neg fun h => absurd h.1 (by decide),
    if_neg (by decide), if_neg (by decide), if_neg (by decide)]
  rfl

/-- The first character of what could be a comment, and is none. -/
theorem turn_lone {c : CodePoint} {s : Str} (h : c = chr '-' ∨ c = chr '/')
    (hline : ¬ (c = chr '-' ∧ s.head? = some (chr '-')))
    (hblock : ¬ (c = chr '/' ∧ s.head? = some (chr '*'))) : turn c s = (.code [c], s) := by
  rw [turn, if_neg hline, if_neg hblock]
  rcases h with rfl | rfl <;> rfl

/-- A class that has none of the six characters is ordinary. -/
theorem ordinary_of {p : CodePoint → Bool}
    (hp : (p (chr '-') || p (chr '/') || p (chr '\'') || p (chr '"') || p (chr '$') ||
    p (chr ';')) = false) {c : CodePoint} (hc : p c = true) : isOrdinary c = true := by
  simp only [Bool.or_eq_false_iff] at hp
  obtain ⟨⟨⟨⟨⟨hminus, hslash⟩, hquote⟩, hname⟩, hdollar⟩, hsemicolon⟩ := hp
  have hne : ∀ {d : CodePoint}, p d = false → c ≠ d := by
    rintro d hd rfl
    rw [hc] at hd
    cases hd
  simp [isOrdinary, hne hminus, hne hslash, hne hquote, hne hname, hne hdollar, hne hsemicolon]

theorem ordinary_of_isWord {c : CodePoint} (h : isWord c = true) :
    isOrdinary c = true := ordinary_of (by decide) h

theorem ordinary_of_isNumeral {c : CodePoint} (h : Sql.Lexer.isNumeral c = true) :
    isOrdinary c = true :=
  ordinary_of (by decide) h

theorem ordinary_of_isBlank {c : CodePoint} (h : isBlank c = true) :
    isOrdinary c = true := ordinary_of (by decide) h

/-- Some turns take a text to its rest, and add code and bodies. -/
def Goes (s rest text : Str) (found : List Str) : Prop :=
  ∀ n b bodies out, s.length ≤ n → ∃ m, rest.length ≤ m ∧ loop n s b bodies out =
    loop m rest (b ++ text) (bodies ++ found) out

theorem Goes.refl (s : Str) : Goes s s [] [] := fun n b bodies out hn => ⟨n, hn, by simp⟩

/-- What the scan does over two texts one after the other. -/
theorem Goes.trans {s₁ s₂ s₃ t₁ t₂ : Str} {f₁ f₂ : List Str} (h₁ : Goes s₁ s₂ t₁ f₁)
    (h₂ : Goes s₂ s₃ t₂ f₂) : Goes s₁ s₃ (t₁ ++ t₂) (f₁ ++ f₂) := by
  intro n b bodies out hn
  obtain ⟨m, hm, heq₁⟩ := h₁ n b bodies out hn
  obtain ⟨k, hk, heq₂⟩ := h₂ m (b ++ t₁) (bodies ++ f₁) out hm
  exact ⟨k, hk, by rw [heq₁, heq₂, List.append_assoc, List.append_assoc]⟩

theorem Goes.code {c : CodePoint} {s rest text : Str} (h : turn c s = (.code text, rest))
    (hle : rest.length ≤ s.length) : Goes (c :: s) rest text [] := by
  intro n b bodies out hn
  obtain ⟨m, rfl⟩ : ∃ m, n = m + 1 := ⟨n - 1, by rw [List.length_cons] at hn; omega⟩
  refine ⟨m, hle.trans (by simpa using hn), ?_⟩
  rw [loop, h, List.append_nil]

theorem Goes.body {c : CodePoint} {s rest body : Str} (h : turn c s = (.body body, rest))
    (hle : rest.length ≤ s.length) : Goes (c :: s) rest (str "$$") [body] := by
  intro n b bodies out hn
  obtain ⟨m, rfl⟩ : ∃ m, n = m + 1 := ⟨n - 1, by rw [List.length_cons] at hn; omega⟩
  refine ⟨m, hle.trans (by simpa using hn), ?_⟩
  rw [loop, h]

theorem Goes.ordinary {c : CodePoint} {s : Str} (h : isOrdinary c = true) :
    Goes (c :: s) s [c] [] :=
  .code (turn_ordinary h) (Nat.le_refl _)

/-- Ordinary text is kept as it is. -/
theorem Goes.all {t : Str} (rest : Str) (h : ∀ c ∈ t, isOrdinary c = true) :
    Goes (t ++ rest) rest t [] := by
  induction t with
  | nil => exact .refl rest
  | cons c t ih =>
      have hnext := ih fun d hd => h d (List.mem_cons_of_mem _ hd)
      exact (Goes.ordinary (h c List.mem_cons_self)).trans hnext

/-! ## Tokens -/

/-- A backslash takes a quote with it; the text is that of an `E''` string. -/
def escapesQuote : Str → Bool
  | c :: d :: s =>
      if c = chr '\'' then escapesQuote s
      else if c = chr '\\' then d = chr '\'' || escapesQuote s
      else escapesQuote (d :: s)
  | _ => false

/-- A dollar quote begins in the text, as the loop sees it. -/
def hasDollar : Str → Bool
  | [] => false
  | c :: s => (c = chr '$' && (dollarTag s).isSome) || hasDollar s

/-- The loop and the lexer see the same end. -/
def isPlain : Token → Bool
  | .literal _ escapes text => !(escapes && escapesQuote text)
  | .blockComment text => (Str.cut text (str "/*")).isNone
  | .dollar tag _ => tag.all (·.val < 0x80)
  | .word text => !hasDollar text
  | .space _ | .lineComment _ | .quoted _ | .number _ | .semicolon | .other _ => true

/-- A quoted name, or what stands for one with a dot. -/
def keptName (name : Str) : Str :=
  let ident := chr '"' :: name ++ str "\""
  if ident.contains (chr '.') then str "\"_\"" else ident

/-- What the loop adds to the code for a token. -/
def kept : Token → Str
  | .space c => [c]
  | .lineComment _ => []
  | .blockComment _ => str " "
  | .literal lead _ _ => lead.toList ++ str "''"
  | .quoted parts => parts.flatMap keptName
  | .dollar _ _ => str "$$"
  | .word text | .number text => text
  | .semicolon => []
  | .other c => [c]

/-! ### Strings -/

theorem afterLiteral_cons {c : CodePoint} {s : Str} (h : c ≠ chr '\'') :
    afterLiteral (c :: s) = afterLiteral s := by
  cases s with
  | nil => rfl
  | cons d s => rw [afterLiteral, if_neg h]

/-- A literal without an escaped quote ends where the lexer ends it. -/
theorem afterLiteral_eq {escapes : Bool} :
    ∀ {s t rest : Str}, Sql.Lexer.literal escapes s = some (t, rest) →
    (escapes && escapesQuote t) = false → afterLiteral s = rest
  | [], _, _, h, _ => by cases h
  | [c], t, rest, h, _ => by
      simp only [Sql.Lexer.literal] at h
      split at h
      · obtain ⟨rfl, rfl⟩ := Prod.mk.inj (Option.some.inj h)
        rfl
      · cases h
  | c :: d :: s, t, rest, h, hplain => by
      simp only [Sql.Lexer.literal] at h
      split at h
      · rename_i hc
        rw [afterLiteral, if_pos hc]
        split at h
        · rename_i hd
          obtain ⟨⟨t', rest'⟩, hy, heq⟩ := Option.map_eq_some_iff.mp h
          obtain ⟨rfl, rfl⟩ := Prod.mk.inj heq
          rw [if_pos hd]
          refine afterLiteral_eq hy ?_
          rwa [escapesQuote, if_pos hc] at hplain
        · rename_i hd
          obtain ⟨rfl, rfl⟩ := Prod.mk.inj (Option.some.inj h)
          rw [if_neg hd]
      · rename_i hc
        rw [afterLiteral_cons hc]
        split at h
        · rename_i hescape
          obtain ⟨hescapes, hbackslash⟩ := (Bool.and_eq_true _ _).mp hescape
          obtain ⟨⟨t', rest'⟩, hy, heq⟩ := Option.map_eq_some_iff.mp h
          obtain ⟨rfl, rfl⟩ := Prod.mk.inj heq
          rw [hescapes, Bool.true_and, escapesQuote, if_neg hc,
            if_pos (of_decide_eq_true hbackslash), Bool.or_eq_false_iff] at hplain
          rw [afterLiteral_cons (of_decide_eq_false hplain.1)]
          exact afterLiteral_eq hy (by rw [hplain.2, Bool.and_false])
        · rename_i hescape
          obtain ⟨⟨t', rest'⟩, hy, heq⟩ := Option.map_eq_some_iff.mp h
          obtain ⟨rfl, rfl⟩ := Prod.mk.inj heq
          refine afterLiteral_eq hy ?_
          cases escapes with
          | false => rfl
          | true =>
              have hbackslash : c ≠ chr '\\' := by simpa using hescape
              cases t' with
              | nil => rfl
              | cons e t' => rwa [escapesQuote, if_neg hc, if_neg hbackslash] at hplain

/-- Such a literal is kept as an empty one. -/
theorem Goes.literal {escapes : Bool} {s t rest : Str}
    (h : Sql.Lexer.literal escapes s = some (t, rest))
    (hplain : (escapes && escapesQuote t) = false) : Goes (chr '\'' :: s) rest (str "''") [] := by
  have hle : rest.length ≤ s.length := Sql.Lexer.literal_length h
  refine .code ?_ hle
  rw [turn_literal, afterLiteral_eq h hplain]

/-! ### Names and comments -/

/-- A quoted name is kept as far as its characters are. -/
theorem Goes.quoted : ∀ (parts : List Str) {s rest : Str}, Sql.Lexer.quoted s = some (parts, rest) →
    Goes (chr '"' :: s) rest (parts.flatMap keptName) []
  | parts, s, rest, h => by
      obtain ⟨p, ps, s', rfl, hp, rfl, hend⟩ := Sql.Lexer.quoted_cases h
      have hturn : turn (chr '"') (p ++ chr '"' :: s') = (.code (keptName p), s') := by
        have hcut : Str.cut (p ++ chr '"' :: s') (str "\"") = some (p, s') :=
          Sql.Lexer.cut_singleton s' hp
        rw [turn_name, hcut]
        rfl
      have hfirst := Goes.code hturn (by rw [List.length_append, List.length_cons]; omega)
      rcases hend with ⟨rfl, rfl⟩ | ⟨s'', rfl, hnext⟩
      · simpa using hfirst
      · exact hfirst.trans (Goes.quoted ps hnext)

/-- A block comment without another inside is a blank. -/
theorem Goes.blockComment {s text rest : Str} (h : Sql.Lexer.comment 0 s = some (text, rest))
    (hplain : (Str.cut text (str "/*")).isNone = true) :
    Goes (chr '/' :: chr '*' :: s) rest (str " ") [] := by
  have hcut := Sql.Lexer.comment_flat h (Option.isNone_iff_eq_none.mp hplain)
  exact .code (turn_block hcut) ((Sql.Lexer.length_of_cut hcut).trans (by simp))

/-! ### Dollars -/

def isAsciiWord (c : CodePoint) : Bool := isAsciiLetter c || isDigit c

/-- A dollar tag is letters, digits and underscores up to the next dollar sign. -/
theorem dollarTag_eq_some_iff {s tag rest : Str} : dollarTag s = some (tag, rest) ↔
    s = tag ++ chr '$' :: rest ∧ tag.all isAsciiWord = true ∧ tag.head?.all isAsciiLetter = true :=
  @Sql.Lexer.tagged_eq_some_iff isAsciiWord isAsciiLetter (by decide) s tag rest

theorem isLetter_eq {c : CodePoint} : isLetter c = (isAsciiLetter c || decide (0x80 ≤ c.val)) := rfl

theorem isWord_of_isAsciiWord {c : CodePoint} (h : isAsciiWord c = true) : isWord c = true := by
  rcases (Bool.or_eq_true _ _).mp h with h | h
  · rw [isWord, isLetter_eq, h]; rfl
  · rw [isWord, h, Bool.or_true]

theorem isAsciiLetter_of_isLetter {c : CodePoint} (hascii : c.val < 0x80)
    (h : isLetter c = true) : isAsciiLetter c = true := by
  rw [isLetter_eq, decide_eq_false (by omega), Bool.or_false] at h
  exact h

theorem isAsciiWord_of_isWord {c : CodePoint} (hascii : c.val < 0x80) (h : isWord c = true) :
    isAsciiWord c = true := by
  rcases (Bool.or_eq_true _ _).mp h with h | h
  · rw [isAsciiWord, isAsciiLetter_of_isLetter hascii h]; rfl
  · rw [isAsciiWord, h, Bool.or_true]

/-- A tag of the lexer is one of the loop, when it is of ASCII. -/
theorem loop_of_delimiter {s tag rest : Str} (h : Sql.Lexer.delimiter s = some (tag, rest))
    (hascii : tag.all (·.val < 0x80) = true) : dollarTag s = some (tag, rest) := by
  obtain ⟨rfl, hall, hhead⟩ := (Sql.Lexer.tagged_eq_some_iff (by decide)).mp h
  rw [List.all_eq_true] at hascii hall
  refine dollarTag_eq_some_iff.mpr ⟨rfl, List.all_eq_true.mpr fun c hc => ?_, ?_⟩
  · exact isAsciiWord_of_isWord (of_decide_eq_true (hascii c hc)) (hall c hc)
  · cases tag with
    | nil => rfl
    | cons c tag =>
        exact isAsciiLetter_of_isLetter (of_decide_eq_true (hascii c List.mem_cons_self)) hhead

/-- A tag of the loop is one of the lexer. -/
theorem delimiter_of_loop {s tag rest : Str} (h : dollarTag s = some (tag, rest)) :
    Sql.Lexer.delimiter s = some (tag, rest) := by
  obtain ⟨rfl, hall, hhead⟩ := dollarTag_eq_some_iff.mp h
  refine (Sql.Lexer.tagged_eq_some_iff (by decide)).mpr
    ⟨rfl, List.all_eq_true.mpr fun c hc => ?_, ?_⟩
  · exact isWord_of_isAsciiWord (List.all_eq_true.mp hall c hc)
  · cases tag with
    | nil => rfl
    | cons c tag =>
        have hc : isAsciiLetter c = true := hhead
        rw [List.head?_cons, Option.all_some, isLetter_eq, hc]
        rfl

/-- What is no dollar quote in a name is none in the text that the name begins. -/
theorem dollarTag_append {w rest : Str} (hw : w.all isIdent = true)
    (hrest : rest.head?.any isIdent = false) (h : (dollarTag w).isSome = false) :
    dollarTag (w ++ rest) = none := by
  cases hsome : dollarTag (w ++ rest) with
  | none => rfl
  | some x =>
      obtain ⟨tag, rest'⟩ := x
      obtain ⟨happ, hall, hhead⟩ := dollarTag_eq_some_iff.mp hsome
      have hinside : ∃ a, w = tag ++ chr '$' :: a := by
        rw [← List.singleton_append, ← List.append_assoc] at happ
        rcases List.append_eq_append_iff.mp happ with ⟨a, ha, hrest'⟩ | ⟨a, ha, -⟩
        · cases a with
          | nil => exact ⟨[], by rw [← ha.trans (List.append_nil w)]⟩
          | cons d a =>
              -- the tag would reach past the name
              have hd : d ∈ tag ++ [chr '$'] := by rw [ha]; simp
              have hident : isIdent d = true := by
                rcases List.mem_append.mp hd with hd | hd
                · rw [isIdent, isWord_of_isAsciiWord (List.all_eq_true.mp hall d hd)]; rfl
                · rw [List.mem_singleton.mp hd]; decide
              rw [hrest', List.cons_append, List.head?_cons, Option.any_some, hident] at hrest
              cases hrest
        · exact ⟨a, by rw [ha, List.append_assoc]; rfl⟩
      obtain ⟨a, rfl⟩ := hinside
      rw [dollarTag_eq_some_iff.mpr ⟨rfl, hall, hhead⟩] at h
      cases h

/-- A word without a dollar sign is kept. -/
theorem Goes.word {rest : Str} (hrest : rest.head?.any isIdent = false) :
    ∀ {w : Str}, w.all isIdent = true → hasDollar w = false → Goes (w ++ rest) rest w []
  | [], _, _ => .refl rest
  | c :: w, hw, hplain => by
      obtain ⟨hc, hw⟩ := (Bool.and_eq_true _ _).mp hw
      obtain ⟨hdollar, hplain⟩ := Bool.or_eq_false_iff.mp hplain
      have hnext := Goes.word hrest hw hplain
      rcases (Bool.or_eq_true _ _).mp hc with hword | hsign
      · exact (Goes.ordinary (ordinary_of_isWord hword)).trans hnext
      · rw [hsign, Bool.true_and] at hdollar
        obtain rfl := of_decide_eq_true hsign
        exact (Goes.code (turn_sign (dollarTag_append (w := w) hw hrest hdollar))
          (Nat.le_refl _)).trans hnext

/-! ### Numbers -/

/-- The sign of an exponent has a digit after it. -/
theorem Goes.sign {sign : CodePoint} {d : Str} (rest : Str)
    (hsign : sign = chr '+' ∨ sign = chr '-') (hd : d ≠ [])
    (hall : ∀ c ∈ d, isOrdinary c = true) : Goes (sign :: (d ++ rest)) (d ++ rest) [sign] [] := by
  rcases hsign with rfl | rfl
  · exact .ordinary (by decide)
  · refine .code (turn_lone (.inl rfl) (fun hline => ?_) fun hblock => absurd hblock.1
      (by decide)) (Nat.le_refl _)
    cases d with
    | nil => exact hd rfl
    | cons c d =>
        have hc : isOrdinary c = true := hall c List.mem_cons_self
        obtain rfl : c = chr '-' := Option.some.inj hline.2
        revert hc
        decide

/-- A number is kept. -/
theorem Goes.number {t : Str} (rest : Str) (h : Sql.Lexer.Numeral t) :
    Goes (t ++ rest) rest t [] := by
  obtain ⟨m, e, rfl, hm, he⟩ := h
  have hordinary : ∀ {t : Str}, t.all Sql.Lexer.isNumeral = true → ∀ c ∈ t, isOrdinary c =
    true := fun ht c hc =>
    ordinary_of_isNumeral (List.all_eq_true.mp ht c hc)
  have hfirst := Goes.all (e ++ rest) (hordinary hm)
  rw [List.append_assoc]
  refine hfirst.trans ?_
  rcases he with rfl | ⟨sign, d, rfl, hsign, hd, hall⟩
  · exact .refl rest
  · exact (Goes.sign rest hsign hd (hordinary hall)).trans (Goes.all rest (hordinary hall))

/-! ### Every token -/

/-- The loop takes a token, and adds what is kept of it. -/
theorem Goes.token {before : Before} {c : CodePoint} {s : Str} {t : Token} {rest : Str}
    (h : Sql.Lexer.Reads before c s t rest) (hplain : isPlain t = true)
    (hline : ∀ text, t ≠ .lineComment text) (hsemicolon : t ≠ .semicolon) :
    Goes (c :: s) rest (kept t) t.bodies := by
  cases h with
  | space hblank => exact .ordinary (ordinary_of_isBlank hblank)
  | line => exact absurd rfl (hline _)
  | block s' text rest hc hs hread =>
      subst hc hs
      exact .blockComment hread hplain
  | literal text rest hc hread =>
      subst hc
      exact .literal hread ((Bool.not_eq_true' _).mp hplain)
  | escape s' text rest hc hs hread =>
      subst hs
      have hordinary : isOrdinary c = true := by rcases hc with rfl | rfl <;> decide
      exact (Goes.ordinary hordinary).trans (.literal hread ((Bool.not_eq_true' _).mp hplain))
  | quoted parts rest hc hread =>
      subst hc
      exact .quoted parts hread
  | dollar tag s' body rest hc htag hbody =>
      subst hc
      refine .body (turn_dollar (loop_of_delimiter htag hplain) hbody)
        ((Sql.Lexer.length_of_cut hbody).trans ?_)
      rw [((Sql.Lexer.tagged_eq_some_iff (by decide)).mp htag).1, List.length_append,
        List.length_cons]
      omega
  | sign hc hnone =>
      subst hc
      refine .code (turn_sign ?_) (Nat.le_refl _)
      cases hsome : dollarTag s with
      | none => rfl
      | some x =>
          rw [delimiter_of_loop hsome] at hnone
          cases hnone
  | semicolon => exact absurd rfl hsemicolon
  | word hletter =>
      have hident : isIdent c = true := by rw [isIdent, isWord, hletter]; rfl
      have hall : (c :: s.takeWhile isIdent).all isIdent = true := by
        rw [List.all_cons, hident, List.all_takeWhile]
        rfl
      have hrest : (s.dropWhile isIdent).head?.any isIdent = false := by
        have hstop := List.head?_dropWhile_not isIdent s
        cases hhead : (s.dropWhile isIdent).head? with
        | none => rfl
        | some d => rwa [hhead] at hstop
      have hgoes := Goes.word hrest hall ((Bool.not_eq_true' _).mp hplain)
      rwa [List.cons_append, List.takeWhile_append_dropWhile] at hgoes
  | number text rest hdigit hread =>
      obtain ⟨happ, hnumeral, -⟩ := Sql.Lexer.number_ok hread
      rw [happ]
      exact .number rest hnumeral
  | other _ hdashes hblock hquote hname hsign hsemi =>
      refine .code ?_ (Nat.le_refl _)
      by_cases hlone : c = chr '-' ∨ c = chr '/'
      · exact turn_lone hlone hdashes hblock
      · obtain ⟨hminus, hslash⟩ := not_or.mp hlone
        exact turn_ordinary (by simp [isOrdinary, hminus, hslash, hquote, hname, hsign, hsemi])

/-! ## Texts -/

def isLine : Token → Bool
  | .lineComment _ => true
  | .space _ | .blockComment _ | .literal _ _ _ | .quoted _ | .dollar _ _ | .word _ | .number
      _ | .semicolon | .other _ => false

/-- A carriage return after a line comment, which the loop takes for a part of it. -/
def isReturn (after : Bool) (t : Token) : Bool := after && t = .space (chr '\r')

/-- Every token is plain, and a carriage return that ends a line comment ends the text as
well, or a line feed follows it. -/
def plainFrom : Bool → List Token → Bool
  | _, [] => true
  | after, t :: ts =>
      isPlain t && (!isReturn after t || ts.head?.all (· = .space (chr '\n'))) &&
        plainFrom (isLine t) ts

/-- What the loop adds to the code for some tokens. -/
def keptFrom : Bool → List Token → Str
  | _, [] => []
  | after, t :: ts => (if isReturn after t then [] else kept t) ++ keptFrom (isLine t) ts

/-- What the loop finds in the rest of a text. -/
def results (after : Bool) (ts : List Token) (b : Str) (bodies : List Str) :
    List (Str × List Str) :=
  match pieces ts with
  | [] => []
  | p :: ps =>
      flush (b ++ keptFrom after p) (bodies ++ p.flatMap Token.bodies) [] ++
        ps.flatMap fun p => flush (keptFrom false p) (p.flatMap Token.bodies) []

theorem flush_eq (b : Str) (bodies : List Str) (out : List (Str × List Str)) :
    flush b bodies out = out ++ flush b bodies [] := by
  unfold flush
  split
  · rw [List.append_nil]
  · rfl

/-- A token before the semicolon adds to the statement that is being read. -/
theorem results_cons {after : Bool} {t : Token} (ht : t ≠ .semicolon) (ts : List Token)
    (b : Str) (bodies : List Str) : results after (t :: ts) b bodies =
      results (isLine t) ts (b ++ if isReturn after t then [] else kept t)
      (bodies ++ t.bodies) := by
  obtain ⟨p, ps, hpieces, hcons⟩ := Sql.Lexer.pieces_cons ht ts
  simp only [results, hpieces, hcons, keptFrom, List.flatMap_cons, List.append_assoc]

/-- A semicolon ends the statement. -/
theorem results_semicolon (after : Bool) (ts : List Token) (b : Str) (bodies : List Str) :
    results after (.semicolon :: ts) b bodies = flush b bodies [] ++ results false ts [] [] := by
  obtain ⟨p, ps, hpieces⟩ := List.exists_cons_of_ne_nil (Sql.Lexer.pieces_ne_nil ts)
  simp [results, pieces, hpieces, keptFrom]

/-- Where the loop is when the lexer is at `s`: after a line comment at the next line
feed. -/
def behind (after : Bool) (s : Str) : Str := if after then s.dropWhile (· ≠ chr '\n') else s

/-- The loop over a text goes on with what it kept and found. -/
theorem loop_goes {s rest text : Str} {found : List Str} (h : Goes s rest text found)
    {r : Str → List Str → List (Str × List Str)} (hrest : ∀ n b bodies out, rest.length ≤ n →
      loop n rest b bodies out = out ++ r b bodies) :
    ∀ n b bodies out, s.length ≤ n → loop n s b bodies out = out ++ r (b ++ text)
    (bodies ++ found) := by
  intro n b bodies out hn
  obtain ⟨m, hm, heq⟩ := h n b bodies out hn
  rw [heq, hrest m _ _ out hm]

/-- After a line comment the rest begins at the line's end. -/
theorem behind_line (s : Str) : behind true (s.dropWhile (!isNewline ·)) = s.dropWhile
    (· ≠ chr '\n') := by
  unfold behind
  rw [if_pos rfl]
  induction s with
  | nil => rfl
  | cons c s ih =>
      cases hc : isNewline c with
      | true => rw [List.dropWhile_cons_of_neg (by simp [hc])]
      | false =>
          have hne : c ≠ chr '\n' := by
            rintro rfl
            revert hc
            decide
          rw [List.dropWhile_cons_of_pos (by simp [hc]), ih,
            List.dropWhile_cons_of_pos (by simpa using hne)]

/-- The loop is where the lexer is, but at a carriage return that ends a line comment. -/
theorem behind_cons {after : Bool} {c : CodePoint} (s : Str)
    (hafter : after = true → isNewline c = true)
    (hreturn : isReturn after (.space c) = false) : behind after (c :: s) = c :: s := by
  cases after with
  | false => rfl
  | true =>
      have hne : c ≠ chr '\r' := by
        rintro rfl
        revert hreturn
        decide
      obtain rfl : c = chr '\n' := by
        rcases (Bool.or_eq_true _ _).mp (hafter rfl) with hc | hc
        · exact of_decide_eq_true hc
        · exact absurd (of_decide_eq_true hc) hne
      rfl

/-- A text whose first token is a line feed starts with one. -/
theorem head_of_lex {ts : List Token} {m : Nat} {before : Before} {s : Str}
    (h : lexFrom m before s = some ts) (hhead : ts.head?.all (· = .space (chr '\n')) = true) :
    s.dropWhile (· ≠ chr '\n') = s := by
  cases s with
  | nil => rfl
  | cons c s =>
      obtain ⟨m', t, rest, ts', rfl, hreads, -⟩ := Sql.Lexer.lexFrom_cons h
      obtain rfl : t = .space (chr '\n') := of_decide_eq_true hhead
      obtain rfl : c = chr '\n' := Option.some.inj hreads.first.symm
      rfl

/-- **The loop and the lexer read the same**: from where the lexer is, the loop finds what
its tokens say. -/
theorem loop_eq : ∀ (after : Bool) (ts : List Token) {m : Nat} {before : Before} {s : Str},
    lexFrom m before s = some ts → plainFrom after ts = true →
    (after = true → s.head?.all isNewline = true) →
    ∀ n b bodies out, (behind after s).length ≤ n → loop n (behind after s) b bodies out =
    out ++ results after ts b bodies
  | after, ts, m, before, [], h, _, _ => by
      intro n b bodies out _
      have hbehind : behind after [] = [] := by cases after <;> rfl
      obtain rfl : ts = [] := by
        cases m <;> exact (Option.some.inj h).symm
      rw [hbehind]
      have hloop : loop n [] b bodies out = flush b bodies out := by cases n <;> rfl
      rw [hloop, flush_eq]
      simp [results, pieces, keptFrom]
  | _, [], m, before, c :: s, h, _, _ => by
      obtain ⟨_, _, _, _, heq, -⟩ := Sql.Lexer.lexFrom_cons h
      cases heq
  | after, t :: ts, m, before, c :: s, h, hplain, hafter => by
      obtain ⟨m', t', rest, ts', heq, hreads, hlex⟩ := Sql.Lexer.lexFrom_cons h
      obtain ⟨rfl, rfl⟩ := List.cons.inj heq
      simp only [plainFrom, Bool.and_eq_true] at hplain
      obtain ⟨⟨ht, hreturn⟩, hplain⟩ := hplain
      have ih := fun hline => loop_eq (isLine t) ts hlex hplain hline
      -- at a token that is no blank, the loop is where the lexer is
      have hhere : isNewline c = false → after = false := fun hc => by
        cases after with
        | false => rfl
        | true =>
            have hnewline : isNewline c = true := hafter rfl
            rw [hc] at hnewline
            cases hnewline
      have htext : isNewline c = false → (∀ text, t ≠ .lineComment text) → t ≠ .semicolon →
          ∀ n b bodies out, (behind after (c :: s)).length ≤ n →
            loop n (behind after (c :: s)) b bodies out = out ++ results after (t :: ts) b
            bodies := by
        intro hc hline hsemicolon n b bodies out hn
        obtain rfl := hhere hc
        have hkind : isLine t = false := by
          cases t with
          | lineComment text => exact absurd rfl (hline text)
          | space | blockComment | literal | quoted | dollar | word | number | semicolon
              | other => rfl
        have hnext := ih (by rw [hkind]; intro h; cases h)
        rw [hkind] at hnext
        rw [results_cons hsemicolon, hkind]
        exact loop_goes (.token hreads ht hline hsemicolon) hnext n b bodies out hn
      cases hreads with
      | space hblank =>
          have hnext := ih (by intro h; cases h)
          cases hret : isReturn after (.space c) with
          | true =>
              rw [hret, Bool.not_true, Bool.false_or] at hreturn
              obtain ⟨rfl, hspace⟩ := (Bool.and_eq_true _ _).mp hret
              obtain rfl := Token.space.inj (of_decide_eq_true hspace)
              have hbehind : behind true (chr '\r' :: s) = s := by
                rw [behind, if_pos rfl, List.dropWhile_cons_of_pos (by decide),
                  head_of_lex hlex hreturn]
              intro n b bodies out hn
              rw [hbehind] at hn ⊢
              rw [results_cons (t := .space _) (by simp), hret, if_pos rfl, List.append_nil,
                Token.bodies, List.append_nil]
              exact hnext n b bodies out hn
          | false =>
              rw [behind_cons s hafter hret]
              intro n b bodies out hn
              rw [results_cons (t := .space c) (by simp), hret]
              exact loop_goes (.ordinary (ordinary_of_isBlank hblank)) hnext n b bodies out hn
      | line s' hc hs =>
          subst hc hs
          obtain rfl := hhere (by decide)
          have hstop : (s'.dropWhile (!isNewline ·)).head?.all isNewline = true := by
            have hstop := List.head?_dropWhile_not (!isNewline ·) s'
            cases hhead : (s'.dropWhile (!isNewline ·)).head? with
            | none => rfl
            | some d =>
                rw [hhead] at hstop
                simpa using hstop
          have hnext := ih fun _ => hstop
          rw [isLine, behind_line] at hnext
          have hgoes : Goes (chr '-' :: chr '-' :: s') (s'.dropWhile (· ≠ chr '\n')) [] [] :=
            .code (turn_line s') ((List.dropWhile_sublist _).length_le.trans (by simp))
          intro n b bodies out hn
          rw [results_cons (t := .lineComment _) (by simp)]
          exact loop_goes hgoes hnext n b bodies out hn
      | semicolon hc =>
          subst hc
          have hnext := ih (by intro h; cases h)
          rw [isLine, behind, if_neg (by decide)] at hnext
          obtain rfl := hhere (by decide)
          intro n b bodies out hn
          obtain ⟨k, rfl⟩ : ∃ k, n = k + 1 := ⟨n - 1, by simp [behind] at hn; omega⟩
          have hloop : loop (k + 1) (behind false (chr ';' :: s)) b bodies out =
            loop k s [] [] (flush b bodies out) := by
            rw [behind, if_neg (by decide), loop, turn_semicolon]
          rw [hloop, results_semicolon, hnext k [] [] _ (by simpa [behind] using hn),
            flush_eq b bodies out, List.append_assoc]
      | block _ _ _ hc | literal _ _ hc | quoted _ _ hc | dollar _ _ _ _ hc | sign hc =>
          exact htext (by rw [hc]; decide) (by simp) (by simp)
      | escape _ _ _ hc => exact htext (by rcases hc with rfl | rfl <;> decide) (by simp) (by simp)
      | word hletter =>
          exact htext (isNewline_of_isBlank
            (isBlank_of_isWord (by rw [isWord, hletter]; rfl))) (by simp) (by simp)
      | number _ _ hdigit =>
          refine htext ?_ (by simp) (by simp)
          rcases hdigit with hdigit | ⟨rfl, -⟩
          · exact isNewline_of_isBlank (isBlank_of_isWord (by rw [isWord, hdigit, Bool.or_true]))
          · decide
      | other hblank => exact htext (isNewline_of_isBlank hblank) (by simp) (by simp)

end BeSdk.Db.Lint
