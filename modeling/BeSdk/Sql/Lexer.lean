/-
BeSdk.Sql.Lexer — the lexical structure of PostgreSQL's SQL, with
`standard_conforming_strings` on.

A text is a sequence of tokens. `lex` reads them from the left, always the longest: a
name goes on over digits and dollar signs, so that a dollar in it opens nothing; a
quoted string ends at a quote that is not doubled, and in an `E''` string a backslash
takes the next character with it; comments between `/*` and `*/` nest, and one that
starts with two dashes ends where the line does, at a line feed or a carriage return; a
dollar quote ends at its own tag. Every character beyond ASCII is a letter.

A string that follows another one after blanks and line comments with a line end in
them continues it, and is of its kind (`Before`). Other prefixes of strings (`B`, `X`,
`N`, `U&`) change nothing about where they end, and are read as names. An operator is
read one character at a time: a comment starts inside it as well.

A text that the lexer refuses (a string, name or comment that does not end, a number
that runs into a name) has no tokens: the database executes nothing of it.
-/
import BeSdk.Py.Text

namespace BeSdk.Sql.Lexer

/-! ## Characters -/

def isBlank (c : CodePoint) : Bool := (9 ≤ c.val && c.val ≤ 13) || c.val == 0x20

def isNewline (c : CodePoint) : Bool := c = chr '\n' || c = chr '\r'

/-- `ident_start` and `dolq_start` -/
def isLetter (c : CodePoint) : Bool :=
  (0x41 ≤ c.val && c.val ≤ 0x5A) || (0x61 ≤ c.val && c.val ≤ 0x7A) || c.val == 0x5F || 0x80 ≤ c.val

/-- `dolq_cont` -/
def isWord (c : CodePoint) : Bool := isLetter c || isDigit c

/-- `ident_cont` -/
def isIdent (c : CodePoint) : Bool := isWord c || c = chr '$'

def isHexDigit (c : CodePoint) : Bool :=
  isDigit c || (0x41 ≤ c.val && c.val ≤ 0x46) || (0x61 ≤ c.val && c.val ≤ 0x66)

def isOctDigit (c : CodePoint) : Bool := 0x30 ≤ c.val && c.val ≤ 0x37

def isBinDigit (c : CodePoint) : Bool := c = chr '0' || c = chr '1'

/-! ## Tokens -/

inductive Token where
  | space (c : CodePoint)
  | lineComment (text : Str)
  /-- The text between the outermost delimiters. -/
  | blockComment (text : Str)
  /-- The text between the quotes; `lead` is the `E` of an `E''` string. -/
  | literal (lead : Option CodePoint) (escapes : Bool) (text : Str)
  /-- A quoted name, cut at its doubled quotes. -/
  | quoted (parts : List Str)
  | dollar (tag body : Str)
  | word (text : Str)
  | number (text : Str)
  | semicolon
  | other (c : CodePoint)
  deriving DecidableEq

/-- Whether what comes may continue an `E''` string. -/
inductive Before where
  | nothing
  | string
  /-- A line has ended since. -/
  | line

def Before.next (before : Before) : Token → Before
  | .space c =>
      match before with
      | .nothing => .nothing
      | .string => if isNewline c then .line else .string
      | .line => .line
  | .lineComment _ => before
  | .literal _ escapes _ => if escapes then .string else .nothing
  | .blockComment _ | .quoted _ | .dollar _ _ | .word _ | .number _ | .semicolon | .other _ =>
      .nothing

def Before.continues : Before → Bool
  | .line => true
  | .nothing | .string => false

/-! ## Strings and comments -/

/-- The rest of a string, up to its end and past it. -/
def literal (escapes : Bool) : Str → Option (Str × Str)
  | [] => none
  | [c] => if c = chr '\'' then some ([], []) else none
  | c :: d :: s =>
      if c = chr '\'' then
        if d = chr '\'' then (literal escapes s).map fun x => (c :: d :: x.1, x.2)
          else some ([], d :: s)
      else if escapes && c = chr '\\' then (literal escapes s).map fun x => (c :: d :: x.1, x.2)
      else (literal escapes (d :: s)).map fun x => (c :: x.1, x.2)

/-- The rest of a quoted name. -/
def quoted : Str → Option (List Str × Str)
  | [] => none
  | [c] => if c = chr '"' then some ([[]], []) else none
  | c :: d :: s =>
      if c = chr '"' then
        if d = chr '"' then (quoted s).map fun x => ([] :: x.1, x.2) else some ([[]], d :: s)
      else (quoted (d :: s)).map fun x => ((c :: x.1.headD []) :: x.1.tail, x.2)

/-- The rest of a comment, in which `depth` more are open. -/
def comment : Nat → Str → Option (Str × Str)
  | depth, c :: d :: s =>
      if c = chr '*' ∧ d = chr '/' then
        match depth with
        | 0 => some ([], s)
        | depth + 1 => (comment depth s).map fun x => (c :: d :: x.1, x.2)
      else if c = chr '/' ∧ d = chr '*' then (comment (depth + 1) s).map fun x =>
        (c :: d :: x.1, x.2)
      else (comment depth (d :: s)).map fun x => (c :: x.1, x.2)
  | _, _ => none

/-- After a dollar: a tag of `word` characters that starts with a `letter`, or none, and
what follows a second dollar. -/
def tagged (word letter : CodePoint → Bool) (s : Str) : Option (Str × Str) :=
  match s.dropWhile word with
  | [] => none
  | c :: rest =>
      if c = chr '$' && (s.takeWhile word).head?.all letter then some (s.takeWhile word, rest)
        else none

/-- `dolqdelim` -/
def delimiter (s : Str) : Option (Str × Str) := tagged isWord isLetter s

/-! ## Numbers -/

/-- `(_?{digit})*` -/
def digits (p : CodePoint → Bool) : Str → Str × Str
  | [] => ([], [])
  | c :: s =>
      if p c || (c = chr '_' && s.head?.any p) then
        let x := digits p s
        (c :: x.1, x.2)
      else ([], c :: s)

/-- The digits after `0` and a letter. -/
def baseDigit (x : CodePoint) : CodePoint → Bool :=
  if x = chr 'x' ∨ x = chr 'X' then isHexDigit
  else if x = chr 'o' ∨ x = chr 'O' then isOctDigit
  else if x = chr 'b' ∨ x = chr 'B' then isBinDigit
  else fun _ => false

/-- `hexinteger`, `octinteger` and `bininteger` -/
def radix : Str → Option (Str × Str)
  | z :: x :: s =>
      let t := digits (baseDigit x) s
      if z = chr '0' && !t.1.isEmpty then some (z :: x :: t.1, t.2) else none
  | _ => none

/-- The fraction, unless two dots follow. -/
def fraction : Str → Str × Str
  | [] => ([], [])
  | c :: s =>
      if c = chr '.' && s.head? ≠ some (chr '.') then
        if s.head?.any isDigit then
          let x := digits isDigit s
          (c :: x.1, x.2)
        else ([c], s)
      else ([], c :: s)

/-- The exponent, if there is one; refused with a sign and no digit. -/
def exponent : Str → Option (Str × Str)
  | e :: c :: s =>
      if e = chr 'e' || e = chr 'E' then
        if isDigit c then
          let x := digits isDigit (c :: s)
          some (e :: x.1, x.2)
        else if c = chr '+' || c = chr '-' then
          if s.head?.any isDigit then
            let x := digits isDigit s
            some (e :: c :: x.1, x.2)
          else none
        else some ([], e :: c :: s)
      else some ([], e :: c :: s)
  | s => some ([], s)

def decimal (s : Str) : Option (Str × Str) :=
  let i := digits isDigit s
  let f := fraction i.2
  (exponent f.2).map fun x => (i.1 ++ f.1 ++ x.1, x.2)

/-- A number that does not run into a name. -/
def number (s : Str) : Option (Str × Str) :=
  match (radix s).or (decimal s) with
  | some (t, rest) => if rest.head?.any isLetter then none else some (t, rest)
  | none => none

/-! ## Texts -/

/-- What a dollar opens: a dollar quote, a parameter, or nothing. -/
def dollar (s : Str) : Option (Token × Str) :=
  match delimiter s with
  | some (tag, rest) => (Str.cut rest (chr '$' :: tag ++ [chr '$'])).map fun x =>
      (.dollar tag x.1, x.2)
  | none =>
      let x := s.span isDigit
      if !x.1.isEmpty && x.2.head?.any isLetter then none else some (.other (chr '$'), s)

/-- The first token of a text, and what follows. -/
def token (before : Before) (c : CodePoint) (s : Str) : Option (Token × Str) :=
  if isBlank c then some (.space c, s)
  else if c = chr '-' ∧ s.head? = some (chr '-') then
    some (.lineComment (s.tail.takeWhile (!isNewline ·)), s.tail.dropWhile (!isNewline ·))
  else if c = chr '/' ∧ s.head? = some (chr '*') then (comment 0 s.tail).map fun x =>
    (.blockComment x.1, x.2)
  else if c = chr '\'' then (literal before.continues s).map fun x =>
    (.literal none before.continues x.1, x.2)
  else if (c = chr 'e' ∨ c = chr 'E') ∧ s.head? = some (chr '\'') then
    (literal true s.tail).map fun x => (.literal (some c) true x.1, x.2)
  else if c = chr '"' then (quoted s).map fun x => (.quoted x.1, x.2)
  else if c = chr '$' then dollar s
  else if c = chr ';' then some (.semicolon, s)
  else if isLetter c then some (.word (c :: s.takeWhile isIdent), s.dropWhile isIdent)
  else if isDigit c ∨ (c = chr '.' ∧ s.head?.any isDigit = true) then (number (c :: s)).map
    fun x => (.number x.1, x.2)
  else some (.other c, s)

/-- The tokens of a text; no text has more of them than characters. -/
def lexFrom : Nat → Before → Str → Option (List Token)
  | _, _, [] => some []
  | 0, _, _ :: _ => none
  | n + 1, before, c :: s =>
      match token before c s with
      | some (t, rest) => (lexFrom n (before.next t) rest).map (t :: ·)
      | none => none

def lex (s : Str) : Option (List Token) := lexFrom s.length .nothing s

/-! ## Statements -/

/-- A token between statements. -/
def Token.isGap : Token → Bool
  | .space _ | .lineComment _ | .blockComment _ => true
  | .literal _ _ _ | .quoted _ | .dollar _ _ | .word _ | .number _ | .semicolon | .other _ => false

/-- The tokens up to each semicolon, and after the last. -/
def pieces : List Token → List (List Token)
  | [] => [[]]
  | .semicolon :: ts => [] :: pieces ts
  | t :: ts => (t :: (pieces ts).headD []) :: (pieces ts).tail

/-- The statements of a text: what stands between two semicolons, unless it is a gap. -/
def statements (ts : List Token) : List (List Token) :=
  (pieces ts).filter fun p => !p.all Token.isGap

/-- The characters of a token that is neither a string, a quoted name, a dollar quote nor
a gap. -/
def Token.code : Token → Str
  | .word text | .number text => text
  | .other c => [c]
  | .space _ | .lineComment _ | .blockComment _ | .literal _ _ _ | .quoted _ | .dollar _
      _ | .semicolon => []

/-- The bodies of the dollar quotes. -/
def Token.bodies : Token → List Str
  | .dollar _ body => [body]
  | .space _ | .lineComment _ | .blockComment _ | .literal _ _ _ | .quoted _ | .word
      _ | .number _ | .semicolon | .other _ => []

def lower (c : CodePoint) : CodePoint :=
  if h : 0x41 ≤ c.val ∧ c.val ≤ 0x5A then ⟨c.val + 32, CodePoint.lower_lt h⟩ else c

/-- The statement begins with these keywords. -/
def beginsWith : List Str → List Token → Bool
  | [], _ => true
  | k :: ks, ts =>
      match ts.dropWhile Token.isGap with
      | .word w :: rest => w.map lower = k && beginsWith ks rest
      | _ => false

end BeSdk.Sql.Lexer
