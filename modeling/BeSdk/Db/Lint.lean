/-
BeSdk.Db.Lint — the statements of a migration, and the rules they are checked against
(`statements_with_bodies` and `_RULES`).

The loop of `statements_with_bodies` goes over the text once: `b` is the code of the
statement so far, `bodies` its dollar quoted bodies and `out` the statements that are
complete. One turn of it is `turn`, which never leaves more text than it was given.

A rule is a list of word sequences and is searched in the code of a statement, without
regard to case: at its start, or, for the last two, at any place where a word begins.
The word characters beyond ASCII are those of the interpreter's tables, `alnum`.
-/
import BeSdk.Py.Text

namespace BeSdk.Db.Lint

/-! ## Statements -/

def isAsciiLetter (c : CodePoint) : Bool :=
  (0x41 ≤ c.val && c.val ≤ 0x5A) || (0x61 ≤ c.val && c.val ≤ 0x7A) || c.val == 0x5F

/-- `_DOLLAR.match`, after the first dollar: the tag, and the text after the second. -/
def dollarTag (s : Str) : Option (Str × Str) :=
  let tag := s.takeWhile fun c => isAsciiLetter c || isDigit c
  match s.dropWhile fun c => isAsciiLetter c || isDigit c with
  | [] => none
  | c :: rest => if c = chr '$' && tag.head?.all isAsciiLetter then some (tag, rest) else none

/-- The text after a string literal that has begun. -/
def afterLiteral : Str → Str
  | [] => []
  | [_] => []
  | c :: d :: s =>
      if c = chr '\'' then
        -- an escaped quote
        if d = chr '\'' then afterLiteral s else d :: s
      else afterLiteral (d :: s)

/-- What a turn of the loop adds. -/
inductive Found where
  | code (text : Str)
  | body (text : Str)
  | semicolon

def turn (c : CodePoint) (s : Str) : Found × Str :=
  if c = chr '-' ∧ s.head? = some (chr '-') then
    (.code [], s.dropWhile (· ≠ chr '\n'))
  else if c = chr '/' ∧ s.head? = some (chr '*') then
    (.code (str " "), match Str.cut s.tail (str "*/") with | some (_, rest) => rest | none => [])
  else if c = chr '\'' then
    (.code (str "''"), afterLiteral s)
  else if c = chr '"' then
    let (ident, rest) := match Str.cut s (str "\"") with
      | some (name, rest) => (c :: name ++ str "\"", rest)
      | none => (c :: s, [])
    -- one identifier with a dot in it, never a qualified name
    (.code (if ident.contains (chr '.') then str "\"_\"" else ident), rest)
  else
    match if c = chr '$' then dollarTag s else none with
    | some (tag, rest) =>
        match Str.cut rest (str "$" ++ tag ++ str "$") with
        | some (body, rest) => (.body body, rest)
        | none => (.body rest, [])
    | none => if c = chr ';' then (.semicolon, s) else (.code [c], s)

/-- `flush` -/
def flush (b : Str) (bodies : List Str) (out : List (Str × List Str)) : List (Str × List Str) :=
  if (Str.strip b).isEmpty then out else out ++ [(Str.strip b, bodies)]

def loop : Nat → Str → Str → List Str → List (Str × List Str) → List (Str × List Str)
  | _, [], b, bodies, out => flush b bodies out
  | 0, _ :: _, b, bodies, out => flush b bodies out
  | n + 1, c :: s, b, bodies, out =>
      match turn c s with
      | (.code text, rest) => loop n rest (b ++ text) bodies out
      | (.body text, rest) => loop n rest (b ++ str "$$") (bodies ++ [text]) out
      | (.semicolon, rest) => loop n rest [] [] (flush b bodies out)

def statementsWithBodies (sql : Str) : List (Str × List Str) := loop sql.length sql [] [] []

/-! ## Rules -/

/-- A character as `(?i)` compares it. -/
def ignoreCase (c : CodePoint) : CodePoint :=
  if h : 0x41 ≤ c.val ∧ c.val ≤ 0x5A then ⟨c.val + 32, CodePoint.lower_lt h⟩
  else if c.val = 0x130 ∨ c.val = 0x131 then chr 'i'
  else if c.val = 0x17F then chr 's'
  else if c.val = 0x212A then chr 'k'
  else c

section
variable (alnum : CodePoint → Bool)

/-- `\w` -/
def wordChar (c : CodePoint) : Bool := isAsciiLetter c || isDigit c || (0x80 ≤ c.val && alnum c)

/-- `\b` after a word -/
def wordEnds (s : Str) : Bool := !s.head?.any (wordChar alnum)

/-- The text after a word, in any case. -/
def afterWord (w s : Str) : Option Str :=
  if (s.take w.length).map ignoreCase = w then some (s.drop w.length) else none

/-- The words with blanks between them, and `\b` after the last. -/
def matchWords : List Str → Str → Bool
  | [], s => wordEnds alnum s
  | [w], s => (afterWord w s).any (wordEnds alnum)
  | w :: v :: ws, s =>
      match afterWord w s with
      | some rest => rest.head?.any isSpace && matchWords (v :: ws) (rest.dropWhile isSpace)
      | none => false

structure Rule where
  code : Str
  /-- At the start of the statement. -/
  start : Bool
  alternatives : List (List Str)
  reason : Str
  deriving DecidableEq

/-- The first six match at the start of a statement. -/
def rules : List Rule := [
  ⟨str "SET", true, [[str "set"], [str "reset"]],
    str "SET and RESET are not allowed: the migrate entry sets the schema and timeouts"⟩,
  ⟨str "TX_CONTROL", true, [[str "begin"], [str "start", str "transaction"], [str "commit"],
    [str "end"], [str "rollback"],
      [str "savepoint"], [str "release"]],
    str "transaction control is not allowed: every file runs as one transaction"⟩,
  ⟨str "GRANT", true, [[str "grant"], [str "revoke"], [str "reassign"]],
    str "grants belong to the provisioning script, not to migrations"⟩,
  ⟨str "ROLE_SCHEMA", true, [str "create", str "alter", str "drop"].flatMap fun verb =>
      [str "role", str "user", str "group", str "schema"].map fun noun => [verb, noun],
    str "roles and schemas belong to the provisioning script"⟩,
  ⟨str "DEFAULT_PRIVILEGES", true, [[str "alter", str "default", str "privileges"]],
    str "default privileges belong to the provisioning script"⟩,
  ⟨str "DROP_OWNED", true, [[str "drop", str "owned"]], str "DROP OWNED is not allowed"⟩,
  ⟨str "OWNER", false, [[str "owner", str "to"]],
    str "ownership is fixed by the provisioning script"⟩,
  ⟨str "CONCURRENTLY", false, [[str "concurrently"]],
    str "CONCURRENTLY cannot run inside the file's transaction; use a maintenance task"⟩]

/-- At a place where a word begins; `before` is the character before it. -/
def searchFrom (ws : List Str) : Option CodePoint → Str → Bool
  | before, [] => !before.any (wordChar alnum) && matchWords alnum ws []
  | before, c :: s => (!before.any (wordChar alnum) && matchWords alnum ws (c :: s)) ||
      searchFrom ws (some c) s

/-- `rx.search(stmt)` -/
def Rule.search (r : Rule) (stmt : Str) : Bool :=
  r.alternatives.any fun ws => if r.start then matchWords alnum ws stmt
    else searchFrom alnum ws none stmt

/-- The rules that `lint` refuses a statement by. -/
def refusals (stmt : Str) : List Rule := rules.filter fun r => r.search alnum stmt

end

end BeSdk.Db.Lint
