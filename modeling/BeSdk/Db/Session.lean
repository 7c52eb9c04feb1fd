/-
BeSdk.Db.Session — what a statement would leave on a pooled connection
(`session_state`, `body_session_state` and `guard`).

A regular expression is a function from a text to what follows its match there; none of
them here has two matches that begin at the same place, so there is nothing to go back
to. `(?i)` is the comparison of the rules of a migration, and the word characters beyond
ASCII are those of the tables, `alnum`. `lower` is `str.lower`.
-/
import BeSdk.Db.Lint

namespace BeSdk.Db.Session

open Lint (isAsciiLetter afterWord wordChar wordEnds matchWords statementsWithBodies)

/-! ## The first word -/

def isLead (c : CodePoint) : Bool := c = chr ' ' || c = chr '\t' || c = chr '\r' || c = chr '\n'

def upper (c : CodePoint) : CodePoint := if 0x61 ≤ c.val ∧
    c.val ≤ 0x7A then ⟨c.val - 32, by omega⟩ else c

/-- The turns of the loop; every one but the last takes a comment. -/
def firstWordGo : Nat → Str → Str × Str
  | 0, s => ([], s)
  | n + 1, s =>
      let s := s.dropWhile isLead
      if Str.startsWith s (str "/*") then
        -- the two characters that open it may be a part of its end
        match Str.cut s (str "*/") with
        | none => ([], [])
        | some (_, rest) => firstWordGo n rest
      else if Str.startsWith s (str "--") then
        match Str.cut s (str "\n") with
        | none => ([], [])
        | some (_, rest) => firstWordGo n rest
      else ((s.takeWhile isAsciiLetter).map upper, s.dropWhile isAsciiLetter)

/-- `_first_word` -/
def firstWord (sql : Str) : Str × Str := firstWordGo (sql.length + 1) sql

def localScopes : List Str := [str "LOCAL", str "TRANSACTION", str "CONSTRAINTS"]

def lasting : List Str := [str "RESET", str "DISCARD", str "LISTEN", str "UNLISTEN"]

/-! ## `_SESSION_SET_CONFIG` -/

def char (c : CodePoint) : Str → Option Str
  | [] => none
  | x :: s => if x = c then some s else none

/-- `(?:[^']|'')*'` -/
def literalEnd : Str → Option Str
  | [] => none
  | [c] => if c = chr '\'' then some [] else none
  | c :: d :: s =>
      if c = chr '\'' then
        if d = chr '\'' then literalEnd s else some (d :: s)
      else literalEnd (d :: s)

/-- `\d` -/
def isDecimal [Interp] (c : CodePoint) : Bool :=
  if c.val ≤ 127 then isDigit c else (Interp.toDecimal c).isSome

/-- `_ARG` -/
def matchArg [Interp] (s : Str) : Option Str :=
  let value := match s.dropWhile isSpace with
    | [] => none
    | c :: s =>
        if c = chr '\'' then literalEnd s
        else if c = chr '$' ∧ s.head?.any isDecimal then some (s.dropWhile isDecimal)
        else none
  value.map (List.dropWhile isSpace)

/-- The pattern at the start of a text. -/
def matchSetConfig [Interp] (s : Str) : Option Str := do
  let s ← afterWord (str "set_config") s
  let s ← char (chr '(') (s.dropWhile isSpace)
  let s ← matchArg s
  let s ← char (chr ',') s
  let s ← matchArg s
  let s ← char (chr ',') s
  let s ← afterWord (str "false") (s.dropWhile isSpace)
  char (chr ')') (s.dropWhile isSpace)

/-- `_SESSION_SET_CONFIG.search` -/
def sessionSetConfig [Interp] (s : Str) : Bool := s.tails.any fun t => (matchSetConfig t).isSome

/-- `p in s` -/
def has (p s : Str) : Bool := s.tails.any p.isPrefixOf

section
variable (lower : Str → Str)

def hasAdvisory (s : Str) : Bool := has (str "pg_advisory_lock")
    (lower s) || has (str "pg_try_advisory_lock") (lower s)

/-! ## Bodies -/

/-- A string literal that has begun, up to its end, and what follows. -/
def literalText : Str → Str × Str
  | [] => ([], [])
  | [c] => ([c], [])
  | c :: d :: s =>
      if c = chr '\'' then
        if d = chr '\'' then
          let x := literalText s
          (c :: d :: x.1, x.2)
        else ([c], d :: s)
      else
        let x := literalText (d :: s)
        (c :: x.1, x.2)

/-- `_without_comments`; no text has more turns than characters. -/
def withoutCommentsGo : Nat → Str → Str
  | _, [] => []
  | 0, _ :: _ => []
  | n + 1, c :: s =>
      if c = chr '\'' then
        let x := literalText s
        c :: x.1 ++ withoutCommentsGo n x.2
      else if Str.startsWith (c :: s) (str "--") then
        match Str.cut s (str "\n") with
        | none => []
        | some (_, rest) => withoutCommentsGo n (chr '\n' :: rest)
      else if Str.startsWith (c :: s) (str "/*") then
        match Str.cut s.tail (str "*/") with
        | none => []
        | some (_, rest) => chr ' ' :: withoutCommentsGo n rest
      else c :: withoutCommentsGo n s

def withoutComments (sql : Str) : Str := withoutCommentsGo sql.length sql

variable (alnum : CodePoint → Bool)

def bodyOwner (code : Str) : Bool :=
  [[str "create", str "function"], [str "create", str "procedure"],
    [str "create", str "or", str "replace", str "function"],
    [str "create", str "or", str "replace", str "procedure"], [str "do"]].any fun ws =>
    matchWords alnum ws code

/-- After what may stand before a body statement: `\s*\b(set|reset)\b`; whether it is
`RESET`, and what follows. `before` is the character before. -/
def bodyWord (before : Option CodePoint) (s : Str) : Option (Bool × Str) :=
  let t := s.dropWhile isSpace
  if s.head?.any isSpace || !before.any (wordChar alnum) then
    match (afterWord (str "set") t).map (false, ·) with
    | some x => if wordEnds alnum x.2 then some x else none
    | none =>
        match (afterWord (str "reset") t).map (true, ·) with
        | some x => if wordEnds alnum x.2 then some x else none
        | none => none
  else none

/-- `_BODY_STATEMENT` at a place of the body; `before` is the character before it. -/
def matchBody (before : Option CodePoint) (s : Str) : Option (Bool × Str) :=
  let start := if before.isNone then bodyWord alnum none s else none
  let semicolon := (char (chr ';') s).bind (bodyWord alnum (some (chr ';')))
  let word := if before.any (wordChar alnum) then none else
    [str "begin", str "declare", str "then", str "else", str "loop"].findSome? fun w =>
      (afterWord w s).bind (bodyWord alnum (w.getLast?))
  start.or (semicolon.or word)

/-- The matches of the body one after the other, up to the first that names a state. -/
def bodyStatements : Nat → Option CodePoint → Str → Str
  | 0, _, _ => []
  | n + 1, before, s =>
      match matchBody alnum before s with
      | some (true, _) => str "RESET"
      | some (false, rest) =>
          if (firstWord rest).1 ∈ localScopes then bodyStatements n (some (chr 't')) rest
            else str "SET without LOCAL"
      | none =>
          match s with
          | [] => []
          | c :: rest => bodyStatements n (some c) rest

section
variable [Interp]

/-- The state that one body leaves. -/
def bodyState (body : Str) : Str :=
  let text := withoutComments body
  let what := bodyStatements alnum (text.length + 1) none text
  if what ≠ [] then what
  else if sessionSetConfig text then str "set_config(…, false)"
  else if hasAdvisory lower text then str "a session-level advisory lock"
  else []

def bodySessionState (code : Str) (bodies : List Str) : Str :=
  if bodyOwner alnum code then ((bodies.map (bodyState lower alnum)).find? (· ≠ [])).getD [] else []

/-! ## `session_state` -/

/-- What a DO block of the text leaves. -/
def doState (sql : Str) : Str :=
  match ((statementsWithBodies sql).map fun x => bodySessionState lower alnum x.1 x.2).find?
    (· ≠ []) with
  | some what => what ++ str " in a DO block"
  | none => []

/-- What the searches of the whole text find. -/
def searched (sql : Str) : Str :=
  if (has (str "et_config") sql || has (str "ET_CONFIG") sql) && sessionSetConfig sql then str
    "set_config(…, false)"
  else if (has (str "dvisory") sql || has (str "DVISORY") sql) && hasAdvisory lower sql then
    str "a session-level advisory lock"
  else []

/-- What `sql` would leave on the pooled connection, or nothing. -/
def sessionState (sql : Str) : Str :=
  let (word, rest) := firstWord sql
  if word = str "SET" then if (firstWord rest).1 ∈ localScopes then [] else str "SET without LOCAL"
  else if word ∈ lasting then word
  else
    let what := if word = str "DO" then doState lower alnum sql else []
    if what ≠ [] then what else searched lower sql

/-- The text of the error, if it raises. -/
def guard (sql : Str) : Except Str Unit :=
  let what := sessionState lower alnum sql
  if what ≠ [] then
    .error (str "db: " ++ what ++ str
      " would stay on the pooled connection after the transaction; use SET LOCAL, " ++
      str "set_config(…, true) or pg_advisory_xact_lock (protocol P5.30)")
  else .ok ()

end

end

end BeSdk.Db.Session
