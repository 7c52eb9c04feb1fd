/-
BeSdk.Py.Json — Python's `json`: values, `loads`, and the compact `dumps`.

`Json` is what the decoder builds, `null` and floats included; a float keeps the
text it was read from (`NaN` and the infinities too), since nothing here
computes with one. An object is its list of members in the order they were read.
`scanValue` is the C scanner without hooks: members are kept as read, repeated
keys included; `loads` then folds them the way `dict(pairs)` does
(`Json.dedupe`), and a reader with hooks looks at the members itself.

A failure has no message here. Every one of them is a `ValueError`, but for a text whose
arrays and objects go deeper than the interpreter does: that is a `RecursionError`, as
soon as the scanner gets there (`scanDepth`). The integer reader refuses more than
`maxStrDigits` digits, as `int()` does.

The scanner recurses under fuel, of which twice the length of the text is enough: between
two calls that read nothing there is one that reads a code point.
-/
import BeSdk.Py.Codecs
import BeSdk.Py.Sha256
import BeSdk.Lib.Dict

namespace BeSdk

/-- A decoded JSON value. -/
inductive Json where
  | null
  | bool (b : Bool)
  | int (n : Int)
  | float (text : Str)
  | str (s : Str)
  | list (xs : List Json)
  | obj (members : List (Str × Json))

/-! ## Strings -/

def hexVal (c : CodePoint) : Option Nat :=
  if 0x30 ≤ c.val ∧ c.val ≤ 0x39 then some (c.val - 0x30)
  else if 0x61 ≤ c.val ∧ c.val ≤ 0x66 then some (c.val - 0x61 + 10)
  else if 0x41 ≤ c.val ∧ c.val ≤ 0x46 then some (c.val - 0x41 + 10)
  else none

/-- The code unit of four hexadecimal digits. -/
def hex4 (a b c d : CodePoint) : Option (Fin 0x10000) := do
  let a ← hexVal a
  let b ← hexVal b
  let c ← hexVal c
  let d ← hexVal d
  return Fin.ofNat _ (((a * 16 + b) * 16 + c) * 16 + d)

def isHighSurrogate (u : Nat) : Bool := 0xD800 ≤ u && u ≤ 0xDBFF
def isLowSurrogate (u : Nat) : Bool := 0xDC00 ≤ u && u ≤ 0xDFFF

def ofUnit (u : Fin 0x10000) : CodePoint := ⟨u.val, by omega⟩

/-- The code point of a surrogate pair. -/
def joinSurrogates (u v : Nat) : CodePoint :=
  Fin.ofNat _ (0x10000 + (u - 0xD800) * 0x400 + (v - 0xDC00))

/-- The one-letter escapes. -/
def unescape (e : CodePoint) : Option CodePoint :=
  if e = chr '"' then some (chr '"')
  else if e = chr '\\' then some (chr '\\')
  else if e = chr '/' then some (chr '/')
  else if e = chr 'b' then some 0x08
  else if e = chr 'f' then some 0x0C
  else if e = chr 'n' then some 0x0A
  else if e = chr 'r' then some 0x0D
  else if e = chr 't' then some 0x09
  else none

/-- Puts a code point before the text read after it. -/
def consRead (c : CodePoint) (r : Option (Str × Str)) : Option (Str × Str) :=
  r.map fun p => (c :: p.1, p.2)

/-- A string after its opening quote, and the text after its closing one. A high
surrogate joins the low one escaped right behind it; any other passes alone.
Control characters must be escaped. -/
def scanString : Str → Option (Str × Str)
  | [] => none
  | c :: rest =>
      if c = chr '"' then some ([], rest)
      else if c = chr '\\' then
        match rest with
        | [] => none
        | e :: rest =>
            if e = chr 'u' then
              match rest with
              | h1 :: h2 :: h3 :: h4 :: rest =>
                  match hex4 h1 h2 h3 h4 with
                  | none => none
                  | some u =>
                      if isHighSurrogate u.val then
                        match rest with
                        | b :: w :: g1 :: g2 :: g3 :: g4 :: rest' =>
                            if b = chr '\\' ∧ w = chr 'u' then
                              match hex4 g1 g2 g3 g4 with
                              | none => none
                              | some v =>
                                  if isLowSurrogate v.val then
                                    consRead (joinSurrogates u.val v.val) (scanString rest')
                                  else consRead (ofUnit u)
                                    (scanString (b :: w :: g1 :: g2 :: g3 :: g4 :: rest'))
                            else consRead (ofUnit u)
                              (scanString (b :: w :: g1 :: g2 :: g3 :: g4 :: rest'))
                        | rest => consRead (ofUnit u) (scanString rest)
                      else consRead (ofUnit u) (scanString rest)
              | _ => none
            else
              match unescape e with
              | none => none
              | some x => consRead x (scanString rest)
      else if c.val < 0x20 then none
      else consRead c (scanString rest)

/-! ## Numbers -/

/-- `sys.int_info.default_max_str_digits` -/
def maxStrDigits : Nat := 4300

/-- The digits of an integer: no leading zero. -/
def scanInt : Str → Option (Str × Str)
  | [] => none
  | c :: rest =>
      if c = chr '0' then some ([c], rest)
      else if isDigit c then some (c :: rest.takeWhile isDigit, rest.dropWhile isDigit)
      else none

/-- A fraction, where a digit follows the point. -/
def scanFrac (s : Str) : Str × Str :=
  match s with
  | p :: d :: rest =>
      if p = chr '.' ∧ isDigit d then (p :: d :: rest.takeWhile isDigit, rest.dropWhile isDigit)
      else ([], s)
  | s => ([], s)

/-- An exponent, where a digit follows the letter and its sign. -/
def scanExp (s : Str) : Str × Str :=
  match s with
  | e :: rest =>
      if e = chr 'e' ∨ e = chr 'E' then
        let (sign, ds) := takeSign' rest
        if (ds.head?.any isDigit) then (e :: sign ++ ds.takeWhile isDigit, ds.dropWhile isDigit)
        else ([], s)
      else ([], s)
  | s => ([], s)
where
  /-- An optional sign and the text after it. -/
  takeSign' : Str → Str × Str
    | [] => ([], [])
    | c :: rest => if c = chr '+' ∨ c = chr '-' then ([c], rest) else ([], c :: rest)

/-- A number after its minus sign: an integer, or a float when it has a fraction
or an exponent. -/
def scanUnsigned (neg : Bool) (s : Str) : Option (Json × Str) :=
  match scanInt s with
  | none => none
  | some (ds, rest) =>
      let (frac, rest) := scanFrac rest
      let (exp, rest) := scanExp rest
      if frac = [] ∧ exp = [] then
        if maxStrDigits < ds.length then none
        else some (.int (if neg then -(digitsVal ds : Int) else digitsVal ds), rest)
      else some (.float ((if neg then str "-" else []) ++ ds ++ frac ++ exp), rest)

def scanNumber : Str → Option (Json × Str)
  | [] => none
  | c :: rest => if c = chr '-' then scanUnsigned true rest else scanUnsigned false (c :: rest)

/-! ## Values -/

def isJsonSpace (c : CodePoint) : Bool :=
  c = chr ' ' || c = chr '\t' || c = chr '\n' || c = chr '\r'

def skipSpace (s : Str) : Str := s.dropWhile isJsonSpace

/-- The constants and what they read as. -/
def constants : List (Str × Json) :=
  [(str "null", .null), (str "true", .bool true), (str "false", .bool false),
    (str "NaN", .float (str "NaN")), (str "Infinity", .float (str "Infinity")),
    (str "-Infinity", .float (str "-Infinity"))]

def scanConstant (s : Str) : Option (Json × Str) :=
  (constants.find? fun p => Str.startsWith s p.1).map fun p => (p.2, s.drop p.1.length)

mutual

/-- `scan_once`: the value a text starts with, and the rest. -/
def scanValue : Nat → Str → Option (Json × Str)
  | 0, _ => none
  | _ + 1, [] => none
  | fuel + 1, c :: rest =>
      if c = chr '"' then (scanString rest).map fun p => (.str p.1, p.2)
      else if c = chr '{' then
        match skipSpace rest with
        | [] => none
        | d :: rest =>
            if d = chr '}' then some (.obj [], rest)
            else (scanMembers fuel (d :: rest)).map fun p => (.obj p.1, p.2)
      else if c = chr '[' then
        match skipSpace rest with
        | [] => none
        | d :: rest =>
            if d = chr ']' then some (.list [], rest)
            else (scanElems fuel (d :: rest)).map fun p => (.list p.1, p.2)
      else (scanConstant (c :: rest)).or (scanNumber (c :: rest))

/-- The elements of an array from one of them on, through the closing bracket. -/
def scanElems : Nat → Str → Option (List Json × Str)
  | 0, _ => none
  | fuel + 1, s =>
      match scanValue fuel s with
      | none => none
      | some (v, rest) =>
          match skipSpace rest with
          | [] => none
          | c :: rest =>
              if c = chr ']' then some ([v], rest)
              else if c = chr ',' then
                (scanElems fuel (skipSpace rest)).map fun p => (v :: p.1, p.2)
              else none

/-- The members of an object from one of them on, through the closing brace. -/
def scanMembers : Nat → Str → Option (List (Str × Json) × Str)
  | 0, _ => none
  | _ + 1, [] => none
  | fuel + 1, q :: rest =>
      if q ≠ chr '"' then none
      else
        match scanString rest with
        | none => none
        | some (k, rest) =>
            match skipSpace rest with
            | [] => none
            | colon :: rest =>
                if colon ≠ chr ':' then none
                else
                  match scanValue fuel (skipSpace rest) with
                  | none => none
                  | some (v, rest) =>
                      match skipSpace rest with
                      | [] => none
                      | c :: rest =>
                          if c = chr '}' then some ([(k, v)], rest)
                          else if c = chr ',' then
                            (scanMembers fuel (skipSpace rest)).map fun p => ((k, v) :: p.1, p.2)
                          else none

end

mutual

/-- The arrays and objects open at once on the way of `scan_once`, whether it returns or
fails. -/
def nestValue : Nat → Str → Nat
  | 0, _ => 0
  | _ + 1, [] => 0
  | fuel + 1, c :: rest =>
      if c = chr '{' then
        match skipSpace rest with
        | [] => 1
        | d :: rest => if d = chr '}' then 1 else nestMembers fuel (d :: rest) + 1
      else if c = chr '[' then
        match skipSpace rest with
        | [] => 1
        | d :: rest => if d = chr ']' then 1 else nestElems fuel (d :: rest) + 1
      else 0

/-- The same from one of the elements of an array on. -/
def nestElems : Nat → Str → Nat
  | 0, _ => 0
  | fuel + 1, s =>
      match scanValue fuel s with
      | none => nestValue fuel s
      | some (_, rest) =>
          match skipSpace rest with
          | [] => nestValue fuel s
          | c :: rest =>
              if c = chr ',' then max (nestValue fuel s) (nestElems fuel (skipSpace rest))
                else nestValue fuel s

/-- The same from one of the members of an object on. -/
def nestMembers : Nat → Str → Nat
  | 0, _ => 0
  | _ + 1, [] => 0
  | fuel + 1, q :: rest =>
      if q ≠ chr '"' then 0
      else
        match scanString rest with
        | none => 0
        | some (_, rest) =>
            match skipSpace rest with
            | [] => 0
            | colon :: rest =>
                if colon ≠ chr ':' then 0
                else
                  match scanValue fuel (skipSpace rest) with
                  | none => nestValue fuel (skipSpace rest)
                  | some (_, rest') =>
                      match skipSpace rest' with
                      | [] => nestValue fuel (skipSpace rest)
                      | c :: rest' =>
                          if c = chr ',' then
                            max (nestValue fuel (skipSpace rest))
                              (nestMembers fuel (skipSpace rest'))
                          else nestValue fuel (skipSpace rest)

end

/-- How deep the scanner goes into a text. -/
def scanDepth (s : Str) : Nat := nestValue (2 * s.length) (skipSpace s)

/-- The value a whole text holds, members as read. -/
def scanJson (s : Str) : Option Json :=
  match scanValue (2 * s.length) (skipSpace s) with
  | some (v, rest) => if skipSpace rest = [] then some v else none
  | none => none

/-! ## `loads` -/

/-- The text `json.loads` reads bytes as: by a byte order mark, or by where the zeros
of the first four are. -/
def decodeJsonBytes (b : Bytes) : Option Str :=
  if [0x00, 0x00, 0xFE, 0xFF].isPrefixOf b then utf32Decode true (b.drop 4)
  else if [0xFF, 0xFE, 0x00, 0x00].isPrefixOf b then utf32Decode false (b.drop 4)
  else if [0xFE, 0xFF].isPrefixOf b then utf16Decode true (b.drop 2)
  else if [0xFF, 0xFE].isPrefixOf b then utf16Decode false (b.drop 2)
  else if [0xEF, 0xBB, 0xBF].isPrefixOf b then utf8Decode (b.drop 3)
  else match b with
    | b0 :: b1 :: b2 :: b3 :: _ =>
        if b0 = 0 then (if b1 = 0 then utf32Decode true b else utf16Decode true b)
        else if b1 = 0 then
          (if b2 = 0 ∧ b3 = 0 then utf32Decode false b else utf16Decode false b)
        else utf8Decode b
    | [b0, b1] =>
        if b0 = 0 then utf16Decode true b
        else if b1 = 0 then utf16Decode false b
        else utf8Decode b
    | _ => utf8Decode b

mutual

/-- Builds the dictionaries of a value as read: `dict(pairs)` at every depth. -/
def Json.dedupe : Json → Json
  | .list xs => .list (dedupeList xs)
  | .obj ms => .obj (Dict.ofPairs (dedupeMembers ms)).entries
  | v => v

def dedupeList : List Json → List Json
  | [] => []
  | x :: xs => x.dedupe :: dedupeList xs

def dedupeMembers : List (Str × Json) → List (Str × Json)
  | [] => []
  | (k, v) :: ms => (k, v.dedupe) :: dedupeMembers ms

end

/-- What `json.loads` raises. -/
inductive LoadsError where
  | valueError
  | recursionError
  deriving DecidableEq

/-- `json.loads(s)` on text. -/
def loadsText [Interp] (s : Str) : Except LoadsError Json :=
  if Interp.nesting < scanDepth s then .error .recursionError
  else
    match scanJson s with
    | none => .error .valueError
    | some v => .ok v.dedupe

/-- `json.loads(b)` on bytes; bytes that are no text are a `UnicodeDecodeError`. -/
def loads [Interp] (b : Bytes) : Except LoadsError Json :=
  match decodeJsonBytes b with
  | none => .error .valueError
  | some s => loadsText s

/-- The text of the bytes goes deeper than the interpreter. -/
def TooDeep [Interp] (b : Bytes) : Prop :=
  ∃ s, decodeJsonBytes b = some s ∧ Interp.nesting < scanDepth s

/-! ## Compact text -/

/-- `\uXXXX` of a code unit. -/
def unitEscape (u : Nat) : Str :=
  [chr '\\', chr 'u', hexDigit (u / 4096), hexDigit (u / 256), hexDigit (u / 16), hexDigit u]

/-- The escapes that have a letter of their own. -/
def letterEscape (c : CodePoint) : Option Str :=
  if c = chr '"' then some (str "\\\"")
  else if c = chr '\\' then some (str "\\\\")
  else if c = 0x08 then some (str "\\b")
  else if c = 0x0C then some (str "\\f")
  else if c = 0x0A then some (str "\\n")
  else if c = 0x0D then some (str "\\r")
  else if c = 0x09 then some (str "\\t")
  else none

/-- How `json.dumps` writes a code point (`ensure_ascii`). -/
def asciiEscape (c : CodePoint) : Str :=
  match letterEscape c with
  | some s => s
  | none =>
      if 0x20 ≤ c.val ∧ c.val ≤ 0x7E then [c]
      else if c.val < 0x10000 then unitEscape c.val
      else unitEscape (0xD800 + (c.val - 0x10000) / 0x400) ++
        unitEscape (0xDC00 + (c.val - 0x10000) % 0x400)

/-- A string between its quotes. -/
def quoted (esc : CodePoint → Str) (s : Str) : Str := chr '"' :: (s.flatMap esc ++ [chr '"'])

mutual

/-- The text of a value without whitespace, strings escaped by `esc`, members in
their order. -/
def compact (esc : CodePoint → Str) : Json → Str
  | .null => str "null"
  | .bool b => if b then str "true" else str "false"
  | .int n => intText n
  | .float t => t
  | .str s => quoted esc s
  | .list xs => chr '[' :: (Str.join (str ",") (compactElems esc xs) ++ [chr ']'])
  | .obj ms => chr '{' :: (Str.join (str ",") (compactMembers esc ms) ++ [chr '}'])

def compactElems (esc : CodePoint → Str) : List Json → List Str
  | [] => []
  | x :: xs => compact esc x :: compactElems esc xs

def compactMembers (esc : CodePoint → Str) : List (Str × Json) → List Str
  | [] => []
  | (k, v) :: ms => (quoted esc k ++ chr ':' :: compact esc v) :: compactMembers esc ms

end

/-- `json.dumps(v, separators=(",", ":"))` -/
def dumps (v : Json) : Str := compact asciiEscape v

mutual

/-- A value with the members of its objects in the order of their keys. -/
def Json.sortKeys : Json → Json
  | .list xs => .list (sortKeysElems xs)
  | .obj ms => .obj ((sortKeysMembers ms).insertionSort fun a b => a.1 ≤ b.1)
  | v => v

def sortKeysElems : List Json → List Json
  | [] => []
  | x :: xs => x.sortKeys :: sortKeysElems xs

def sortKeysMembers : List (Str × Json) → List (Str × Json)
  | [] => []
  | (k, v) :: ms => (k, v.sortKeys) :: sortKeysMembers ms

end

/-- `json.dumps(v, separators=(",", ":"), sort_keys=True)` -/
def dumpsSorted (v : Json) : Str := dumps v.sortKeys

end BeSdk
