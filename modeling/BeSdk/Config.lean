/-
BeSdk.Config — a component's declared configuration keys, and how a source of values is
parsed (`check_declaration`, `_parse_one` and `_parse`).

A source gives decoded values: text from the process environment, and from a shell
member's JSON whatever stands there. What is no text and not empty goes the same way as
text: the value of a string key, and to a regular expression, which raises `TypeError`.
`Objects` are the parts of the interpreter that such values come to: floats, `==` and
`str`. A duration is a number of microseconds; `timedelta` has at most 999999999 days.
-/
import BeSdk.Exc
import BeSdk.Py.Json

namespace BeSdk.Config

/-! ## Keys -/

inductive KeyType where
  | string
  | integer
  | boolean
  | duration
  | enum_
  deriving DecidableEq

/-- A parsed value; `raw` is what the source gave for a string or an enum. -/
inductive Value where
  | raw (v : Json)
  | int (n : Int)
  | bool (b : Bool)
  | duration (micros : Int)

structure Objects where
  /-- `int(x)` of a float, by its text. -/
  intOfFloat : Str → Except Exc Int
  /-- `bool(x)` of a float -/
  boolOfFloat : Str → Bool
  /-- `a == b` -/
  same : Value → Value → Bool
  /-- Whether two values are one key of a dictionary. -/
  sameKey : Json → Json → Bool
  /-- `str(v)` of what is no text -/
  text : Value → Str
  /-- `str(e)` -/
  message : Exc → Str

/-- `bool(v)` -/
def Objects.truthy (o : Objects) : Json → Bool
  | .null => false
  | .bool b => b
  | .int n => decide (n ≠ 0)
  | .float t => o.boolOfFloat t
  | .str s => !s.isEmpty
  | .list xs => !xs.isEmpty
  | .obj ms => !ms.isEmpty

structure Key where
  name : Str
  type : KeyType
  required : Bool := false
  default_ : Option Value := none
  /-- enum only -/
  values : List Str := []
  /-- integer only, inclusive -/
  min : Option Int := none
  max : Option Int := none
  secret : Bool := false
  /-- must agree across a shell's members -/
  process : Bool := false

structure Problem where
  key : Str
  kind : Str
  expected : Str := []
  got : Json := .str []

def platformKeys : List Str := [str "COMPONENT_ID", str "COMPONENT_VERSION", str "PORT",
    str "BRICKKIT_SERVED_MEMBERS",
  str "BRICKKIT_SERVED_MEMBERS_CONFIG"]

def isUpper (c : CodePoint) : Bool := 0x41 ≤ c.val && c.val ≤ 0x5A

/-- `_NAME.fullmatch` -/
def isName (s : Str) : Bool := s.head?.any isUpper && s.all fun c => isUpper c || isDigit c ||
    c = chr '_'

/-- What the protocol forbids of a key, after the names `seen`. -/
def declarationProblem (seen : List Str) (k : Key) : Option Problem :=
  if !isName k.name then
    some { key := k.name, kind := str "undeclared", expected := str "UPPER_SNAKE name" }
  else if (str "_ENDPOINT").isSuffixOf k.name ∨ k.name ∈ platformKeys then
    some { key := k.name, kind := str "undeclared",
           expected := str "a name the platform does not own" }
  else if k.name ∈ seen then
    some { key := k.name, kind := str "undeclared", expected := str "declared once" }
  else if k.type = .enum_ ∧ k.values = [] then
    some { key := k.name, kind := str "undeclared", expected := str "enum values" }
  else none

def checkDeclarationFrom (seen : List Str) : List Key → List Problem
  | [] => []
  | k :: ks => (declarationProblem seen k).toList ++ checkDeclarationFrom (k.name :: seen) ks

def checkDeclaration (keys : List Key) : List Problem := checkDeclarationFrom [] keys

/-! ## Values -/

def expectedOf (k : Key) : Str :=
  match k.type with
  | .string => str "string"
  | .integer => str "a base-10 integer"
  | .boolean => str "true or false"
  | .duration => str "an integer with ms, s, m or h"
  | .enum_ => str "one of " ++ Str.join (str ", ") k.values

/-- `0|[1-9][0-9]*` -/
def isNumeral (s : Str) : Bool := s = str "0" ||
    (s.head?.any (fun c => isDigit c && c ≠ chr '0') && s.all isDigit)

/-- `int(s)` of a numeral -/
def intOfNumeral (s : Str) : Except Exc Nat := if maxStrDigits <
    s.length then .error .valueError else .ok (digitsVal s)

/-- The microseconds of a unit. -/
def units : List (Str × Nat) :=
  [(str "ms", 1000), (str "s", 1000000), (str "m", 60000000), (str "h", 3600000000)]

/-- `n * _UNIT[u]` -/
def timedelta (n unit : Nat) : Except Exc Int :=
  if 999999999 < n * unit / 86400000000 then .error .overflowError else .ok (n * unit : Nat)

/-- The value, or what is wrong. -/
def parseInteger (k : Key) (raw : Str) : Except Exc (Except Str Value) :=
  let neg := raw.head? = some (chr '-')
  let digits := if neg then raw.drop 1 else raw
  if !isNumeral digits ∨ raw = str "-0" then .ok (.error (str "invalid"))
  else do
    let m ← intOfNumeral digits
    let n : Int := if neg then -(m : Int) else m
    if ¬ (-(2 ^ 63) ≤ n ∧ n ≤ 2 ^ 63 - 1) then .ok (.error (str "invalid"))
    else if k.min.any (n < ·) ∨ k.max.any (· < n) then .ok (.error (str "out_of_range"))
    else .ok (.ok (.int n))

def parseDuration (raw : Str) : Except Exc (Except Str Value) :=
  match lookup (raw.dropWhile isDigit) units with
  | none => .ok (.error (str "invalid"))
  | some unit =>
      let digits := raw.takeWhile isDigit
      if !isNumeral digits then .ok (.error (str "invalid"))
      else do
        let n ← intOfNumeral digits
        if 2 ^ 63 - 1 < n then .ok (.error (str "invalid"))
        else
          let d ← timedelta n unit
          .ok (.ok (.duration d))

def parseOne (k : Key) (raw : Json) : Except Exc (Except Str Value) :=
  match k.type, raw with
  | .string, _ => .ok (.ok (.raw raw))
  | .integer, .str s => parseInteger k s
  | .integer, _ => .error .typeError
  | .boolean, .str s =>
      if s = str "true" then .ok (.ok (.bool true))
      else if s = str "false" then .ok (.ok (.bool false))
      else .ok (.error (str "invalid"))
  | .boolean, _ => .ok (.error (str "invalid"))
  | .duration, .str s => parseDuration s
  | .duration, _ => .error .typeError
  | .enum_, .str s => if s ∈ k.values then .ok (.ok (.raw raw))
      else .ok (.error (str "unknown_enum"))
  | .enum_, _ => .ok (.error (str "unknown_enum"))

/-- `raw[:64]` -/
def slice64 : Json → Except Exc Json
  | .str s => .ok (.str (s.take 64))
  | .list xs => .ok (.list (xs.take 64))
  | .obj _ => .error .keyError
  | _ => .error .typeError

/-! ## `parse` -/

structure Secret where
  value : Json
  path : Str

structure Values where
  keys : List Key
  vals : Dict Str Value := Dict.empty
  secrets : Dict Str Secret := Dict.empty

/-- `read_file` of a source that has it; nothing is `OSError`. -/
structure Source where
  lookup : Str → Option Json
  readFile : Option (Str → Option Bytes) := none

def removesuffix (s suffix : Str) : Str :=
  if suffix.isSuffixOf s then s.take (s.length - suffix.length) else s

/-- `_trim`; nothing is `UnicodeDecodeError`. -/
def trim (b : Bytes) : Option Str :=
  (utf8Decode b).map fun s => removesuffix (removesuffix s (str "\n")) (str "\r")

/-- What a key is read from: the value and the path of its file, or a problem. -/
def readKey (o : Objects) (src : Source) (k : Key) : Except Problem (Option Json × Str) :=
  let raw := src.lookup k.name
  match k.secret, src.readFile, src.lookup (k.name ++ str "_FILE") with
  | true, some read, some (.str path) =>
      if path = [] then .ok (raw, [])
      else if raw.any o.truthy then
        .error { key := k.name, kind := str "conflict",
                 expected := str "either " ++ k.name ++ str " or " ++ k.name ++ str "_FILE" }
      else
        match (read path).bind trim with
        | some s => .ok (some (.str s), path)
        | none =>
            .error { key := k.name ++ str "_FILE", kind := str "invalid",
                     expected := str "a readable file", got := .str path }
  | _, _, _ => .ok (raw, [])

/-- One key of `_parse`. -/
def parseKey (o : Objects) (src : Source) (k : Key) (v : Values) (problems : List Problem) :
    Except Exc (Values × List Problem) :=
  match readKey o src k with
  | .error p => .ok (v, problems ++ [p])
  | .ok (none, _) => unset
  | .ok (some raw, path) =>
      if !o.truthy raw then unset
      else do
        match ← parseOne k raw with
        | .error kind =>
            let got ← if k.secret then .ok (.str []) else slice64 raw
            return (v, problems ++ [{ key := k.name, kind, expected := expectedOf k, got }])
        | .ok val =>
            let secrets := if k.secret then v.secrets.set k.name ⟨raw, path⟩ else v.secrets
            return ({ v with vals := v.vals.set k.name val, secrets }, problems)
where
  unset : Except Exc (Values × List Problem) :=
    if k.required then .ok (v, problems ++
      [{ key := k.name, kind := str "missing", expected := expectedOf k }])
    else
      match k.default_ with
      | some d => .ok ({ v with vals := v.vals.set k.name d }, problems)
      | none => .ok (v, problems)

def parseKeys (o : Objects) (src : Source) :
    List Key → Values → List Problem → Except Exc (Values × List Problem)
  | [], v, problems => .ok (v, problems)
  | k :: ks, v, problems => do
      let (v, problems) ← parseKey o src k v problems
      parseKeys o src ks v problems

/-- `_parse`; the inner error is `ConfigError`. -/
def parseChecked (o : Objects) (keys : List Key) (src : Source) :
    Except Exc (Except (List Problem) Values) := do
  let (v, problems) ← parseKeys o src keys { keys } []
  return if problems = [] then .ok v else .error problems

def parse (o : Objects) (keys : List Key) (src : Source) :
    Except Exc (Except (List Problem) Values) :=
  if checkDeclaration keys ≠ [] then .ok (.error (checkDeclaration keys))
    else parseChecked o keys src

/-! ## Reading -/

/-- `_keys.get(name)`: of keys with one name the last. -/
def Values.key? (v : Values) (name : Str) : Option Key := v.keys.reverse.find? (·.name = name)

def Values.get (v : Values) (name : Str) (t : KeyType) : Except Exc (Option Value) :=
  match v.key? name with
  | none => .error .keyError
  | some k => if k.type ≠ t ∧ ¬ (t = .string ∧ k.type = .enum_) then .error .typeError
      else .ok (v.vals.get? name)

/-- `str(val)` -/
def Objects.textOf (o : Objects) : Value → Str
  | .raw (.str s) => s
  | val => o.text val

/-- `string`; of a secret the text that was read. -/
def Values.string (o : Objects) (v : Values) (name : Str) : Except Exc Str :=
  match v.secrets.get? name with
  | some s => .ok (o.textOf (.raw s.value))
  | none => (v.get name .string).map fun val => (val.map o.textOf).getD []

/-- `int`; only an integer is kept for a key of that type. -/
def Values.int (v : Values) (name : Str) : Except Exc Int := do
  match ← v.get name .integer with
  | none => .ok 0
  | some (.int n) => .ok n
  | some _ => .error .typeError

/-- `bool` -/
def Values.bool (v : Values) (name : Str) : Except Exc Bool := do
  match ← v.get name .boolean with
  | none => .ok false
  | some (.bool b) => .ok b
  | some _ => .error .typeError

/-- `duration` -/
def Values.duration (v : Values) (name : Str) : Except Exc Int := do
  match ← v.get name .duration with
  | none => .ok 0
  | some (.duration d) => .ok d
  | some _ => .error .typeError

def Values.secret (v : Values) (name : Str) : Except Exc (Option Secret) :=
  match v.key? name with
  | some k => if k.secret then .ok (v.secrets.get? name) else .error .keyError
  | none => .error .keyError

/-- `raw`, which gives nothing for a secret -/
def Values.raw (v : Values) (name : Str) : Option Value :=
  match v.key? name with
  | none => none
  | some k => if k.secret then none else v.vals.get? name

end BeSdk.Config
