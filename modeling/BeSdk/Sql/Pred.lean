/-
BeSdk.Sql.Pred — predicates over a row, their text, and what they mean.

A predicate is a syntax tree with one constructor for each form of text a query
builder writes; `Pred.text` is that text. Parentheses are part of the forms: `and`
and `or` stand in them, `chain` is a conjunction without.

A predicate is evaluated on a row against the arguments of its placeholders, in
SQL's three-valued logic: NULL, and a comparison the types do not have, are
`unknown`. A placeholder with no cast takes the type of the column it is compared
with, as PostgreSQL infers it. Numbers are exact and of any size.

What depends on the database and not on the predicate is the parameter `Engine`:
the order of texts, and how a text is read as a value of a type. A value of a type
that is neither text nor a number is known by its rank in the order of its type.
-/
import BeSdk.Lib.Tri
import BeSdk.Py.Json
import BeSdk.Py.Decimal

namespace BeSdk.Sql

/-! ## Values -/

/-- The types of columns. -/
inductive Kind where
  | text
  | numeric
  | date
  | timestamptz
  | uuid
  | boolean
  deriving DecidableEq

/-- The name of a type in a cast. -/
def Kind.name : Kind → Str
  | .text => str "text"
  | .numeric => str "numeric"
  | .date => str "date"
  | .timestamptz => str "timestamptz"
  | .uuid => str "uuid"
  | .boolean => str "boolean"

/-- A value of type `numeric`. -/
inductive Numeric where
  | finite (d : Dec)
  | infinity (neg : Bool)
  | nan
  deriving DecidableEq

/-- `a = b`; NaN equals itself. -/
def Numeric.eq : Numeric → Numeric → Bool
  | .finite a, .finite b => a.eq b
  | .infinity m, .infinity n => m == n
  | .nan, .nan => true
  | _, _ => false

/-- `a < b`; NaN is above everything else. -/
def Numeric.lt : Numeric → Numeric → Bool
  | .finite a, .finite b => a.lt b
  | .finite _, .infinity n => !n
  | .infinity m, .finite _ => m
  | .infinity m, .infinity n => m && !n
  | .nan, _ => false
  | _, .nan => true

/-- The value of a column in a row. -/
inductive Value where
  | null
  | text (s : Str)
  | numeric (n : Numeric)
  | scalar (kind : Kind) (rank : Int)
  deriving DecidableEq

def Value.kind : Value → Option Kind
  | .null => none
  | .text _ => some .text
  | .numeric _ => some .numeric
  | .scalar k _ => some k

/-- What the database decides: the order of texts, equal only to themselves, and the
value a text is cast to. It reads every decimal number exactly. -/
class Engine where
  collate : Str → Str → Bool
  toNumeric : Str → Option Numeric
  toScalar : Kind → Str → Option Int
  collate_irrefl : ∀ s, collate s s = false
  collate_trans : ∀ s t u, collate s t = true → collate t u = true → collate s u = true
  collate_total : ∀ s t, s ≠ t → collate s t = true ∨ collate t s = true
  toNumeric_decimal : ∀ s d, decimalFullmatch s = true → readDecimal s = some d →
    toNumeric s = some (.finite d)

/-- The engine that orders texts by code point and reads numbers only. -/
abbrev Engine.plain : Engine where
  collate s t := decide (s < t)
  toNumeric s := (readDecimal s).map .finite
  toScalar _ _ := none
  collate_irrefl s := by simp
  collate_trans s t u h h' := by
    simp only [decide_eq_true_eq] at h h' ⊢
    exact lt_trans h h'
  collate_total s t h := by simpa using lt_or_gt_of_ne h
  toNumeric_decimal s d _ hd := by simp [hd]

/-- `s::kind` -/
def cast [Engine] : Kind → Str → Option Value
  | .text, s => some (.text s)
  | .numeric, s => (Engine.toNumeric s).map .numeric
  | k, s => (Engine.toScalar k s).map (.scalar k)

/-! ## Comparison -/

/-- How two values of one type compare. -/
def Value.order [Engine] : Value → Value → Option Ordering
  | .text a, .text b =>
      some (if a = b then .eq else if Engine.collate a b then .lt else .gt)
  | .numeric a, .numeric b => some (if a.eq b then .eq else if a.lt b then .lt else .gt)
  | .scalar k a, .scalar l b => if k = l then some (compare a b) else none
  | _, _ => none

inductive Comparison where
  | eq
  | lt
  | le
  | gt
  | ge
  deriving DecidableEq

def Comparison.text : Comparison → Str
  | .eq => str "="
  | .lt => str "<"
  | .le => str "<="
  | .gt => str ">"
  | .ge => str ">="

def Comparison.holds : Comparison → Ordering → Bool
  | .eq, o => o == .eq
  | .lt, o => o == .lt
  | .le, o => o != .gt
  | .gt, o => o == .gt
  | .ge, o => o != .lt

/-- `v op w` -/
def Value.test [Engine] (op : Comparison) (v w : Value) : Tri :=
  match v.order w with
  | none => .unknown
  | some o => .ofBool (op.holds o)

/-! ## `LIKE` -/

/-- Whether a text matches the rest of a pattern; the flag says that an escape
character came right before. A pattern that ends in one matches nothing. -/
def likeGo : Bool → (pattern : Str) → (s : Str) → Bool
  | true, [], _ => false
  | false, [], s => s.isEmpty
  | true, c :: p, s =>
      match s with
      | [] => false
      | x :: s => x == c && likeGo false p s
  | false, c :: p, s =>
      if c = chr '\\' then likeGo true p s
      else if c = chr '%' then s.tails.any fun t => likeGo false p t
      else
        match s with
        | [] => false
        | x :: s => (c == chr '_' || x == c) && likeGo false p s

/-- `s LIKE pattern ESCAPE '\'` -/
def like (pattern s : Str) : Bool := likeGo false pattern s

/-! ## Predicates -/

/-- An argument of a query: a text, an array of texts, or another value of a JSON
document, which the driver does not take for a text. -/
inductive Arg where
  | text (s : Str)
  | texts (ss : List Str)
  | json (v : Json)

/-- A placeholder, by the position of its argument, and the type it is cast to. -/
structure Param where
  index : Nat
  cast : Option Kind := none
  deriving DecidableEq

/-- A predicate over columns `κ`. -/
inductive Pred (κ : Type) where
  /-- `TRUE`, `FALSE` -/
  | const (b : Bool)
  /-- `c op $n`, `c op $n::text::t` -/
  | cmp (c : κ) (op : Comparison) (p : Param)
  /-- `c = ANY($n)`, `c = ANY($n::text[]::t[])` -/
  | any (c : κ) (p : Param)
  /-- `c LIKE $n ESCAPE '\'` -/
  | like (c : κ) (index : Nat)
  /-- `c IS NOT NULL` -/
  | notNull (c : κ)
  /-- `(p AND q)` -/
  | and (ps : List (Pred κ))
  /-- `(p OR q)` -/
  | or (ps : List (Pred κ))
  /-- `p AND q` -/
  | chain (ps : List (Pred κ))
  /-- `COALESCE(p, FALSE)` -/
  | coalesce (p : Pred κ)

variable {κ : Type}

/-! ### Text -/

/-- `$n` -/
def placeholder (index : Nat) : Str := chr '$' :: natText (index + 1)

def Param.text (p : Param) : Str :=
  match p.cast with
  | none => placeholder p.index
  | some k => placeholder p.index ++ str "::text::" ++ k.name

def Param.arrayText (p : Param) : Str :=
  match p.cast with
  | none => placeholder p.index
  | some k => placeholder p.index ++ str "::text[]::" ++ k.name ++ str "[]"

def parens (s : Str) : Str := chr '(' :: (s ++ [chr ')'])

mutual

/-- The text of a predicate, given that of a column. -/
def Pred.text (col : κ → Str) : Pred κ → Str
  | .const b => if b then str "TRUE" else str "FALSE"
  | .cmp c op p => col c ++ str " " ++ op.text ++ str " " ++ p.text
  | .any c p => col c ++ str " = ANY" ++ parens p.arrayText
  | .like c i => col c ++ str " LIKE " ++ placeholder i ++ str " ESCAPE '\\'"
  | .notNull c => col c ++ str " IS NOT NULL"
  | .and ps => parens (Str.join (str " AND ") (texts col ps))
  | .or ps => parens (Str.join (str " OR ") (texts col ps))
  | .chain ps => Str.join (str " AND ") (texts col ps)
  | .coalesce p => str "COALESCE" ++ parens (p.text col ++ str ", FALSE")

def texts (col : κ → Str) : List (Pred κ) → List Str
  | [] => []
  | p :: ps => p.text col :: texts col ps

end

/-! ### Meaning -/

/-- The value of a placeholder where one of a type is expected. -/
def Param.value [Engine] (args : List Arg) (p : Param) (k : Kind) : Option Value :=
  match args[p.index]? with
  | some (.text s) => Sql.cast (p.cast.getD k) s
  | _ => none

/-- The values of an array placeholder. -/
def Param.values [Engine] (args : List Arg) (p : Param) (k : Kind) : Option (List Value) :=
  match args[p.index]? with
  | some (.texts ss) => ss.mapM (Sql.cast (p.cast.getD k))
  | _ => none

/-- `v op $n` -/
def Value.testParam [Engine] (args : List Arg) (v : Value) (op : Comparison) (p : Param) : Tri :=
  match v.kind.bind (p.value args) with
  | none => .unknown
  | some w => v.test op w

/-- `v = ANY($n)` -/
def Value.testAny [Engine] (args : List Arg) (v : Value) (p : Param) : Tri :=
  match v.kind.bind (p.values args) with
  | none => .unknown
  | some ws => .any (ws.map (v.test .eq))

/-- `v LIKE $n ESCAPE '\'` -/
def Value.testLike (args : List Arg) (v : Value) (index : Nat) : Tri :=
  match v, args[index]? with
  | .text s, some (.text pattern) => .ofBool (Sql.like pattern s)
  | _, _ => .unknown

mutual

/-- What a predicate says of a row, under arguments. -/
def Pred.eval [Engine] (args : List Arg) (row : κ → Value) : Pred κ → Tri
  | .const b => .ofBool b
  | .cmp c op p => (row c).testParam args op p
  | .any c p => (row c).testAny args p
  | .like c i => (row c).testLike args i
  | .notNull c => .ofBool (decide (row c ≠ .null))
  | .and ps => .all (evals args row ps)
  | .or ps => .any (evals args row ps)
  | .chain ps => .all (evals args row ps)
  | .coalesce p => .ofBool (decide (p.eval args row = .true))

def evals [Engine] (args : List Arg) (row : κ → Value) : List (Pred κ) → List Tri
  | [] => []
  | p :: ps => p.eval args row :: evals args row ps

end

section
variable [Engine] {args : List Arg} {row : κ → Value}

theorem evals_eq_map : ∀ (ps : List (Pred κ)), evals args row ps = ps.map (Pred.eval args row)
  | [] => rfl
  | p :: ps => by rw [evals, evals_eq_map ps, List.map_cons]

@[simp] theorem eval_const_eq_true_iff (b : Bool) :
    (Pred.const b : Pred κ).eval args row = .true ↔ b = true := by
  rw [Pred.eval, Tri.ofBool_eq_true_iff]

end

end BeSdk.Sql
