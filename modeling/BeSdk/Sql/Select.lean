/-
BeSdk.Sql.Select — one SELECT over one table: which rows it returns, in which order,
and when the database refuses it.

The columns of a table have types, and a value is NULL or of its column's type. A
statement is refused when an argument cannot be read as what its placeholder stands
for; that depends on the table's types and not on its rows (`Pred.takes`). A statement
that is not refused returns the rows its predicate is true of, sorted, the first so
many of them.

NULL sorts above every value. Values of two types never meet in a column; they are
ordered by their types so that the order is one of all values.
-/
import BeSdk.Sql.Pred
import BeSdk.Lib.Keyset

namespace BeSdk.Sql

/-! ## Tables -/

/-- Whether a value can stand in a column of a type. -/
def Value.hasKind (k : Kind) : Value → Bool
  | .null => true
  | .text _ => k = .text
  | .numeric _ => k = .numeric
  | .scalar l _ => l = k && k ≠ .text && k ≠ .numeric

/-- A table with columns `κ`. -/
structure Table (κ : Type) where
  kind : κ → Kind
  rows : List (κ → Value)
  typed : ∀ row ∈ rows, ∀ c, (row c).hasKind (kind c) = true

/-! ## Order -/

/-- The place of a type among the types. -/
def Kind.rank : Kind → Nat
  | .text => 0
  | .numeric => 1
  | .date => 2
  | .timestamptz => 3
  | .uuid => 4
  | .boolean => 5

/-- The place of a value among those of other types. -/
def Value.rank : Value → Nat
  | .text _ => 0
  | .numeric _ => 1
  | .scalar k _ => 2 + k.rank
  | .null => 8

/-- How two values sort. -/
def Value.sortOrder [Engine] (v w : Value) : Ordering :=
  (compare v.rank w.rank).then ((v.order w).getD .eq)

/-- An item of an ORDER BY. -/
structure OrderKey (κ : Type) where
  column : κ
  desc : Bool

/-- The key with its column renamed. -/
def OrderKey.rename {κ κ' : Type} (name : κ → κ') (k : OrderKey κ) : OrderKey κ' :=
  ⟨name k.column, k.desc⟩

/-- `c ASC`, `c DESC` -/
def OrderKey.text {κ : Type} (col : κ → Str) (k : OrderKey κ) : Str :=
  col k.column ++ str " " ++ (if k.desc then str "DESC" else str "ASC")

/-- How two rows sort by one key. -/
def OrderKey.compare [Engine] {κ : Type} (k : OrderKey κ) (row row' : κ → Value) : Ordering :=
  if k.desc then (row' k.column).sortOrder (row k.column)
  else (row k.column).sortOrder (row' k.column)

/-- How two rows sort by an ORDER BY. -/
def rowOrder [Engine] {κ : Type} (keys : List (OrderKey κ)) :
    (κ → Value) → (κ → Value) → Ordering :=
  Keyset.lex (keys.map OrderKey.compare)

/-! ## Refusals -/

/-- Whether an argument can stand where a text is expected that is read as `k`. -/
def Arg.reads [Engine] (k : Kind) : Option Arg → Bool
  | some (.text s) => (cast k s).isSome
  | some (.json .null) => true
  | _ => false

/-- Whether an argument can stand where an array of texts is expected. -/
def Arg.readsAll [Engine] (k : Kind) : Option Arg → Bool
  | some (.texts ss) => ss.all fun s => (cast k s).isSome
  | some (.json .null) => true
  | _ => false

/-- Whether a placeholder can be compared with a column of type `k`. -/
def Param.fits (p : Param) (k : Kind) : Bool := p.cast.all fun c => decide (c = k)

mutual

/-- Whether the database takes a predicate with its arguments, over columns of the
given types. -/
def Pred.takes [Engine] {κ : Type} (args : List Arg) (kind : κ → Kind) : Pred κ → Bool
  | .const _ => true
  | .cmp c _ p => p.fits (kind c) && Arg.reads (kind c) args[p.index]?
  | .any c p => p.fits (kind c) && Arg.readsAll (kind c) args[p.index]?
  | .like _ i => Arg.reads .text args[i]?
  | .notNull _ => true
  | .and ps => takesAll args kind ps
  | .or ps => takesAll args kind ps
  | .chain ps => takesAll args kind ps
  | .coalesce p => p.takes args kind

def takesAll [Engine] {κ : Type} (args : List Arg) (kind : κ → Kind) : List (Pred κ) → Bool
  | [] => true
  | p :: ps => p.takes args kind && takesAll args kind ps

end

/-! ## The statement -/

/-- `SELECT … FROM t WHERE p ORDER BY keys LIMIT n`; `name` says which column of the
table a column of the statement is. `none`: the database refuses it. -/
def select [Engine] {κ κ' : Type} (t : Table κ') (name : κ → κ') (where_ : Pred κ) (args : List Arg)
    (keys : List (OrderKey κ)) (limit : Nat) : Option (List (κ' → Value)) :=
  if where_.takes args (t.kind ∘ name) then
    some ((Keyset.sorted (rowOrder (keys.map (OrderKey.rename name)))
      (t.rows.filter fun row => decide (where_.eval args (row ∘ name) = .true))).take limit)
  else none

end BeSdk.Sql
