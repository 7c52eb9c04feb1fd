/-
BeSdk.Py.Ast — Python's syntax trees, as far as names go, and its scopes.

Names, attributes, calls, imports and blocks are nodes of their own; any other node is
its fields in the order of `_fields`, with the lists among them spliced in (`other`). A
block is the scope of a function, a lambda, a class or a comprehension: its fields are in
the order of `_fields` too, and those that are evaluated in the block around it
(decorators, defaults, annotations, bases, the first iterable) are marked `outside`. The
name of a function or a class, of an exception and of a capture is a `binder` beside its
node. Type parameters are a block around theirs.

Scopes are static, as in the language reference: a name belongs to one block wherever it
stands in it, classes are skipped from inside, and `global`, `nonlocal` and `:=` reach
outward. `resolve` is the block whose variable a name is; the module is no block, and has
what no block binds.
-/
import BeSdk.Py.Text

namespace BeSdk.Py

/-! ## Names -/

/-- An identifier; it has no dots. The star of an import is one too. -/
abbrev Ident := {s : Str // s ≠ [] ∧ chr '.' ∉ s}

/-- A dotted name. -/
structure Dotted where
  head : Ident
  tail : List Ident := []

def Dotted.parts (d : Dotted) : List Str := (d.head :: d.tail).map Subtype.val

/-- The name as it is written. -/
def Dotted.text (d : Dotted) : Str := Str.join (str ".") d.parts

/-- `ast.alias` of an `import` statement. -/
structure Alias where
  name : Dotted
  asname : Option Ident := none

/-- `ast.alias` of a `from` statement. -/
structure FromAlias where
  name : Ident
  asname : Option Ident := none

/-- The name that an import binds. -/
def Alias.bound (a : Alias) : Ident := a.asname.getD a.name.head
def FromAlias.bound (a : FromAlias) : Ident := a.asname.getD a.name

/-! ## Trees -/

/-- What a block is of. -/
inductive Block where
  | function
  | class_
  | comprehension
  deriving DecidableEq

inductive Node where
  /-- A name that is loaded, or else stored or deleted. -/
  | name (line : Nat) (id : Ident) (load : Bool)
  | attribute (line : Nat) (value : Node) (attr : Ident)
  | call (line : Nat) (func : Node) (args keywords : List Node)
  /-- A keyword argument; without a name it is `**value`. -/
  | keyword (arg : Option Ident) (value : Node)
  | import_ (names : List Alias)
  /-- The level is the number of leading dots. -/
  | importFrom (line : Nat) (module : Option Dotted) (names : List FromAlias) (level : Nat)
  | global (names : List Ident)
  | nonlocal (names : List Ident)
  | binder (id : Ident)
  /-- `id := value` -/
  | namedExpr (id : Ident) (value : Node)
  | block (kind : Block) (params : List Ident) (fields : List Node)
  | outside (fields : List Node)
  | other (fields : List Node)

/-- The name of a keyword argument. -/
def Node.arg : Node → Option Ident
  | .keyword arg _ => arg
  | _ => none

/-! ## What a block binds -/

mutual

/-- The names that a node binds in its block. Inside a comprehension of that block
(`inner`) it is the targets of `:=` only. -/
def Node.binds (inner : Bool) : Node → List Ident
  | .name _ id load => if load || inner then [] else [id]
  | .attribute _ value _ => value.binds inner
  | .call _ func args keywords => func.binds inner ++ bindsAll inner args ++ bindsAll inner keywords
  | .keyword _ value => value.binds inner
  | .import_ names => if inner then [] else names.map Alias.bound
  | .importFrom _ _ names _ => if inner then [] else names.map FromAlias.bound
  | .global _ => []
  | .nonlocal _ => []
  | .binder id => if inner then [] else [id]
  | .namedExpr id value => id :: value.binds inner
  | .block kind _ fields => bindsAround kind inner fields
  | .outside fields => bindsAll inner fields
  | .other fields => bindsAll inner fields

def bindsAll (inner : Bool) : List Node → List Ident
  | [] => []
  | n :: rest => n.binds inner ++ bindsAll inner rest

/-- What the fields of a block bind in the block around it. -/
def bindsAround (kind : Block) (inner : Bool) : List Node → List Ident
  | [] => []
  | .outside fields :: rest => bindsAll inner fields ++ bindsAround kind inner rest
  | n :: rest => (if kind = .comprehension then n.binds true else []) ++ bindsAround kind inner rest

end

mutual

/-- The names of the `global` statements of a node's block, or of its `nonlocal` ones. -/
def Node.declares (nonlocals : Bool) : Node → List Ident
  | .global names => if nonlocals then [] else names
  | .nonlocal names => if nonlocals then names else []
  | .other fields => declaresAll nonlocals fields
  | _ => []

def declaresAll (nonlocals : Bool) : List Node → List Ident
  | [] => []
  | n :: rest => n.declares nonlocals ++ declaresAll nonlocals rest

end

/-! ## Resolution -/

/-- A block at its place in the module. -/
structure Frame where
  place : List Nat
  kind : Block
  bound : List Ident
  globals : List Ident
  nonlocals : List Ident

/-- The fields that are evaluated in the block itself. -/
def ownFields (fields : List Node) : List Node :=
  fields.filter fun n => match n with
    | .outside _ => false
    | _ => true

def Frame.of (place : List Nat) (kind : Block) (params : List Ident) (fields : List Node) :
    Frame where
  place := place
  kind := kind
  -- the targets of `:=` in a comprehension are bound around it
  bound := params ++ (bindsAll false (ownFields fields)).filter fun id =>
    !(decide (kind = .comprehension) && (bindsAll true (ownFields fields)).contains id)
  globals := declaresAll false (ownFields fields)
  nonlocals := declaresAll true (ownFields fields)

/-- The place of the block whose variable a name is, from the blocks around it, innermost
first. What none of them binds is a global variable, and the module's place is empty. -/
def resolve (id : Ident) : Bool → List Frame → List Nat
  | _, [] => []
  | innermost, f :: around =>
      if f.kind = .class_ ∧ innermost = false then resolve id false around
      else if id ∈ f.globals then []
      else if id ∈ f.nonlocals then resolve id false around
      else if id ∈ f.bound then f.place
      else resolve id false around

end BeSdk.Py
