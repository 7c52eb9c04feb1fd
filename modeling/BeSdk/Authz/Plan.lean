/-
BeSdk.Authz.Plan — compiling a subject's segments into a list's SQL: a predicate to
AND with the request's own filter, its arguments, and one boolean expression per
segment whose results give each row's readable fields.

The compiler appends to one list of arguments as it goes, and a placeholder is the
position it appended at, after `base` arguments that are the caller's. `Compile` is
that state with the exceptions. Predicates are syntax trees; `Plan.whereText` and
`Plan.hitTexts` are the texts the source holds.
-/
import BeSdk.Authz.Segment
import BeSdk.Sql.Pred
import BeSdk.Py.Sha256

namespace BeSdk

open Sql (Pred Param Arg Comparison)

/-! ## Identifiers -/

/-- A column of a table under an alias; the empty alias leaves the column
unqualified. -/
structure ColumnRef where
  alias_ : Str
  name : Str
  deriving DecidableEq

/-- A quoted, qualified identifier. -/
def ident (parts : List Str) : Str :=
  Str.join (str ".") ((parts.filter fun p => p ≠ []).map fun p =>
    str "\"" ++ Str.replace p (chr '"') (str "\"\"") ++ str "\"")

def ColumnRef.text (c : ColumnRef) : Str := ident [c.alias_, c.name]

/-- `_like_escape` -/
def likeEscape (s : Str) : Str :=
  Str.replace (Str.replace (Str.replace s (chr '\\') (str "\\\\")) (chr '%') (str "\\%")) (chr '_')
    (str "\\_")

/-! ## Plans -/

/-- A compiled list. `sets` are the fields each hit reads. -/
structure Plan where
  where_ : Pred ColumnRef
  args : List Arg := []
  hits : List (Pred ColumnRef) := []
  digest : Str := []
  sets : List (List Str) := []

def Plan.whereText (p : Plan) : Str := p.where_.text ColumnRef.text

def Plan.hitTexts (p : Plan) : List Str := p.hits.map (Pred.text ColumnRef.text)

/-- A row's readable fields from its hit bitmap. -/
def Plan.fields (p : Plan) (hits : List Bool) : List Str :=
  sortedSet (· ≤ ·) ((hits.zip p.sets).flatMap fun h => if h.1 then h.2 else [])

/-- The condition that a row's field is readable: the disjunction over the segments
that read it. -/
def Plan.readableWhere (p : Plan) (name : Str) : Pred ColumnRef :=
  match (p.hits.zip p.sets).filter fun h => name ∈ h.2 with
  | [] => .const false
  | ors => .or (ors.map Prod.fst)

/-- Whether every segment of the plan reads the field. -/
def Plan.readableEverywhere (p : Plan) (name : Str) : Bool :=
  !p.sets.isEmpty && p.sets.all fun s => name ∈ s

/-! ## The compiler -/

/-- A computation on the list of arguments. -/
abbrev Compile (α : Type) := StateT (List Arg) (Except Exc) α

/-- `_Compiler`, without its list of arguments. -/
structure Compiler where
  r : Resource
  alias_ : Str
  principal : Str
  base : Nat

/-- Appends an argument; the result is its position. -/
def Compiler.arg (c : Compiler) (v : Arg) : Compile Nat :=
  fun args => .ok (c.base + args.length, args ++ [v])

def Compiler.col (c : Compiler) (name : Str) : ColumnRef := ⟨c.alias_, name⟩

def notCompletable : Errs.Error :=
  Errs.new (str "QUERY_NOT_COMPLETABLE") (str "a segment cannot be compiled into the query")

/-- The condition of one item of a tree. -/
def Compiler.item (c : Compiler) (col : ColumnRef) (it : TreeItem) : Compile (Pred ColumnRef) := do
  if it.mode = .subtree then
    let path ← c.arg (.text it.path)
    let pattern ← c.arg (.text (likeEscape it.path ++ str "/%"))
    return .or [.cmp col .eq ⟨path, none⟩, .like col pattern]
  else
    return .cmp col .eq ⟨← c.arg (.text it.path), none⟩

/-- The comparison with one bound of an interval, when it is there. -/
def Compiler.bound (c : Compiler) (col : ColumnRef) (closed : Option Bool)
    (incl excl : Comparison) : Option Str → Compile (List (Pred ColumnRef))
  | none => return []
  | some v => do
      return [.cmp col (if closed.getD false then incl else excl) ⟨← c.arg (.text v),
        some .numeric⟩]

/-- The items of a tree in turn. -/
def Compiler.items (c : Compiler) (col : ColumnRef) :
    List TreeItem → Compile (List (Pred ColumnRef))
  | [] => return []
  | it :: rest => do
      let p ← c.item col it
      return p :: (← c.items col rest)

/-- `_or_all` -/
def orAll (preds : List (Pred ColumnRef)) : Pred ColumnRef :=
  if preds.isEmpty then .const false else .or preds

/-- `atom`; `none` is a condition that says nothing. -/
def Compiler.atom (c : Compiler) (dim : Str) (a : Atom) : Compile (Option (Pred ColumnRef)) :=
  match c.r.dims.get? dim with
  | none => throw .keyError
  | some d =>
      let col := c.col d.column
      if a.kind ≠ .all ∧ d.pushdown = .notPushdownable then
        throw (.error (notCompletable.with_ (str "dimension") dim))
      else
        match a.kind with
        | .all => return none
        | .in_ =>
            if a.values.isEmpty then return some (.const false)
            else do return some (.any col ⟨← c.arg (.texts a.values), none⟩)
        | .self_ => do return some (.cmp col .eq ⟨← c.arg (.text c.principal), none⟩)
        | .tree => do return some (orAll (← c.items col a.items))
        | .interval => do
            let currency ← c.arg (.text a.currency)
            let lo ← c.bound col a.loClosed .ge .gt a.lo
            let hi ← c.bound col a.hiClosed .le .lt a.hi
            return some (.and ([.notNull col, .cmp (c.col d.currencyColumn) .eq ⟨currency, none⟩] ++
              lo ++ hi))
        | .other _ => throw (.error notCompletable)

/-- The conditions of a segment's atoms, without the ones that say nothing. -/
def Compiler.atoms (c : Compiler) : List (Str × Atom) → Compile (List (Pred ColumnRef))
  | [] => return []
  | (dim, a) :: rest => do
      let p ← c.atom dim a
      let ps ← c.atoms rest
      return p.toList ++ ps

/-- `segment`; the atoms in the order of their dimensions. -/
def Compiler.segment (c : Compiler) (s : Segment) : Compile (Pred ColumnRef) := do
  let parts ← c.atoms (s.atoms.entries.insertionSort fun a b => a.1 ≤ b.1)
  return if parts.isEmpty then .const true else .and parts

def Compiler.segments (c : Compiler) : List Segment → Compile (List (Pred ColumnRef))
  | [] => return []
  | s :: rest => do
      let p ← c.segment s
      return p :: (← c.segments rest)

/-- The segments of an operation that are valid at an instant. -/
def activeFor (segs : List Segment) (key : Str) (at_ : Instant) : List Segment :=
  segs.filter fun s => decide (s.operation = key) && s.activeAt at_

/-- The digest of a plan: of the segments used, the resource and the operation. -/
def planDigest [Interp] (r : Resource) (used : List Segment) (op : Str) : Except Exc Str := do
  let digests ← used.mapM Segment.digest
  let text := Str.join [0x0A] (digests.insertionSort (· ≤ ·) ++ [← r.digest, op])
  return (sha256Hex (← Canon.utf8 text)).take 32

/-- The list plan for an operation. Visible are the rows of the view operation's
segments; for another operation the list is visible and permitted, and the fields
come from that operation's segments. -/
def compilePlan [Interp] (r : Resource) (segs : List Segment) (op principal : Str) (at_ : Instant)
    (alias_ : Str) (argBase : Nat) : Except Exc Plan := do
  let c : Compiler := ⟨r, alias_, principal, argBase⟩
  let view := activeFor segs r.viewOperation at_
  let (viewPreds, args) ← c.segments view []
  let (where_, fieldSegs, hitPreds, used, args) ←
    if op ≠ r.viewOperation then do
      let opSegs := activeFor segs op at_
      let (opPreds, args) ← c.segments opSegs args
      pure (Pred.chain [orAll viewPreds, orAll opPreds], opSegs, opPreds, view ++ opSegs, args)
    else pure (orAll viewPreds, view, viewPreds, view, args)
  let digest ← planDigest r used op
  return { where_, args, hits := hitPreds.map .coalesce, digest,
           sets := fieldSegs.map fun s => s.readFields.filter r.outputs }

end BeSdk
