/-
BeSdk.Authz.Segment — complete segments and their single-record three-valued
evaluation.

A segment is a conjunction of atoms, one per declared dimension; an operation's
permission is the disjunction of its segments; a decision joins the view
operation's permission with the asked one's. A fact that was not obtained makes a
condition `unknown`, and an atom of a kind this code does not understand too.

Evaluation is fallible: an interval compares through `Decimal`, whose constructor
refuses a number outside its largest context even when the text has the right
shape. The loop over a segment's atoms stops at the first false one, so what
stands behind it is not evaluated and cannot raise.

The time `at` is the instant of an aware datetime. A fact of a state the source
does not name evaluates as one that was not obtained.
-/
import BeSdk.Authz.Defs
import BeSdk.Lib.Tri

namespace BeSdk

/-! ## Segments -/

/-- One fact of a record: a value (an amount has a currency), a known null, or not
obtained. -/
inductive Fact where
  | value (value currency : Str)
  | null
  | unobtained
  deriving DecidableEq

/-- How a tree item holds: at its path alone, or at everything below it too. -/
inductive TreeMode where
  | exact
  | subtree
  | other (text : Str) (h : text ≠ str "exact" ∧ text ≠ str "subtree")
  deriving DecidableEq

def TreeMode.text : TreeMode → Str
  | .exact => str "exact"
  | .subtree => str "subtree"
  | .other t _ => t

structure TreeItem where
  path : Str
  mode : TreeMode
  deriving DecidableEq

/-- The kind of an atom; `in_` and `self_` are the source's `in` and `self`. -/
inductive AtomKind where
  | all
  | in_
  | tree
  | self_
  | interval
  | other (text : Str)
  deriving DecidableEq

def AtomKind.text : AtomKind → Str
  | .all => str "all"
  | .in_ => str "in"
  | .tree => str "tree"
  | .self_ => str "self"
  | .interval => str "interval"
  | .other t => t

/-- A segment's condition on one dimension. -/
structure Atom where
  kind : AtomKind
  values : List Str := []
  items : List TreeItem := []
  currency : Str := []
  lo : Option Str := none
  loClosed : Option Bool := none
  hi : Option Str := none
  hiClosed : Option Bool := none
  deriving DecidableEq

/-- One complete segment; `validUntil` empty means no fixed end. -/
structure Segment where
  operation : Str
  atoms : Dict Str Atom
  readFields : List Str
  validFrom : Str
  validUntil : Str := []
  resourceType : Str := []
  writeFields : List Str := []
  binding : Str := []
  source : Str := []
  definition : Option (List (Str × Json)) := none

/-- `_instant`: an RFC 3339 instant; `none` is a `ValueError`. -/
def rfc3339 (s : Str) : Option Instant :=
  match fromisoformat s with
  | none => none
  | some t => if Canon.upperHasT s then t.instant else none

/-- Whether the segment is valid at an instant; a malformed bound makes it invalid. -/
def Segment.activeAt (s : Segment) (t : Instant) : Bool :=
  match rfc3339 s.validFrom with
  | none => false
  | some start =>
      if t < start then false
      else if s.validUntil = [] then true
      else
        match rfc3339 s.validUntil with
        | none => false
        | some stop => decide (t < stop)

/-! ## Fitting a resource -/

/-- Why a segment does not fit a resource; the texts follow
`segment for {operation}: `. -/
inductive CheckError where
  /-- `{n} atoms for {m} dimensions` -/
  | atomCount (n m : Nat)
  /-- `dimension {dim} is not declared` -/
  | undeclared (dim : Str)
  /-- `atom kind {kind!r} is not understood` -/
  | notUnderstood (kind : Str)
  /-- `{kind} on {dim}` -/
  | badAtom (kind dim : Str)
  /-- `field {field} writable but not readable` -/
  | unreadable (field : Str)
  deriving DecidableEq

/-- Whether an atom does not fit a dimension; `none` is a kind that is not
understood. -/
def Atom.bad (a : Atom) (d : Dimension) : Option Bool :=
  match a.kind with
  | .all => some false
  | .in_ => some false
  | .tree => some (decide (d.kind ≠ .orgTree))
  | .self_ => some (decide (d.kind ≠ .principal))
  | .interval => some <|
      decide (d.kind ≠ .amount) || (a.lo.isNone && a.hi.isNone) ||
        (a.lo.isNone != a.loClosed.isNone) || (a.hi.isNone != a.hiClosed.isNone)
  | .other _ => none

/-- The check of one atom against the declared dimensions. -/
def checkAtom (dims : Dict Str Dimension) (dim : Str) (a : Atom) : Except CheckError Unit :=
  match dims.get? dim with
  | none => .error (.undeclared dim)
  | some d =>
      match a.bad d with
      | none => .error (.notUnderstood a.kind.text)
      | some true => .error (.badAtom a.kind.text dim)
      | some false => .ok ()

def checkAtoms (dims : Dict Str Dimension) : List (Str × Atom) → Except CheckError Unit
  | [] => .ok ()
  | (dim, a) :: rest => do
      checkAtom dims dim a
      checkAtoms dims rest

/-- Exactly one atom per declared dimension, atoms well formed, written fields
readable. -/
def Segment.check (s : Segment) (r : Resource) : Except CheckError Unit :=
  if s.atoms.size ≠ r.dims.size then .error (.atomCount s.atoms.size r.dims.size)
  else do
    checkAtoms r.dims s.atoms.entries
    match sortedSet (· ≤ ·) (s.writeFields.filter fun f => f ∉ s.readFields) with
    | [] => return ()
    | f :: _ => throw (.unreadable f)

/-! ## Canonical form -/

/-- One bound of an interval in canonical form, when it is there. -/
def canonicalBound [Interp] (name : String) (v : Option Str) (closed : Option Bool) :
    Except Exc (List (Str × Json)) :=
  match v with
  | none => .ok []
  | some v => do
      let amount ← Canon.decimal v
      return [(str name, .str amount),
        (str (name ++ "_closed"), match closed with | none => .null | some b => .bool b)]

def TreeItem.record (i : TreeItem) : Json :=
  .obj [(str "path", .str i.path), (str "mode", .str i.mode.text)]

def Atom.canonical [Interp] (a : Atom) : Except Exc Json := do
  let kind := (str "kind", Json.str a.kind.text)
  match a.kind with
  | .in_ =>
      let values ← Canon.sortedSet (a.values.map fun v => .str (Canon.text v))
      return .obj [kind, (str "values", .list values)]
  | .tree =>
      let items ← Canon.sortedSet (a.items.map TreeItem.record)
      return .obj [kind, (str "items", .list items)]
  | .interval =>
      let lo ← canonicalBound "lo" a.lo a.loClosed
      let hi ← canonicalBound "hi" a.hi a.hiClosed
      return .obj ([kind, (str "currency", .str a.currency)] ++ lo ++ hi)
  | _ => return .obj [kind]

/-- The validity in canonical form. -/
def Segment.canonicalValid (s : Segment) : Except Exc Json := do
  let start ← Canon.instant s.validFrom
  if s.validUntil = [] then return .obj [(str "from", .str start)]
  else
    let stop ← Canon.instant s.validUntil
    return .obj [(str "from", .str start), (str "until", .str stop)]

/-- `json.loads(json.dumps(d))` of a dictionary that is not empty. -/
def canonicalDefinition (d : Option (List (Str × Json))) : Except Exc (List (Str × Json)) :=
  match d with
  | none => .ok []
  | some [] => .ok []
  | some members =>
      match scanJson (dumps (.obj members)) with
      | none => .error .valueError
      | some v => .ok [(str "definition", v.dedupe)]

/-- The normalized segment as the encoder's types. -/
def Segment.canonical [Interp] (s : Segment) (resourceType : Str) : Except Exc Json := do
  let atoms ← s.atoms.entries.mapM fun p => do return (p.1, ← p.2.canonical)
  let valid ← s.canonicalValid
  let readFields ← Canon.sortedSet (s.readFields.map Json.str)
  let writeFields ← Canon.sortedSet (s.writeFields.map Json.str)
  let definition ← canonicalDefinition s.definition
  return .obj ([(str "operation", .str s.operation), (str "atoms", .obj atoms),
      (str "read_fields", .list readFields), (str "write_fields", .list writeFields),
      (str "valid", valid)] ++
    optionalText (str "resource_type") resourceType ++ optionalText (str "binding") s.binding ++
    optionalText (str "source") s.source ++ definition)

/-- The segment's identity: the digest of its normalized form. -/
def Segment.digest [Interp] (s : Segment) : Except Exc Str := do
  Canon.digest (str "be.security.segment") 1 (← s.canonical s.resourceType)

/-! ## Evaluation -/

/-- `Decimal(s)`, its refusal as an exception. -/
def toDecimal [Interp] (s : Str) : Except Exc Decimal :=
  match decimalOf s with
  | .ok d => .ok d
  | .error e => .error (.decimal e)

def compared (r : Except DecimalSignal Bool) : Except Exc Bool :=
  match r with
  | .ok b => .ok b
  | .error e => .error (.decimal e)

/-- `amount < lo or (amount == lo and not closed)` -/
def belowLo (amount lo : Decimal) (closed : Option Bool) : Except Exc Bool := do
  if ← compared (amount.lt lo) then return true
  return (← compared (amount.eq lo)) && !(closed.getD false)

/-- `amount > hi or (amount == hi and not closed)` -/
def aboveHi (amount hi : Decimal) (closed : Option Bool) : Except Exc Bool := do
  if ← compared (hi.lt amount) then return true
  return (← compared (amount.eq hi)) && !(closed.getD false)

/-- Whether a present bound excludes the amount. -/
def excluded (excludes : Decimal → Option Bool → Except Exc Bool) (bound : Option Decimal)
    (closed : Option Bool) : Except Exc Bool :=
  match bound with
  | none => .ok false
  | some b => excludes b closed

/-- `_interval` -/
def Atom.interval [Interp] (a : Atom) (value currency : Str) : Except Exc Tri :=
  if currency ≠ a.currency then .ok .false
  else if [some value, a.lo, a.hi].any fun v => v.any fun s => !decimalFullmatch s then .ok .unknown
  else do
    let amount ← toDecimal value
    let lo ← a.lo.mapM toDecimal
    let hi ← a.hi.mapM toDecimal
    if ← excluded (belowLo amount) lo a.loClosed then return .false
    if ← excluded (aboveHi amount) hi a.hiClosed then return .false
    return .true

/-- Whether an item of a tree holds at a path. -/
def TreeItem.holds (i : TreeItem) (path : Str) : Bool :=
  path = i.path || (i.mode = .subtree && Str.startsWith path (i.path ++ str "/"))

/-- `_atom` on a known value. -/
def Atom.onValue [Interp] (a : Atom) (value currency principal : Str) : Except Exc Tri :=
  match a.kind with
  | .all => .ok .true
  | .in_ => .ok (.ofBool (a.values.contains value))
  | .self_ => .ok (.ofBool (value = principal))
  | .tree =>
      if value = [] then .ok .false  -- an empty path is not the root
      else .ok (.ofBool (a.items.any fun i => i.holds value))
  | .interval => a.interval value currency
  | .other _ => .ok .unknown

/-- `_atom` -/
def Atom.eval [Interp] (a : Atom) (f : Option Fact) (principal : Str) : Except Exc Tri :=
  if a.kind = .all then .ok .true
  else
    match f with
    | none => .ok .unknown
    | some .unobtained => .ok .unknown
    | some .null => .ok .false
    | some (.value v currency) => a.onValue v currency principal

/-- The atoms of a segment from one on; `out` is what the ones before came to. -/
def evalAtoms [Interp] (facts : Dict Str Fact) (principal : Str) :
    List (Str × Atom) → Tri → Except Exc Tri
  | [], out => .ok out
  | (dim, a) :: rest, out => do
      match ← a.eval (facts.get? dim) principal with
      | .false => return .false
      | .unknown => evalAtoms facts principal rest .unknown
      | .true => evalAtoms facts principal rest out

/-- `_segment` -/
def Segment.eval [Interp] (s : Segment) (facts : Dict Str Fact) (principal : Str) (at_ : Instant) :
    Except Exc Tri :=
  if !s.activeAt at_ then .ok .false else evalAtoms facts principal s.atoms.entries .true

/-- The segments from one on; `res` and `fields` are what the ones before came to. -/
def entitledGo [Interp] (op : Str) (facts : Dict Str Fact) (principal : Str) (at_ : Instant) :
    List Segment → Tri → List Str → Except Exc (Tri × List Str)
  | [], res, fields => .ok (res, fields)
  | s :: rest, res, fields =>
      if s.operation ≠ op then entitledGo op facts principal at_ rest res fields
      else do
        match ← s.eval facts principal at_ with
        | .true => entitledGo op facts principal at_ rest .true (fields ++ s.readFields)
        | .unknown =>
            entitledGo op facts principal at_ rest (if res = .false then .unknown else res) fields
        | .false => entitledGo op facts principal at_ rest res fields

/-- `_entitled`: the disjunction over the operation's segments, and the read fields
of the true ones. -/
def entitled [Interp] (segs : List Segment) (op : Str) (facts : Dict Str Fact) (principal : Str)
    (at_ : Instant) : Except Exc (Tri × List Str) :=
  entitledGo op facts principal at_ segs .false []

/-- `_and` -/
def and_ (a b : Tri) : Tri :=
  if a = .false ∨ b = .false then .false
  else if a = .unknown ∨ b = .unknown then .unknown
  else .true

/-- The result for one record. -/
structure Decision where
  visible : Tri
  action : Tri
  fields : List Str
  deriving DecidableEq

/-- The answer: not visible, not allowed, not provable, or none. -/
def Decision.error (d : Decision) : Option Errs.Error :=
  if d.visible = .false then some (Errs.new (str "NOT_FOUND") (str "not found"))
  else if d.action = .false then some (Errs.new (str "PERMISSION_DENIED") (str "not allowed"))
  else if d.visible = .unknown ∨ d.action = .unknown then
    some (Errs.new (str "AUTHORIZATION_UNPROVABLE")
      (str "the authorization cannot be proven right now"))
  else none

/-- Whether a field is declared and not secret. -/
def Resource.outputs (r : Resource) (f : Str) : Bool :=
  match r.fields.get? f with
  | none => false
  | some fd => decide (fd.cls ≠ .secret)

/-- Decides one record: visibility by the resource's view operation, the
operation's permission, and the fields readable for the operation. -/
def evaluate [Interp] (r : Resource) (segs : List Segment) (op : Str) (facts : Dict Str Fact)
    (principal : Str) (at_ : Instant) : Except Exc Decision := do
  let (visible, viewFields) ← entitled segs r.viewOperation facts principal at_
  let (action, fields) ←
    if op ≠ r.viewOperation then do
      let (act, fields) ← entitled segs op facts principal at_
      pure (and_ visible act, fields)
    else pure (visible, viewFields)
  let readable := if visible = .true then sortedSet (· ≤ ·) (fields.filter r.outputs) else []
  return ⟨visible, action, readable⟩

end BeSdk
