/-
BeSdk.Lists — component lists: keyset pages with the record ID as the last key, opaque
cursors bound to the filter and plan digests, declared filters and sorts, in one SQL
statement with the subject's authorization predicate.

`build` compiles a page: the plan's predicate, the narrowing to rows that show a field,
the filters, and where there is a cursor the condition "strictly after the cursor's
row". `page` runs it with one row more than the page holds, which tells whether another
follows. `walk` follows the cursors as a caller does.

Arguments are appended to the plan's as the conditions are built, so the conditions are
computations of `Compile` like the plan's. A row is scanned by a function of the
caller's, and so are its sort values and ID as text.
-/
import BeSdk.Authz.Subject
import BeSdk.Py.Base64
import BeSdk.Sql.Select

namespace BeSdk.Lists

open Sql (Kind Pred Param Arg OrderKey Comparison Table)

/-! ## Requests -/

def defaultLimit : Int := 50
def maxLimit : Int := 200

/-- A field a list may filter or sort by. -/
structure Column where
  field : Str
  column : Str
  kind : Kind
  sortable : Bool := false
  filterable : Bool := false

structure SearchColumn where
  name : Str
  column : Str
  fields : List Str

structure Spec where
  operation : Str
  alias_ : Str
  idColumn : Str
  idKind : Kind
  columns : List Column := []
  search : List SearchColumn := []

structure Order where
  field : Str
  desc : Bool := false
  deriving DecidableEq

/-- `op` is eq, in, gte, gt, lte or lt. -/
structure Filter where
  field : Str
  op : Str
  values : List Str
  deriving DecidableEq

structure Request where
  sort : List Order := []
  filters : List Filter := []
  q : Str := []
  cursor : Str := []
  limit : Int := 0
  readableOnly : List Str := []

def bad (name why : Str) : Errs.Error :=
  (Errs.new (str "REQUEST_INVALID") why).withViolations [⟨name, str "INVALID", why⟩]

/-- `_digest` -/
def digest (v : Json) : Except Exc Str :=
  do return (sha256Hex (← Canon.utf8 (dumpsSorted v))).take 32

def badLimit : Errs.Error := bad (str "limit") (str "the page size must be 1-" ++ intText maxLimit)

/-- A page size given by a caller. -/
def parseLimit [Interp] (v : Str) : Except Exc Int :=
  if v = [] then .ok defaultLimit
  else
    let n := (toInt v).getD 0
    if n < 1 ∨ maxLimit < n then .error (.error badLimit) else .ok n

/-! ## Compiled pages -/

/-- A compiled page. -/
structure Query where
  where_ : Pred ColumnRef
  args : List Arg
  orderBy : List (OrderKey ColumnRef)
  alias_ : Str
  limit : Int
  hits : List (Pred ColumnRef)
  sorts : List Order
  filterHash : Str
  planHash : Str
  readableOnly : List Str := []
  plan : Option Plan := none

def Query.whereText (q : Query) : Str := q.where_.text ColumnRef.text

def Query.orderText (q : Query) : Str :=
  Str.join (str ", ") (q.orderBy.map (OrderKey.text ColumnRef.text))

/-- A row's readable fields from its hit bitmap. -/
def Query.fields (q : Query) (hits : List Bool) : List Str :=
  match q.plan with
  | some p => p.fields hits
  | none => []

/-- What a cursor holds. -/
def cursorMembers (keys : List Str) (id filterHash planHash : Str) : List (Str × Json) :=
  [(str "v", .int 1), (str "k", .list (keys.map .str)), (str "id", .str id),
    (str "f", .str filterHash), (str "p", .str planHash)]

/-- The cursor that continues after a row, given its sort values and ID. -/
def Query.next (q : Query) (keys : List Str) (id : Str) : Except Exc Str := do
  let b ← Canon.utf8 (dumps (.obj (cursorMembers keys id q.filterHash q.planHash)))
  return Canon.rstrip (chr '=') (urlsafeB64Encode b)

def Query.sortFields (q : Query) : List Str := q.sorts.map Order.field

/-! ## Conditions -/

/-- The columns by field; a field declared twice keeps its last column. -/
def Spec.cols (s : Spec) : Dict Str Column := Dict.ofPairs (s.columns.map fun c => (c.field, c))

/-- Appends an argument; the result is its position. -/
def arg (v : Arg) : Compile Nat := fun args => .ok (args.length, args ++ [v])

def Spec.col (s : Spec) (name : Str) : ColumnRef := ⟨s.alias_, name⟩

def typed (kind : Kind) (v : Arg) : Compile Param := do return ⟨← arg v, some kind⟩

/-- The operators of a filter with one value. -/
def ops : List (Str × Comparison) :=
  [(str "eq", .eq), (str "gte", .ge), (str "gt", .gt), (str "lte", .le), (str "lt", .lt)]

def badOperator (f : Filter) : Errs.Error :=
  bad (str "filter." ++ f.field)
    (str "operator must be eq, in, gte, gt, lte or lt with one value (in: a list)")

def Spec.filter (s : Spec) (c : Column) (f : Filter) : Compile (Pred ColumnRef) :=
  let col := s.col c.column
  if f.op = str "in" then
    if f.values.isEmpty then return .const false
    else do return .any col ⟨← arg (.texts f.values), some c.kind⟩
  else
    match lookup f.op ops, f.values with
    | some op, [v] => do return .cmp col op (← typed c.kind (.text v))
    | _, _ => throw (.error (badOperator f))

/-! ### Cursors -/

/-- Whether a float read from a text is `1.0`: whether the number rounds to it. -/
def roundsToOne (text : Str) : Bool :=
  (readDecimal text).any fun d => decide (1 - 1 / 2 ^ 54 ≤ d.value ∧ d.value ≤ 1 + 1 / 2 ^ 53)

/-- `v == 1` -/
def isOne : Option Json → Bool
  | some (.int n) => n = 1
  | some (.bool b) => b
  | some (.float t) => roundsToOne t
  | _ => false

/-- `v == s` for a text -/
def isText (s : Str) : Option Json → Bool
  | some (.str t) => t = s
  | _ => false

/-- `base64.urlsafe_b64decode(raw + "=" * (-len(raw) % 4))` -/
def cursorBytes (raw : Str) : Option Bytes :=
  urlsafeB64Decode (raw ++ List.replicate ((4 - raw.length % 4) % 4) (chr '='))

/-- What a cursor is as JSON. -/
def readCursor [Interp] (raw : Str) : Except LoadsError Json :=
  match cursorBytes raw with
  | none => .error .valueError
  | some b => loads b

/-- The members of a cursor for a number of sort keys, and its key values; a cursor that
cannot be read is a `ValueError`. -/
def openCursor [Interp] (raw : Str) (sorts : Nat) :
    Except LoadsError (List (Str × Json) × List Json) :=
  match readCursor raw with
  | .error e => .error e
  | .ok (.obj ms) =>
      match lookup (str "k") ms with
      | some (.list k) =>
          if isOne (lookup (str "v") ms) ∧ k.length = sorts then .ok (ms, k) else .error .valueError
      | _ => .error .valueError
  | .ok _ => .error .valueError

/-- An argument from a cursor. -/
def jsonArg : Json → Arg
  | .str s => .text s
  | v => .json v

/-- `self.cols[o.field]` -/
def Spec.sortColumn (s : Spec) (o : Order) : Compile Column :=
  match s.cols.get? o.field with
  | none => throw .keyError
  | some c => return c

/-- The first keys equal the cursor's. -/
def Spec.equals (s : Spec) : List (Order × Json) → Compile (List (Pred ColumnRef))
  | [] => return []
  | (o, v) :: rest => do
      let c ← s.sortColumn o
      let p ← typed c.kind (jsonArg v)
      return .cmp (s.col c.column) .eq p :: (← s.equals rest)

/-- The first `i` keys equal the cursor's, and the next one comes after it; the ID is
the last key. -/
def Spec.after (s : Spec) (keys : List (Order × Json)) (id : Option Json) (i : Nat) :
    Compile (Pred ColumnRef) := do
  let ands ← s.equals (keys.take i)
  match keys[i]? with
  | some (o, v) => do
      let c ← s.sortColumn o
      return .and (ands ++ [.cmp (s.col c.column) (if o.desc then .lt else .gt)
        (← typed c.kind (jsonArg v))])
  | none =>
      match id with
      | none => throw .keyError
      | some v =>
          do return .and (ands ++ [.cmp (s.col s.idColumn) .gt (← typed s.idKind (jsonArg v))])

def cursorInvalid (why : Str) : Errs.Error := Errs.new (str "CURSOR_INVALID") why

def planChanged : Errs.Error := Errs.new (str "QUERY_PLAN_CHANGED")
    (str "the authorization changed; query again")

/-- The keyset condition: rows strictly after the cursor's row in the order, each key in
its own direction. -/
def Spec.resume [Interp] (s : Spec) (raw : Str) (sorts : List Order) (filterHash planHash : Str) :
    Compile (Pred ColumnRef) :=
  match openCursor raw sorts.length with
  | .error .valueError => throw (.error (cursorInvalid (str "the cursor cannot be read")))
  -- no ValueError, TypeError or AttributeError
  | .error .recursionError => throw .recursionError
  | .ok (ms, k) =>
      if isText filterHash (lookup (str "f") ms) = false then
        throw (.error (cursorInvalid (str "the cursor belongs to another filter, search or sort")))
      else if isText planHash (lookup (str "p") ms) = false then throw (.error planChanged)
      else do
        return .or (← (List.range (sorts.length + 1)).mapM
          (s.after (sorts.zip k) (lookup (str "id") ms)))

/-! ## Building -/

/-- The fields to narrow by, each once, checked against the resource. -/
def narrow (r : Option Resource) : List Str → List Str → Except Exc (List Str)
  | [], seen => .ok seen
  | name :: rest, seen =>
      match r.bind fun r => r.fields.get? name with
      | none =>
          .error (.error (bad (str "readable_only." ++ name) (str "not a field of this list")))
      | some fd =>
          if fd.cls = .secret then
            .error (.error (bad (str "readable_only." ++ name) (str "not a field of this list")))
          else narrow r rest (if name ∈ seen then seen else seen ++ [name])

/-- Whether a field may filter or sort only where every listed row shows it. -/
def isRestricted (r : Option Resource) (narrowed : List Str) (name : Str) : Bool :=
  match r.bind fun r => r.fields.get? name with
  | none => false
  | some fd => decide (fd.cls ≠ .ordinary) && decide (name ∉ narrowed)

def notQueryable (field why : Str) : Errs.Error :=
  (Errs.new (str "FIELD_NOT_QUERYABLE") why).with_ (str "field") field

def Spec.filters (s : Spec) (plan : Plan) (restricted : Str → Bool) :
    List Filter → Compile (List (Pred ColumnRef))
  | [] => return []
  | f :: rest =>
      match s.cols.get? f.field with
      | none => throw (.error (bad (str "filter." ++ f.field) (str "not a filterable field")))
      | some c =>
          if c.filterable = false then
            throw (.error (bad (str "filter." ++ f.field) (str "not a filterable field")))
          else if restricted f.field ∧ plan.readableEverywhere f.field = false then
            throw (.error (notQueryable f.field (str "this field cannot be used to filter here")))
          else do
            let p ← s.filter c f
            return p :: (← s.filters plan restricted rest)

def Spec.checkSorts (s : Spec) (plan : Plan) (restricted : Str → Bool) :
    List Order → Except Exc Unit
  | [] => .ok ()
  | o :: rest =>
      match s.cols.get? o.field with
      | none => .error (.error (bad (str "sort." ++ o.field) (str "not a sortable field")))
      | some c =>
          if c.sortable = false then
            .error (.error (bad (str "sort." ++ o.field) (str "not a sortable field")))
          else if restricted o.field ∧ plan.readableEverywhere o.field = false then
            .error (.error (notQueryable o.field (str "this field cannot be used to sort here")))
          else s.checkSorts plan restricted rest

/-- The items of the ORDER BY, the ID last. -/
def Spec.orderBy (s : Spec) : List Order → Except Exc (List (OrderKey ColumnRef))
  | [] => .ok [⟨s.col s.idColumn, false⟩]
  | o :: rest =>
      match s.cols.get? o.field with
      | none => .error .keyError
      | some c => do return ⟨s.col c.column, o.desc⟩ :: (← s.orderBy rest)

def Filter.record (f : Filter) : Json :=
  .obj [(str "field", .str f.field), (str "op", .str f.op),
    (str "values", .list (f.values.map .str))]

def Order.record (o : Order) : Json :=
  .obj [(str "field", .str o.field), (str "desc", .bool o.desc)]

/-- What the filter digest is of. -/
def Request.record (req : Request) (q : Str) (narrowed : List Str) : Json :=
  .obj [(str "filters", .list (req.filters.map Filter.record)), (str "q", .str q),
    (str "sort", .list (req.sort.map Order.record)),
    (str "readable_only", .list (narrowed.map .str))]

def unsupportedSearch : Errs.Error :=
  Errs.new (str "CAPABILITY_UNSUPPORTED") (str "list search is not in the Python SDK yet")

/-- The keyword of a request, its white space collapsed. -/
def Request.keyword (req : Request) : Str := Str.join (str " ") (Str.split req.q)

/-- A page before the cursor: its conditions but the keyset one, and their arguments. -/
structure Prepared where
  conditions : List (Pred ColumnRef)
  args : List Arg
  filterHash : Str
  readableOnly : List Str

/-- `build` under a plan, up to the filter digest. -/
def prepare (r : Option Resource) (plan : Plan) (spec : Spec) (req : Request) :
    Except Exc Prepared := do
  let narrowed ← narrow r req.readableOnly []
  let restricted := isRestricted r narrowed
  let (filters, args) ← spec.filters plan restricted req.filters plan.args
  let q := req.keyword
  if q ≠ [] ∧ spec.search.isEmpty = false then throw (.error unsupportedSearch)
  -- no column this list may search: nothing matches
  let search := if q = [] then [] else [.const false]
  spec.checkSorts plan restricted req.sort
  let readableOnly := narrowed.insertionSort (· ≤ ·)
  let filterHash ← digest (req.record q readableOnly)
  return { conditions := plan.where_ :: (narrowed.map plan.readableWhere ++ filters ++
    search), args, filterHash,
           readableOnly }

/-- `build` under a plan. -/
def compile [Interp] (r : Option Resource) (plan : Plan) (spec : Spec) (limit : Int)
    (req : Request) : Except Exc Query := do
  let p ← prepare r plan spec req
  let (resume, args) ←
    if req.cursor ≠ [] then do
      let (c, args) ← spec.resume req.cursor req.sort p.filterHash plan.digest p.args
      pure ([c], args)
    else pure ([], p.args)
  let orderBy ← spec.orderBy req.sort
  return { where_ := .chain (p.conditions ++ resume), args, orderBy,
           alias_ := spec.alias_, limit, hits := plan.hits,
           sorts := req.sort, filterHash := p.filterHash, planHash := plan.digest,
           readableOnly := p.readableOnly, plan := some plan }

/-- Compiles one page for the request's subject. -/
def build [Interp] (subj : Subject) (clock : Clock) (spec : Spec) (req : Request) :
    Except Exc Query := do
  let limit := if req.limit = 0 then defaultLimit else req.limit
  if limit < 1 ∨ maxLimit < limit then throw (.error badLimit)
  let plan ← subj.list clock spec.operation spec.alias_ 0
  let r := (subj.defs.operation spec.operation).bind fun o => subj.defs.resource o.resourceType
  compile r plan spec limit req

/-! ## Pages -/

/-- A raised exception, the database's included. -/
inductive Raised where
  | exc (e : Exc)
  | indexError
  | database
  deriving DecidableEq

/-- Runs one compiled page: the rows, scanned, and the next cursor. `keys` gives a row's
sort values as text, in sort order, and its ID. -/
def page [Sql.Engine] {α : Type} (table : Table Str) (q : Query) (scan : (Str → Sql.Value) → α)
    (keys : α → List Str × Str) : Except Raised (List α × Str) :=
  match Sql.select table ColumnRef.name q.where_ q.args q.orderBy (q.limit + 1).toNat with
  | none => .error .database
  | some rows =>
      let out := (rows.take q.limit.toNat).map scan
      if (rows.length : Int) ≤ q.limit then .ok (out, [])
      else
        match out.getLast? with
        | none => .error .indexError
        | some last =>
            let (k, id) := keys last
            match q.next k id with
            | .error e => .error (.exc e)
            | .ok cursor => .ok (out, cursor)

/-- A request's page. -/
def listPage [Interp] [Sql.Engine] {α : Type} (table : Table Str) (scan : (Str → Sql.Value) → α)
    (keys : α → List Str × Str) (spec : Spec) (subj : Subject) (clock : Clock) (req : Request) :
    Except Raised (List α × Str) :=
  match build subj clock spec req with
  | .error e => .error (.exc e)
  | .ok q => page table q scan keys

/-- Following each returned cursor until there is none: the pages, each with the cursor
it returned. The `i`-th page is asked for by the `i`-th subject, at its time, with the
`i`-th size. `none` when the fuel ran out before the last page. -/
def walk [Interp] [Sql.Engine] {α : Type} (table : Table Str) (scan : (Str → Sql.Value) → α)
    (keys : α → List Str × Str) (spec : Spec) (asks : Nat → Subject × Clock)
    (limits : Nat → Int) (req : Request) :
    (fuel i : Nat) → (cursor : Str) → Except Raised (Option (List (List α × Str)))
  | 0, _, _ => .ok none
  | fuel + 1, i, cursor => do
      let p ← listPage table scan keys spec (asks i).1 (asks i).2
        { req with cursor, limit := limits i }
      if p.2 = [] then return some [p]
      else return (← walk table scan keys spec asks limits req fuel (i + 1) p.2).map (p :: ·)

end BeSdk.Lists
