/-
BeSdk.Authz.Defs — resource, operation and field declarations, and their
validation.

The closed lists the code branches on (dimension kinds, pushdown modes, field
classes) are inductive types; `other` holds the text of a value outside the list,
which `Definitions.validate` reports. The lists it only checks membership in
(purposes, side effects, …) stay texts.

`validate` collects every problem and returns the indexes it builds. A problem
carries what its message is made of; the message is the docstring of its
constructor.
-/
import BeSdk.Canon

namespace BeSdk

/-! ## Declarations -/

/-- The kind of a dimension. -/
inductive DimensionKind where
  | valueSet
  | orgTree
  | principal
  | amount
  | other (text : Str)
  deriving DecidableEq

def DimensionKind.text : DimensionKind → Str
  | .valueSet => str "value_set"
  | .orgTree => str "org_tree"
  | .principal => str "principal"
  | .amount => str "amount"
  | .other t => t

/-- Where the query compiler finds a dimension's fact; `unset` is the empty text
and stands for the local column. -/
inductive Pushdown where
  | unset
  | localColumn
  | localProjection
  | notPushdownable
  | other (text : Str)
  deriving DecidableEq

/-- The mode as a record says it. -/
def Pushdown.text : Pushdown → Str
  | .unset => str "local_column"
  | .localColumn => str "local_column"
  | .localProjection => str "local_projection"
  | .notPushdownable => str "not_pushdownable"
  | .other t => t

/-- The class of a field. -/
inductive FieldClass where
  | ordinary
  | restricted
  | secret
  | other (text : Str)
  deriving DecidableEq

def FieldClass.text : FieldClass → Str
  | .ordinary => str "ordinary"
  | .restricted => str "restricted"
  | .secret => str "secret"
  | .other t => t

/-- One authorization dimension of a resource and where its fact lives. -/
structure Dimension where
  kind : DimensionKind
  column : Str
  principalRole : Str := []
  currencyColumn : Str := []
  pushdown : Pushdown := .unset
  projectionWatermark : Str := []
  deriving DecidableEq

/-- One output field. -/
structure Field where
  cls : FieldClass
  readKey : Str := []
  writeKey : Str := []
  derivedFrom : List Str := []
  queryable : List Str := []
  deriving DecidableEq

/-- A resource type the component owns; `dimensions` must be declared, if only as
none. -/
structure Resource where
  type : Str
  viewOperation : Str
  dimensions : Option (Dict Str Dimension)
  fields : Dict Str Field := Dict.empty

/-- `r.dimensions or {}` -/
def Resource.dims (r : Resource) : Dict Str Dimension := r.dimensions.getD Dict.empty

/-- One operation. -/
structure Operation where
  key : Str
  resourceType : Str
  purpose : Str
  riskClass : Str
  sideEffects : List Str := []
  audit : Bool := false
  minimumPath : Str := []
  requiresAppointment : Bool := false
  delegable : Bool := false
  impersonationAllowed : Bool := false
  tighteningOnly : Bool := false
  outputReadOperation : Str := []
  selfReviewRule : Str := []
  deriving DecidableEq

/-! ## Records -/

/-- `sorted(set(xs))` of texts, as a JSON array. -/
def textSet (xs : List Str) : Json := .list ((sortedSet (· ≤ ·) xs).map Json.str)

/-- A member that is left out when its text is empty. -/
def optionalText (key value : Str) : List (Str × Json) :=
  if value = [] then [] else [(key, .str value)]

def Dimension.record (d : Dimension) : Json :=
  .obj ([(str "kind", .str d.kind.text), (str "column", .str d.column),
      (str "pushdown", .str d.pushdown.text)] ++
    optionalText (str "principal_role") d.principalRole ++
    optionalText (str "currency_column") d.currencyColumn ++
    optionalText (str "projection_watermark") d.projectionWatermark)

def Field.record (f : Field) : Json :=
  .obj ([(str "class", .str f.cls.text)] ++ optionalText (str "read_key") f.readKey ++
    optionalText (str "write_key") f.writeKey ++
    (if f.derivedFrom = [] then [] else [(str "derived_from", textSet f.derivedFrom)]) ++
    (if f.queryable = [] then [] else [(str "queryable", textSet f.queryable)]))

/-- The resource definition as its security record body. -/
def Resource.record (r : Resource) : Json :=
  .obj [(str "type", .str r.type), (str "view_operation", .str r.viewOperation),
    (str "dimensions", .obj (r.dims.map Dimension.record).entries),
    (str "fields", .obj (r.fields.map Field.record).entries)]

/-- The resource definition's digest. -/
def Resource.digest (r : Resource) : Except Exc Str :=
  Canon.digest (str "be.security.resource_definition") 1 r.record

/-! ## Validation -/

def isLowerLetter (c : CodePoint) : Bool := 0x61 ≤ c.val && c.val ≤ 0x7A

def isKeyChar (c : CodePoint) : Bool := isLowerLetter c || isDigit c || c = chr '_'

/-- `[a-z][a-z0-9_]*(\.[a-z][a-z0-9_]*)*`, in the part `start` says the text is at. -/
def keyGo : Bool → Str → Bool
  | start, [] => !start
  | true, c :: rest => isLowerLetter c && keyGo false rest
  | false, c :: rest => if c = chr '.' then keyGo true rest else isKeyChar c && keyGo false rest

/-- `_KEY.fullmatch(s)` -/
def isKey (s : Str) : Bool := keyGo true s

def purposes : List Str :=
  [str "read", str "special_read", str "export", str "action", str "create", str "manage"]

def paths : List Str := [str "default", str "strict_acceptance", str "strict_barrier"]

def sideEffectKinds : List Str :=
  [str "business_write", str "external_command", str "job_or_subscription", str "file_capability",
    str "security_change", str "notification"]

def queryUses : List Str := [str "filter", str "sort", str "group", str "aggregate"]

/-- What `validate` reports. -/
inductive Problem where
  /-- `resource {type!r}: not a registry key` -/
  | resourceKey (type : Str)
  /-- `{type}: dimensions must be declared (an empty dict when there are none)` -/
  | noDimensions (type : Str)
  /-- `{type}.{name}: dimension kind {kind!r}` -/
  | dimensionKind (type name kind : Str)
  /-- `{type}.{name}: no column` -/
  | noColumn (type name : Str)
  /-- `{type}.{name}: an amount needs its currency column` -/
  | noCurrencyColumn (type name : Str)
  /-- `{type}.{name}: pushdown {pushdown!r}` -/
  | pushdown (type name mode : Str)
  /-- `{type}.{name}: a local projection needs its watermark domain` -/
  | noWatermark (type name : Str)
  /-- `{type}.{name}: field class {cls!r} (every field is classified)` -/
  | fieldClass (type name cls : Str)
  /-- `{type}.{name}: a restricted field needs its read key` -/
  | noReadKey (type name : Str)
  /-- `{type}.{name}: query use {use!r}` -/
  | queryUse (type name use : Str)
  /-- `operation {key!r}: not a registry key` -/
  | operationKey (key : Str)
  /-- `{key}: resource type {type} is not declared` -/
  | undeclaredResource (key type : Str)
  /-- `{key}: risk class must be low or high (never assumed low)` -/
  | riskClass (key : Str)
  /-- `{key}: declared twice` -/
  | declaredTwice (key : Str)
  /-- `{key}: purpose {purpose!r}` -/
  | purpose (key purpose : Str)
  /-- `{key}: minimum path {path!r}` -/
  | minimumPath (key path : Str)
  /-- `{key}: side effect {effect!r}` -/
  | sideEffect (key effect : Str)
  /-- `{key}: an operation with side effects is never allowed under impersonation` -/
  | impersonation (key : Str)
  /-- `{key}: only a manage operation whose only side effect is security_change can be
  tightening only` -/
  | tighteningOnly (key : Str)
  /-- `{type}: its view operation {operation} is not declared for it` -/
  | viewOperation (type operation : Str)
  deriving DecidableEq

/-- The first problem of a dimension, if it has one. -/
def Dimension.problem (type name : Str) (d : Dimension) : Option Problem :=
  match d.kind with
  | .other kind => some (.dimensionKind type name kind)
  | kind =>
      if d.column = [] then some (.noColumn type name)
      else if kind = .amount ∧ d.currencyColumn = [] then some (.noCurrencyColumn type name)
      else
        match d.pushdown with
        | .other mode => some (.pushdown type name mode)
        | .localProjection =>
            if d.projectionWatermark = [] then some (.noWatermark type name) else none
        | _ => none

def Field.problems (type name : Str) (f : Field) : List Problem :=
  (match f.cls with
    | .other cls => [.fieldClass type name cls]
    | .restricted => if f.readKey = [] then [.noReadKey type name] else []
    | _ => []) ++
  (f.queryable.filter fun q => q ∉ queryUses).map (.queryUse type name)

def Resource.problems (r : Resource) : List Problem :=
  (if isKey r.type then [] else [.resourceKey r.type]) ++
  (if r.dimensions.isNone then [.noDimensions r.type] else []) ++
  r.dims.entries.filterMap (fun d => d.2.problem r.type d.1) ++
  r.fields.entries.flatMap fun f => f.2.problems r.type f.1

/-- A declared operation's problems; `resources` are the declared types and `seen`
the operations before it. -/
def Operation.problems (o : Operation) (resources : Dict Str Resource) (seen : Dict Str Operation) :
    List Problem :=
  (if isKey o.key then [] else [.operationKey o.key]) ++
  (if (resources.get? o.resourceType).isSome then []
    else [.undeclaredResource o.key o.resourceType]) ++
  (if o.riskClass = str "low" ∨ o.riskClass = str "high" then [] else [.riskClass o.key]) ++
  (if (seen.get? o.key).isSome then [.declaredTwice o.key] else []) ++
  (if o.purpose ∈ purposes then [] else [.purpose o.key o.purpose]) ++
  (if o.minimumPath = [] ∨ o.minimumPath ∈ paths then [] else [.minimumPath o.key o.minimumPath]) ++
  ((o.sideEffects.filter fun e => e ∉ sideEffectKinds).map (.sideEffect o.key)) ++
  (if o.impersonationAllowed ∧ o.sideEffects ≠ [] then [.impersonation o.key] else []) ++
  (if o.tighteningOnly ∧ (o.purpose ≠ str "manage" ∨ o.sideEffects ≠ [str "security_change"]) then
    [.tighteningOnly o.key] else [])

/-- Everything a component declares. -/
structure Definitions where
  component : Str
  resources : List Resource := []
  operations : List Operation := []

/-- The indexes `validate` builds: a type declared twice keeps its last resource. -/
structure Index where
  resources : Dict Str Resource
  operations : Dict Str Operation

/-- The operations in turn, each checked against the ones before it. -/
def checkOperations (resources : Dict Str Resource) :
    List Operation → Dict Str Operation → List Problem × Dict Str Operation
  | [], seen => ([], seen)
  | o :: rest, seen =>
      let (problems, all) := checkOperations resources rest (seen.set o.key o)
      (o.problems resources seen ++ problems, all)

/-- Whether a resource's view operation is not declared for it. -/
def Resource.viewProblem (r : Resource) (operations : Dict Str Operation) : List Problem :=
  match operations.get? r.viewOperation with
  | some v => if v.resourceType = r.type then [] else [.viewOperation r.type r.viewOperation]
  | none => [.viewOperation r.type r.viewOperation]

/-- Checks the declarations and indexes them; every problem is reported together. -/
def Definitions.validate (d : Definitions) : Except (List Problem) Index :=
  let resources := Dict.ofPairs (d.resources.map fun r => (r.type, r))
  let (problems, operations) := checkOperations resources d.operations Dict.empty
  let all := d.resources.flatMap Resource.problems ++ problems ++
    d.resources.flatMap fun r => r.viewProblem operations
  if all = [] then .ok ⟨resources, operations⟩ else .error all

def Index.operation (i : Index) (key : Str) : Option Operation := i.operations.get? key

def Index.resource (i : Index) (type : Str) : Option Resource := i.resources.get? type

/-! ## What validation says of a dimension -/

/-- A dimension the validation has nothing against. -/
structure Dimension.Valid (d : Dimension) : Prop where
  kind : ∀ t, d.kind ≠ .other t
  column : d.column ≠ []
  currency : d.kind = .amount → d.currencyColumn ≠ []

theorem Dimension.valid_of_problem {type name : Str} {d : Dimension}
    (h : d.problem type name = none) : d.Valid := by
  unfold Dimension.problem at h
  split at h
  · cases h
  next kind hkind =>
    split at h
    · cases h
    next hcol =>
      split at h
      · cases h
      next hcur =>
        exact ⟨fun t ht => hkind t ht, hcol, fun ha hc => hcur ⟨ha, hc⟩⟩

end BeSdk
