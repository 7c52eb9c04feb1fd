/-
BeSdk.Authz.DefinitionSchemas — the JSON Schemas of the resource and operation
definitions, as they are shipped beside the code.

The patterns are predicates on texts: `Key` is the registry key of `validate` with at
most 128 characters, `Id` a version 7 UUID, `ComponentId` two names with a slash
between them.
-/
import BeSdk.Authz.DefinitionRecords
import BeSdk.RecordSchemas

namespace BeSdk

open Records (Schema)

/-! ## Patterns -/

/-- `Key` -/
def isSchemaKey (s : Str) : Bool := isKey s && decide (s.length ≤ 128)

/-- `[0-9a-f]` -/
def isHexChar (c : CodePoint) : Bool := isDigit c || (0x61 ≤ c.val && c.val ≤ 0x66)

/-- One character of each class in turn, and nothing after them. -/
def matchesClasses : List (CodePoint → Bool) → Str → Bool
  | [], [] => true
  | p :: ps, c :: s => p c && matchesClasses ps s
  | _, _ => false

/-- Exactly one character. -/
def isChar (x c : CodePoint) : Bool := decide (c = x)

/-- `[0-9a-f]{8}-[0-9a-f]{4}-7[0-9a-f]{3}-[89ab][0-9a-f]{3}-[0-9a-f]{12}` -/
def idClasses : List (CodePoint → Bool) :=
  List.replicate 8 isHexChar ++ [isChar (chr '-')] ++ List.replicate 4 isHexChar ++
    [isChar (chr '-')] ++ [isChar (chr '7')] ++ List.replicate 3 isHexChar ++ [isChar (chr '-')] ++
    [fun c => decide (c ∈ str "89ab")] ++ List.replicate 3 isHexChar ++ [isChar (chr '-')] ++
    List.replicate 12 isHexChar

/-- `Id` -/
def isId (s : Str) : Bool := matchesClasses idClasses s

/-- `[a-z0-9]` -/
def isNameChar (c : CodePoint) : Bool := isLowerLetter c || isDigit c

/-- `[a-z0-9]([a-z0-9-]*[a-z0-9])?` -/
def isName (s : Str) : Bool :=
  s.head?.any isNameChar && s.getLast?.any isNameChar && s.all fun c => isNameChar c ||
    isChar (chr '-') c

/-- The names before and after the first slash. -/
def namesOf (s : Str) : Option (Str × Str) :=
  match s.dropWhile fun c => !isChar (chr '/') c with
  | _ :: name => some (s.takeWhile fun c => !isChar (chr '/') c, name)
  | [] => none

/-- `ComponentId` -/
def isComponentId (s : Str) : Bool :=
  match namesOf s with
  | some (vendor, name) => isName vendor && isName name
  | none => false

/-! ## Shared definitions -/

def keySchema : Schema := .text isSchemaKey

def textSchema : Schema := .text fun _ => true

def intSchema : Schema := .integer (-9007199254740991) 9007199254740991

/-- `RevisionRef` -/
def revisionSchema : Schema := .object
  [(str "domain", keySchema), (str "value", textSchema), (str "epoch", textSchema),
    (str "instance", textSchema)]
  [str "domain", str "value"]

/-- The members every record has. -/
def envelopeProperties : List (Str × Schema) := [
  (str "record_type", keySchema),
  (str "schema", textSchema),
  (str "deployment", .text isId),
  (str "authority", .text isComponentId),
  (str "id", .text isId),
  (str "revision", revisionSchema),
  (str "required_features", .texts isSchemaKey),
  (str "ext", .map isSchemaKey .any)]

def envelopeRequired : List Str :=
  [str "record_type", str "schema", str "deployment", str "authority", str "id", str "revision"]

/-! ## The resource definition -/

/-- `AttachmentCategory` -/
def attachmentSchema : Schema := .object
  [(str "field", keySchema), (str "max_bytes", intSchema),
    (str "allowed_types", .texts fun _ => true),
    (str "sensitivity", .oneOf [str "normal", str "strict"]), (str "retention_class", keySchema),
    (str "version", textSchema)]
  [str "field", str "max_bytes", str "allowed_types", str "sensitivity",
    str "retention_class", str "version"]

def dimensionProperties : List (Str × Schema) := [
  (str "kind", .oneOf [str "value_set", str "org_tree", str "principal", str "relation",
    str "record", str "amount"]),
  (str "column", keySchema),
  (str "principal_role", keySchema),
  (str "relation_type", keySchema),
  (str "currency_column", keySchema),
  (str "pushdown", .oneOf [str "local_column", str "local_projection", str "not_pushdownable"]),
  (str "projection_watermark", keySchema)]

/-- `DimensionDefinition` -/
def dimensionSchema : Schema := .object dimensionProperties [str "kind", str "column",
    str "pushdown"]

def fieldProperties : List (Str × Schema) := [
  (str "class", .oneOf [str "ordinary", str "restricted", str "secret"]),
  (str "read_key", keySchema),
  (str "write_key", keySchema),
  (str "derived_from", .texts isSchemaKey),
  (str "queryable", .texts fun s => decide
    (s ∈ [str "filter", str "sort", str "group", str "aggregate"]))]

/-- `FieldDefinition` -/
def fieldSchema : Schema := .object fieldProperties [str "class"]

def resourceProperties : List (Str × Schema) := [
  (str "type", keySchema),
  (str "view_operation", keySchema),
  (str "dimensions", .map isSchemaKey dimensionSchema),
  (str "fields", .map isSchemaKey fieldSchema),
  (str "shareable", .boolean),
  (str "governance_dimension", keySchema),
  (str "extensible", .boolean),
  (str "extension_quota", .map isSchemaKey intSchema),
  (str "attachment_categories", .map isSchemaKey attachmentSchema)]

/-- `be.security.resource_definition.schema.json` -/
def resourceSchema : Schema := .object (envelopeProperties ++ resourceProperties)
  (envelopeRequired ++ [str "type", str "view_operation", str "dimensions", str "fields"])

/-! ## The operation definition -/

def operationProperties : List (Str × Schema) := [
  (str "key", keySchema),
  (str "resource_type", keySchema),
  (str "purpose", .oneOf [str "read", str "special_read", str "export", str "action",
    str "create", str "manage"]),
  (str "risk_class", .oneOf [str "low", str "high"]),
  (str "tightening_only", .boolean),
  (str "minimum_path", .oneOf [str "default", str "strict_acceptance", str "strict_barrier"]),
  (str "side_effects", .texts fun s => decide (s ∈ [str "business_write", str "external_command",
    str "job_or_subscription", str "file_capability", str "security_change", str "notification"])),
  (str "output_read_operation", keySchema),
  (str "requires_appointment", .boolean),
  (str "self_review_rule", keySchema),
  (str "delegable", .boolean),
  (str "impersonation_allowed", .boolean),
  (str "audit", .oneOf [str "none", str "required"])]

/-- `be.security.operation_definition.schema.json` -/
def operationSchema : Schema := .object (envelopeProperties ++ operationProperties)
  (envelopeRequired ++ [str "key", str "resource_type", str "purpose", str "risk_class",
    str "minimum_path", str "side_effects", str "requires_appointment", str "delegable",
    str "impersonation_allowed", str "audit"])

/-- The schemas the definition records are opened with. -/
def definitionSchemas (recordType : Str) : Option Schema :=
  if recordType = str "be.security.resource_definition" then some resourceSchema
  else if recordType = str "be.security.operation_definition" then some operationSchema
  else none

end BeSdk
