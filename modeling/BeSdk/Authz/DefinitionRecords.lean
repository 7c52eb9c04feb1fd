/-
BeSdk.Authz.DefinitionRecords — the declarations of a component as the sealed records it
submits: the identity of a definition record, its envelope, and the walk over
resources and operations.

The digest of the whole set and the call of the authorization member are not part of
the model.
-/
import BeSdk.Authz.Defs
import BeSdk.Records

namespace BeSdk

/-! ## Bodies -/

/-- The members of an object. -/
def Json.members : Json → List (Str × Json)
  | .obj ms => ms
  | _ => []

/-- The operation definition as its security record body. -/
def Operation.record (o : Operation) : Json :=
  .obj ([(str "key", .str o.key), (str "resource_type", .str o.resourceType),
      (str "purpose", .str o.purpose), (str "risk_class", .str o.riskClass),
      (str "minimum_path", .str (if o.minimumPath = [] then str "default" else o.minimumPath)),
      (str "side_effects", textSet o.sideEffects),
      (str "requires_appointment", .bool o.requiresAppointment),
      (str "delegable", .bool o.delegable),
      (str "impersonation_allowed", .bool o.impersonationAllowed),
      (str "audit", .str (if o.audit then str "required" else str "none"))] ++
    (if o.tighteningOnly then [(str "tightening_only", .bool true)] else []) ++
    optionalText (str "output_read_operation") o.outputReadOperation ++
    optionalText (str "self_review_rule") o.selfReviewRule)

/-! ## Identities -/

def newline : Str := [0x0A]

/-- What an identity is the hash of. -/
def identityText (parts : List Str) : Str :=
  str "be.security.definition" ++ newline ++ Str.join newline parts

/-- The version 7 and variant bits set over the first 16 bytes of a digest. -/
def uuidBytes (digest : Bytes) : Bytes :=
  ((digest.take 16).modify 6 fun x => x &&& 0x0F ||| 0x70).modify 8 fun x => x &&& 0x3F ||| 0x80

/-- The bytes of a UUID as its text. -/
def uuidOfBytes (b : Bytes) : Str :=
  let h := hexText b
  h.take 8 ++ str "-" ++ (h.drop 8).take 4 ++ str "-" ++ (h.drop 12).take 4 ++ str "-" ++
    (h.drop 16).take 4 ++ str "-" ++ (h.drop 20).take 12

/-- A definition record's identity: the same for the same component, kind and key in
every version and deployment. -/
def stableId (parts : List Str) : Except Exc Str := do
  let b ← Canon.utf8 (identityText parts)
  return uuidOfBytes (uuidBytes (sha256 b))

/-! ## Records -/

/-- One definition record as it is submitted: canonical bytes without a digest, and
the digest. -/
structure Sealed where
  recordType : Str
  key : Str
  raw : Bytes
  digest : Str
  deriving DecidableEq

/-- A declared definition before it is sealed. -/
structure Declaration where
  recordType : Str
  kind : Str
  key : Str
  body : List (Str × Json)

def Resource.declaration (r : Resource) : Declaration :=
  ⟨str "be.security.resource_definition", str "resource", r.type, r.record.members⟩

def Operation.declaration (o : Operation) : Declaration :=
  ⟨str "be.security.operation_definition", str "operation", o.key, o.record.members⟩

def Definitions.declarations (d : Definitions) : List Declaration :=
  d.resources.map Resource.declaration ++ d.operations.map Operation.declaration

/-- The revision domain: a component ID's `/` and `-` are not allowed in a key. -/
def revisionDomain (component : Str) : Str :=
  Str.replace (Str.replace component (chr '/') (str ".")) (chr '-') (str "_") ++ str ".definition"

/-- The members every record has. -/
def envelope (recordType deployment component id version : Str) : List (Str × Json) :=
  [(str "record_type", .str recordType), (str "schema", .str (str "1.0")),
    (str "deployment", .str deployment), (str "authority", .str component), (str "id", .str id),
    (str "revision", .obj [(str "domain", .str (revisionDomain component)),
      (str "value", .str version)])]

/-- The record of a declaration; no key of the body is one of the envelope. -/
def Declaration.record (c : Declaration) (deployment component id version : Str) : Json :=
  .obj (envelope c.recordType deployment component id version ++ c.body)

/-- What identifies a declaration of a component. -/
def Declaration.identity (c : Declaration) (component : Str) : List Str :=
  [component, c.kind, c.key]

def Declaration.seal_ (c : Declaration) (deployment component version : Str) :
    Except Exc Sealed := do
  let id ← stableId (c.identity component)
  let (raw, digest) ← Records.seal_ c.recordType (c.record deployment component id version)
  return ⟨c.recordType, c.key, raw, digest⟩

/-- Every declared definition sealed with the record envelope. -/
def Definitions.records (d : Definitions) (deployment version : Str) : Except Exc (List Sealed) :=
  d.declarations.mapM fun c => c.seal_ deployment d.component version

end BeSdk
