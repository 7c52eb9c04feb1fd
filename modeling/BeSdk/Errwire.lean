/-
BeSdk.Errwire — the error object on the wire: a status with details on the system
surface, problem+json on the user surface, and reading both back.

`Errs.Error.problem` is the body of the user surface, a dictionary with fixed members,
`ProblemBody.members`. The system surface's message is rendered from the same
dictionary. A protobuf message is its fields: encoding and decoding it is the
library's. A gRPC status code is an `Option Code`, `none` for OK, as in
`BeSdk.Calls.Outcome`.

Retry hints are left out, as in `BeSdk.Errs`: the RetryInfo detail and the Retry-After
header. Of a body that was not written by this protocol the members of another type
than the protocol's count as missing.
-/
import BeSdk.Canon
import BeSdk.Exc

namespace BeSdk

/-! ## Rendering -/

def Errs.Error.internal (e : Errs.Error) : Bool :=
  e.code = .internal ∨ e.code = .unknown ∨ e.code = .dataLoss

/-- The user-surface body. -/
structure ProblemBody where
  type_ : Str
  title : Str
  status : Nat
  detail : Str
  reason : Str
  domain : Str
  traceId : Str
  metadata : List (Str × Str) := []
  violations : List Violation := []

/-- `problem`: an internal error never carries anything but the generic detail. -/
def Errs.Error.problem (e : Errs.Error) (traceId : Str) : ProblemBody :=
  if e.internal then
    { type_ := str "urn:be:be:INTERNAL", title := str "Internal error", status := 500,
      detail := internalDetail, reason := str "INTERNAL", domain := platformDomain, traceId }
  else
    let title := if e.title ≠ [] then e.title else e.reason
    { type_ := str "urn:be:" ++ e.domain ++ str ":" ++ e.reason, title, status := e.http,
      detail := if e.detail ≠ [] then e.detail else title, reason := e.reason,
      domain := e.domain, traceId, metadata := e.metadata, violations := e.violations }

def Violation.json (v : Violation) : Json :=
  .obj [(str "field", .str v.field), (str "reason", .str v.reason),
    (str "description", .str v.description)]

/-- The members of the body; metadata and violations only where there are any. -/
def ProblemBody.members (p : ProblemBody) : List (Str × Json) :=
  [(str "type", .str p.type_), (str "title", .str p.title), (str "status", .int p.status),
    (str "detail", .str p.detail), (str "reason", .str p.reason),
    (str "domain", .str p.domain), (str "trace_id", .str p.traceId)] ++
  (if p.metadata = [] then []
    else [(str "metadata", .obj (p.metadata.map fun m => (m.1, .str m.2)))]) ++
  (if p.violations = [] then [] else [(str "violations", .list (p.violations.map Violation.json))])

def problemContentType : Str := str "application/problem+json"

/-- The user-surface response: its status, content type and body. -/
structure Response where
  status : Nat
  contentType : Str
  body : Bytes

/-- `problem_response`; a text with an unpaired surrogate has no bytes. -/
def problemResponse (e : Errs.Error) (traceId : Str) : Except Exc Response := do
  let p := e.problem traceId
  return ⟨p.status, problemContentType, ← Canon.utf8 (compact Canon.escape (.obj p.members))⟩

namespace Errwire

/-- A detail of a status; other types are not read. -/
inductive Detail where
  | errorInfo (reason domain : Str) (metadata : List (Str × Str))
  | badRequest (violations : List Violation)
  | other
  deriving DecidableEq

structure Status where
  code : Option Code
  message : Str
  details : List Detail

/-- `to_status` -/
def toStatus (e : Errs.Error) : Status :=
  let p := e.problem []
  { code := some (if p.reason = str "INTERNAL" then .internal else e.code),
    message := p.detail,
    details := .errorInfo p.reason p.domain p.metadata ::
      (if p.violations = [] then [] else [.badRequest p.violations]) }

/-! ## Reading back -/

/-- The catalogue's entry of a reason, in the platform's domain only. -/
def catalogued (domain reason : Str) : Option Entry :=
  if domain = platformDomain then platform.find? fun e => e.reason = reason else none

/-- The reason, domain and metadata of the last ErrorInfo of a status. -/
def Status.errorInfo (st : Status) : Option (Str × Str × List (Str × Str)) :=
  (st.details.filterMap fun
    | .errorInfo reason domain metadata => some (reason, domain, metadata)
    | _ => none).getLast?

/-- The violations of all its BadRequests. -/
def Status.violations (st : Status) : List Violation :=
  st.details.flatMap fun
    | .badRequest vs => vs
    | _ => []

/-- `from_grpc`: the error, none without an ErrorInfo, and the code. An ErrorInfo under
the code OK is a `ValueError`. -/
def fromGrpc (code : Option Code) (message : Str) (trailing : Option Status) :
    Except Exc (Option Errs.Error × Option Code) :=
  match trailing with
  | none => .ok (none, code)
  | some st =>
      match st.errorInfo, code with
      | none, _ => .ok (none, code)
      | some _, none => .error .valueError
      | some (reason, domain, metadata), some c =>
          let entry := catalogued domain reason
          .ok (some { reason, domain, code := c,
                      http := (entry.map Entry.status).getD (httpStatus c),
                      title := (entry.map Entry.title).getD [],
                      detail := if st.message ≠ [] then st.message else message,
                      metadata, violations := st.violations }, code)

/-- The codes an HTTP status is looked up in. -/
def statusCodes : List Code :=
  [.invalidArgument, .unauthenticated, .permissionDenied, .notFound, .aborted, .resourceExhausted]

/-- `code_of_status`: the code of an HTTP status without a protocol body. -/
def codeOfStatus (status : Nat) : Option Code :=
  if status < 400 then none
  else if status = 502 ∨ status = 503 then some .unavailable
  else if status = 504 then some .deadlineExceeded
  else if status = 499 then some .cancelled
  else if 500 ≤ status then some .internal
  else some ((statusCodes.find? fun c => httpStatus c = status).getD .failedPrecondition)

/-- `p.get(key, "")` of a text member. -/
def textOf (key : Str) (ms : List (Str × Json)) : Str :=
  match lookup key ms with
  | some (.str s) => s
  | _ => []

def metadataOf (ms : List (Str × Json)) : List (Str × Str) :=
  match lookup (str "metadata") ms with
  | some (.obj ns) => ns.filterMap fun
      | (k, .str v) => some (k, v)
      | _ => none
  | _ => []

def violationsOf (ms : List (Str × Json)) : List Violation :=
  match lookup (str "violations") ms with
  | some (.list vs) => vs.filterMap fun
      | .obj ns =>
          some ⟨textOf (str "field") ns, textOf (str "reason") ns, textOf (str "description") ns⟩
      | _ => none
  | _ => []

/-- The media type of a content type, its parameters left out. -/
def mediaType (contentType : Str) : Str := Str.strip (contentType.takeWhile fun c => c ≠ chr ';')

/-- `from_http`: the error, none unless the body is problem+json with a reason and a
domain, and the code. A status without an error code, under an error the catalogue does
not have, is a `ValueError`. -/
def fromHttp [Interp] (r : Response) : Except Exc (Option Errs.Error × Option Code) :=
  if mediaType r.contentType ≠ problemContentType then .ok (none, codeOfStatus r.status)
  else
    match loads r.body with
    -- the source catches a ValueError only
    | .error .recursionError => .error .recursionError
    | .ok (.obj ms) =>
        let reason := textOf (str "reason") ms
        let domain := textOf (str "domain") ms
        if reason = [] ∨ domain = [] then .ok (none, codeOfStatus r.status)
        else
          match (catalogued domain reason).map Entry.code |>.or (codeOfStatus r.status) with
          | none => .error .valueError
          | some c =>
              .ok (some { reason, domain, code := c,
                          http := r.status, title := textOf (str "title") ms,
                          detail := textOf (str "detail") ms, metadata := metadataOf ms,
                          violations := violationsOf ms }, some c)
    | _ => .ok (none, codeOfStatus r.status)

end Errwire

end BeSdk
