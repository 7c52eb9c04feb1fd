/-
BeSdk.Errs — the one error object: a reason with its domain, gRPC code and HTTP
status, and the catalogue of platform reasons.

`Errs.Error` is what a handler raises. `Errs.new` builds a platform error from
the catalogue; a reason outside it is a programming error and comes out as
INTERNAL, which is why the catalogue is part of the model and not left to the
callers. `retry_after` and `cause` are left out: nothing here sets or reads them.
-/
import BeSdk.Py.Text
import BeSdk.Lib.Dict

namespace BeSdk

/-- The gRPC status codes the protocol uses. -/
inductive Code where
  | invalidArgument
  | failedPrecondition
  | outOfRange
  | unauthenticated
  | permissionDenied
  | notFound
  | alreadyExists
  | aborted
  | resourceExhausted
  | cancelled
  | internal
  | unknown
  | dataLoss
  | unimplemented
  | unavailable
  | deadlineExceeded
  deriving DecidableEq, Repr

/-- The HTTP status of a gRPC code. -/
def httpStatus : Code → Nat
  | .invalidArgument => 400
  | .failedPrecondition => 400
  | .outOfRange => 400
  | .unauthenticated => 401
  | .permissionDenied => 403
  | .notFound => 404
  | .alreadyExists => 409
  | .aborted => 409
  | .resourceExhausted => 429
  | .cancelled => 499
  | .internal => 500
  | .unknown => 500
  | .dataLoss => 500
  | .unimplemented => 501
  | .unavailable => 503
  | .deadlineExceeded => 504

/-- Retryability of a reason, as the catalogue states it. -/
inductive Retry where
  | no
  | yes
  | afterRefresh
  | queryFirst
  | none
  deriving DecidableEq, Repr

/-- An entry of the catalogue; `http` zero is "by the code". -/
structure Entry where
  reason : Str
  code : Code
  http : Nat
  retry : Retry
  title : Str
  deriving DecidableEq

def Entry.status (e : Entry) : Nat := if e.http ≠ 0 then e.http else httpStatus e.code

/-- The platform's reasons. -/
def platform : List Entry := [
  ⟨str "REQUEST_INVALID", .invalidArgument, 0, .no, str "The request is not valid"⟩,
  ⟨str "BODY_TOO_LARGE", .invalidArgument, 413, .no, str "The request body is too large"⟩,
  ⟨str "CURSOR_INVALID", .invalidArgument, 0, .no, str "The cursor does not match the request"⟩,
  ⟨str "BATCH_TOO_LARGE", .invalidArgument, 0, .no, str "Too many identities in one batch"⟩,
  ⟨str "TOKEN_INVALID", .unauthenticated, 0, .no, str "The credentials are not valid"⟩,
  ⟨str "TOKEN_STALE", .unauthenticated, 0, .afterRefresh, str "The credentials are out of date"⟩,
  ⟨str "SESSION_ENDED", .unauthenticated, 0, .no, str "The session has ended; log in again"⟩,
  ⟨str "SERVICE_CREDENTIAL_INVALID", .unauthenticated, 0, .no,
    str "The calling service is not authenticated"⟩,
  ⟨str "PERMISSION_DENIED", .permissionDenied, 0, .no, str "Not allowed"⟩,
  ⟨str "CONTAINMENT_NOT_PROVEN", .permissionDenied, 0, .no,
    str "The change exceeds what can be proven"⟩,
  ⟨str "CSRF_HEADER_REQUIRED", .permissionDenied, 0, .no,
    str "The request needs the BE-Request header"⟩,
  ⟨str "NOT_FOUND", .notFound, 0, .no, str "Not found"⟩,
  ⟨str "QUERY_NOT_COMPLETABLE", .failedPrecondition, 422, .no, str "The query cannot be completed"⟩,
  ⟨str "FIELD_NOT_QUERYABLE", .failedPrecondition, 422, .no,
    str "A field cannot be used in this query"⟩,
  ⟨str "QUERY_PLAN_CHANGED", .aborted, 0, .no, str "The query changed; run it again"⟩,
  ⟨str "CHANGE_KEY_CONFLICT", .alreadyExists, 0, .no,
    str "The change key was used for different content"⟩,
  ⟨str "CHANGE_REVISION_STALE", .aborted, 0, .no, str "The target changed; preview again"⟩,
  ⟨str "LAST_ADMIN_PROTECTED", .failedPrecondition, 409, .no,
    str "The last administrator is protected"⟩,
  ⟨str "IDEMPOTENCY_KEY_REUSED", .invalidArgument, 422, .no,
    str "The idempotency key was used for another request"⟩,
  ⟨str "IDEMPOTENCY_IN_PROGRESS", .aborted, 0, .yes,
    str "The first use of this idempotency key has not finished"⟩,
  ⟨str "LOCK_TIMEOUT", .aborted, 0, .yes, str "Waiting for a lock took too long"⟩,
  ⟨str "TX_CONFLICT", .aborted, 0, .yes, str "A concurrent change conflicted"⟩,
  ⟨str "STATEMENT_TIMEOUT", .deadlineExceeded, 0, .yes, str "The database took too long"⟩,
  ⟨str "SERVICE_BUSY", .unavailable, 0, .yes, str "The service is busy"⟩,
  ⟨str "OUTBOUND_LIMIT", .resourceExhausted, 503, .yes,
    str "Too many calls to a dependency are in progress"⟩,
  ⟨str "CIRCUIT_OPEN", .unavailable, 0, .yes,
    str "A dependency is failing; calls to it are paused"⟩,
  ⟨str "DEPENDENCY_UNAVAILABLE", .unavailable, 0, .yes, str "A dependency is unavailable"⟩,
  ⟨str "DEADLINE_BUDGET_EXHAUSTED", .deadlineExceeded, 0, .no,
    str "Not enough time was left to make a call"⟩,
  ⟨str "DEADLINE_EXCEEDED", .deadlineExceeded, 0, .queryFirst, str "The request ran out of time"⟩,
  ⟨str "REQUEST_CANCELLED", .cancelled, 0, .none, str "The request was cancelled"⟩,
  ⟨str "NOT_READY", .unavailable, 0, .yes, str "The service is not ready"⟩,
  ⟨str "AUTHORIZATION_UNPROVABLE", .unavailable, 0, .yes,
    str "Authorization cannot be proven right now"⟩,
  ⟨str "AUTHORIZATION_VIEW_EXPIRED", .unavailable, 0, .yes,
    str "The authorization view has expired"⟩,
  ⟨str "RECOVERY_IN_PROGRESS", .unavailable, 0, .yes, str "The deployment is being recovered"⟩,
  ⟨str "MEMBER_SWITCH_IN_PROGRESS", .unavailable, 0, .yes, str "A provider switch is in progress"⟩,
  ⟨str "DEFINITION_PENDING", .unavailable, 0, .yes,
    str "A definition the change needs has not been accepted yet"⟩,
  ⟨str "CAPABILITY_UNSUPPORTED", .unimplemented, 0, .no, str "This capability is not supported"⟩,
  ⟨str "RESULT_UNKNOWN", .deadlineExceeded, 0, .queryFirst,
    str "The result is not known yet; query it"⟩,
  ⟨str "AUDIT_CAPACITY_EXHAUSTED", .unavailable, 0, .yes,
    str "Audited operations are paused until the audit backlog drains"⟩,
  ⟨str "INTERNAL", .internal, 0, .no, str "Internal error"⟩]

def platformDomain : Str := str "be"

def internalDetail : Str := str "an internal error occurred; quote the trace id when reporting it"

/-- One field error of REQUEST_INVALID. -/
structure Violation where
  field : Str
  reason : Str
  description : Str
  deriving DecidableEq

namespace Errs

/-- The error object. -/
structure Error where
  reason : Str
  domain : Str
  code : Code
  http : Nat
  title : Str
  detail : Str
  metadata : List (Str × Str) := []
  violations : List Violation := []
  deriving DecidableEq

/-- An error of the catalogue's entry, in a domain. -/
def ofEntry (domain : Str) (e : Entry) (detail : Str) : Error :=
  { reason := e.reason, domain, code := e.code, http := e.status, title := e.title, detail }

/-- A platform error. -/
def new (reason detail : Str) : Error :=
  match platform.find? fun e => e.reason = reason with
  | some e => ofEntry platformDomain e detail
  | none =>
      { reason := str "INTERNAL", domain := platformDomain, code := .internal,
        http := httpStatus .internal, title := str "Internal error", detail := internalDetail }

/-- `e.with_(key, value)`: a copy with one metadata entry set. -/
def Error.with_ (e : Error) (key value : Str) : Error :=
  { e with metadata := assign key value e.metadata }

/-- A copy with violations added. -/
def Error.withViolations (e : Error) (v : List Violation) : Error :=
  { e with violations := e.violations ++ v }

def Error.is_ (e : Error) (domain reason : Str) : Bool := e.domain = domain ∧ e.reason = reason

/-- The reasons of the catalogue differ. -/
theorem platform_nodup : (platform.map Entry.reason).Nodup := by simp [platform, str_inj]

/-- An entry of the catalogue is found by its reason. -/
theorem find_platform {entry : Entry} (h : entry ∈ platform) :
    platform.find? (fun e => e.reason = entry.reason) = some entry := by
  cases hfind : platform.find? fun e => e.reason = entry.reason with
  | some e =>
      have hreason : e.reason = entry.reason := by simpa using List.find?_some hfind
      rw [List.inj_on_of_nodup_map platform_nodup (List.mem_of_find?_eq_some hfind) h hreason]
  | none => exact absurd (decide_eq_true rfl) (List.find?_eq_none.mp hfind entry h)

theorem new_of_mem {entry : Entry} (h : entry ∈ platform) (detail : Str) :
    new entry.reason detail = ofEntry platformDomain entry detail := by
  rw [new, find_platform h]

/-- An error of the catalogue has the reason it is made with. -/
theorem new_reason {reason : Str} (h : reason ∈ platform.map Entry.reason) (detail : Str) :
    (new reason detail).reason = reason := by
  obtain ⟨entry, hentry, rfl⟩ := List.mem_map.mp h
  rw [new_of_mem hentry]
  rfl

@[simp] theorem with_reason (e : Error) (k v : Str) : (e.with_ k v).reason = e.reason := rfl
@[simp] theorem with_domain (e : Error) (k v : Str) : (e.with_ k v).domain = e.domain := rfl

end Errs

end BeSdk
