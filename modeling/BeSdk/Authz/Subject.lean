/-
BeSdk.Authz.Subject — who asks, the member's declarations and its view, the list plan
of an operation for that subject, and what of an output object it is shown.

A lookup reads the member's clocks; `Clock` is what they show. Moving the request's
cutoff and noting a stale basis are left out: the plan does not depend on them.
-/
import BeSdk.Authz.Plan
import BeSdk.Authz.View

namespace BeSdk

/-- What the clocks show: at the lookup, and where it falls back on a stale view. -/
structure Clock where
  now : Seconds
  nowStale : Seconds
  wall : Seconds

structure Subject where
  principal : Str
  defs : Index
  holder : Holder
  at_ : Instant

/-- `errs.from_exception` of a `ValueError`. -/
def undeclared : Errs.Error := Errs.new (str "INTERNAL") internalDetail

/-- The risk class a lookup is made for: the operation's, or the view operation's high one. -/
def Index.risk (defs : Index) (o : Operation) (r : Resource) : Str :=
  match defs.operation r.viewOperation with
  | some v => if v.riskClass = str "high" then str "high" else o.riskClass
  | none => o.riskClass

/-- `_grant` -/
def Subject.grant (s : Subject) (clock : Clock) (op : Str) :
    Except Exc (Operation × Resource × Grant) :=
  match s.defs.operation op with
  | none => .error (.error undeclared)
  | some o =>
      match s.defs.resource o.resourceType with
      | none => .error .attributeError
      | some r => do
          let g ← s.holder.lookupFor clock.now clock.nowStale clock.wall r.type s.principal
            (s.defs.risk o r) o.tighteningOnly
          return (o, r, g)

/-- The list plan of an operation for this subject. -/
def Subject.list [Interp] (s : Subject) (clock : Clock) (op alias_ : Str) (argBase : Nat) :
    Except Exc Plan := do
  let (o, r, g) ← s.grant clock op
  compilePlan r g.segments o.key s.principal s.at_ alias_ argBase

/-! ## Shaping an output -/

/-- `MASKED` -/
def masked : Str := str "_masked"

/-- The loop of `mask`: the keys of the output in turn, with what is shaped so far and
the names that are masked. -/
def maskGo (r : Resource) (readable : List Str) :
    List (Str × Json) → Dict Str Json → List Str → Dict Str Json × List Str
  | [], shaped, names => (shaped, names)
  | (k, v) :: rest, shaped, names =>
      if r.outputs k = false then maskGo r readable rest shaped names
      else if k ∈ readable then maskGo r readable rest (shaped.set k v) names
      else maskGo r readable rest (shaped.set k .null) (names ++ [k])

/-- `mask`: shapes an output object for the caller. -/
def mask (r : Resource) (out : Dict Str Json) (readable : List Str) : Dict Str Json :=
  let (shaped, names) := maskGo r readable out.entries Dict.empty []
  if names.isEmpty then shaped
  else shaped.set masked (.list ((names.insertionSort (· ≤ ·)).map .str))

end BeSdk
