/-
BeSdk.MergeSafety — the lint that finds what breaks when a module shares a process:
`_Scan`, its rules, and `scan_source` from the parsed module on.

The visitor walks a tree once, in the order of its fields, and fills the table of what
names stand for on the way: each local name with the dotted text of its origin. A function
here takes the scan's state and returns it with what it has added. Parsing the source is
Python's, and reading the files and the allowances of the SDK's own are left out.
-/
import BeSdk.Lib.Dict
import BeSdk.Py.Ast

namespace BeSdk.MergeSafety

open Py

/-! ## Rules -/

def envText : Str :=
  str "reads or changes the process environment, shared by every member of a shell"
def exitText : Str := str "exits the whole shell; raise instead"
def listenText : Str := str "a module never serves or listens; the launcher or the shell does"
def poolText : Str := str "connects outside the SDK; use the runtime"
def callText : Str :=
    str "calls outside the SDK (no deadline, retry budget or breaker); use the runtime's clients"
def globalLogText : Str :=
  str "touches the process-wide logging configuration; use the runtime's logger"
def promText : Str :=
  str "registers on the process-wide default registry; the second member crashes"

/-- A module's attribute with the reason why it is forbidden. -/
def rule (module attr : String) (why : Str) : (Str × Str) × Str := ((str module, str attr), why)

/-- `RULES`; `*` matches every attribute of the module. -/
def rules : List ((Str × Str) × Str) := [
  rule "os" "environ" envText, rule "os" "getenv" envText, rule "os" "putenv" envText,
  rule "os" "unsetenv" envText, rule "os" "environb" envText, rule "os" "_exit" exitText,
  rule "sys" "exit" exitText, rule "builtins" "exit" exitText,
  rule "builtins" "quit" exitText,
  rule "logging" "basicConfig" globalLogText, rule "logging" "getLogger" globalLogText,
  rule "logging" "root" globalLogText, rule "logging" "disable" globalLogText,
  rule "logging" "setLoggerClass" globalLogText,
  rule "logging" "captureWarnings" globalLogText, rule "logging.config" "*" globalLogText,
  rule "prometheus_client" "REGISTRY" promText,
  rule "prometheus_client" "start_http_server" listenText,
  rule "opentelemetry.trace" "set_tracer_provider"
  (str "sets the process-wide tracer provider; use the runtime's tracer"),
  rule "opentelemetry.propagate" "set_global_textmap" (str "sets the process-wide propagator"),
  rule "opentelemetry.metrics" "set_meter_provider" (str "sets the process-wide meter provider"),
  rule "signal" "signal" (str "signal handling belongs to the launcher"),
  rule "signal" "set_wakeup_fd" (str "signal handling belongs to the launcher"),
  rule "asyncio" "run" (str "the launcher runs the event loop"),
  rule "asyncio" "set_event_loop_policy" (str "process-wide"),
  rule "fastapi" "FastAPI" (str "builds an application outside the SDK's middleware chain"),
  rule "starlette.applications" "Starlette"
  (str "builds an application outside the SDK's middleware chain"),
  rule "uvicorn" "*" listenText, rule "socket" "create_server" listenText,
  rule "grpc" "server" listenText, rule "grpc.aio" "server" listenText,
  rule "asyncpg" "connect" poolText, rule "asyncpg" "create_pool" poolText,
  rule "psycopg" "connect" poolText, rule "nats" "connect"
  (str "opens a bus connection outside the SDK; use the runtime's bus"),
  rule "aioboto3" "Session" (str "opens object storage outside the SDK"),
  rule "grpc" "insecure_channel" callText, rule "grpc" "secure_channel" callText,
  rule "grpc.aio" "insecure_channel" callText, rule "grpc.aio" "secure_channel" callText,
  rule "requests" "*" callText] ++ (["AsyncClient", "Client", "get", "post", "put", "patch",
    "delete", "head", "options", "request", "stream"].map fun n =>
    rule "httpx" n callText) ++
  [rule "urllib.request" "urlopen" callText, rule "aiohttp" "ClientSession" callText,
    rule "aiohttp" "request" callText]

/-- `_METRICS`: fine with an explicit registry and a violation without one. -/
def metrics : List Str := [str "Counter", str "Gauge", str "Histogram", str "Summary",
    str "Info", str "Enum"]

/-! ## Dotted texts -/

/-- `s.rpartition(".")` without the dot. -/
def rpartition (s : Str) : Str × Str :=
  let ps := s.splitOn (chr '.')
  (Str.join (str ".") ps.dropLast, ps.getLast?.getD [])

/-- Why a dotted name is forbidden, as `_check` reads the rules. -/
def why (dotted : Str) : Option Str :=
  let (module, attr) := rpartition dotted
  match (lookup (module, attr) rules).or (lookup (module, str "*") rules) with
  | some w => some w
  | none =>
      -- e.g. uvicorn.config.Config under ("uvicorn", "*")
      if chr '.' ∈ module then lookup ((module.splitOn (chr '.')).headD [], str "*") rules else none

/-! ## The scan -/

structure Finding where
  path : Str
  line : Nat
  name : Str
  why : Str
  deriving DecidableEq

/-- The state of `_Scan`: what local names stand for, and what is found. -/
structure Scan where
  aliases : Dict Str Str := Dict.empty
  findings : List Finding := []

def Scan.bind (s : Scan) (name origin : Str) : Scan :=
  { s with aliases := s.aliases.set name origin }

/-- `_check` -/
def Scan.check (path : Str) (s : Scan) (dotted : Str) (line : Nat) : Bool × Scan :=
  match why dotted with
  | some w => (true, { s with findings := s.findings ++ [⟨path, line, dotted, w⟩] })
  | none => (false, s)

/-- `visit_Import` on one of the names. -/
def Scan.import_ (s : Scan) (a : Alias) : Scan :=
  match a.asname with
  | some asname => s.bind asname.val a.name.text
  | none => s.bind a.name.head.val a.name.head.val

/-- `visit_ImportFrom` on one of the names. -/
def Scan.importFrom (path : Str) (line : Nat) (module : Option Dotted) (s : Scan)
    (a : FromAlias) : Scan :=
  let origin := match module with
    | some m => m.text ++ str "." ++ a.name.val
    | none => a.name.val
  ((s.bind a.bound.val origin).check path origin line).2

/-- `_dotted` -/
def dottedName (aliases : Dict Str Str) : Node → Option Str
  | .name _ id _ =>
      match aliases.get? id.val with
      | some origin => some origin
      | none =>
          if id.val = str "exit" ∨ id.val = str "quit" then some (str "builtins." ++ id.val)
            else none
  | .attribute _ value attr =>
      match dottedName aliases value with
      | some base => if base = [] then none else some (base ++ str "." ++ attr.val)
      | none => none
  | _ => none

/-- `visit_Call` before it visits the fields. -/
def Scan.constructor (path : Str) (s : Scan) (line : Nat) (func : Node)
    (keywords : List Node) : Scan :=
  match dottedName s.aliases func with
  | some dotted =>
      if (rpartition dotted).1 = str "prometheus_client" ∧ (rpartition dotted).2 ∈ metrics ∧
          ¬ (keywords.any fun k => k.arg.any fun a => a.val = str "registry") then
        { s with findings := s.findings ++
          [⟨path, line, dotted, promText ++ str "; pass registry=rt.metrics"⟩] }
      else s
  | none => s

mutual

/-- `visit` -/
def visit (path : Str) (s : Scan) : Node → Scan
  | .name line id load =>
      if (id.val = str "exit" ∨ id.val = str "quit") ∧ s.aliases.get? id.val = none ∧ load then
        (s.check path (str "builtins." ++ id.val) line).2
      else s
  | .attribute line value attr =>
      match dottedName s.aliases (.attribute line value attr) with
      | some dotted =>
          match s.check path dotted line with
          | (true, s) => s
          | (false, s) => visit path s value
      | none => visit path s value
  | .call line func args keywords =>
      visitAll path (visitAll path (visit path (s.constructor path line func keywords) func)
        args) keywords
  | .keyword _ value => visit path s value
  | .import_ names => names.foldl Scan.import_ s
  | .importFrom line module names _ => names.foldl (Scan.importFrom path line module) s
  | .global _ => s
  | .nonlocal _ => s
  | .binder _ => s
  | .namedExpr _ value => visit path s value
  | .block _ _ fields => visitAll path s fields
  | .outside fields => visitAll path s fields
  | .other fields => visitAll path s fields

def visitAll (path : Str) (s : Scan) : List Node → Scan
  | [] => s
  | n :: rest => visitAll path (visit path s n) rest

end

/-- The order of `(f.path, f.line, f.name)`. -/
def Finding.le (f g : Finding) : Prop :=
  f.path < g.path ∨ f.path = g.path ∧ (f.line < g.line ∨ f.line = g.line ∧ f.name ≤ g.name)

instance : DecidableRel Finding.le := fun f g =>
  inferInstanceAs (Decidable (f.path < g.path ∨ f.path = g.path ∧
    (f.line < g.line ∨ f.line = g.line ∧ f.name ≤ g.name)))

/-- `scan_source`, of a parsed module. -/
def scanSource (path : Str) (body : List Node) : List Finding :=
  sortedSet Finding.le (visitAll path {} body).findings

/-- The module `from os import environ` finds its import. -/
example : (scanSource (str "m.py") [.importFrom 1 (some ⟨⟨str "os", by decide⟩, []⟩)
    [⟨⟨str "environ", by decide⟩, none⟩] 0]).map (fun f => (f.line, f.name)) =
    [(1, str "os.environ")] := by decide +kernel

end BeSdk.MergeSafety
