/-
BeSdk.Shell — which members a shell agrees to host (`Served.parse`, `check`, `sdk_unmet`,
`process_keys_agree` and `targets_agree`), and the pools it opens for them (`_open_pools`).

What BrickKit asks for arrives as JSON of any shape. A `Served` keeps what the indexing and
the conversions let through: a component id and a version may be anything. `Packaging` is
the part of `packaging` that is called, over its own type of versions; a distribution's
metadata is given. The texts of refusals are the source's, but for what an exception says
of itself (`Objects.message`).
-/
import BeSdk.Host
import BeSdk.Events.Envelope

namespace BeSdk.Shell

open Config Host

structure Requirement (V : Type) where
  name : Str
  /-- `marker.evaluate({"extra": ""})`, where there is a marker -/
  marker : Option (Except Exc Bool) := none
  operators : List Str
  /-- `specifier.contains(v, prereleases=True)` -/
  contains : V → Bool

structure Packaging (V : Type) where
  /-- `Version(s)`; nothing is `InvalidVersion` -/
  version : Str → Option V
  /-- `a == b` -/
  same : V → V → Bool
  /-- `Requirement(line)`; nothing is `InvalidRequirement` -/
  requirement : Str → Option (Requirement V)
  canonicalizeName : Str → Str

/-- The distribution that provides a member's code. -/
structure Installed where
  name : Str
  version : Str
  directUrl : Option (List (Str × Json)) := none
  requires : List Str := []

/-- What `installed_of` gives: a distribution if there is one, and the package's name. -/
abbrev Lookup := Definition → Option Installed × Str

/-! ## `Served.parse` -/

structure Served where
  componentId : Json
  version : Json
  httpPort : Int
  extraPorts : List (Json × Int)
  config : Dict Str Json

/-- `d.get(k)` of members, what is false replaced by nothing. -/
def getTruthy (o : Objects) (k : Str) (ms : List (Str × Json)) : Option Json :=
  (lookup k ms).filter o.truthy

/-- `iter(v)` -/
def elements : Json → Except Exc (List Json)
  | .list xs => .ok xs
  | .str s => .ok (s.map fun c => .str [c])
  | .obj ms => .ok (ms.map fun m => .str m.1)
  | _ => .error .typeError

/-- Raises what an unhashable key does. -/
def hashable : Json → Except Exc Unit
  | .list _ => .error .typeError
  | .obj _ => .error .typeError
  | _ => .ok ()

section
variable [Interp]

/-- `m.get("httpPort")` as a number. -/
def httpPortOf (o : Objects) (ms : List (Str × Json)) : Except Exc Int :=
  Events.intOf o.intOfFloat ((getTruthy o (str "httpPort") ms).getD (.int 0))

/-- An element of `extraPorts`. -/
def extraPort (o : Objects) (p : Json) : Except Exc (Json × Int) := do
  let name ← Events.Json.item p (str "name")
  let port ← Events.intOf o.intOfFloat (← Events.Json.item p (str "port"))
  hashable name
  return (name, port)

/-- The extra ports as they are listed. -/
def extraPortsOf (o : Objects) (ms : List (Str × Json)) : Except Exc (List (Json × Int)) := do
  let ps ← elements ((getTruthy o (str "extraPorts") ms).getD (.list []))
  ps.mapM (extraPort o)

end

/-- `ports[name] = port` -/
def setPort (o : Objects) (name : Json) (port : Int) : List (Json × Int) → List (Json × Int)
  | [] => [(name, port)]
  | p :: ps => if o.sameKey p.1 name then (p.1, port) :: ps else p :: setPort o name port ps

/-- A dictionary of ports: of two with one name the last. -/
def byName (o : Objects) (ps : List (Json × Int)) : List (Json × Int) :=
  ps.foldl (fun d p => setPort o p.1 p.2 d) []

/-- A pair of what `dict` is built from. -/
def pairOf (v : Json) : Except Exc (Json × Json) := do
  match ← elements v with
  | [a, b] =>
      hashable a
      return (a, b)
  | _ => .error .valueError

/-- `dict(v)`; only a name that is text is ever looked up. -/
def dictOf (v : Json) : Except Exc (Dict Str Json) :=
  match v with
  | .obj ms => .ok (Dict.ofPairs ms)
  | v => do
      let pairs ← (← elements v).mapM pairOf
      return Dict.ofPairs (pairs.filterMap fun p => match p.1 with
        | .str k => some (k, p.2)
        | _ => none)

section
variable [Interp]

/-- A member of the list. -/
def Served.of (o : Objects) (m : Json) : Except Exc Served := do
  let componentId ← Events.Json.item m (str "componentId")
  match m with
  | .obj ms =>
      let httpPort ← httpPortOf o ms
      let ports ← extraPortsOf o ms
      let config ← dictOf ((getTruthy o (str "config") ms).getD (.obj []))
      return { componentId, version := (lookup (str "version") ms).getD (.str []), httpPort,
               extraPorts := byName o ports, config }
  | _ => .error .typeError

def Served.parse (o : Objects) (raw : Str) : Except Exc (List Served) :=
  match loadsText raw with
  | .error .valueError => .error .valueError
  | .error .recursionError => .error .recursionError
  | .ok v => do (← elements v).mapM (Served.of o)

end

structure Planned where
  definition : Definition
  served : Served
  values : Values

def refusal (member key kind detail : Str) : Config.Problem :=
  { key := member ++ str ":" ++ key, kind, expected := detail }

/-! ## The distribution -/

variable {V : Type}

/-- `a` is a distribution's version; what is no text and meets a valid one raises. -/
def sameVersion (p : Packaging V) (a : Str) (b : Json) : Except Exc Bool :=
  match p.version a, b with
  | none, .str b => .ok (a = b)
  | none, _ => .ok false
  | some v, .str b =>
      match p.version b with
      | some w => .ok (p.same v w)
      | none => .ok (a = b)
  | some _, _ => .error .typeError

def sdkName (p : Packaging V) : Str := p.canonicalizeName (str "be-sdk")

/-- Whether a requirement is on the SDK and applies here. -/
def Requirement.onSdk (p : Packaging V) (req : Requirement V) : Except Exc Bool :=
  if p.canonicalizeName req.name ≠ sdkName p then .ok false else req.marker.getD (.ok true)

def Requirement.hasMinimum (req : Requirement V) : Bool :=
  req.operators.any fun op => op = str ">=" || op = str "==" || op = str "~="

def minimumSdk (inst : Installed) (declares : Str) : Str :=
  str "a minimum SDK in the metadata of " ++ inst.name ++
    str " (be-sdk>=<version>); it declares " ++ declares

/-- The lines that are left. -/
def sdkUnmetIn (p : Packaging V) (inst : Installed) (sdk : Str) : List Str → Except Exc (Option Str)
  | [] => .ok (some (minimumSdk inst (str "none")))
  | line :: lines =>
      match p.requirement line with
      | none => sdkUnmetIn p inst sdk lines
      | some req => do
          if !(← req.onSdk p) then sdkUnmetIn p inst sdk lines
          else if !req.hasMinimum then .ok (some (minimumSdk inst line))
          else
            match p.version sdk with
            | none => .error .valueError
            | some v =>
                if req.contains v then .ok none
                else .ok (some (line ++ str " as " ++ inst.name ++
                  str " declares; the SDK in this shell is be-sdk " ++ sdk))

def sdkUnmet (p : Packaging V) (inst : Installed) (sdk : Str) : Except Exc (Option Str) :=
  sdkUnmetIn p inst sdk inst.requires

/-- `(inst.direct_url or {}).get("url", "")` -/
def Installed.url (inst : Installed) : Json :=
  (lookup (str "url") (inst.directUrl.getD [])).getD (.str [])

/-! ## `check` -/

/-- The parameters of a call of `check`. -/
structure Host (V : Type) where
  objects : Objects
  packaging : Packaging V
  defs : List Definition
  lookup : Lookup
  allowReplace : Bool
  sdk : Str

/-- `by_id.get(mid)`: of definitions with one id the last. -/
def Host.definition? (h : Host V) (mid : Str) : Option Definition :=
  h.defs.reverse.find? (·.id = mid)

/-- The refusals of a member's ports, and the ports seen after it. -/
def portRefusals (mid : Str) : List (Str × Int) → List (Int × Str) → List Config.Problem ×
    List (Int × Str)
  | [], seen => ([], seen)
  | (name, port) :: ports, seen =>
      let rest := portRefusals mid ports ((port, mid) :: seen)
      if port ≤ 0 ∨ port ∈ seen.map Prod.fst then
        (refusal mid name (str "invalid") (str "a free port (" ++ intText port ++
          str " is taken by " ++ (BeSdk.lookup port seen).getD [] ++ str ")") :: rest.1, rest.2)
      else rest

/-- The ports of a member, as they are named in refusals. -/
def Served.ports (o : Objects) (s : Served) : List (Str × Int) :=
  (str "httpPort", s.httpPort) :: s.extraPorts.map fun p =>
    (str "extraPorts." ++ o.textOf (.raw p.1), p.2)

/-- The refusals and the warnings of a distribution. -/
def checkInstalled (h : Host V) (mid : Str) (s : Served) (inst : Installed) :
    Except Exc (List Config.Problem × List Str) := do
  let same ← sameVersion h.packaging inst.version s.version
  let version := if same then [] else
    [refusal mid (str "distribution") (str "invalid")
      (str "distribution " ++ inst.name ++ str " at " ++ h.objects.textOf (.raw s.version) ++
        str ", but the environment has " ++ inst.version)]
  let unmet ← sdkUnmet h.packaging inst h.sdk
  let sdk := (unmet.map fun u => refusal mid (str "be-sdk") (str "invalid") u).toList
  match inst.url with
  | .str url =>
      let msg := str "distribution " ++ inst.name ++ str " is installed from " ++ url
      if !Str.startsWith url (str "file:") then return (version ++ sdk, [])
      else if h.allowReplace then
        return (version ++ sdk, [mid ++ str ": " ++ msg ++
          str " (allowed by SHELL_ALLOW_REPLACE; never in a release build)"])
      else
        return (version ++ sdk ++ [refusal mid (str "distribution") (str "invalid")
          (str "no local install in a release build; " ++ msg)], [])
  | _ => .error .attributeError

/-- `MapSource(s.config)` -/
def Served.source (s : Served) : Source := { lookup := s.config.get? }

/-- `d.version != s.version` -/
def versionRefusals (h : Host V) (mid : Str) (s : Served) (d : Definition) : List Config.Problem :=
  let differs := [refusal mid (str "version") (str "invalid")
    (h.objects.textOf (.raw s.version) ++ str ", the version installed is " ++ d.version)]
  match s.version with
  | .str v => if d.version = v then [] else differs
  | _ => differs

/-- What the check of a member whose module is there adds. -/
def checkDefinition (h : Host V) (mid : Str) (s : Served) (d : Definition) :
    Except Exc (List Planned × List Config.Problem × List Str) := do
  let version := versionRefusals h mid s d
  let (inst, warnings) ← match h.lookup d with
    | (none, top) => pure ([refusal mid (str "distribution") (str "invalid")
        (str "no installed distribution provides the package " ++ top)], [])
    | (some inst, _) => checkInstalled h mid s inst
  match ← parse h.objects (keys d) s.source with
  | .ok values => return ([{ definition := d, served := s, values }], version ++ inst, warnings)
  | .error problems =>
      return ([], version ++ inst ++ problems.map fun p => refusal mid p.key p.kind
        p.expected, warnings)

/-- What the loop over the members keeps. -/
structure Seen where
  seenIds : List Str := []
  seenPorts : List (Int × Str) := []
  out : List Planned := []
  refusals : List Config.Problem := []
  warnings : List Str := []

/-- One member. An id that is no text is unhashable, or the refusal of a module that is not
there fails to join it: the ids seen before it are text. -/
def checkMember (h : Host V) (seen : Seen) (s : Served) : Except Exc Seen :=
  match s.componentId with
  | .str mid =>
      if mid ∈ seen.seenIds then
        .ok { seen with refusals := seen.refusals ++
          [refusal mid (str "componentId") (str "invalid") (str "listed twice")] }
      else
        let (ports, seenPorts) := portRefusals mid (s.ports h.objects) seen.seenPorts
        let seen := { seen with seenIds := mid :: seen.seenIds, seenPorts,
                                refusals := seen.refusals ++ ports }
        match h.definition? mid with
        | none =>
            .ok { seen with
              refusals := seen.refusals ++ [refusal mid (str "componentId") (str "invalid")
                (str "a member installed in this shell; this shell has no module " ++ mid)] }
        | some d => do
            let (out, refusals, warnings) ← checkDefinition h mid s d
            return { seen with out := seen.out ++ out, refusals := seen.refusals ++ refusals,
                               warnings := seen.warnings ++ warnings }
  | _ => .error .typeError

/-! ## Agreement -/

/-- A key that a member sets, with the member's id and its value. -/
structure Setting where
  member : Str
  key : Str
  value : Value

/-- What `is None` and `== ""` leave out. -/
def isSet : Value → Bool
  | .raw .null => false
  | .raw (.str []) => false
  | _ => true

/-- A member's value of a process-level key, compared by value where it is a secret. -/
def processValue (m : Planned) (k : Key) : Except Exc (Option Value) := do
  let value ← if k.secret then (m.values.secret k.name).map fun s => s.map fun s => .raw s.value
    else .ok (m.values.raw k.name)
  return value.filter isSet

/-- The process-level keys that a member sets. -/
def processSettings (m : Planned) : Except Exc (List Setting) := do
  let values ← ((keys m.definition).filter Key.process).mapM fun k => do
    return (← processValue m k).map fun v =>
      { member := m.definition.id, key := k.name, value := v }
  return values.filterMap id

/-- Each setting against the first of its key. -/
def settingsAgree (o : Objects) (first : List Setting) : List Setting → List Config.Problem
  | [] => []
  | s :: rest =>
      match first.find? (·.key = s.key) with
      | none => settingsAgree o (first ++ [s]) rest
      | some f =>
          if o.same f.value s.value then settingsAgree o first rest
          else refusal s.member s.key (str "invalid") (str "the same value as " ++ f.member ++
            str " (a process-level key must agree across the shell)") :: settingsAgree o first rest

def processKeysAgree (o : Objects) (members : List Planned) : Except Exc (List Config.Problem) := do
  let settings ← members.mapM processSettings
  return (settingsAgree o [] settings.flatten).insertionSort (·.key ≤ ·.key)

/-- Each of the members that own a database against the first of its target. -/
def preparedAgree (first : List (Planned × Db.Settings)) :
    List (Planned × Db.Settings) → List Config.Problem
  | [] => []
  | (m, s) :: rest =>
      match first.find? (·.2.target = s.target) with
      | none => preparedAgree (first ++ [(m, s)]) rest
      | some (f, t) =>
          if t.prepared = s.prepared then preparedAgree first rest
          else refusal m.definition.id (str "PG_POOLER_PREPARED") (str "invalid")
            (str "the same value as " ++ f.definition.id ++ str " (members on target " ++
              s.target.text ++ str " share one pool)") :: preparedAgree first rest

def targetsAgree (o : Objects) (members : List Planned) : Except Exc (List Config.Problem) := do
  let settings ← (members.filter (·.definition.migrations)).mapM fun m => do
    return (m, ← Db.settingsFrom o m.values)
  return preparedAgree [] settings

/-- What `check` returns: the plans, the refusals and the warnings. -/
structure Checked where
  plans : List Planned
  refusals : List Config.Problem
  warnings : List Str

variable [Interp]

/-- What a text that is no list of members is refused with. -/
def unreadable (o : Objects) (e : Exc) : Checked where
  plans := []
  refusals := [refusal (str "shell") (str "BRICKKIT_SERVED_MEMBERS_CONFIG") (str "invalid")
    (str "JSON list of members: " ++ o.message e)]
  warnings := []

/-- `except (ValueError, KeyError, TypeError)` -/
def caught : Exc → Bool
  | .valueError => true
  | .keyError => true
  | .typeError => true
  | _ => false

def checkServed (h : Host V) (served : List Served) : Except Exc Checked := do
  let seen ← served.foldlM (checkMember h) {}
  let settings ← processKeysAgree h.objects seen.out
  let targets ← targetsAgree h.objects seen.out
  return { plans := seen.out, refusals := seen.refusals ++ settings ++ targets,
           warnings := seen.warnings }

def check (h : Host V) (raw : Str) : Except Exc Checked :=
  match Served.parse h.objects raw with
  | .ok served => checkServed h served
  | .error e => if caught e then .ok (unreadable h.objects e) else .error e

/-! ## The pools -/

/-- What `Pool.open` asks of a pool for the connections and the statements of its members. -/
structure PoolOptions where
  maxSize : Int
  statementCacheSize : Nat

/-- `Pool.open`, as far as its options go. -/
def Pool.open_ (maxConns : Int) (prepared : Bool) : PoolOptions where
  maxSize := max maxConns 1
  statementCacheSize := if prepared then 100 else 0

/-- A member's budget, on those of its target so far; the target's `prepared` is the member's. -/
def addBudget (o : Objects) (budgets : Dict Db.Target (Int × Bool)) (p : Planned) :
    Except Exc (Dict Db.Target (Int × Bool)) :=
  if p.definition.migrations then do
    let s ← Db.settingsFrom o p.values
    let (size, _) := (budgets.get? s.target).getD (0, s.prepared)
    return budgets.set s.target (size + s.foreground + s.background, s.prepared)
  else return budgets

def openPools (o : Objects) (plans : List Planned) : Except Exc (Dict Db.Target PoolOptions) := do
  let budgets ← plans.foldlM (addBudget o) Dict.empty
  return budgets.map fun b => Pool.open_ b.1 b.2

/-- The transactions that a member's `DB` lets run at once, on each of its two sides. -/
def places (s : Db.Settings) : Int := max s.foreground 1 + max s.background 1

end BeSdk.Shell
