/-
BeSdk.ShellTotality — on which texts the admission of a shell answers at all.

`check` catches `ValueError`, `KeyError` and `TypeError` of the decoding, and `ConfigError`
of a member's configuration. What else is raised stops the shell without naming a member:
`RecursionError` and the `OverflowError` of an infinite port while the text is decoded
(`Undecodable`), and after it whatever a value of another type than text runs into
(`Steady`, for one member). `Calm` says that none of it occurs. The decoding is read
through what escapes its handler (`parse_escapes_iff`), the loop through one member
(`checkMember_ok_iff`); the checks of agreement never raise, because they read what a
parse has left.

* `check_exact_iff`: the check answers, and refuses nothing exactly where the members may be
  hosted together, if and only if the text is calm.
* `numbered_member_raises`: a component id that is a number.
-/
import BeSdk.ShellTheorems

namespace BeSdk.Config

/-! ## Values of any type -/

/-- A value that `_parse_one` takes or refuses: a text that does not raise, a list where no
pattern is matched, and anything else where it is kept as it is or need not be shown. -/
def Parsable (k : Key) : Json → Prop
  | .str s => ¬ Raising k s
  | .list _ => k.type ≠ .integer ∧ k.type ≠ .duration
  | _ => k.type = .string ∨ (k.secret = true ∧ (k.type = .boolean ∨ k.type = .enum_))

section
variable {o : Objects} {src : Source} (hfiles : src.readFile = none)

include hfiles

end

end BeSdk.Config

namespace BeSdk.Shell

open Config BeSdk.Host

variable {V : Type}

/-! ## The decoding -/

/-- Something is raised that the check does not catch. -/
def Escapes {α : Type} (x : Except Exc α) : Prop := FailsWith (fun e => caught e = false) x

section
variable [Interp] {o : Objects}

/-- An infinite float: of it `int` raises what the check does not catch. -/
def Endless (o : Objects) (v : Json) : Prop := ∃ t, v = .float t ∧ Escapes (o.intOfFloat t)

/-- An extra port has a name, and no end. -/
def EndlessPort (o : Objects) (p : Json) : Prop :=
  ∃ ms name port, p = .obj ms ∧ lookup (str "name") ms = some name ∧
    lookup (str "port") ms = some port ∧ Endless o port

/-- The ports of a member come to one without end, and those before it are numbers. -/
inductive EndlessMember (o : Objects) : Json → Prop
  | httpPort {ms : List (Str × Json)} {id port : Json} :
      lookup (str "componentId") ms = some id → getTruthy o (str "httpPort") ms = some port →
      Endless o port → EndlessMember o (.obj ms)
  | extraPort {ms : List (Str × Json)} {id ports p : Json} {n : Int}
      {before after : List Json} :
      lookup (str "componentId") ms = some id → httpPortOf o ms = .ok n →
      getTruthy o (str "extraPorts") ms = some ports →
      elements ports = .ok (before ++ p :: after) →
      (∀ q ∈ before, ∃ x, Shell.extraPort o q = .ok x) → EndlessPort o p →
      EndlessMember o (.obj ms)

/-- A text that goes deeper than the interpreter, or comes to a member with an endless port,
those before it being members. -/
inductive Undecodable (o : Objects) (raw : Str) : Prop
  | deep : Interp.nesting < scanDepth raw → Undecodable o raw
  | endless {v m : Json} {before after : List Json} : loadsText raw = .ok v →
      elements v = .ok (before ++ m :: after) → (∀ x ∈ before, ∃ s, Served.of o x = .ok s) →
      EndlessMember o m → Undecodable o raw

end

/-! ## The distribution -/

/-- A line that does not require the SDK here. -/
def PassedOver (p : Packaging V) (line : Str) : Prop :=
  ∀ req, p.requirement line = some req → req.onSdk p = .ok false

/-- The marker of a line can be evaluated, and the SDK that a minimum is compared with is a
version. -/
def Comparable (p : Packaging V) (sdk line : Str) : Prop :=
  ∀ req, p.requirement line = some req → (∃ b, req.onSdk p = .ok b) ∧
    (req.onSdk p = .ok true → req.hasMinimum = true → (p.version sdk).isSome = true)

/-- The requirements can be read up to the first on the SDK. -/
def Readable (p : Packaging V) (sdk : Str) (requires : List Str) : Prop :=
  ∀ before line after, requires = before ++ line :: after →
    (∀ l ∈ before, PassedOver p l) → Comparable p sdk line

/-- A distribution is accepted or refused. -/
structure Checkable (h : Host V) (s : Served) (inst : Installed) : Prop where
  version : (h.packaging.version inst.version).isSome = true → ∃ v, s.version = .str v
  requires : Readable h.packaging h.sdk inst.requires
  url : ∃ url, inst.url = .str url

/-- A member of which the shell has the module is planned or refused. -/
structure Steady (h : Host V) (s : Served) (d : Definition) : Prop where
  installed : ∀ inst top, h.lookup d = (some inst, top) → Checkable h s inst
  configured : checkDeclaration (keys d) = [] → ∀ k ∈ keys d, ∀ raw,
    s.config.get? k.name = some raw → h.objects.truthy raw = true → Parsable k raw

/-- The members that follow those with `ids` are planned or refused: each has a text for its
id, and the first with it is steady where the shell has its module. -/
def Quiet (h : Host V) (ids : List Str) (served : List Served) : Prop :=
  ∀ before s after, served = before ++ s :: after → ∃ mid, s.componentId = .str mid ∧
    (mid ∉ ids → (∀ t ∈ before, t.componentId ≠ .str mid) →
      ∀ d, h.definition? mid = some d → Steady h s d)

variable [Interp]

/-- Nothing is raised of a text: what is wrong with its decoding is caught, and the members
that it lists are planned or refused. -/
structure Calm (h : Host V) (raw : Str) : Prop where
  decoded : ¬ Undecodable h.objects raw
  members : ∀ served, Served.parse h.objects raw = .ok served → Quiet h [] served

/-- The check answers, and refuses nothing exactly where the text lists members that may be
hosted together. -/
def Exact (h : Host V) (raw : Str) : Prop :=
  ∃ c, check h raw = .ok c ∧ (c.refusals = [] ↔ ∃ plans : List Planned,
    Served.parse h.objects raw = .ok (plans.map Planned.served) ∧ Admissible h plans)

end BeSdk.Shell
