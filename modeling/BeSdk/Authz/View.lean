/-
BeSdk.Authz.View — the bounded local view: shards held and verified against the
authorization member, with stall and rollback detection.

The holder is a state machine. `apply` takes a verification answer through the
acceptance table: a rollback of the whole answer suspends everything, a higher
recovery generation voids everything, then the answer goes shard by shard. Each
shard's answer reads and writes only what is held under that shard's name
(`Held.answered`), which is the source's loop body. `tick` detects stalls, `rest`
starts the wait, the lookups only read.

Every operation also returns what it did as NOTES, newest first: the log of the
holder. The state never depends on them; they are what statements about the past
speak of (`BeSdk.Authz.ViewTheorems`).

A view arrives as a `Shard` or as a dictionary. `RawShard` is the dictionary with
every key optional and values of the declared types; a missing key the source
indexes is a `KeyError`. Clock readings are rational numbers of seconds: rounding
of floating point is outside the model, and so is logging. `int()` of a text can
raise in the middle of an answer; the shards answered before it keep what they
got, as in the source.
-/
import BeSdk.Authz.Segment
import BeSdk.Lib.History
import Mathlib.Algebra.Order.Ring.Rat
import Mathlib.Data.Prod.Lex

namespace BeSdk

/-! ## Parameters -/

def wRead : Seconds := 30
def wHigh : Seconds := 5
def drift : Seconds := 1 / 1000
def tStall : Seconds := 2
def interval : Seconds := wHigh / 2

/-! ## Integers in texts -/

/-- Digits with single underscores between them; `prev` says whether a digit came
right before. -/
def scanUnderscored : Bool → Str → Option Str
  | prev, [] => if prev then some [] else none
  | prev, c :: rest =>
      if isDigit c then (scanUnderscored true rest).map (c :: ·)
      else if c = chr '_' ∧ prev then scanUnderscored false rest
      else none

/-- A text with its spaces and digits in ASCII; another character becomes `?`. -/
def digitsToAscii [Interp] (s : Str) : Str :=
  s.map fun c =>
    if c.val ≤ 127 then c
    else if isSpace c then chr ' '
    else match Interp.toDecimal c with
      | some d => digitChr d.val
      | none => chr '?'

/-- The white space the integer parser skips. -/
def isAsciiSpace (c : CodePoint) : Bool := (9 ≤ c.val && c.val ≤ 13) || c.val == 32

/-- `int(s)`; `none` is a `ValueError`. -/
def toInt [Interp] (s : Str) : Option Int :=
  let s := ((digitsToAscii s).dropWhile isAsciiSpace).reverse.dropWhile isAsciiSpace
  let (sign, body) := takeSign s.reverse
  match scanUnderscored false body with
  | none => none
  | some ds =>
      if maxStrDigits < ds.length then none
      else some (if sign = some (chr '-') then -(digitsVal ds : Int) else digitsVal ds)

/-- `_INTEGER.fullmatch(s)` -/
def isInteger (s : Str) : Bool :=
  let digits := match s with
    | c :: rest => if c = chr '-' then rest else c :: rest
    | [] => []
  !digits.isEmpty && digits.all isDigit

/-! ## Shards -/

/-- A security revision: the position of one domain. -/
structure RevisionRef where
  domain : Option Str := none
  value : Str := []
  epoch : Str := []
  instance_ : Str := []
  deriving DecidableEq

/-- What a view holds of one principal: segments, whether its accounts are
disabled, and the security version. -/
structure Entry_ where
  segments : List Segment
  accountsDisabled : Bool := false
  securityVersion : Int := 0

/-- One shard of the authorization view. -/
structure Shard where
  shard : Str
  applicability : List Str
  subjects : Dict Str Entry_
  digest : Str
  securityRevisions : List RevisionRef := []

/-! ### Shards as dictionaries -/

structure RawItem where
  path : Option Str
  mode : Option TreeMode

structure RawAtom where
  kind : Option AtomKind
  values : List Str := []
  items : List RawItem := []
  currency : Str := []
  lo : Option Str := none
  loClosed : Option Bool := none
  hi : Option Str := none
  hiClosed : Option Bool := none

structure RawSegment where
  operation : Option Str
  atoms : Dict Str RawAtom := Dict.empty
  readFields : List Str := []
  validFrom : Str := []
  validUntil : Str := []
  resourceType : Str := []
  writeFields : List Str := []
  binding : Str := []
  source : Str := []
  definition : Option (List (Str × Json)) := none

structure RawEntry where
  segments : List RawSegment := []
  accountsDisabled : Bool := false
  securityVersion : Int := 0

structure RawShard where
  shard : Option Str
  applicability : List Str := []
  subjects : Dict Str RawEntry := Dict.empty
  digest : Str := []
  securityRevisions : List RevisionRef := []

/-- `d[key]` -/
def required {α : Type} (v : Option α) : Except Exc α :=
  match v with
  | some v => .ok v
  | none => .error .keyError

def TreeItem.fromDict (i : RawItem) : Except Exc TreeItem := do
  return ⟨← required i.path, ← required i.mode⟩

/-- `Atom.from_dict` -/
def Atom.fromDict (a : RawAtom) : Except Exc Atom := do
  let kind ← required a.kind
  let items ← a.items.mapM TreeItem.fromDict
  return ⟨kind, a.values, items, a.currency, a.lo, a.loClosed, a.hi, a.hiClosed⟩

/-- The dictionary with every value read, the first failure in insertion order. -/
def Dict.mapM {κ α β : Type} (f : α → Except Exc β) (d : Dict κ α) :
    Except Exc { e : List (κ × β) // e.map Prod.fst = d.keys } :=
  go d.entries
where
  /-- Entry by entry. -/
  go : (l : List (κ × α)) → Except Exc { e : List (κ × β) // e.map Prod.fst = l.map Prod.fst }
    | [] => .ok ⟨[], rfl⟩
    | (k, a) :: l => do
        let b ← f a
        let ⟨rest, h⟩ ← go l
        return ⟨(k, b) :: rest, by simp [h]⟩

/-- A dictionary read value by value. -/
def Dict.read {κ α β : Type} (f : α → Except Exc β) (d : Dict κ α) : Except Exc (Dict κ β) := do
  let e ← d.mapM f
  return ⟨e.val, by rw [e.property]; exact d.nodup⟩

/-- `Segment.from_dict` -/
def Segment.fromDict (s : RawSegment) : Except Exc Segment := do
  let operation ← required s.operation
  let atoms ← s.atoms.read Atom.fromDict
  return ⟨operation, atoms, s.readFields, s.validFrom, s.validUntil, s.resourceType, s.writeFields,
    s.binding, s.source, s.definition⟩

def Entry_.fromDict (e : RawEntry) : Except Exc Entry_ := do
  return ⟨← e.segments.mapM Segment.fromDict, e.accountsDisabled, e.securityVersion⟩

/-- `Shard.from_dict` -/
def Shard.fromDict (d : RawShard) : Except Exc Shard := do
  let subjects ← d.subjects.read Entry_.fromDict
  return ⟨← required d.shard, d.applicability, subjects, d.digest, d.securityRevisions⟩

/-- A view in the forms `apply` takes it. -/
inductive View where
  | shard (s : Shard)
  | dict (d : RawShard)

/-- `_as_shard` -/
def View.asShard : View → Except Exc Shard
  | .shard s => .ok s
  | .dict d => Shard.fromDict d

/-! ## Revisions -/

/-- `e.partition(".")`, without the separator. -/
def partitionDot (e : Str) : Str × Str :=
  (e.takeWhile fun c => c ≠ chr '.', (e.dropWhile fun c => c ≠ chr '.').drop 1)

/-- `int(s or 0)` -/
def intOrZero [Interp] (s : Str) : Except Exc Int :=
  if s = [] then .ok 0
  else match toInt s with
    | some n => .ok n
    | none => .error .valueError

/-- `_epoch`: the recovery generation and the timeline of an epoch, in the order
the pair compares. -/
def readEpoch [Interp] (e : Str) : Except Exc (Int ×ₗ Int) := do
  let (g, t) := partitionDot (if e = [] then str "0.0" else e)
  let g ← intOrZero g
  let t ← intOrZero t
  return toLex (g, t)

/-- The revision of a domain in a list: the last one, as a dictionary keeps it. -/
def revisionOf (revisions : List RevisionRef) (domain : Option Str) : Option RevisionRef :=
  revisions.reverse.find? fun r => r.domain = domain

/-- Whether a new revision goes back against the held one of its domain. -/
def RevisionRef.goesBack [Interp] (new held : RevisionRef) : Except Exc Bool := do
  let n ← readEpoch new.epoch
  let o ← readEpoch held.epoch
  if n < o then return true
  if new.epoch = held.epoch ∧ isInteger new.value ∧ isInteger held.value then
    return decide ((← intOrZero new.value) < (← intOrZero held.value))
  return false

/-- `_goes_back`: some new revision has an earlier epoch, or the same epoch and a
lower value, than the held revision of its domain. -/
def goesBack [Interp] (held : List RevisionRef) : List RevisionRef → Except Exc Bool
  | [] => .ok false
  | r :: rest =>
      match revisionOf held r.domain with
      | none => goesBack held rest
      | some o => do
          if ← r.goesBack o then return true
          goesBack held rest

/-! ## The holder -/

/-- A held shard. -/
structure Held where
  shard : Shard
  sentAt : Seconds
  stopped : Bool := false
  suspended : Bool := false
  highAt : Option Seconds := none
  sourceStale : Bool := false

/-- The holder's state; what is held is keyed by the name the answers use. -/
structure Holder where
  shards : Dict (Option Str) Held := Dict.empty
  recovery : Option Int := none
  instance_ : Str := []
  lastTick : Option Seconds := none
  lastSkew : Seconds := 0

/-- After a start there is no trusted view. -/
def Holder.start : Holder := {}

inductive Status where
  | unchanged
  | changed
  | closed
  | other (text : Option Str)
  deriving DecidableEq

/-- One shard of an answer. -/
structure ShardAnswer where
  shard : Option Str
  status : Status
  readOnly : Bool := false
  view : Option View := none

/-- A verification answer. -/
structure Answer where
  instance_ : Str := []
  shards : List ShardAnswer := []

/-- What an answer did to one shard. -/
inductive Effect where
  | renewed
  | adopted (view : Shard)
  | stopped
  | closed
  | kept

/-- A line of the holder's log. -/
inductive Note where
  /-- A whole answer was a rollback. -/
  | rolledBack
  /-- An answer was accepted, under a higher recovery generation or not. -/
  | accepted (gen : Int) (newer : Bool)
  /-- An accepted answer's word on one shard, the send time, and what it did. -/
  | answered (sent : Seconds) (answer : ShardAnswer) (effect : Effect)
  /-- A stall invalidated every shard. -/
  | invalidated

/-- Whether a segment of a view is used: it fits its resource, or its resource type
is not declared. -/
def fits (defs : Index) (s : Segment) : Bool :=
  match defs.resource s.resourceType with
  | none => true
  | some r => match s.check r with
    | .ok () => true
    | .error _ => false

/-- `_fitting`: the view with only the segments that fit. -/
def Shard.fitting (defs : Option Index) (v : Shard) : Shard :=
  match defs with
  | none => v
  | some defs =>
      { v with subjects := v.subjects.map fun e =>
        { e with segments := e.segments.filter (fits defs) } }

/-- `not newer and _goes_back(…)`: under a higher recovery generation nothing is
compared. -/
def regresses [Interp] (newer : Bool) (held view : Shard) : Except Exc Bool :=
  if newer then .ok false else goesBack held.securityRevisions view.securityRevisions

/-- What an accepted answer's word on one shard does to what is held of it. -/
def Held.answered [Interp] (defs : Option Index) (newer : Bool) (sent : Seconds) (a : ShardAnswer)
    (h : Option Held) : Except Exc (Option Held × Effect) :=
  match a.status, a.view with
  | .unchanged, _ =>
      match h with
      | none => .ok (none, .kept)
      | some h =>
          if h.stopped then .ok (some h, .kept)
          else
            let renewed := { h with sentAt := sent, suspended := false, sourceStale := a.readOnly }
            .ok (some (if a.readOnly then renewed else { renewed with highAt := some sent }),
              .renewed)
  | .changed, some v => do
      let view := (← v.asShard).fitting defs
      match h with
      | some h =>
          if h.stopped then return (some h, .kept)
          if ← regresses newer h.shard view then return (some { h with stopped := true }, .stopped)
          else if a.readOnly then
            return (some { shard := view, sentAt := sent, highAt := h.highAt, sourceStale := true },
              .adopted view)
          else return (some { shard := view, sentAt := sent, highAt := some sent }, .adopted view)
      | none =>
          if a.readOnly then
            return (some { shard := view, sentAt := sent, sourceStale := true }, .adopted view)
          else return (some { shard := view, sentAt := sent, highAt := some sent }, .adopted view)
  | .closed, _ =>
      match h with
      | none => .ok (none, .kept)
      | some h => .ok (some { h with sourceStale := true }, .closed)
  | _, _ => .ok (h, .kept)

/-- Stores what is held under a name, if anything. -/
def store (name : Option Str) (h : Option Held) (shards : Dict (Option Str) Held) :
    Dict (Option Str) Held :=
  match h with
  | none => shards
  | some h => shards.set name h

/-- The shards of an accepted answer in turn, with the notes so far; an exception
keeps what came before it. -/
def answerShards [Interp] (defs : Option Index) (newer : Bool) (sent : Seconds) :
    List ShardAnswer → Dict (Option Str) Held → List Note →
    Dict (Option Str) Held × List Note × Option Exc
  | [], shards, notes => (shards, notes, none)
  | a :: rest, shards, notes =>
      match Held.answered defs newer sent a (shards.get? a.shard) with
      | .error e => (shards, notes, some e)
      | .ok (h, effect) =>
          answerShards defs newer sent rest (store a.shard h shards)
            (.answered sent a effect :: notes)

/-- How `apply` ends: it returns whether the answer was accepted, or raises. -/
inductive Outcome where
  | returned (accepted : Bool)
  | raised (e : Exc)
  deriving DecidableEq

/-- Whether an answer comes from another member instance than the one noted, or
holds a revision of another. -/
def Holder.foreign (s : Holder) (instance_ : Str) (views : List Shard) : Bool :=
  (s.instance_ ≠ [] && instance_ ≠ s.instance_) ||
    views.any fun v => v.securityRevisions.any fun r => r.instance_ ≠ instance_

/-- Whether an answer is a rollback: an older recovery generation, or foreign. -/
def Holder.rollback (s : Holder) (ans : Answer) (gen : Int) (views : List Shard) : Bool :=
  s.recovery.any (fun held => decide (gen < held)) || s.foreign ans.instance_ views

/-- Whether a recovery generation is higher than the held one. -/
def Holder.newer (s : Holder) (gen : Int) : Bool := s.recovery.all fun held => decide (held < gen)

/-- `apply`: the acceptance table, in order. -/
def Holder.apply [Interp] (defs : Option Index) (s : Holder) (ans : Answer) (gen : Int)
    (sent : Seconds) : Holder × List Note × Outcome :=
  match ((ans.shards.filterMap ShardAnswer.view).mapM View.asShard) with
  | .error e => (s, [], .raised e)
  | .ok views =>
      if s.rollback ans gen views then
        ({ s with shards := s.shards.map fun h => { h with suspended := true } }, [.rolledBack],
          .returned false)
      else
        let newer := s.newer gen
        let shards := if newer then Dict.empty else s.shards
        let (shards, notes, raised) :=
          answerShards defs newer sent ans.shards shards [.accepted gen newer]
        ({ s with shards, recovery := some gen, instance_ := ans.instance_ }, notes,
          match raised with
          | none => .returned true
          | some e => .raised e)

/-- What `verify` reads of a reply: the nonce it is for, the value of its recovery
generation (none where the reply has no generation, or the generation no value), and
the answer `apply` takes. -/
structure Reply where
  nonce : Option Str
  recoveryGeneration : Option Json
  answer : Answer

/-- The recovery generation of a reply to the request with this nonce. -/
def Reply.generation [Interp] (r : Reply) (nonce : Str) : Except Exc Int :=
  if r.nonce ≠ some nonce then .error .valueError
  else match r.recoveryGeneration with
    | some (.str raw) =>
        if isInteger raw then
          match toInt raw with
          | some gen => .ok gen
          | none => .error .valueError
        else .error .valueError
    | _ => .error .valueError

/-- `verify`: what becomes of the source's reply to a request sent at `sent`. It
returns nothing; the outcome is that of the `apply` in it. -/
def Holder.verify [Interp] (defs : Option Index) (s : Holder) (nonce : Str) (sent : Seconds)
    (reply : Except Exc Reply) : Holder × List Note × Outcome :=
  match reply with
  | .error e => (s, [], .raised e)
  | .ok r =>
      match r.generation nonce with
      | .error e => (s, [], .raised e)
      | .ok gen => s.apply defs r.answer gen sent

/-- Whether the clocks show a stall since the last reading. -/
def Holder.stalled (s : Holder) (now wall : Seconds) : Bool :=
  s.lastTick.any fun last => decide (interval + tStall < now - last) ||
    decide (tStall < |wall - now - s.lastSkew|)

/-- `tick`: a stall invalidates every shard. -/
def Holder.tick (s : Holder) (now wall : Seconds) : Holder × List Note :=
  let read := { s with lastTick := some now, lastSkew := wall - now }
  if s.stalled now wall then ({ read with shards := Dict.empty }, [.invalidated]) else (read, [])

/-- `rest`: the start of the wait between verifications. -/
def Holder.rest (s : Holder) (now wall : Seconds) : Holder :=
  { s with lastTick := some now, lastSkew := wall - now }

/-! ## Lookups -/

/-- What a lookup gives a request. -/
structure Grant where
  segments : List Segment
  cutoff : Seconds
  securityVersion : Int := 0
  stale : Bool := false
  since : Option Seconds := none

/-- How long a renewal is good for. -/
def validity (risk : Str) : Seconds := (if risk = str "high" then wHigh else wRead) * (1 - drift)

/-- When the validity of a held shard counts from. -/
def Held.startFor (h : Held) (risk : Str) : Option Seconds :=
  if risk = str "high" then h.highAt else some h.sentAt

/-- Whether a held shard answers a lookup. -/
def Held.answers (h : Held) (resourceType risk : Str) (now : Seconds) : Bool :=
  !h.stopped && !h.suspended && h.shard.applicability.contains resourceType &&
    (h.startFor risk).any fun start => decide (now < start + validity risk)

/-- Whether a held shard answers a stale lookup. -/
def Held.answersStale (h : Held) (resourceType : Str) : Bool :=
  h.sourceStale && h.highAt.isSome && !h.stopped && !h.suspended &&
    h.shard.applicability.contains resourceType

/-- The entry of a principal, the empty one when the view has none. -/
def Shard.entry (v : Shard) (principal : Str) : Entry_ :=
  (v.subjects.get? principal).getD { segments := [] }

/-- The segments of a principal for a resource type. -/
def Shard.segmentsFor (v : Shard) (resourceType principal : Str) : List Segment :=
  let e := v.entry principal
  if e.accountsDisabled then []
  else e.segments.filter fun s => s.resourceType = [] || s.resourceType = resourceType

/-- The held shard a lookup is answered from, with its name. -/
def Holder.answering (s : Holder) (resourceType risk : Str) (now : Seconds) :
    Option (Option Str × Held) :=
  s.shards.entries.find? fun p => p.2.answers resourceType risk now

/-- The held shard a stale lookup is answered from, with its name. -/
def Holder.answeringStale (s : Holder) (resourceType : Str) : Option (Option Str × Held) :=
  s.shards.entries.find? fun p => p.2.answersStale resourceType

def viewExpired (resourceType : Str) : Errs.Error :=
  (Errs.new (str "AUTHORIZATION_VIEW_EXPIRED") (str "no valid authorization view")).with_
    (str "resource_type") resourceType

/-- `lookup`: the subject's segments for a resource type in a valid shard. -/
def Holder.lookup (s : Holder) (now : Seconds) (resourceType principal risk : Str) :
    Except Exc Grant :=
  match s.answering resourceType risk now with
  | none => .error (.error (viewExpired resourceType))
  | some (_, h) =>
      let start := (h.startFor risk).getD 0
      .ok { segments := h.shard.segmentsFor resourceType principal, cutoff := start + validity risk,
            securityVersion := (h.shard.entry principal).securityVersion }

/-- `lookup_stale`: the last view of a shard whose source the member said is stale. -/
def Holder.lookupStale (s : Holder) (now wall : Seconds) (resourceType principal : Str) :
    Except Exc Grant :=
  match s.answeringStale resourceType with
  | none => .error (.error (viewExpired resourceType))
  | some (_, h) =>
      .ok { segments := h.shard.segmentsFor resourceType principal,
            cutoff := now + wRead * (1 - drift),
            securityVersion := (h.shard.entry principal).securityVersion,
            stale := true, since := some (wall + (h.highAt.getD 0 - now)) }

/-- `lookup_for`: a tightening operation the ordinary lookup refuses falls back on
the stale one, which reads the clocks again. -/
def Holder.lookupFor (s : Holder) (now nowStale wall : Seconds) (resourceType principal risk : Str)
    (tighteningOnly : Bool) : Except Exc Grant :=
  match s.lookup now resourceType principal risk with
  | .ok g => .ok g
  | .error (.error e) =>
      if tighteningOnly && e.is_ (str "be") (str "AUTHORIZATION_VIEW_EXPIRED") then
        s.lookupStale nowStale wall resourceType principal
      else .error (.error e)
  | .error e => .error e

/-! ## Runs -/

/-- The operations that change the state. -/
inductive Op where
  | apply (ans : Answer) (gen : Int) (sent : Seconds)
  | tick (now wall : Seconds)
  | rest (now wall : Seconds)

/-- A step of the holder, with its notes. -/
def Holder.step [Interp] (defs : Option Index) (s : Holder) : Op → Holder × List Note
  | .apply ans gen sent => let (s, notes, _) := s.apply defs ans gen sent; (s, notes)
  | .tick now wall => s.tick now wall
  | .rest now wall => (s.rest now wall, [])

end BeSdk
