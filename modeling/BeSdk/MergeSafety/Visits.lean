/-
BeSdk.MergeSafety.Visits — a scan as the list of what it comes by.

The visitor comes by import clauses, by names with the attributes on them (a chain), and by
calls of chains, in the order of the fields; each is an event, with the block whose
variable its name is. The table of the scan is, at any event, what the clauses before it
have bound last (`seen`), so what an event finds depends on the events before it alone
(`give`), and the visitor finds what the events give off in turn (`visit_spec`).

A chain is read from the name outward by the clause seen last, and `_check` is asked about
the longest chain first: what it finds is the longest that the rules hit (`Named`).
-/
import BeSdk.Lib.Transcript
import BeSdk.MergeSafety.Paths

namespace BeSdk.MergeSafety

open Py

/-! ## Events -/

/-- A name with the attributes on it, the outermost first. -/
structure Chain where
  line : Nat
  id : Ident
  load : Bool
  attrs : List (Nat × Ident) := []

/-- The names in a list of attributes, from the name outward. -/
def namesOf (attrs : List (Nat × Ident)) : List Ident := (attrs.map Prod.snd).reverse

theorem namesOf_cons (a : Nat × Ident) (inner : List (Nat × Ident)) :
    namesOf (a :: inner) = namesOf inner ++ [a.2] := by
  simp [namesOf]

def Chain.names (c : Chain) : List Ident := namesOf c.attrs

def chainOf : Node → Option Chain
  | .name line id load => some { line, id, load }
  | .attribute line value attr =>
      (chainOf value).map fun c => { c with attrs := (line, attr) :: c.attrs }
  | _ => none

/-- What an import binds a name to, as the visitor reads it. -/
structure Clause where
  name : Ident
  path : Dotted
  /-- The line of a `from` statement, whose names are checked. -/
  line : Option Nat := none
  relative : Bool := false

def clauseOf (a : Alias) : Clause :=
  match a.asname with
  | some asname => { name := asname, path := a.name }
  | none => { name := a.name.head, path := ⟨a.name.head, []⟩ }

def fromClause (line : Nat) (module : Option Dotted) (level : Nat) (a : FromAlias) : Clause where
  name := a.bound
  path := match module with
    | some m => m.append [a.name]
    | none => ⟨a.name, []⟩
  line := some line
  relative := level ≠ 0

inductive Event where
  | clause (c : Clause)
  | chain (c : Chain)
  /-- A call of a chain, and whether it has an argument `registry`. -/
  | call (line : Nat) (c : Chain) (registry : Bool)

/-- Whether a call has an argument `registry`. -/
def hasRegistry (keywords : List Node) : Bool :=
  keywords.any fun k => k.arg.any fun a => decide (a.val = str "registry")

mutual

/-- The events of a node at its place in the module, with the block of each one's name. -/
def visits (place : List Nat) (frames : List Frame) : Node → List (Event × List Nat)
  | .name line id load => [(.chain { line, id, load }, resolve id true frames)]
  | .attribute line value attr =>
      match chainOf (.attribute line value attr) with
      | some c => [(.chain c, resolve c.id true frames)]
      | none => visits (0 :: place) frames value
  | .call line func args keywords =>
      (match chainOf func with
        | some c => [(.call line c (hasRegistry keywords), resolve c.id true frames)]
        | none => []) ++
      (visits (0 :: place) frames func ++
        (visitsAll place 1 frames args ++ visitsAll place (1 + args.length) frames keywords))
  | .keyword _ value => visits (0 :: place) frames value
  | .import_ names =>
      names.map fun a => (.clause (clauseOf a), resolve (clauseOf a).name true frames)
  | .importFrom line module names level =>
      names.map fun a => (.clause (fromClause line module level a),
        resolve (fromClause line module level a).name true frames)
  | .global _ => []
  | .nonlocal _ => []
  | .binder _ => []
  | .namedExpr _ value => visits (0 :: place) frames value
  | .block kind params fields => visitsBlock place 0 (.of place kind params fields) frames fields
  | .outside fields => visitsAll place 0 frames fields
  | .other fields => visitsAll place 0 frames fields

def visitsAll (place : List Nat) (i : Nat) (frames : List Frame) :
    List Node → List (Event × List Nat)
  | [] => []
  | n :: rest => visits (i :: place) frames n ++ visitsAll place (i + 1) frames rest

/-- The fields of a block, those outside it in the blocks around. -/
def visitsBlock (place : List Nat) (i : Nat) (own : Frame) (frames : List Frame) :
    List Node → List (Event × List Nat)
  | [] => []
  | .outside fields :: rest =>
      visitsAll (i :: place) 0 frames fields ++ visitsBlock place (i + 1) own frames rest
  | n :: rest => visits (i :: place) (own :: frames) n ++ visitsBlock place (i + 1) own frames rest

end

/-- The events of a module. -/
def events (body : List Node) : List Event := (visitsAll [] 0 [] body).map Prod.fst

/-- Python's scopes: two events are of one variable. -/
def sameVariable (body : List Node) (i j : Nat) : Prop :=
  ∃ x y, (visitsAll [] 0 [] body)[i]? = some x ∧ (visitsAll [] 0 [] body)[j]? = some y ∧ x.2 = y.2

/-! ## Reading a chain -/

/-- The clause of a name that the events have come by last. -/
def seen (id : Ident) (before : List Event) : Option Clause :=
  before.foldl (fun found e => match e with
    | .clause c => if c.name = id then some c else found
    | _ => found) none

/-- The last clause of a name is the one seen. -/
theorem seen_concat (id : Ident) (before : List Event) (e : Event) : seen id (before ++ [e]) =
    match e with
    | .clause c => if c.name = id then some c else seen id before
    | _ => seen id before := by
  rw [seen, List.foldl_append]
  cases e <;> rfl

/-- What a name is read as, and whether the name itself is checked. -/
def reading (before : List Event) (c : Chain) : Option (Dotted × Bool) :=
  match seen c.id before with
  | some k => some (k.path, false)
  | none =>
      if c.id.val = str "exit" ∨ c.id.val = str "quit" then
        some (⟨⟨str "builtins", by decide⟩, [c.id]⟩, c.load) else none

/-- A part of the chain, from the name outward, is read as a name that the rules hit. -/
def ReadAs (before : List Event) (c : Chain) (q : Dotted) : Prop :=
  ∃ base self inner, reading before c = some (base, self) ∧ inner <:+ c.attrs ∧
    (inner ≠ [] ∨ self = true) ∧ q = base.append (namesOf inner) ∧ Hits q.parts

/-- The longest of these. -/
def Named (before : List Event) (c : Chain) (q : Dotted) : Prop :=
  ReadAs before c q ∧ ∀ q', ReadAs before c q' → q'.parts <+: q.parts

/-! ## What an event gives off -/

/-- `_check` as the finding it gives. -/
def checked (path : Str) (d : Dotted) (line : Nat) : List Finding :=
  ((why d.text).map fun w => (⟨path, line, d.text, w⟩ : Finding)).toList

/-- A chain on a base: the longest part that is found. -/
def chainFindings (path : Str) (base : Dotted) (self : Bool) (line : Nat) :
    List (Nat × Ident) → List Finding
  | [] => if self then checked path base line else []
  | a :: inner =>
      match checked path (base.append (namesOf (a :: inner))) a.1 with
      | [] => chainFindings path base self line inner
      | found => found

/-- A constructor of a metric. -/
def isMetric (d : Dotted) : Bool := (rpartition d.text).1 = str "prometheus_client" &&
    (rpartition d.text).2 ∈ metrics

/-- What the events before it make of one. -/
def give (path : Str) (before : List Event) : Event → List Finding
  | .clause k => match k.line with
      | some line => checked path k.path line
      | none => []
  | .chain c => match reading before c with
      | some (base, self) => chainFindings path base self c.line c.attrs
      | none => []
  | .call line c registry => match reading before c with
      | some (base, _) =>
          if isMetric (base.append c.names) ∧ registry = false then
            [⟨path, line, (base.append c.names).text, promText ++ str "; pass registry=rt.metrics"⟩]
          else []
      | none => []

/-! ## The table of the scan -/

/-- The table is what the clauses have bound last. -/
def Tells (s : Scan) (before : List Event) : Prop :=
  ∀ id : Ident, s.aliases.get? id.val = (seen id before).map fun k => k.path.text

theorem tells_start : Tells {} [] := fun _ => rfl

/-- A clause binds its name. -/
theorem Tells.bind {s : Scan} {before : List Event} (h : Tells s before) (k : Clause) :
    Tells (s.bind k.name.val k.path.text) (before ++ [.clause k]) := by
  intro id
  rw [seen_concat, Scan.bind, Dict.get?_set]
  dsimp only
  by_cases hid : k.name = id
  · subst hid
    rw [if_pos rfl, if_pos rfl]
    rfl
  · rw [if_neg hid, if_neg fun heq => hid (Subtype.ext heq.symm)]
    exact h id

/-- A chain binds nothing. -/
theorem tells_chain_iff {s : Scan} {before : List Event} (c : Chain) :
    Tells s (before ++ [.chain c]) ↔ Tells s before := by
  refine forall_congr' fun id => ?_
  rw [seen_concat]

/-- Nor does a call. -/
theorem Tells.call {s : Scan} {before : List Event} (h : Tells s before) (line : Nat)
    (c : Chain) (registry : Bool) : Tells s (before ++ [.call line c registry]) := by
  intro id
  rw [seen_concat]
  exact h id

theorem Tells.of_aliases {s s' : Scan} {before : List Event} (h : Tells s before)
    (heq : s'.aliases = s.aliases) : Tells s' before :=
  fun id => heq ▸ h id

/-- A scan goes on over some events: its table tells them too, and it has added what they
give off. -/
def Follows (path : Str) (s s' : Scan) (before es : List Event) : Prop :=
  Tells s' (before ++ es) ∧ s'.findings = s.findings ++ transcript (give path) before es

theorem Follows.nil {path : Str} {s : Scan} {before : List Event} (h : Tells s before) :
    Follows path s s before [] :=
  ⟨by rwa [List.append_nil], (List.append_nil _).symm⟩

/-- Events follow one after the other. -/
theorem Follows.trans {path : Str} {s s' s'' : Scan} {before es es' : List Event}
    (h : Follows path s s' before es) (h' : Follows path s' s'' (before ++ es) es') :
    Follows path s s'' before (es ++ es') := by
  refine ⟨?_, ?_⟩
  · rw [← List.append_assoc]
    exact h'.1
  · rw [h'.2, h.2, transcript_append, List.append_assoc]

theorem check_aliases (path : Str) (s : Scan) (dotted : Str) (line : Nat) :
    (s.check path dotted line).2.aliases = s.aliases := by
  unfold Scan.check
  split <;> rfl

/-- A check adds what it finds. -/
theorem check_findings (path : Str) (s : Scan) (d : Dotted) (line : Nat) :
    (s.check path d.text line).2.findings = s.findings ++ checked path d line := by
  unfold Scan.check checked
  cases why d.text with
  | none => exact (List.append_nil _).symm
  | some w => rfl

/-! ## Imports -/

theorem import_eq (s : Scan) (a : Alias) :
    s.import_ a = s.bind (clauseOf a).name.val (clauseOf a).path.text := by
  unfold Scan.import_ clauseOf
  cases a.asname with
  | some asname => rfl
  | none => rfl

/-- The names of an import are bound in their order. -/
theorem follows_import (path : Str) :
    ∀ (names : List Alias) {s : Scan} {before : List Event}, Tells s before →
    Follows path s (names.foldl Scan.import_ s) before (names.map fun a => .clause (clauseOf a))
  | [], _, _, h => .nil h
  | a :: rest, s, before, h => by
      have hnext : Follows path s (s.import_ a) before [.clause (clauseOf a)] := by
        rw [import_eq]
        refine ⟨h.bind (clauseOf a), ?_⟩
        have hline : (clauseOf a).line = none := by
          unfold clauseOf
          split <;> rfl
        rw [transcript_singleton, give, hline]
        exact (List.append_nil _).symm
      exact hnext.trans (follows_import path rest hnext.1)

/-- A name that is imported from a module is checked and bound. -/
theorem importFrom_eq (path : Str) (line : Nat) (module : Option Dotted) (level : Nat)
    (s : Scan) (a : FromAlias) : s.importFrom path line module a =
    ((s.bind (fromClause line module level a).name.val
      (fromClause line module level a).path.text).check path
      (fromClause line module level a).path.text line).2 := by
  cases module with
  | some m =>
      simp only [Scan.importFrom, fromClause, Dotted.text_append]
  | none => rfl

/-- So are all of them, in their order. -/
theorem follows_importFrom (path : Str) (line : Nat) (module : Option Dotted) (level : Nat) :
    ∀ (names : List FromAlias) {s : Scan} {before : List Event}, Tells s before →
    Follows path s (names.foldl (Scan.importFrom path line module) s) before
      (names.map fun a => .clause (fromClause line module level a))
  | [], _, _, h => .nil h
  | a :: rest, s, before, h => by
      have hnext : Follows path s (s.importFrom path line module a) before
        [.clause (fromClause line module level a)] := by
        rw [importFrom_eq path line module level]
        refine ⟨(h.bind (fromClause line module level a)).of_aliases (check_aliases ..), ?_⟩
        rw [check_findings, transcript_singleton]
        rfl
      exact hnext.trans (follows_importFrom path line module level rest hnext.1)

/-! ## Chains -/

/-- `_dotted` is what the chain is read as. -/
theorem dotted_eq {s : Scan} {before : List Event} (h : Tells s before) : ∀ n : Node,
    dottedName s.aliases n = (chainOf n).bind fun c => (reading before c).map fun r =>
    (r.1.append c.names).text
  | .name line id load => by
      rw [dottedName, h id, chainOf, Option.bind_some, reading]
      dsimp only
      cases seen id before with
      | some k => simp [Chain.names, namesOf]
      | none =>
          rw [Option.map_none]
          dsimp only
          split
          · simp only [Option.map_some, Chain.names, namesOf, List.map_nil, List.reverse_nil,
              Dotted.append_nil]
            rfl
          · rfl
  | .attribute line value attr => by
      rw [dottedName, dotted_eq h value, chainOf]
      cases chainOf value with
      | none => rfl
      | some c =>
          simp only [Option.bind_some, Option.map_some]
          have hsame : reading before { c with attrs := (line, attr) :: c.attrs } =
            reading before c := rfl
          rw [hsame]
          cases reading before c with
          | none => rfl
          | some r =>
              simp only [Option.map_some]
              rw [if_neg (Dotted.text_ne_nil _), Chain.names, Chain.names, namesOf_cons,
                ← Dotted.append_append, Dotted.text_append]
  | .call .. => rfl
  | .keyword .. => rfl
  | .import_ .. => rfl
  | .importFrom .. => rfl
  | .global .. => rfl
  | .nonlocal .. => rfl
  | .binder .. => rfl
  | .namedExpr .. => rfl
  | .block .. => rfl
  | .outside .. => rfl
  | .other .. => rfl

/-- A scan that goes on over one event other than a clause. -/
theorem Follows.of_give {path : Str} {s s' : Scan} {before : List Event} {e : Event}
    (h : Tells s (before ++ [e])) (haliases : s'.aliases = s.aliases)
    (hfindings : s'.findings = s.findings ++ give path before e) :
    Follows path s s' before [e] :=
  ⟨h.of_aliases haliases, by rw [hfindings, transcript_singleton]⟩

/-- Visiting a name. -/
theorem follows_name (path : Str) (line : Nat) (id : Ident) (load : Bool)
    {s : Scan} {before : List Event} (h : Tells s before) :
    Follows path s (visit path s (.name line id load)) before [.chain { line, id, load }] := by
  have htable := h id
  refine .of_give ((tells_chain_iff _).mpr h) ?_ ?_
  · rw [visit]
    split
    · exact check_aliases ..
    · rfl
  · rw [visit, give, reading]
    dsimp only
    cases hseen : seen id before with
    | some k =>
        rw [hseen] at htable
        rw [if_neg (by simp [htable])]
        exact (List.append_nil _).symm
    | none =>
        rw [hseen] at htable
        by_cases hexit : id.val = str "exit" ∨ id.val = str "quit"
        · rw [if_pos hexit]
          cases load with
          | false =>
              rw [if_neg (by simp)]
              exact (List.append_nil _).symm
          | true =>
              rw [if_pos ⟨hexit, by simp [htable], rfl⟩]
              exact check_findings path s ⟨⟨str "builtins", by decide⟩, [id]⟩ line
        · rw [if_neg (fun hand => hexit hand.1), if_neg hexit]
          exact (List.append_nil _).symm

/-- Visiting a chain finds the longest part of it that is found. -/
theorem follows_chain (path : Str) :
    ∀ (n : Node) {c : Chain} {s : Scan} {before : List Event}, chainOf n = some c →
    Tells s before → Follows path s (visit path s n) before [.chain c]
  | .name line id load, c, s, before, hc, h => by
      obtain rfl := Option.some.inj hc
      exact follows_name path line id load h
  | .attribute line value attr, c, s, before, hc, h => by
      rw [chainOf] at hc
      obtain ⟨inner, hinner, rfl⟩ := Option.map_eq_some_iff.mp hc
      have hdotted := dotted_eq h (.attribute line value attr)
      rw [chainOf, hinner, Option.map_some, Option.bind_some] at hdotted
      have hvalue := follows_chain path value hinner h
      have hsame : reading before { inner with attrs := (line, attr) :: inner.attrs } =
        reading before inner := rfl
      have hgives := hvalue.2
      rw [transcript_singleton, give] at hgives
      rw [visit, hdotted, hsame]
      cases hreading : reading before inner with
      | none =>
          -- A name that stands for nothing: the visitor goes on to the value.
          rw [hreading] at hgives
          refine ⟨(tells_chain_iff _).mpr ((tells_chain_iff _).mp hvalue.1), ?_⟩
          rw [transcript_singleton, give, hsame, hreading]
          exact hgives
      | some r =>
          obtain ⟨base, self⟩ := r
          rw [hreading] at hgives
          dsimp only [Option.map_some] at hgives ⊢
          have hnames : Chain.names { inner with attrs := (line, attr) :: inner.attrs } =
            namesOf ((line, attr) :: inner.attrs) := rfl
          have hgive : give path before (.chain { inner with attrs := (line, attr) ::
            inner.attrs }) =
              chainFindings path base self inner.line ((line, attr) :: inner.attrs) := by
            rw [give, hsame, hreading]
          rw [hnames]
          cases hwhy : why (base.append (namesOf ((line, attr) :: inner.attrs))).text with
          | some w =>
              have hchecked : checked path
                (base.append (namesOf ((line, attr) :: inner.attrs))) line =
                  [⟨path, line, (base.append (namesOf ((line, attr) :: inner.attrs))).text,
                    w⟩] := by
                rw [checked, hwhy]
                rfl
              refine .of_give ((tells_chain_iff _).mpr h) ?_ ?_
              · rw [Scan.check, hwhy]
              · rw [Scan.check, hwhy, hgive, chainFindings, hchecked]
          | none =>
              have hchecked : checked path
                (base.append (namesOf ((line, attr) :: inner.attrs))) line = [] := by
                rw [checked, hwhy]
                rfl
              refine ⟨?_, ?_⟩
              · rw [Scan.check, hwhy]
                exact (tells_chain_iff _).mpr ((tells_chain_iff _).mp hvalue.1)
              · rw [Scan.check, hwhy, transcript_singleton, hgive, chainFindings, hchecked]
                exact hgives
  | .call .., _, _, _, hc, _ => nomatch hc
  | .keyword .., _, _, _, hc, _ => nomatch hc
  | .import_ .., _, _, _, hc, _ => nomatch hc
  | .importFrom .., _, _, _, hc, _ => nomatch hc
  | .global .., _, _, _, hc, _ => nomatch hc
  | .nonlocal .., _, _, _, hc, _ => nomatch hc
  | .binder .., _, _, _, hc, _ => nomatch hc
  | .namedExpr .., _, _, _, hc, _ => nomatch hc
  | .block .., _, _, _, hc, _ => nomatch hc
  | .outside .., _, _, _, hc, _ => nomatch hc
  | .other .., _, _, _, hc, _ => nomatch hc

/-! ## Visiting a tree -/

/-- The check of a call before its fields. -/
theorem follows_constructor (path : Str) (line : Nat) (func : Node) (keywords : List Node)
    {s : Scan} {before : List Event} (h : Tells s before) :
    Follows path s (s.constructor path line func keywords) before
      (match chainOf func with
        | some c => [.call line c (hasRegistry keywords)]
        | none => []) := by
  have hdotted := dotted_eq h func
  rw [Scan.constructor, hdotted]
  cases chainOf func with
  | none => exact .nil h
  | some c =>
      rw [Option.bind_some]
      refine .of_give (h.call line c (hasRegistry keywords)) ?_ ?_
      · cases reading before c with
        | none => rfl
        | some r =>
            dsimp only [Option.map_some]
            split <;> rfl
      · rw [give]
        cases reading before c with
        | none => exact (List.append_nil _).symm
        | some r =>
            dsimp only [Option.map_some]
            by_cases hmetric : isMetric (r.1.append c.names) = true ∧ hasRegistry keywords = false
            · rw [if_pos hmetric, if_pos]
              have hparts := hmetric.1
              simp only [isMetric, Bool.and_eq_true, decide_eq_true_eq] at hparts
              exact ⟨hparts.1, hparts.2, Bool.not_eq_true _ ▸ hmetric.2⟩
            · rw [if_neg hmetric, if_neg, List.append_nil]
              rintro ⟨hmodule, hname, hkeywords⟩
              refine hmetric ⟨?_, Bool.not_eq_true _ ▸ hkeywords⟩
              simp only [isMetric, Bool.and_eq_true, decide_eq_true_eq]
              exact ⟨hmodule, hname⟩

/-- A field of a block is visited like any node, in the block or outside it. -/
theorem visitsBlock_cons (place : List Nat) (i : Nat) (own : Frame) (frames : List Frame)
    (n : Node) (rest : List Node) : ∃ frames', visitsBlock place i own frames (n :: rest) =
      visits (i :: place) frames' n ++ visitsBlock place (i + 1) own frames rest := by
  cases n with
  | outside fields =>
      refine ⟨frames, ?_⟩
      rw [visitsBlock, visits]
  | _ => exact ⟨own :: frames, rfl⟩

mutual

/-- **A visit is its events**: the visitor's table is what they tell, and it has added
what they give off. -/
theorem visit_spec (path : Str) :
    ∀ (n : Node) (place : List Nat) (frames : List Frame) {s : Scan} {before : List Event},
    Tells s before → Follows path s (visit path s n) before ((visits place frames n).map Prod.fst)
  | .name line id load, _, _, _, _, h => by
      rw [visits]
      exact follows_name path line id load h
  | .attribute line value attr, place, frames, s, before, h => by
      rw [visits]
      cases hchain : chainOf (.attribute line value attr) with
      | some c => exact follows_chain path _ hchain h
      | none =>
          -- The chain does not begin with a name: `_dotted` is None.
          have hdotted := dotted_eq h (.attribute line value attr)
          rw [hchain, Option.bind_none] at hdotted
          rw [visit, hdotted]
          exact visit_spec path value _ _ h
  | .call line func args keywords, place, frames, s, before, h => by
      rw [visits, visit, List.map_append, List.map_append, List.map_append]
      have hcall := follows_constructor path line func keywords h
      have hhead : (match chainOf func with
          | some c => [(Event.call line c (hasRegistry keywords), resolve c.id true frames)]
          | none => []).map Prod.fst = (match chainOf func with
          | some c => [.call line c (hasRegistry keywords)]
          | none => []) := by
        cases chainOf func <;> rfl
      rw [hhead]
      refine hcall.trans ?_
      have hfunc := visit_spec path func (0 :: place) frames hcall.1
      refine hfunc.trans ?_
      have hargs := visitAll_spec path args place 1 frames hfunc.1
      exact hargs.trans (visitAll_spec path keywords _ _ _ hargs.1)
  | .keyword arg value, _, _, _, _, h => by
      rw [visits, visit]
      exact visit_spec path value _ _ h
  | .import_ names, _, _, _, _, h => by
      rw [visits, visit, List.map_map]
      exact follows_import path names h
  | .importFrom line module names level, _, _, _, _, h => by
      rw [visits, visit, List.map_map]
      exact follows_importFrom path line module level names h
  | .global _, _, _, _, _, h => by
      rw [visits, visit]
      exact .nil h
  | .nonlocal _, _, _, _, _, h => by
      rw [visits, visit]
      exact .nil h
  | .binder _, _, _, _, _, h => by
      rw [visits, visit]
      exact .nil h
  | .namedExpr _ value, _, _, _, _, h => by
      rw [visits, visit]
      exact visit_spec path value _ _ h
  | .block kind params fields, _, _, _, _, h => by
      rw [visits, visit]
      exact visitBlock_spec path fields _ _ _ _ h
  | .outside fields, _, _, _, _, h => by
      rw [visits, visit]
      exact visitAll_spec path fields _ _ _ h
  | .other fields, _, _, _, _, h => by
      rw [visits, visit]
      exact visitAll_spec path fields _ _ _ h

/-- The nodes of a body are visited in their order. -/
theorem visitAll_spec (path : Str) :
    ∀ (ns : List Node) (place : List Nat) (i : Nat) (frames : List Frame) {s : Scan}
    {before : List Event}, Tells s before → Follows path s (visitAll path s ns) before
    ((visitsAll place i frames ns).map Prod.fst)
  | [], _, _, _, _, _, h => by
      rw [visitsAll, visitAll]
      exact .nil h
  | n :: rest, place, i, frames, s, before, h => by
      rw [visitsAll, visitAll, List.map_append]
      have hn := visit_spec path n (i :: place) frames h
      exact hn.trans (visitAll_spec path rest _ _ _ hn.1)

/-- So are the nodes of a block, in a scope of its own. -/
theorem visitBlock_spec (path : Str) :
    ∀ (ns : List Node) (place : List Nat) (i : Nat) (own : Frame) (frames : List Frame) {s : Scan}
    {before : List Event}, Tells s before →
    Follows path s (visitAll path s ns) before ((visitsBlock place i own frames ns).map Prod.fst)
  | [], _, _, _, _, _, _, h => by
      rw [visitsBlock, visitAll]
      exact .nil h
  | n :: rest, place, i, own, frames, s, before, h => by
      obtain ⟨frames', hcons⟩ := visitsBlock_cons place i own frames n rest
      rw [hcons, visitAll, List.map_append]
      have hn := visit_spec path n (i :: place) frames' h
      exact hn.trans (visitBlock_spec path rest _ _ _ _ hn.1)

end

/-- The findings of a module are what its events give off. -/
theorem mem_scanSource {path : Str} {body : List Node} {f : Finding} :
    f ∈ scanSource path body ↔ ∃ i, f ∈ givenAt (give path) (events body) i := by
  have hspec := (visitAll_spec path body [] 0 [] tells_start).2
  rw [scanSource, mem_sortedSet, hspec, ← mem_transcript_nil]
  rfl

end BeSdk.MergeSafety
