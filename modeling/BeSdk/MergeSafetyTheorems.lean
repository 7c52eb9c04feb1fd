/-
BeSdk.MergeSafetyTheorems — when the merge-safety lint resolves imports completely.

What the lint owes is told without the visitor: a chain denotes what the import clause that
binds its first name makes of it (`Denotes`), and where that is forbidden, something has
to be found for the chain or for its import (`Finds`). Which clause binds a name is
Python's; the results hold for every relation between chains and clauses, and
`sameVariable` is the one of static scopes.

The visitor reads a chain by the clause it has come by last, wherever that stands, and
asks the rules only beyond what the import names. The two come to the same on the modules
that are `Plain`.

* `finds_iff`: the lint finds what it owes and nothing else, if and only if the chains are
  read as they are bound.
* `finds_of_plain`: so it does where imports come first, bind each name once and bind no
  more than a module.
* `late_import_missed`: a function that uses an import below it.
-/
import Mathlib.Data.List.Induction
import BeSdk.MergeSafety.Visits

namespace BeSdk.MergeSafety

open Py

/-! ## What a chain gives off -/

/-- What a check finds hits a rule. -/
theorem mem_checked {path : Str} {d : Dotted} {line : Nat} {f : Finding}
    (h : f ∈ checked path d line) : f.path = path ∧ f.name = d.text ∧ Hits d.parts := by
  rw [checked, Option.mem_toList, Option.map_eq_some_iff] at h
  obtain ⟨w, hw, rfl⟩ := h
  exact ⟨rfl, rfl, (why_isSome_iff d).mp (hw ▸ rfl)⟩

/-- What hits a rule is found. -/
theorem exists_checked {d : Dotted} (path : Str) (line : Nat) (h : Hits d.parts) :
    ∃ f, f ∈ checked path d line := by
  obtain ⟨w, hw⟩ := Option.isSome_iff_exists.mp ((why_isSome_iff d).mpr h)
  exact ⟨⟨path, line, d.text, w⟩, by rw [checked, hw]; exact List.mem_singleton.mpr rfl⟩

/-- A part of a chain on its base, from the name outward. -/
def Part (base : Dotted) (self : Bool) (attrs : List (Nat × Ident)) (q : Dotted) : Prop :=
  ∃ inner, inner <:+ attrs ∧ (inner ≠ [] ∨ self = true) ∧ q = base.append (namesOf inner) ∧
    Hits q.parts

/-- A part begins the chain. -/
theorem Part.prefix {base : Dotted} {self : Bool} {attrs : List (Nat × Ident)} {q : Dotted}
    (h : Part base self attrs q) : q.parts <+: (base.append (namesOf attrs)).parts := by
  obtain ⟨inner, hsuffix, -, rfl, -⟩ := h
  have hnames : namesOf inner <+: namesOf attrs := List.reverse_prefix.mpr (hsuffix.map Prod.snd)
  rw [Dotted.parts_append, Dotted.parts_append]
  exact (List.prefix_append_right_inj _).mpr (hnames.map Subtype.val)

/-- A part of a longer chain is the whole or a part of the rest. -/
theorem part_cons {base q : Dotted} {self : Bool} {a : Nat × Ident} {attrs : List (Nat × Ident)} :
    Part base self (a :: attrs) q ↔ (q = base.append (namesOf (a :: attrs)) ∧ Hits q.parts) ∨
    Part base self attrs q := by
  constructor
  · rintro ⟨inner, hsuffix, hself, rfl, hhits⟩
    rcases List.suffix_cons_iff.mp hsuffix with rfl | hsuffix
    · exact .inl ⟨rfl, hhits⟩
    · exact .inr ⟨inner, hsuffix, hself, rfl, hhits⟩
  · rintro (⟨rfl, hhits⟩ | ⟨inner, hsuffix, hself, rfl, hhits⟩)
    · exact ⟨a :: attrs, List.suffix_rfl, .inl (by simp), rfl, hhits⟩
    · exact ⟨inner, hsuffix.trans (List.suffix_cons a attrs), hself, rfl, hhits⟩

/-- What is found of a chain is its longest part. -/
theorem longest_of_mem {path : Str} {base : Dotted} {self : Bool} {line : Nat} {f : Finding} :
    ∀ {attrs : List (Nat × Ident)}, f ∈ chainFindings path base self line attrs →
    f.path = path ∧ ∃ q, f.name = q.text ∧ Part base self attrs q ∧
    ∀ q', Part base self attrs q' → q'.parts <+: q.parts
  | [], h => by
      rw [chainFindings] at h
      split at h
      · next hself =>
          obtain ⟨hpath, hname, hhits⟩ := mem_checked h
          refine ⟨hpath, base, hname, ⟨[], List.suffix_rfl, .inr hself, by simp [namesOf],
            hhits⟩, ?_⟩
          intro q' hq'
          simpa [namesOf] using hq'.prefix
      · cases h
  | a :: attrs, h => by
      rw [chainFindings] at h
      split at h
      · next hnone =>
          obtain ⟨hpath, q, hname, hpart, hlongest⟩ := longest_of_mem h
          refine ⟨hpath, q, hname, part_cons.mpr (.inr hpart), fun q' hq' => ?_⟩
          rcases part_cons.mp hq' with ⟨rfl, hhits⟩ | hq'
          · obtain ⟨g, hg⟩ := exists_checked path a.1 hhits
            rw [hnone] at hg
            cases hg
          · exact hlongest q' hq'
      · obtain ⟨hpath, hname, hhits⟩ := mem_checked h
        refine ⟨hpath, _, hname, part_cons.mpr (.inl ⟨rfl, hhits⟩), fun q' hq' => hq'.prefix⟩

/-- A part of a chain that hits a rule is found. -/
theorem exists_chainFindings (path : Str) {base : Dotted} {self : Bool} (line : Nat)
    {q : Dotted} : ∀ {attrs : List (Nat × Ident)}, Part base self attrs q →
    ∃ f, f ∈ chainFindings path base self line attrs
  | [], h => by
      obtain ⟨inner, hsuffix, hself, rfl, hhits⟩ := h
      obtain rfl := List.suffix_nil.mp hsuffix
      rw [chainFindings, if_pos (hself.resolve_left fun hne => hne rfl)]
      exact exists_checked path line (by simpa [namesOf] using hhits)
  | a :: attrs, h => by
      rw [chainFindings]
      split
      · next hnone =>
          rcases part_cons.mp h with ⟨rfl, hhits⟩ | hpart
          · obtain ⟨g, hg⟩ := exists_checked path a.1 hhits
            rw [hnone] at hg
            cases hg
          · exact exists_chainFindings path line hpart
      · next found hfound => exact List.exists_mem_of_ne_nil _ hfound

/-- A reading's parts are what a chain is read as. -/
theorem readAs_iff {before : List Event} {c : Chain} {q : Dotted} :
    ReadAs before c q ↔ ∃ base self, reading before c = some (base, self) ∧
    Part base self c.attrs q := by
  constructor
  · rintro ⟨base, self, inner, hreading, hsuffix, hself, hq, hhits⟩
    exact ⟨base, self, hreading, inner, hsuffix, hself, hq, hhits⟩
  · rintro ⟨base, self, hreading, inner, hsuffix, hself, hq, hhits⟩
    exact ⟨base, self, inner, hreading, hsuffix, hself, hq, hhits⟩

/-- What a chain gives off names the longest that it is read as. -/
theorem named_of_mem_give {path : Str} {before : List Event} {c : Chain} {f : Finding}
    (h : f ∈ give path before (.chain c)) :
    f.path = path ∧ ∃ q, f.name = q.text ∧ Named before c q := by
  rw [give] at h
  split at h
  · next base self hreading =>
      obtain ⟨hpath, q, hname, hpart, hlongest⟩ := longest_of_mem h
      refine ⟨hpath, q, hname, readAs_iff.mpr ⟨base, self, hreading, hpart⟩, fun q' hq' => ?_⟩
      obtain ⟨base', self', hreading', hpart'⟩ := readAs_iff.mp hq'
      rw [hreading] at hreading'
      obtain ⟨rfl, rfl⟩ := Prod.mk.inj (Option.some.inj hreading')
      exact hlongest q' hpart'
  · cases h

theorem named_unique {before : List Event} {c : Chain} {q q' : Dotted} (h : Named before c q)
    (h' : Named before c q') : q = q' := by
  have hle := h.2 q' h'.1
  have hge := h'.2 q h.1
  exact Dotted.parts_inj.mp (hge.eq_of_length_le hle.length_le)

/-- A chain that is read as something gives off its longest. -/
theorem exists_named {before : List Event} {c : Chain} {q : Dotted} (path : Str)
    (h : ReadAs before c q) : ∃ f q', f ∈ give path before (.chain c) ∧ f.name = q'.text ∧
    Named before c q' := by
  obtain ⟨base, self, hreading, hpart⟩ := readAs_iff.mp h
  obtain ⟨f, hf⟩ := exists_chainFindings path c.line hpart
  have hgive : f ∈ give path before (.chain c) := by
    rw [give, hreading]
    exact hf
  obtain ⟨-, q', hname, hnamed⟩ := named_of_mem_give hgive
  exact ⟨f, q', hgive, hname, hnamed⟩

/-- A constructor of a metric is one of the attributes of its module. -/
def Metric (d : Dotted) : Prop := ∃ m ∈ metrics, d.parts = [str "prometheus_client", m]

/-- What counts as a metric's constructor. -/
theorem isMetric_iff (d : Dotted) : isMetric d = true ↔ Metric d := by
  have hparts : d.parts = d.parts.dropLast ++ [d.parts.getLast d.parts_ne_nil] :=
    (List.dropLast_append_getLast _).symm
  have hdots : ∀ p ∈ d.parts.dropLast, chr '.' ∉ p :=
    fun p hp => d.not_mem_parts p (List.dropLast_subset _ hp)
  rw [isMetric, rpartition_text, Bool.and_eq_true, decide_eq_true_eq, decide_eq_true_eq, Metric]
  generalize d.parts.getLast d.parts_ne_nil = last at hparts
  generalize d.parts.dropLast = module at hparts hdots
  rw [hparts]
  constructor
  · rintro ⟨hmodule, hlast⟩
    have hne : module ≠ [] := by
      rintro rfl
      have hempty : ([] : Str) = str "prometheus_client" := hmodule
      exact absurd hempty (by decide)
    have hsplit : (Str.join (str ".") module).splitOn (chr '.') = module := splitOn_join hne hdots
    have hone : (str "prometheus_client").splitOn (chr '.') = [str "prometheus_client"] := by decide
    have hmodule : Str.join (str ".") module = str "prometheus_client" := hmodule
    rw [hmodule, hone] at hsplit
    exact ⟨last, hlast, by rw [← hsplit]; rfl⟩
  · rintro ⟨m, hm, heq⟩
    obtain ⟨rfl, hlast⟩ := List.append_inj'
      (heq.trans (rfl : _ = [str "prometheus_client"] ++ [m])) rfl
    obtain rfl := (List.cons.inj hlast).1
    exact ⟨rfl, hm⟩

/-! ## What the lint owes -/

/-- A name that is loaded, or an attribute on a name. -/
def Chain.used (c : Chain) : Prop := c.load = true ∨ c.attrs ≠ []

/-- The chain `c` at `i` denotes `d` by the clause at `j` that binds its first name. A
relative import binds a module of the component's own, which no rule is about. -/
def Denotes (es : List Event) (binds : Nat → Nat → Prop) (i j : Nat) (c : Chain)
    (d : Dotted) : Prop :=
  binds i j ∧ ∃ k, es[j]? = some (.clause k) ∧ k.name = c.id ∧ k.relative = false ∧
    d = k.path.append c.names

/-- Both names are, or are under, one thing that is forbidden. -/
def Meets (q d : Dotted) : Prop := ∃ p, Hits p ∧ p <+: q.parts ∧ p <+: d.parts

/-- No import binds a name to a listed module or anything in one. -/
def Unlisted (es : List Event) : Prop :=
  ∀ (j : Nat) (k : Clause), es[j]? = some (.clause k) → k.relative = false → ¬ Listed k.path.parts

/-- The lint resolves the imports of a module completely: a chain that denotes something
forbidden has a finding, on its way, of its own or of its import; the constructor of a
metric without a registry has one; and where no import binds a listed module, nothing is
found but the built-in `exit` and `quit`, and what chains denote all the same (`import
urllib.request` binds `urllib`, which is not listed). -/
structure Finds (path : Str) (body : List Node) (binds : Nat → Nat → Prop) : Prop where
  chains : ∀ i j c d, (events body)[i]? = some (.chain c) → c.used →
    Denotes (events body) binds i j c d → Forbidden d.parts →
    ∃ f ∈ scanSource path body, f.path = path ∧ (∃ q, f.name = q.text ∧ Meets q d) ∧
      (f ∈ givenAt (give path) (events body) i ∨ f ∈ givenAt (give path) (events body) j)
  constructors : ∀ i j line c d, (events body)[i]? = some (.call line c false) →
    Denotes (events body) binds i j c d → Metric d → ∃ f ∈ scanSource path body, f.path =
    path ∧ f.name = d.text ∧ f ∈ givenAt (give path) (events body) i
  others : Unlisted (events body) → ∀ f ∈ scanSource path body, ∀ i, f ∈ givenAt (give path)
    (events body) i → f.name = str "builtins.exit" ∨ f.name = str "builtins.quit" ∨
      ∃ j c d q, (events body)[i]? = some (.chain c) ∧ Denotes (events body) binds i j c d ∧
      Forbidden d.parts ∧
        f.name = q.text ∧ Meets q d

/-! ## What the visitor reads -/

/-- The built-ins that end the process. -/
def Exits (q : Dotted) : Prop := q.text = str "builtins.exit" ∨ q.text = str "builtins.quit"

/-- A metric is no built-in. -/
theorem Metric.not_exits {d : Dotted} (h : Metric d) : ¬ Exits d := by
  obtain ⟨m, -, hparts⟩ := h
  have hhead : d.text.splitOn (chr '.') = [str "prometheus_client", m] :=
    (splitOn_text d).trans hparts
  rintro (hexit | hquit)
  · rw [hexit] at hhead
    exact absurd (List.cons.inj hhead).1 (by decide)
  · rw [hquit] at hhead
    exact absurd (List.cons.inj hhead).1 (by decide)

/-- The chains are read as they are bound. A forbidden chain is a part of an import that
is checked itself, or the longest that it is read as lies on its way; the constructor of
a metric is read as one; and where no import binds a listed module, no relative import is
read as a rule, and no chain or call as forbidden that is not bound so. -/
structure ReadAsBound (es : List Event) (binds : Nat → Nat → Prop) : Prop where
  chains : ∀ i j c d, es[i]? = some (.chain c) → c.used → Denotes es binds i j c d →
    Forbidden d.parts → (∃ k, es[j]? = some (.clause k) ∧ k.line.isSome = true ∧
      Hits k.path.parts) ∨ ∃ q, Named (es.take i) c q ∧ Meets q d
  constructors : ∀ i j line c d, es[i]? = some (.call line c false) →
    Denotes es binds i j c d → Metric d → ∃ k, seen c.id (es.take i) = some k ∧
    k.path.append c.names = d
  imports : Unlisted es → ∀ (j : Nat) (k : Clause), es[j]? = some (.clause k) →
    k.relative = true → k.line.isSome = true → Hits k.path.parts → Exits k.path
  others : Unlisted es → ∀ i c q, es[i]? = some (.chain c) → Named (es.take i) c q →
    Exits q ∨ ∃ j d, Denotes es binds i j c d ∧ Forbidden d.parts ∧ Meets q d
  calls : Unlisted es → ∀ i line c k, es[i]? = some (.call line c false) →
    seen c.id (es.take i) = some k → ¬ Metric (k.path.append c.names)

/-- What a clause gives off is its own path, which the rules hit. -/
theorem mem_give_clause {path : Str} {before : List Event} {k : Clause} {f : Finding}
    (h : f ∈ give path before (.clause k)) :
    f.path = path ∧ f.name = k.path.text ∧ k.line.isSome = true ∧ Hits k.path.parts := by
  rw [give] at h
  split at h
  · next line hline =>
      obtain ⟨hpath, hname, hhits⟩ := mem_checked h
      exact ⟨hpath, hname, by rw [hline]; rfl, hhits⟩
  · cases h

/-- A clause that hits a rule is reported. -/
theorem exists_give_clause (path : Str) (before : List Event)
    {k : Clause} (hline : k.line.isSome = true) (h : Hits k.path.parts) :
    ∃ f, f ∈ give path before (.clause k) := by
  obtain ⟨line, hline⟩ := Option.isSome_iff_exists.mp hline
  rw [give, hline]
  exact exists_checked path line h

/-- A call gives something off exactly when it is read as a metric by an import. -/
theorem mem_give_call {path : Str} {before : List Event} {line : Nat} {c : Chain}
    {registry : Bool} {f : Finding} (h : f ∈ give path before (.call line c registry)) :
    registry = false ∧ f.path = path ∧
      ∃ k, seen c.id before = some k ∧ f.name = (k.path.append c.names).text ∧
      Metric (k.path.append c.names) := by
  rw [give] at h
  split at h
  · next base self hreading =>
      split at h
      · next hmetric =>
          obtain rfl := List.mem_singleton.mp h
          have hm := (isMetric_iff _).mp hmetric.1
          refine ⟨hmetric.2, rfl, ?_⟩
          rw [reading] at hreading
          split at hreading
          · next k hseen =>
              obtain ⟨rfl, rfl⟩ := Prod.mk.inj (Option.some.inj hreading)
              exact ⟨k, hseen, rfl, hm⟩
          · split at hreading
            · -- `exit` and `quit` are no metrics
              obtain ⟨rfl, rfl⟩ := Prod.mk.inj (Option.some.inj hreading)
              obtain ⟨m, -, hparts⟩ := hm
              have hhead : str "builtins" = str "prometheus_client" := (List.cons.inj hparts).1
              exact absurd hhead (by decide)
            · cases hreading
      · cases h
  · cases h

/-- A metric without a registry is reported. -/
theorem give_call (path : Str) (line : Nat) {before : List Event} {c : Chain} {k : Clause}
    (hseen : seen c.id before = some k) (hm : Metric (k.path.append c.names)) :
    ⟨path, line, (k.path.append c.names).text, promText ++ str "; pass registry=rt.metrics"⟩ ∈
    give path before (.call line c false) := by
  have hreading : reading before c = some (k.path, false) := by rw [reading, hseen]
  rw [give, hreading]
  dsimp only
  rw [if_pos ⟨(isMetric_iff _).mpr hm, rfl⟩]
  exact List.mem_singleton.mpr rfl

/-! ## The equivalence -/

section
variable {path : Str} {body : List Node} {binds : Nat → Nat → Prop}

theorem given_of_give {i : Nat} {e : Event} {f : Finding} (hi : (events body)[i]? = some e)
    (h : f ∈ give path ((events body).take i) e) : f ∈ givenAt (give path) (events body) i := by
  rw [givenAt_eq hi]
  exact h

theorem mem_scan_of_given {i : Nat} {f : Finding}
    (h : f ∈ givenAt (give path) (events body) i) : f ∈ scanSource path body :=
  mem_scanSource.mpr ⟨i, h⟩

/-- What gives a finding: an import that is checked, a chain by what it is read as, or a
call that is read as a metric. -/
theorem given_cases {i : Nat} {f : Finding} (h : f ∈ givenAt (give path) (events body) i) :
    (∃ k, (events body)[i]? = some (.clause k) ∧ f.name = k.path.text ∧ k.line.isSome = true ∧
      Hits k.path.parts) ∨ (∃ c q, (events body)[i]? = some (.chain c) ∧ f.name = q.text ∧
      Named ((events body).take i) c q) ∨ ∃ line c k, (events body)[i]? =
      some (.call line c false) ∧ seen c.id ((events body).take i) = some k ∧
        Metric (k.path.append c.names) := by
  cases hi : (events body)[i]? with
  | none => simp [givenAt, hi] at h
  | some e =>
      rw [givenAt_eq hi] at h
      cases e with
      | clause k =>
          obtain ⟨-, hname, hline, hhits⟩ := mem_give_clause h
          exact .inl ⟨k, rfl, hname, hline, hhits⟩
      | chain c =>
          obtain ⟨-, q, hname, hnamed⟩ := named_of_mem_give h
          exact .inr (.inl ⟨c, q, rfl, hname, hnamed⟩)
      | call line c registry =>
          obtain ⟨rfl, -, k, hseen, -, hm⟩ := mem_give_call h
          exact .inr (.inr ⟨line, c, k, rfl, hseen, hm⟩)

/-- A chain that is forbidden has a finding exactly when its import is checked or it is
read on its way. -/
theorem finds_chain_iff {i j : Nat} {c : Chain} {d : Dotted}
    (hi : (events body)[i]? = some (.chain c)) (hd : Denotes (events body) binds i j c d) :
    (∃ f ∈ scanSource path body, f.path = path ∧ (∃ q, f.name = q.text ∧ Meets q d) ∧
      (f ∈ givenAt (give path) (events body) i ∨ f ∈ givenAt (give path) (events body) j)) ↔
    (∃ k, (events body)[j]? = some (.clause k) ∧ k.line.isSome = true ∧ Hits k.path.parts) ∨
      ∃ q, Named ((events body).take i) c q ∧ Meets q d := by
  obtain ⟨-, k, hj, -, -, rfl⟩ := hd
  constructor
  · rintro ⟨f, -, -, ⟨q, hname, hmeets⟩, hf | hf⟩
    · rw [givenAt_eq hi] at hf
      obtain ⟨-, q', hname', hnamed⟩ := named_of_mem_give hf
      obtain rfl := Dotted.text_inj.mp (hname.symm.trans hname')
      exact .inr ⟨q, hnamed, hmeets⟩
    · rw [givenAt_eq hj] at hf
      obtain ⟨-, -, hline, hhits⟩ := mem_give_clause hf
      exact .inl ⟨k, hj, hline, hhits⟩
  · rintro (⟨k', hj', hline, hhits⟩ | ⟨q, hnamed, hmeets⟩)
    · obtain rfl : k' = k := by
        rw [hj] at hj'
        exact (Event.clause.inj (Option.some.inj hj')).symm
      obtain ⟨f, hf⟩ := exists_give_clause path ((events body).take j) hline hhits
      obtain ⟨hpath, hname, -, -⟩ := mem_give_clause hf
      replace hf := given_of_give hj hf
      refine ⟨f, mem_scan_of_given hf, hpath,
        ⟨k'.path, hname, k'.path.parts, hhits, List.prefix_rfl, ?_⟩, .inr hf⟩
      rw [Dotted.parts_append]
      exact List.prefix_append ..
    · obtain ⟨f, q', hf, hname, hnamed'⟩ := exists_named path hnamed.1
      obtain rfl := named_unique hnamed hnamed'
      have hpath := (named_of_mem_give hf).1
      replace hf := given_of_give hi hf
      exact ⟨f, mem_scan_of_given hf, hpath, ⟨q, hname, hmeets⟩, .inl hf⟩

/-- A constructor is found where it names a metric. -/
theorem finds_constructor_iff {i line : Nat} {c : Chain} {d : Dotted}
    (hi : (events body)[i]? = some (.call line c false))
    (hm : Metric d) :
    (∃ f ∈ scanSource path body, f.path = path ∧ f.name = d.text ∧ f ∈ givenAt (give path)
      (events body) i) ↔ ∃ k, seen c.id ((events body).take i) = some k ∧
      k.path.append c.names = d := by
  constructor
  · rintro ⟨f, -, -, hname, hf⟩
    rw [givenAt_eq hi] at hf
    obtain ⟨-, -, k, hseen, hname', -⟩ := mem_give_call hf
    exact ⟨k, hseen, Dotted.text_inj.mp (hname'.symm.trans hname)⟩
  · rintro ⟨k, hseen, rfl⟩
    have hf := give_call path line hseen hm
    replace hf := given_of_give hi hf
    exact ⟨_, mem_scan_of_given hf, rfl, rfl, hf⟩

/-- What is found besides, told by what the visitor reads. -/
theorem finds_others_iff (hunlisted : Unlisted (events body)) :
    (∀ f ∈ scanSource path body, ∀ i, f ∈ givenAt (give path) (events body) i →
      f.name = str "builtins.exit" ∨ f.name = str "builtins.quit" ∨
        ∃ j c d q, (events body)[i]? = some (.chain c) ∧ Denotes (events body) binds i j c d ∧
        Forbidden d.parts ∧
          f.name = q.text ∧ Meets q d) ↔
    (∀ (j : Nat) (k : Clause), (events body)[j]? = some (.clause k) → k.relative = true →
      k.line.isSome = true →
        Hits k.path.parts → Exits k.path) ∧
      (∀ i c q, (events body)[i]? = some (.chain c) → Named ((events body).take i) c q →
        Exits q ∨ ∃ j d, Denotes (events body) binds i j c d ∧ Forbidden d.parts ∧ Meets q d) ∧
      ∀ i line c k, (events body)[i]? = some (.call line c false) →
      seen c.id ((events body).take i) = some k →
        ¬ Metric (k.path.append c.names) := by
  constructor
  · intro h
    refine ⟨fun j k hj _ hline hhits => ?_, fun i c q hi hnamed => ?_,
      fun i line c k hi hseen hm => ?_⟩
    · obtain ⟨f, hf⟩ := exists_give_clause path ((events body).take j) hline hhits
      have hname := (mem_give_clause hf).2.1
      replace hf := given_of_give hj hf
      rcases h f (mem_scan_of_given hf) j hf with hexit | hquit | ⟨-, c, -, -, hchain, -⟩
      · exact .inl (hname ▸ hexit)
      · exact .inr (hname ▸ hquit)
      · rw [hj] at hchain
        cases hchain
    · obtain ⟨f, q', hf, hname, hnamed'⟩ := exists_named path hnamed.1
      obtain rfl := named_unique hnamed hnamed'
      replace hf := given_of_give hi hf
      rcases h f (mem_scan_of_given hf) i hf with hexit | hquit | ⟨j, c', d, q', hchain, hd,
        hforbidden, hname', hmeets⟩
      · exact .inl (.inl (hname ▸ hexit))
      · exact .inl (.inr (hname ▸ hquit))
      · obtain rfl : c' = c := by
          rw [hi] at hchain
          exact (Event.chain.inj (Option.some.inj hchain)).symm
        obtain rfl := Dotted.text_inj.mp (hname.symm.trans hname')
        exact .inr ⟨j, d, hd, hforbidden, hmeets⟩
    · have hf := give_call path line hseen hm
      replace hf := given_of_give hi hf
      rcases h _ (mem_scan_of_given hf) i hf with hexit | hquit | ⟨-, c', -, -, hchain, -⟩
      · exact hm.not_exits (.inl hexit)
      · exact hm.not_exits (.inr hquit)
      · rw [hi] at hchain
        cases hchain
  · rintro ⟨himports, hchains, hcalls⟩ f - i hf
    rcases given_cases hf with ⟨k, hi, hname, hline, hhits⟩ | ⟨c, q, hi, hname,
      hnamed⟩ | ⟨line, c, k, hi, hseen, hm⟩
    · cases hrelative : k.relative with
      | false => exact absurd (listed_of_hits hhits) (hunlisted i k hi hrelative)
      | true =>
          rcases himports i k hi hrelative hline hhits with hexit | hquit
          · exact .inl (hname.trans hexit)
          · exact .inr (.inl (hname.trans hquit))
    · rcases hchains i c q hi hnamed with (hexit | hquit) | ⟨j, d, hd, hforbidden, hmeets⟩
      · exact .inl (hname.trans hexit)
      · exact .inr (.inl (hname.trans hquit))
      · exact .inr (.inr ⟨j, c, d, q, hi, hd, hforbidden, hname, hmeets⟩)
    · exact absurd hm (hcalls i line c k hi hseen)

/-- What is read as bound is found. -/
theorem finds_of_read (h : ReadAsBound (events body) binds) : Finds path body binds := by
  refine ⟨fun i j c d hi hused hd hforbidden => ?_, fun i j line c d hi hd hm => ?_, fun hu => ?_⟩
  · exact (finds_chain_iff hi hd).mpr (h.chains i j c d hi hused hd hforbidden)
  · exact (finds_constructor_iff hi hm).mpr (h.constructors i j line c d hi hd hm)
  · exact (finds_others_iff hu).mpr ⟨h.imports hu, h.others hu, h.calls hu⟩

/-- What is found is read as bound. -/
theorem read_of_finds (h : Finds path body binds) : ReadAsBound (events body) binds := by
  refine ⟨fun i j c d hi hused hd hforbidden => ?_, fun i j line c d hi hd hm => ?_,
    fun hu => ?_, fun hu => ?_, fun hu => ?_⟩
  · exact (finds_chain_iff hi hd).mp (h.chains i j c d hi hused hd hforbidden)
  · exact (finds_constructor_iff hi hm).mp (h.constructors i j line c d hi hd hm)
  · exact ((finds_others_iff hu).mp (h.others hu)).1
  · exact ((finds_others_iff hu).mp (h.others hu)).2.1
  · exact ((finds_others_iff hu).mp (h.others hu)).2.2

end

/-- **When the lint resolves imports completely.** For every module, its path, and
whichever clause binds the first name of each chain: every chain that denotes something
forbidden and every constructor of a metric without a registry has its finding, and no
other is found in a module that imports nothing listed, if and only if the chains are read
as they are bound. -/
theorem finds_iff (path : Str) (body : List Node) (binds : Nat → Nat → Prop) :
    Finds path body binds ↔ ReadAsBound (events body) binds := by
  constructor
  · intro h
    exact read_of_finds h
  · intro h
    exact finds_of_read h

/-! ## Plain modules -/

/-- What is seen is a clause of that name. -/
theorem mem_of_seen {id : Ident} {before : List Event} {k : Clause} (h : seen id before = some k) :
    Event.clause k ∈ before ∧ k.name = id := by
  induction before using List.reverseRecOn with
  | nil => cases h
  | append_singleton before e ih =>
      rw [seen_concat] at h
      split at h
      · split at h
        · next hname =>
            obtain rfl := Option.some.inj h
            exact ⟨List.mem_append_right before (List.mem_singleton.mpr rfl), hname⟩
        · exact ⟨List.mem_append_left _ (ih h).1, (ih h).2⟩
      · exact ⟨List.mem_append_left _ (ih h).1, (ih h).2⟩

/-- Past a clause of a name, one is seen. -/
theorem exists_seen {before : List Event} {k : Clause} (h : Event.clause k ∈ before) :
    ∃ k', seen k.name before = some k' := by
  induction before using List.reverseRecOn with
  | nil => cases h
  | append_singleton before e ih =>
      rw [seen_concat]
      rcases List.mem_append.mp h with hbefore | hlast
      · split
        · split
          · exact ⟨_, rfl⟩
          · exact ih hbefore
        · exact ih hbefore
      · obtain rfl := List.mem_singleton.mp hlast
        exact ⟨k, if_pos rfl⟩

/-- The first names on a chain are on a part of it. -/
theorem exists_inner {attrs : List (Nat × Ident)} {names : List Str}
    (h : names <+: (namesOf attrs).map Subtype.val) :
    ∃ inner, inner <:+ attrs ∧ (namesOf inner).map Subtype.val = names := by
  refine ⟨attrs.drop (attrs.length - names.length), List.drop_suffix _ _, ?_⟩
  rw [List.prefix_iff_eq_take.mp h]
  simp [namesOf, List.map_drop, List.take_reverse]
  omega

/-- The chain of an event. -/
def Event.chain? : Event → Option Chain
  | .clause _ => none
  | .chain c => some c
  | .call _ c _ => some c

/-- Imports come before what they bind, and each name is bound to one thing, by no
relative import. What an import without a `from` binds is not forbidden yet, nor lies what
one with a `from` binds below what the rules hit. A chain that an import could bind is
bound by one. -/
structure Plain (es : List Event) (binds : Nat → Nat → Prop) : Prop where
  absolute : ∀ (j : Nat) (k : Clause), es[j]? = some (.clause k) → k.relative = false
  first : ∀ (i j : Nat) (e : Event) (c : Chain) (k : Clause), es[i]? = some e → e.chain? = some c →
    es[j]? = some (.clause k) → k.name = c.id → j < i
  once : ∀ (j j' : Nat) (k k' : Clause), es[j]? = some (.clause k) →
    es[j']? = some (.clause k') → k.name = k'.name → k.path = k'.path
  shallow : ∀ (j : Nat) (k : Clause), es[j]? = some (.clause k) → Forbidden k.path.parts →
    k.line.isSome = true ∧ Hits k.path.parts
  bound : ∀ (i j : Nat) (c : Chain) (k : Clause), es[i]? = some (.chain c) →
    es[j]? = some (.clause k) → k.name = c.id → ∃ (j' : Nat) (k' : Clause), binds i j' ∧
    es[j']? = some (.clause k') ∧ k'.name = c.id

section
variable {es : List Event} {binds : Nat → Nat → Prop} (h : Plain es binds)
include h

/-- In a plain module what is seen is bound to the one thing of its name. -/
theorem Plain.read {i j : Nat} {e : Event} {c : Chain} {k : Clause} (hi : es[i]? = some e)
    (hc : e.chain? = some c) (hj : es[j]? = some (.clause k)) (hname : k.name = c.id) :
    ∃ k', seen c.id (es.take i) = some k' ∧ k'.path = k.path := by
  have hbefore : (es.take i)[j]? = some (.clause k) := by
    rw [List.getElem?_take_of_lt (h.first i j e c k hi hc hj hname)]
    exact hj
  obtain ⟨k', hseen⟩ := exists_seen (List.mem_of_getElem? hbefore)
  rw [hname] at hseen
  obtain ⟨hmem, hname'⟩ := mem_of_seen hseen
  obtain ⟨j', hj'⟩ := List.getElem?_of_mem (List.mem_of_mem_take hmem)
  exact ⟨k', hseen, h.once j' j k' k hj' hj (hname'.trans hname.symm)⟩

/-- What a chain denotes is forbidden by its import, or beyond it. -/
theorem Plain.named {i j : Nat} {c : Chain} {d : Dotted} (hi : es[i]? = some (.chain c))
    (hd : Denotes es binds i j c d) (hforbidden : Forbidden d.parts) :
    (∃ k, es[j]? = some (.clause k) ∧ k.line.isSome = true ∧ Hits k.path.parts) ∨
    ∃ q, Named (es.take i) c q ∧ Meets q d := by
  obtain ⟨-, k, hj, hname, -, rfl⟩ := hd
  by_cases himport : Forbidden k.path.parts
  · exact .inl ⟨k, hj, h.shallow j k hj himport⟩
  · obtain ⟨p, hhits, hprefix⟩ := forbidden_iff.mp hforbidden
    rw [Dotted.parts_append] at hprefix
    obtain ⟨k', hseen, hpath⟩ := h.read hi rfl hj hname
    -- The part of the chain that spells `p` out.
    obtain ⟨inner, hsuffix, rfl⟩ : ∃ inner, inner <:+ c.attrs ∧
      p = (k.path.append (namesOf inner)).parts := by
      rcases List.prefix_or_prefix_of_prefix hprefix
        (List.prefix_append _ _) with hshort | ⟨rest, rfl⟩
      · exact absurd (forbidden_iff.mpr ⟨p, hhits, hshort⟩) himport
      · obtain ⟨inner, hsuffix, hinner⟩ :=
          exists_inner ((List.prefix_append_right_inj _).mp hprefix)
        exact ⟨inner, hsuffix, by rw [Dotted.parts_append, hinner]⟩
    have hne : inner ≠ [] := by
      rintro rfl
      exact himport (forbidden_of_hits (by simpa [namesOf] using hhits))
    have hread : ReadAs (es.take i) c (k.path.append (namesOf inner)) :=
      ⟨k'.path, false, inner, by rw [reading, hseen], hsuffix, .inl hne, by rw [hpath], hhits⟩
    obtain ⟨-, q, -, -, hnamed⟩ := exists_named [] hread
    refine .inr ⟨q, hnamed, _, hhits, hnamed.2 _ hread, ?_⟩
    rw [Dotted.parts_append k.path c.names]
    exact hprefix

/-- What is read as forbidden by an import is bound so. -/
theorem Plain.denotes {i : Nat} {c : Chain} {k : Clause} {q : Dotted}
    (hi : es[i]? = some (.chain c)) (hseen : seen c.id (es.take i) = some k)
    (hq : ReadAs (es.take i) c q) : ∃ j d, Denotes es binds i j c d ∧ Forbidden d.parts ∧
    Meets q d := by
  obtain ⟨base, self, hreading, inner, hsuffix, hself, rfl, hhits⟩ := readAs_iff.mp hq
  have hprefix := Part.prefix ⟨inner, hsuffix, hself, rfl, hhits⟩
  rw [reading, hseen] at hreading
  obtain ⟨rfl, rfl⟩ := Prod.mk.inj (Option.some.inj hreading)
  obtain ⟨hmem, hname⟩ := mem_of_seen hseen
  obtain ⟨j, hj⟩ := List.getElem?_of_mem (List.mem_of_mem_take hmem)
  obtain ⟨j', k', hbinds, hj', hname'⟩ := h.bound i j c k hi hj hname
  have hpath := h.once j j' k k' hj hj' (hname.trans hname'.symm)
  refine ⟨j', k.path.append c.names,
    ⟨hbinds, k', hj', hname', h.absolute j' k' hj', by rw [hpath]⟩, ?_, ?_⟩
  · exact forbidden_iff.mpr ⟨_, hhits, hprefix⟩
  · exact ⟨_, hhits, List.prefix_rfl, hprefix⟩

end

/-- No built-in has a forbidden attribute. -/
theorem nil_of_builtin_hits {id : Ident} {names : List Ident}
    (h : Hits (str "builtins" :: id.val :: names.map Subtype.val)) : names = [] := by
  have hrules : ∀ r ∈ rules, (r.1.1.splitOn (chr '.')).head? = some (str "builtins") →
      r.1.1.splitOn (chr '.') = [str "builtins"] ∧ r.1.2 ≠ str "*" := by decide +kernel
  rcases h with ⟨module, attr, hparts, hrule⟩ | ⟨top, x, y, rest, hparts, ⟨r, hr, hmodule, hstar⟩⟩
  · cases module with
    | nil => cases hparts
    | cons top module =>
        obtain ⟨rfl, hparts⟩ := List.cons.inj hparts
        have hnil : module = [] := by
          rcases hrule with ⟨r, hr, hmodule, -⟩ | ⟨r, hr, hmodule, -⟩
          all_goals
            have hone := (hrules r hr (by rw [hmodule]; rfl)).1
            exact (List.cons.inj (hmodule.symm.trans hone)).2
        rw [hnil] at hparts
        exact List.map_eq_nil_iff.mp (List.cons.inj (List.cons.inj hparts).2).2
  · obtain ⟨rfl, -⟩ := List.cons.inj hparts
    exact absurd hstar (hrules r hr (by rw [hmodule]; rfl)).2

/-- **Plain modules.** In every plain module the lint finds what it owes and nothing
else. -/
theorem finds_of_plain {body : List Node} {binds : Nat → Nat → Prop} (path : Str)
    (h : Plain (events body) binds) : Finds path body binds := by
  refine finds_of_read ⟨fun i j c d hi _ hd hforbidden => h.named hi hd hforbidden, ?_, ?_, ?_, ?_⟩
  · rintro i j line c d hi ⟨-, k, hj, hname, -, rfl⟩ -
    obtain ⟨k', hseen, hpath⟩ := h.read hi rfl hj hname
    exact ⟨k', hseen, by rw [hpath]⟩
  · intro _ j k hj hrelative
    rw [h.absolute j k hj] at hrelative
    cases hrelative
  · intro _ i c q hi hnamed
    cases hseen : seen c.id ((events body).take i) with
    | some k => exact .inr (h.denotes hi hseen hnamed.1)
    | none =>
        obtain ⟨base, self, hreading, inner, -, -, rfl, hhits⟩ := readAs_iff.mp hnamed.1
        rw [reading, hseen] at hreading
        dsimp only at hreading
        split at hreading
        · next hexit =>
            obtain ⟨rfl, -⟩ := Prod.mk.inj (Option.some.inj hreading)
            have hnil : namesOf inner = [] := nil_of_builtin_hits hhits
            rw [hnil, Dotted.append_nil]
            refine .inl (hexit.imp (fun hid => ?_) fun hid => ?_)
            · rw [Dotted.text, Dotted.parts, List.map_cons, List.map_singleton, hid]
              rfl
            · rw [Dotted.text, Dotted.parts, List.map_cons, List.map_singleton, hid]
              rfl
        · cases hreading
  · rintro hunlisted i line c k - hseen ⟨m, -, hparts⟩
    obtain ⟨j, hj⟩ := List.getElem?_of_mem (List.mem_of_mem_take (mem_of_seen hseen).1)
    have hrule : IsRule [str "prometheus_client"] (str "REGISTRY") :=
      ⟨rule "prometheus_client" "REGISTRY" promText, by decide +kernel, by decide, rfl⟩
    have hhead : k.path.head.val = str "prometheus_client" := (List.cons.inj hparts).1
    refine hunlisted j k hj (h.absolute j k hj) ⟨_, _, hrule, ?_⟩
    rw [← hhead]
    exact ⟨k.path.tail.map Subtype.val, rfl⟩

/-! ## Imports that are missed -/

def osName : Ident := ⟨str "os", by decide⟩
def getenvName : Ident := ⟨str "getenv", by decide⟩

/-- `def f(): return os.getenv("X")`, then `import os`. -/
def lateImport : List Node := [
  .binder ⟨str "f", by decide⟩,
  .block .function [] [
    .other [.call 2 (.attribute 2 (.name 2 osName true) getenvName) [.other []] []]],
  .import_ [{ name := ⟨osName, []⟩ }]]

/-- `from .logging import getLogger` -/
def ownLogging : List Node := [.importFrom 1 (some ⟨⟨str "logging", by decide⟩, []⟩)
    [{ name := ⟨str "getLogger", by decide⟩ }] 1]

/-- A function that uses an import below it is not found, and a module of the component's
own is. -/
theorem late_import_missed :
    scanSource (str "m.py") lateImport = [] ∧ ¬ Finds (str "m.py") lateImport
    (sameVariable lateImport) ∧
      (scanSource (str "m.py") ownLogging).map Finding.name = [str "logging.getLogger"] ∧
      ¬ Finds (str "m.py") ownLogging (sameVariable ownLogging) := by
  have hlate : scanSource (str "m.py") lateImport = [] := by decide +kernel
  have hown : (scanSource (str "m.py") ownLogging).map Finding.name =
    [str "logging.getLogger"] := by decide +kernel
  refine ⟨hlate, fun h => ?_, hown, fun h => ?_⟩
  · -- The chain is the second event and its import the third, both of the module.
    have hvariable : sameVariable lateImport 1 2 := ⟨_, _, rfl, rfl, rfl⟩
    have hrule : IsRule [str "os"] (str "getenv") :=
      ⟨rule "os" "getenv" envText, by decide +kernel, by decide, rfl⟩
    have hforbidden : Forbidden [str "os", str "getenv"] := ⟨_, _, .inl hrule, List.prefix_rfl⟩
    obtain ⟨f, hf, -⟩ := h.chains 1 2 ⟨2, osName, true, [(2, getenvName)]⟩ _ rfl (.inl rfl)
      ⟨hvariable, ⟨osName, ⟨osName, []⟩, none, false⟩, rfl, rfl, rfl, rfl⟩ hforbidden
    rw [hlate] at hf
    cases hf
  · have hunlisted : Unlisted (events ownLogging) := by
      intro j k hj hrelative
      match j with
      | 0 =>
          obtain rfl := Event.clause.inj (Option.some.inj hj)
          cases hrelative
      | j + 1 => cases hj
    obtain ⟨f, hf⟩ : ∃ f, f ∈ scanSource (str "m.py") ownLogging := by
      refine List.exists_mem_of_ne_nil _ fun hnil => ?_
      rw [hnil] at hown
      cases hown
    have hname : f.name = str "logging.getLogger" :=
      List.mem_singleton.mp (hown ▸ List.mem_map_of_mem hf)
    obtain ⟨i, hi⟩ := mem_scanSource.mp hf
    rcases h.others hunlisted f hf i hi with hexit | hquit | ⟨j, c, d, q, hchain, -⟩
    · rw [hname] at hexit
      exact absurd hexit (by decide)
    · rw [hname] at hquit
      exact absurd hquit (by decide)
    · match i with
      | 0 => cases hchain
      | i + 1 => cases hchain

end BeSdk.MergeSafety
