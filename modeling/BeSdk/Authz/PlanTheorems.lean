/-
BeSdk.Authz.PlanTheorems — a compiled list says of a row what single-record
evaluation says of it.

The compiler's steps append arguments and return predicates that refer to them, so
what a predicate means is only fixed once the arguments are: `Emits base x Q` says
that whatever `x` returns satisfies `Q` under every list of arguments that holds
`x`'s at `base`. It composes like a Hoare triple (`Emits.bind`), and every compiler
function gets one such statement. The compiled segment matches a row as
`Segment.Matches` does WITH empty paths, evaluation does WITHOUT
(`BeSdk.Authz.Match`), and that is the only difference (`plan_agrees`).
-/
import BeSdk.Authz.Plan
import BeSdk.Py.JsonTheorems
import BeSdk.Authz.Match
import BeSdk.Sql.PredTheorems

namespace BeSdk

open Sql (Pred Param Arg Comparison Value Engine)

/-! ## Arguments -/

/-- The arguments of a compilation, in their place among the query's. -/
def Bound (base : Nat) (args full : List Arg) : Prop :=
  ∃ before after, before.length = base ∧ full = before ++ args ++ after

/-- What is bound after more arguments were added is bound before. -/
theorem Bound.of_prefix {base : Nat} {args args' full : List Arg} (hp : args <+: args')
    (h : Bound base args' full) : Bound base args full := by
  obtain ⟨rest, rfl⟩ := hp
  obtain ⟨before, after, hlen, rfl⟩ := h
  exact ⟨before, rest ++ after, hlen, by simp⟩

/-- The computation appends arguments, and its result satisfies `Q` under them. -/
def Emits {α : Type} (base : Nat) (x : Compile α) (Q : List Arg → α → Prop) : Prop :=
  ∀ args a args', x args = .ok (a, args') → args <+: args' ∧ ∀ full, Bound base args' full →
    Q full a

section
variable {α β : Type} {base : Nat}

theorem Emits.pure {a : α} {Q : List Arg → α → Prop} (h : ∀ full, Q full a) :
    Emits base (pure a) Q := by
  intro args b args' hx
  obtain ⟨rfl, rfl⟩ := Prod.mk.inj (Except.ok.inj hx)
  exact ⟨List.prefix_rfl, fun full _ => h full⟩

/-- One compilation after another emits what the second does, given what the first did. -/
theorem Emits.bind {x : Compile α} {f : α → Compile β} {P : List Arg → α → Prop}
    {Q : List Arg → β → Prop} (hx : Emits base x P)
    (hf : ∀ a, Emits base (f a) fun full b => P full a → Q full b) : Emits base (x >>= f) Q := by
  intro args b args'' h
  obtain ⟨⟨a, args'⟩, ha, hb⟩ := bind_eq_ok_iff.mp h
  obtain ⟨hp, hP⟩ := hx args a args' ha
  obtain ⟨hp', hQ⟩ := hf a args' b args'' hb
  exact ⟨hp.trans hp', fun full hfull => hQ full hfull (hP full (hfull.of_prefix hp'))⟩

theorem Emits.throw {e : Exc} {Q : List Arg → α → Prop} : Emits base (throw e) Q := by
  intro args a args' h
  cases h

theorem Emits.throw_bind {e : Exc} {f : α → Compile β} {Q : List Arg → β → Prop} :
    Emits base ((MonadExcept.throw e : Compile α) >>= f) Q := by
  intro args b args' h
  cases h

/-- What is emitted may be weakened. -/
theorem Emits.mono {x : Compile α} {P Q : List Arg → α → Prop} (hx : Emits base x P)
    (h : ∀ full a, P full a → Q full a) : Emits base x Q := fun args a args' ha =>
  ⟨(hx args a args' ha).1, fun full hfull => h full a ((hx args a args' ha).2 full hfull)⟩

/-- An argument stands at the index it is given. -/
theorem Compiler.emits_arg (c : Compiler) (v : Arg) :
    Emits c.base (c.arg v) fun full i => full[i]? = some v := by
  intro args i args' h
  obtain ⟨rfl, rfl⟩ := Prod.mk.inj (Except.ok.inj h)
  refine ⟨List.prefix_append .., ?_⟩
  rintro full ⟨before, after, hlen, rfl⟩
  rw [← hlen]
  simp

end

/-! ## Patterns -/

/-- The three replacements escape each character on its own. -/
theorem likeEscape_eq (s : Str) : likeEscape s = s.flatMap Sql.quoteLike := by
  induction s with
  | nil => rfl
  | cons c s ih =>
      have hone : likeEscape [c] = Sql.quoteLike c := by
        by_cases hb : c = chr '\\'
        · subst hb; rfl
        by_cases hp : c = chr '%'
        · subst hp; rfl
        by_cases hu : c = chr '_'
        · subst hu; rfl
        · simp [likeEscape, Str.replace, Sql.quoteLike, hb, hp, hu]
      have happend : likeEscape (c :: s) = likeEscape [c] ++ likeEscape s := by
        simp [likeEscape, Str.replace]
      rw [happend, hone, ih, List.flatMap_cons]

/-- The pattern of a subtree matches what is below its path. -/
theorem like_subtree (path s : Str) :
    Sql.like (likeEscape path ++ str "/%") s = Str.startsWith s (path ++ str "/") := by
  have hpattern : likeEscape path ++ str "/%" = (path ++ str "/").flatMap Sql.quoteLike ++
    [chr '%'] := by
    rw [likeEscape_eq, List.flatMap_append, List.append_assoc]
    rfl
  rw [Bool.eq_iff_iff, hpattern, Sql.like_quoteLike, Str.startsWith_iff]
  simp [Sql.like_percent]

/-! ## Compiled conditions -/

/-- The row as the predicates name its columns. -/
def Row.columns (row : Row) (c : ColumnRef) : Value := row c.name

section
variable [Engine] (row : Row)

/-! ### What is selected -/

/-- What the predicate of a tree item says of a value. -/
def TreeItem.Selects (it : TreeItem) (v : Value) : Prop :=
  v.testParam [.text it.path] .eq ⟨0, none⟩ = .true ∨
    (it.mode = .subtree ∧ v.testLike [.text (likeEscape it.path ++ str "/%")] 0 = .true)

/-- What the comparison with one bound says of a value. -/
def boundSelects (v : Value) (closed : Option Bool) (incl excl : Comparison)
    (bound : Option Str) : Prop :=
  ∀ s ∈ bound, v.testParam [.text s] (if closed.getD false then incl else excl)
    ⟨0, some .numeric⟩ = .true

/-- What the predicate of an atom says of a row, of whatever types its columns are. -/
def Atom.Selects (a : Atom) (d : Dimension) (principal : Str) : Prop :=
  match a.kind with
  | .all => True
  | .in_ => (row d.column).testAny [.texts a.values] ⟨0, none⟩ = .true
  | .self_ => (row d.column).testParam [.text principal] .eq ⟨0, none⟩ = .true
  | .tree => ∃ it ∈ a.items, it.Selects (row d.column)
  | .interval => row d.column ≠ .null ∧
      (row d.currencyColumn).testParam [.text a.currency] .eq ⟨0, none⟩ = .true ∧
      boundSelects (row d.column) a.loClosed .ge .gt a.lo ∧
      boundSelects (row d.column) a.hiClosed .le .lt a.hi
  | .other _ => False

/-- What the predicate of a segment says of a row. -/
def Segment.Selects (s : Segment) (r : Resource) (principal : Str) : Prop :=
  ∀ p ∈ s.atoms.entries, ∀ d, r.dims.get? p.1 = some d → p.2.Selects row d principal

/-- The predicate of a tree item says of the column what the item does. -/
theorem Compiler.emits_item (c : Compiler) {col : ColumnRef} (it : TreeItem) :
    Emits c.base (c.item col it) fun full p =>
      p.eval full row.columns = .true ↔ it.Selects (row col.name) := by
  have hcol : row.columns col = row col.name := rfl
  unfold Compiler.item TreeItem.Selects
  split
  · next hmode =>
      refine (c.emits_arg _).bind fun path => (c.emits_arg _).bind fun pattern =>
        .pure fun full hpattern hpath => ?_
      rw [Sql.eval_or_eq_true_iff]
      simp only [List.mem_cons, List.not_mem_nil, or_false, exists_eq_or_imp, exists_eq_left,
        Pred.eval, hcol, hmode, true_and]
      rw [Sql.testParam_alone hpath, Sql.testLike_alone hpattern]
  · next hmode =>
      refine (c.emits_arg _).bind fun path => .pure fun full hpath => ?_
      rw [Pred.eval, hcol, Sql.testParam_alone hpath]
      simp [hmode]

theorem Compiler.emits_items (c : Compiler) {col : ColumnRef} : ∀ (items : List TreeItem),
    Emits c.base (c.items col items) fun full ps =>
      (∃ p ∈ ps, p.eval full row.columns = .true) ↔ ∃ it ∈ items, it.Selects (row col.name)
  | [] => .pure fun full => by simp
  | it :: items => by
      refine (c.emits_item row it).bind fun p => (c.emits_items items).bind fun ps =>
        .pure fun full hps hp => ?_
      simp only [List.mem_cons, exists_eq_or_imp, hp, hps]

/-- A disjunction is true where one of its parts is. -/
theorem eval_orAll_eq_true_iff {full : List Arg} {columns : ColumnRef → Value}
    (ps : List (Pred ColumnRef)) : (orAll ps).eval full columns = .true ↔
    ∃ p ∈ ps, p.eval full columns = .true := by
  rw [orAll]
  cases ps with
  | nil => simp
  | cons p ps => rw [List.isEmpty_cons, if_neg (by decide), Sql.eval_or_eq_true_iff]

theorem Compiler.emits_bound (c : Compiler) (col : ColumnRef) (closed : Option Bool)
    (incl excl : Comparison) (bound : Option Str) :
    Emits c.base (c.bound col closed incl excl bound) fun full ps =>
      (∀ p ∈ ps, p.eval full row.columns = .true) ↔
        boundSelects (row col.name) closed incl excl bound := by
  have hcol : row.columns col = row col.name := rfl
  unfold boundSelects
  cases bound with
  | none => exact .pure fun full => by simp
  | some s =>
      refine (c.emits_arg _).bind fun i => .pure fun full hi => ?_
      simp only [List.mem_singleton, forall_eq, Pred.eval, hcol, Sql.testParam_alone hi,
        Option.mem_def, Option.some.injEq, forall_eq']

/-- A compiled atom is true of the rows that the atom selects. -/
theorem Compiler.emits_atom (c : Compiler) {dim : Str} {a : Atom} {d : Dimension}
    (hd : c.r.dims.get? dim = some d) : Emits c.base (c.atom dim a) fun full p =>
      (∀ q ∈ p, q.eval full row.columns = .true) ↔ a.Selects row d c.principal := by
  have hcol : row.columns (c.col d.column) = row d.column := rfl
  unfold Compiler.atom
  rw [hd]
  dsimp only
  split
  · exact .throw
  unfold Atom.Selects
  cases hk : a.kind with
  | all => exact .pure fun full => by simp
  | other k => exact .throw
  | in_ =>
      dsimp only
      split
      · next hempty =>
        rw [List.isEmpty_iff.mp hempty]
        exact .pure fun full => by simp [Sql.testAny_nil_ne_true]
      · refine (c.emits_arg _).bind fun i => .pure fun full hi => ?_
        simp only [Option.mem_def, Option.some.injEq, forall_eq', Pred.eval, hcol,
          Sql.testAny_alone hi]
  | self_ =>
      refine (c.emits_arg _).bind fun i => .pure fun full hi => ?_
      simp only [Option.mem_def, Option.some.injEq, forall_eq', Pred.eval, hcol,
        Sql.testParam_alone hi]
  | tree =>
      refine (c.emits_items row a.items).bind fun ps => .pure fun full hps => ?_
      simp only [Option.mem_def, Option.some.injEq, forall_eq', eval_orAll_eq_true_iff, hps]
      rfl
  | interval =>
      refine (c.emits_arg _).bind fun currency =>
        (c.emits_bound row (c.col d.column) a.loClosed .ge .gt a.lo).bind fun lo =>
          (c.emits_bound row (c.col d.column) a.hiClosed .le .lt a.hi).bind fun hi =>
            .pure fun full hhi hlo hcur => ?_
      have hcurcol : row.columns (c.col d.currencyColumn) = row d.currencyColumn := rfl
      simp only [Option.mem_def, Option.some.injEq, forall_eq', Sql.eval_and_eq_true_iff,
        List.forall_mem_append, List.forall_mem_cons, Sql.eval_notNull_eq_true_iff, hcol]
      simp only [Pred.eval, hcurcol, Sql.testParam_alone hcur, hlo, hhi]
      simp [and_assoc, Compiler.col]

/-- The predicates of atoms are all true exactly where each atom selects the row. -/
theorem Compiler.emits_atoms (c : Compiler) : ∀ l : List (Str × Atom),
    Emits c.base (c.atoms l) fun full ps => (∀ p ∈ ps, p.eval full row.columns = .true) ↔
      ∀ p ∈ l, ∀ d, c.r.dims.get? p.1 = some d → p.2.Selects row d c.principal
  | [] => .pure fun full => by simp
  | (dim, a) :: l => by
      cases hd : c.r.dims.get? dim with
      | none =>
          unfold Compiler.atoms Compiler.atom
          rw [hd]
          exact .throw_bind
      | some d =>
          refine (c.emits_atom row hd).bind fun p => (c.emits_atoms l).bind fun ps =>
            .pure fun full hps hp => ?_
          rw [List.forall_mem_append, List.forall_mem_cons, hps]
          simp only [Option.mem_toList, hd, Option.some.injEq, forall_eq']
          rw [← hp]
          simp only [Option.mem_def]

/-- A compiled segment is true of the rows that the segment selects. -/
theorem Compiler.emits_segment (c : Compiler) (s : Segment) :
    Emits c.base (c.segment s) fun full p =>
      p.eval full row.columns = .true ↔ s.Selects row c.r c.principal := by
  refine (c.emits_atoms row _).bind fun ps => .pure fun full hps => ?_
  have hselects : s.Selects row c.r c.principal ↔ ∀ p ∈ ps, p.eval full row.columns = .true := by
    rw [hps, Segment.Selects]
    exact forall_congr' fun p => by rw [List.mem_insertionSort]
  rw [hselects]
  cases ps with
  | nil => simp
  | cons p ps => rw [List.isEmpty_cons, if_neg (by decide), Sql.eval_and_eq_true_iff]

/-! ### Rows of the declared types -/

variable {row}

/-- A tree item selects the texts it holds of. -/
theorem TreeItem.selects_iff (it : TreeItem) {v : Value} (hv : v = .null ∨ ∃ s, v = .text s) :
    it.Selects v ↔ ∃ s, v = .text s ∧ it.holds s = true := by
  unfold TreeItem.Selects
  rcases hv with rfl | ⟨s, rfl⟩
  · simp
  · rw [Sql.testParam_text rfl, Sql.testLike_text rfl, like_subtree]
    simp [TreeItem.holds]

/-- A present bound selects the finite numbers within it. -/
theorem boundSelects_iff (x : Dec) (closed : Option Bool) (incl excl : Comparison)
    {bound : Option Str} (hbound : ∀ s ∈ bound, decimalFullmatch s = true) :
    boundSelects (.numeric (.finite x)) closed incl excl bound ↔
      ∀ s ∈ bound, ∀ b, readDecimal s = some b →
        if closed.getD false then incl.rel x.value b.value else excl.rel x.value b.value := by
  unfold boundSelects
  cases bound with
  | none => simp
  | some s =>
      obtain ⟨b, hb⟩ := readDecimal_of_fullmatch (hbound s rfl)
      have hget : [Arg.text s][0]? = some (.text s) := rfl
      simp only [Option.mem_def, Option.some.injEq, forall_eq',
        Sql.testParam_decimal_eq_true_iff hget (hbound s rfl) hb, hb]
      split <;> rfl

omit [Engine] in
/-- The column of a dimension that is no amount is null or a text. -/
theorem FactOf.null_or_text {row : Row} {d : Dimension} {f : Fact} (hf : FactOf row d f)
    (hkind : d.kind ≠ .amount) : row d.column = .null ∨ ∃ s, row d.column = .text s := by
  cases hf with
  | null h => exact Or.inl h
  | text s _ h => exact Or.inr ⟨s, h⟩
  | amount _ _ _ _ h => exact absurd h hkind

/-- An atom selects the rows where it holds, empty paths counted. -/
theorem Atom.selects_iff_holds {a : Atom} {d : Dimension} {f : Fact} {principal : Str}
    (hf : FactOf row d f) (hbad : a.bad d = some false) (hproper : a.Proper d) :
    a.Selects row d principal ↔ a.Holds true d row principal := by
  unfold Atom.bad at hbad
  unfold Atom.Selects Atom.Holds
  cases hk : a.kind with
  | all => rfl
  | other k => rfl
  | in_ =>
      dsimp only
      rcases hf.null_or_text (hproper.1 hk) with hnull | ⟨v, hv⟩
      · simp [hnull]
      · rw [hv, Sql.testAny_text_eq_true_iff rfl]
        simp
  | self_ =>
      dsimp only
      rcases hf.null_or_text (by intro h; simp [hk, h] at hbad) with hnull | ⟨v, hv⟩
      · simp [hnull]
      · rw [hv, Sql.testParam_text rfl]
        simp
  | tree =>
      dsimp only
      simp only [TreeItem.selects_iff _ (hf.null_or_text (by intro h; simp [hk, h] at hbad)),
        implies_true, true_and]
      constructor
      · rintro ⟨it, hit, v, hv, hholds⟩
        exact ⟨v, hv, it, hit, hholds⟩
      · rintro ⟨v, hv, it, hit, hholds⟩
        exact ⟨it, hit, v, hv, hholds⟩
  | interval =>
      have hkind : d.kind = .amount := by
        by_contra hne
        simp [hk, hne] at hbad
      dsimp only
      cases hf with
      | null hnull => simp [hnull]
      | text s hne => exact absurd hkind hne
      | amount x x' s currency _ hx hc =>
          rw [hx, hc, Sql.testParam_text rfl,
            boundSelects_iff x _ _ _ fun s hs => hproper.2 hk s (Or.inl hs),
            boundSelects_iff x _ _ _ fun s hs => hproper.2 hk s (Or.inr hs)]
          simp [aboveBound, belowBound, Comparison.rel]

/-- What is asked of a segment to be compiled and evaluated. -/
structure Fits (r : Resource) (s : Segment) : Prop where
  check : s.check r = .ok ()
  proper : s.Proper r

/-- An active segment selects the rows it matches, empty paths counted. -/
theorem Segment.selects_iff_matches {r : Resource} {s : Segment} {principal : Str} {at_ : Instant}
    (hs : Fits r s) (hrow : ∀ dim d, r.dims.get? dim = some d → ∃ f, FactOf row d f)
    (hact : s.activeAt at_ = true) :
    s.Selects row r principal ↔ s.Matches true r row principal at_ := by
  have hatom : ∀ dim a d, s.atoms.get? dim = some a → r.dims.get? dim = some d →
      (a.Selects row d principal ↔ a.Holds true d row principal) := by
    intro dim a d ha hd
    obtain ⟨d', hd', hbad⟩ := Segment.atom_of_check hs.check ha
    obtain rfl := Option.some.inj (hd.symm.trans hd')
    obtain ⟨f, hf⟩ := hrow dim d hd
    exact Atom.selects_iff_holds hf hbad (hs.proper dim a d ha hd)
  constructor
  · intro h
    refine ⟨hact, fun dim a d ha hd => ?_⟩
    exact (hatom dim a d ha hd).mp (h (dim, a) (Dict.get?_eq_some_iff.mp ha) d hd)
  · rintro ⟨-, h⟩ ⟨dim, a⟩ hmem d hd
    have ha := Dict.get?_eq_some_iff.mpr hmem
    exact (hatom dim a d ha hd).mpr (h dim a d ha hd)

/-- The predicates say of the row what the segments do. -/
def Compiled (r : Resource) (principal : Str) (at_ : Instant) (row : Row) (full : List Arg)
    (segs : List Segment) (ps : List (Pred ColumnRef)) : Prop :=
  List.Forall₂ (fun s p => p.eval full row.columns = .true ↔
    s.Matches true r row principal at_) segs ps

/-- The predicates of active segments are true exactly where the segments match. -/
theorem Compiler.emits_segments (c : Compiler) {at_ : Instant}
    (hrow : ∀ dim d, c.r.dims.get? dim = some d → ∃ f, FactOf row d f) :
    ∀ {segs : List Segment}, (∀ s ∈ segs, Fits c.r s ∧ s.activeAt at_ = true) →
    Emits c.base (c.segments segs) fun full ps => Compiled c.r c.principal at_ row full segs ps
  | [], _ => .pure fun full => .nil
  | s :: segs, h => by
      rw [List.forall_mem_cons] at h
      refine (c.emits_segment row s).bind fun p => (c.emits_segments hrow h.2).bind fun ps =>
        .pure fun full hps hp => .cons ?_ hps
      exact hp.trans (Segment.selects_iff_matches h.1.1 hrow h.1.2)

/-- Their disjunction is true exactly where one of the segments matches. -/
theorem Compiled.orAll {r : Resource} {principal : Str} {at_ : Instant} {full : List Arg}
    {segs : List Segment} {ps : List (Pred ColumnRef)}
    (h : Compiled r principal at_ row full segs ps) : (orAll ps).eval full row.columns =
    .true ↔ ∃ s ∈ segs, s.Matches true r row principal at_ := by
  rw [eval_orAll_eq_true_iff]
  induction h with
  | nil => simp
  | cons hab _ ih => simp only [List.mem_cons, exists_eq_or_imp, hab, ih]

/-- Coalescing the predicates does not change where they are true. -/
theorem Compiled.coalesce {r : Resource} {principal : Str} {at_ : Instant} {full : List Arg}
    {segs : List Segment} {ps : List (Pred ColumnRef)}
    (h : Compiled r principal at_ row full segs ps) :
    Compiled r principal at_ row full segs (ps.map .coalesce) := by
  rw [Compiled, List.forall₂_map_right_iff]
  exact h.imp fun s p hp => (Sql.eval_coalesce_eq_true_iff p).trans hp

/-! ## Compiled lists -/

omit [Engine] in
theorem mem_activeFor {segs : List Segment} {key : Str} {at_ : Instant} {s : Segment} :
    s ∈ activeFor segs key at_ ↔ s ∈ segs ∧ s.operation = key ∧ s.activeAt at_ = true := by
  rw [activeFor, List.mem_filter, Bool.and_eq_true, decide_eq_true_eq]

/-- Some segment of an operation matches the row. -/
def SomeMatch (emptyPath : Bool) (r : Resource) (segs : List Segment) (key principal : Str)
    (at_ : Instant) (row : Row) : Prop :=
  ∃ s ∈ segs, s.operation = key ∧ s.Matches emptyPath r row principal at_

/-- A matching segment of an operation reads a declared field that is not secret. -/
def SomeReads (emptyPath : Bool) (r : Resource) (segs : List Segment) (key principal : Str)
    (at_ : Instant) (row : Row) (f : Str) : Prop :=
  r.outputs f = true ∧
    ∃ s ∈ segs, s.operation = key ∧ s.Matches emptyPath r row principal at_ ∧ f ∈ s.readFields

/-- What a compiled list says of a row under the arguments. -/
structure Listed (r : Resource) (segs : List Segment) (op principal : Str) (at_ : Instant)
    (row : Row) (full : List Arg) (plan : Plan) : Prop where
  where_ : plan.where_.eval full row.columns = .true ↔
    SomeMatch true r segs r.viewOperation principal at_ row ∧
    SomeMatch true r segs op principal at_ row
  hits : Compiled r principal at_ row full (activeFor segs op at_) plan.hits
  sets : plan.sets = (activeFor segs op at_).map fun s => s.readFields.filter r.outputs

omit [Engine] in
/-- Some segment matches exactly where some active one of the operation does. -/
theorem someMatch_iff {e : Bool} {r : Resource} {segs : List Segment} {key principal : Str}
    {at_ : Instant} {row : Row} : SomeMatch e r segs key principal at_ row ↔
      ∃ s ∈ activeFor segs key at_, s.Matches e r row principal at_ := by
  simp only [SomeMatch, mem_activeFor]
  constructor
  · rintro ⟨s, hs, hop, hm⟩
    exact ⟨s, ⟨hs, hop, hm.1⟩, hm⟩
  · rintro ⟨s, ⟨hs, hop, -⟩, hm⟩
    exact ⟨s, hs, hop, hm⟩

variable [Interp]

/-- A compiled list in terms of the segments' matches. -/
theorem compilePlan_spec {r : Resource} {segs : List Segment} {op principal : Str} {at_ : Instant}
    {alias_ : Str} {base : Nat} {plan : Plan} (hsegs : ∀ s ∈ segs, Fits r s)
    (hrow : ∀ dim d, r.dims.get? dim = some d → ∃ f, FactOf row d f)
    (h : compilePlan r segs op principal at_ alias_ base = .ok plan) {full : List Arg}
    (hfull : Bound base plan.args full) : Listed r segs op principal at_ row full plan := by
  have hactive : ∀ key, ∀ s ∈ activeFor segs key at_, Fits r s ∧ s.activeAt at_ = true := by
    intro key s hs
    obtain ⟨hmem, -, hact⟩ := mem_activeFor.mp hs
    exact ⟨hsegs s hmem, hact⟩
  have hemits := fun key => Compiler.emits_segments ⟨r, alias_, principal, base⟩ hrow (hactive key)
  rw [compilePlan] at h
  obtain ⟨⟨viewPreds, args⟩, hview, h⟩ := bind_eq_ok_iff.mp h
  obtain ⟨hvp, hviewQ⟩ := hemits _ _ _ _ hview
  by_cases hop : op = r.viewOperation
  · subst hop
    simp only [ne_eq, not_true_eq_false, if_false, pure_bind, bind_eq_ok_iff, pure_eq_ok_iff] at h
    obtain ⟨digest, -, rfl⟩ := h
    have hps := hviewQ full hfull
    exact ⟨by rw [hps.orAll, someMatch_iff, and_self], hps.coalesce, rfl⟩
  · simp only [ne_eq, hop, not_false_eq_true, if_true, bind_eq_ok_iff, pure_eq_ok_iff] at h
    obtain ⟨⟨opPreds, args'⟩, hops, _, rfl, digest, -, rfl⟩ := h
    obtain ⟨hop', hopQ⟩ := hemits _ _ _ _ hops
    have hps := hopQ full hfull
    have hvs := hviewQ full (hfull.of_prefix hop')
    refine ⟨?_, hps.coalesce, rfl⟩
    rw [Sql.eval_chain_eq_true_iff, List.forall_mem_cons, List.forall_mem_singleton,
      hvs.orAll, hps.orAll, someMatch_iff, someMatch_iff]

/-- A row's bit of each hit. -/
def Plan.bits (p : Plan) (full : List Arg) (row : Row) : List Bool :=
  p.hits.map fun h => decide (h.eval full row.columns = .true)

omit [Interp] in
/-- The fields that the hits give are those of the segments that match. -/
theorem mem_fields_of_compiled {r : Resource} {principal : Str} {at_ : Instant} {full : List Arg}
    {segs : List Segment} {hits : List (Pred ColumnRef)} {sets : Segment → List Str} {f : Str}
    (h : Compiled r principal at_ row full segs hits) :
    f ∈ ((hits.map fun h => decide (h.eval full row.columns = .true)).zip (segs.map sets)).flatMap
        (fun h => if h.1 then h.2 else []) ↔
      ∃ s ∈ segs, s.Matches true r row principal at_ ∧ f ∈ sets s := by
  induction h with
  | nil => simp
  | @cons s p segs ps hab _ ih =>
      simp only [List.map_cons, List.zip_cons_cons, List.flatMap_cons, List.mem_append, ih,
        List.mem_cons, exists_eq_or_imp, ← hab]
      refine or_congr ?_ Iff.rfl
      by_cases hp : p.eval full row.columns = .true <;> simp [hp]

omit [Interp] in
/-- The fields of a row's bits are those its matching segments read. -/
theorem Listed.mem_fields {r : Resource} {segs : List Segment} {op principal : Str} {at_ : Instant}
    {full : List Arg} {plan : Plan} (h : Listed r segs op principal at_ row full plan) (f : Str) :
    f ∈ plan.fields (plan.bits full row) ↔ SomeReads true r segs op principal at_ row f := by
  rw [Plan.fields, mem_sortedSet, Plan.bits, h.sets, mem_fields_of_compiled h.hits]
  simp only [SomeReads, mem_activeFor, List.mem_filter]
  constructor
  · rintro ⟨s, ⟨hs, hop, -⟩, hm, hf, hout⟩
    exact ⟨hout, s, hs, hop, hm, hf⟩
  · rintro ⟨hout, s, hs, hop, hm, hf⟩
    exact ⟨s, ⟨hs, hop, hm.1⟩, hm, hf, hout⟩

end

/-! ## Compilation returns -/

/-- The computation returns, whatever the arguments before it. -/
def Returns {α : Type} (x : Compile α) : Prop := ∀ args, ∃ p, x args = .ok p

theorem Returns.pure {α : Type} (a : α) : Returns (pure a) := fun args => ⟨(a, args), rfl⟩

theorem Returns.bind {α β : Type} {x : Compile α} {f : α → Compile β} (hx : Returns x)
    (hf : ∀ a, Returns (f a)) : Returns (x >>= f) := by
  intro args
  obtain ⟨⟨a, args'⟩, ha⟩ := hx args
  obtain ⟨p, hp⟩ := hf a args'
  exact ⟨p, bind_eq_ok_iff.mpr ⟨(a, args'), ha, hp⟩⟩

theorem Compiler.returns_arg (c : Compiler) (v : Arg) : Returns (c.arg v) := fun _ => ⟨_, rfl⟩

theorem Compiler.returns_item (c : Compiler) (col : ColumnRef) (it : TreeItem) :
    Returns (c.item col it) := by
  unfold Compiler.item
  split
  · exact (c.returns_arg _).bind fun _ => (c.returns_arg _).bind fun _ => .pure _
  · exact (c.returns_arg _).bind fun _ => .pure _

theorem Compiler.returns_items (c : Compiler) (col : ColumnRef) : ∀ (items : List TreeItem),
    Returns (c.items col items)
  | [] => .pure _
  | it :: items => (c.returns_item col it).bind fun _ => (c.returns_items col items).bind
      fun _ => .pure _

theorem Compiler.returns_bound (c : Compiler) (col : ColumnRef) (closed : Option Bool)
    (incl excl : Comparison) (bound : Option Str) :
    Returns (c.bound col closed incl excl bound) := by
  cases bound with
  | none => exact .pure _
  | some s => exact (c.returns_arg _).bind fun _ => .pure _

/-- What the compiler takes: an atom of a kind that is understood on a declared dimension,
which the database can decide where the atom says anything. -/
def Compiler.Takes (c : Compiler) (dim : Str) (a : Atom) : Prop :=
  ∃ d, c.r.dims.get? dim = some d ∧ ¬ (a.kind ≠ .all ∧ d.pushdown = .notPushdownable) ∧
    ∀ text, a.kind ≠ .other text

theorem Compiler.returns_atom (c : Compiler) {dim : Str} {a : Atom} (h : c.Takes dim a) :
    Returns (c.atom dim a) := by
  obtain ⟨d, hd, hpush, hknown⟩ := h
  unfold Compiler.atom
  rw [hd]
  dsimp only
  rw [if_neg hpush]
  cases hk : a.kind with
  | all => exact .pure _
  | other text => exact absurd hk (hknown text)
  | self_ => exact (c.returns_arg _).bind fun _ => .pure _
  | tree => exact (c.returns_items _ _).bind fun _ => .pure _
  | in_ =>
      dsimp only
      split
      · exact .pure _
      · exact (c.returns_arg _).bind fun _ => .pure _
  | interval =>
      exact (c.returns_arg _).bind fun _ => (c.returns_bound _ _ _ _ _).bind fun _ =>
        (c.returns_bound _ _ _ _ _).bind fun _ => .pure _

theorem Compiler.takes_of_atom (c : Compiler) {dim : Str} {a : Atom} {args : List Arg}
    {x : Option (Pred ColumnRef) × List Arg} (h : c.atom dim a args = .ok x) : c.Takes dim a := by
  unfold Compiler.atom at h
  cases hd : c.r.dims.get? dim with
  | none =>
      rw [hd] at h
      cases h
  | some d =>
      rw [hd] at h
      dsimp only at h
      by_cases hpush : a.kind ≠ .all ∧ d.pushdown = .notPushdownable
      · rw [if_pos hpush] at h
        cases h
      · rw [if_neg hpush] at h
        refine ⟨d, hd, hpush, fun text hk => ?_⟩
        simp only [hk] at h
        cases h

theorem Compiler.returns_atoms (c : Compiler) : ∀ {l : List (Str × Atom)},
    (∀ p ∈ l, c.Takes p.1 p.2) → Returns (c.atoms l)
  | [], _ => .pure _
  | (dim, a) :: l, h => by
      rw [List.forall_mem_cons] at h
      exact (c.returns_atom h.1).bind fun _ => (c.returns_atoms h.2).bind fun _ => .pure _

theorem Compiler.takes_of_atoms (c : Compiler) : ∀ {l : List (Str × Atom)} {args : List Arg}
    {x : List (Pred ColumnRef) × List Arg}, c.atoms l args = .ok x → ∀ p ∈ l, c.Takes p.1 p.2
  | [], _, _, _ => by simp
  | (dim, a) :: l, args, x, h => by
      obtain ⟨⟨p, args'⟩, hp, h⟩ := bind_eq_ok_iff.mp h
      obtain ⟨⟨ps, args''⟩, hps, -⟩ := bind_eq_ok_iff.mp h
      exact List.forall_mem_cons.mpr ⟨c.takes_of_atom hp, c.takes_of_atoms hps⟩

/-- A segment is compiled where the compiler takes its atoms, whatever their order. -/
theorem Compiler.segment_ok_iff (c : Compiler) (s : Segment) (args : List Arg) :
    (∃ x, c.segment s args = .ok x) ↔ ∀ p ∈ s.atoms.entries, c.Takes p.1 p.2 := by
  constructor
  · rintro ⟨x, h⟩ p hp
    obtain ⟨⟨ps, args'⟩, hps, -⟩ := bind_eq_ok_iff.mp h
    exact c.takes_of_atoms hps p ((List.mem_insertionSort _).mpr hp)
  · intro h
    have hatoms : Returns (c.atoms (s.atoms.entries.insertionSort fun a b => a.1 ≤ b.1)) :=
      c.returns_atoms fun p hp => h p ((List.mem_insertionSort _).mp hp)
    exact hatoms.bind (fun _ => .pure _) args

/-- Checked atoms over pushable dimensions are taken. -/
theorem Compiler.takes_of_check (c : Compiler) {s : Segment} (hs : s.check c.r = .ok ())
    (hpush : ∀ dim d, c.r.dims.get? dim = some d → d.pushdown ≠ .notPushdownable) :
    ∀ p ∈ s.atoms.entries, c.Takes p.1 p.2 := by
  rintro ⟨dim, a⟩ hmem
  obtain ⟨d, hd, hbad⟩ := Segment.atom_of_check hs (Dict.get?_eq_some_iff.mpr hmem)
  refine ⟨d, hd, fun h => hpush dim d hd h.2, fun text hk => ?_⟩
  replace hk : a.kind = .other text := hk
  simp [Atom.bad, hk] at hbad

/-- Checked segments over pushable dimensions compile. -/
theorem Compiler.returns_segments (c : Compiler)
    (hpush : ∀ dim d, c.r.dims.get? dim = some d → d.pushdown ≠ .notPushdownable) :
    ∀ {segs : List Segment}, (∀ s ∈ segs, s.check c.r = .ok ()) → Returns (c.segments segs)
  | [], _ => .pure _
  | s :: segs, h => by
      rw [List.forall_mem_cons] at h
      have hsegment : Returns (c.segment s) := fun args =>
        (c.segment_ok_iff s args).mpr (c.takes_of_check h.1 hpush)
      exact hsegment.bind fun _ => (c.returns_segments hpush h.2).bind fun _ => .pure _

/-! ### The digest -/

/-- A digest has no surrogate. -/
theorem isSurrogate_digest {type : Str} {major : Nat} {v : Json} {s : Str}
    (h : Canon.digest type major v = .ok s) : ∀ c ∈ s, isSurrogate c = false := by
  obtain ⟨body, -, h⟩ := bind_eq_ok_iff.mp h
  obtain ⟨head, -, rfl⟩ := map_eq_ok_iff.mp h
  rw [List.forall_mem_append]
  have hargs : (str "sha256:").all (fun c => !isSurrogate c) = true := rfl
  exact ⟨fun c hc => by simpa using List.all_eq_true.mp hargs c hc, isSurrogate_sha256Hex _⟩

/-- The plan's digest exists where those it is made of do. -/
theorem exists_planDigest [Interp] {r : Resource} {used : List Segment} {op : Str}
    (hused : ∀ s ∈ used, ∃ x, s.digest = .ok x) (hr : ∃ x, r.digest = .ok x)
    (hop : ∀ c ∈ op, isSurrogate c = false) : ∃ x, planDigest r used op = .ok x := by
  obtain ⟨x, hx⟩ := hr
  obtain ⟨digests, hdigests⟩ : ∃ digests, used.mapM Segment.digest = .ok digests :=
    exists_mapM hused
  have hplain : ∀ c ∈ Str.join [0x0A] (digests.insertionSort (· ≤ ·) ++ [x, op]), isSurrogate
    c = false := by
    have hsep : ∀ c ∈ [(0x0A : CodePoint)], isSurrogate c = false :=
      List.forall_mem_singleton.mpr rfl
    refine (forall_mem_join hsep _).mpr ?_
    rw [List.forall_mem_append, List.forall_mem_cons, List.forall_mem_singleton]
    refine ⟨fun d hd => ?_, isSurrogate_digest hx, hop⟩
    obtain ⟨s, hs, hd⟩ := exists_of_mem_mapM hdigests d
      ((List.perm_insertionSort _ _).mem_iff.mp hd)
    obtain ⟨v, -, hv⟩ := bind_eq_ok_iff.mp hd
    exact isSurrogate_digest hv
  obtain ⟨b, hb⟩ := utf8Encode_isSome hplain
  simp only [planDigest, bind_eq_ok_iff, hdigests, hx, Except.ok.injEq, exists_eq_left',
    Canon.utf8, hb]
  exact ⟨_, rfl⟩

/-- A list by the view operation. -/
theorem compilePlan_view [Interp] {r : Resource} {segs used : List Segment}
    {principal alias_ digest : Str} {at_ : Instant} {base : Nat}
    {preds : List (Pred ColumnRef)} {args : List Arg}
    (hused : activeFor segs r.viewOperation at_ = used)
    (hsegments : Compiler.segments ⟨r, alias_, principal, base⟩ used [] = .ok (preds, args))
    (hdigest : planDigest r used r.viewOperation = .ok digest) :
    compilePlan r segs r.viewOperation principal at_ alias_ base = .ok
      { where_ := orAll preds, args, hits := preds.map .coalesce, digest,
        sets := used.map fun s => s.readFields.filter r.outputs } := by
  simp only [compilePlan, hused, hsegments, bind, Except.bind, ne_eq, not_true_eq_false,
    if_false, pure, Except.pure, hdigest]

/-- A list is compiled where its segments fit, its dimensions can all be decided by the
database and its digest exists. -/
theorem exists_compilePlan [Interp] {r : Resource} {segs : List Segment} {op : Str} {at_ : Instant}
    (principal alias_ : Str) (base : Nat) (hcheck : ∀ s ∈ segs, s.check r = .ok ())
    (hpush : ∀ dim d, r.dims.get? dim = some d → d.pushdown ≠ .notPushdownable)
    (hdigest : ∀ s ∈ segs, ∃ x, s.digest = .ok x) (hr : ∃ x, r.digest = .ok x)
    (hop : ∀ c ∈ op, isSurrogate c = false) :
    ∃ plan, compilePlan r segs op principal at_ alias_ base = .ok plan := by
  have hactive : ∀ {key : Str}, ∀ s ∈ activeFor segs key at_, s ∈ segs := fun s hs =>
    (mem_activeFor.mp hs).1
  have hreturns : ∀ key, Returns (Compiler.segments ⟨r, alias_, principal, base⟩
    (activeFor segs key at_)) :=
    fun key => Compiler.returns_segments _ hpush fun s hs => hcheck s (hactive s hs)
  have hplan : ∀ used, (∀ s ∈ used, s ∈ segs) → ∃ x, planDigest r used op = .ok x :=
    fun used hused =>
    exists_planDigest (fun s hs => hdigest s (hused s hs)) hr hop
  obtain ⟨⟨viewPreds, args⟩, hview⟩ := hreturns r.viewOperation []
  rw [compilePlan]
  simp only [bind_eq_ok_iff, hview, Except.ok.injEq, exists_eq_left']
  by_cases hop' : op = r.viewOperation
  · obtain ⟨x, hx⟩ := hplan (activeFor segs r.viewOperation at_) hactive
    subst hop'
    simp only [ne_eq, not_true_eq_false, if_false, pure_bind, hx]
    exact ⟨_, rfl⟩
  · obtain ⟨⟨opPreds, args'⟩, hops⟩ := hreturns op args
    obtain ⟨x, hx⟩ := hplan (activeFor segs r.viewOperation at_ ++ activeFor segs op at_)
      fun s hs =>
      (List.mem_append.mp hs).elim (hactive s) (hactive s)
    simp only [ne_eq, hop', not_false_eq_true, if_true, bind_eq_ok_iff, hops, Except.ok.injEq,
      exists_eq_left', pure_eq_ok_iff, hx]
    exact ⟨_, rfl⟩

/-! ## Agreement -/

section
variable [Engine] [Interp] {row : Row}

omit [Engine] in
/-- What an entitlement on the row's facts says of the segments. -/
theorem Entitled.someMatch {r : Resource} {segs : List Segment} {key principal : Str}
    {at_ : Instant} {facts : Dict Str Fact} {res : Tri} {fields : List Str}
    (hsegs : ∀ s ∈ segs, Fits r s) (hfacts : FactsOf r row facts)
    (h : Entitled segs key facts principal at_ res fields) :
    (res = .true ↔ SomeMatch false r segs key principal at_ row) ∧
      ∀ f, f ∈ fields ∧ r.outputs f = true ↔ SomeReads false r segs key principal at_ row f := by
  have hiff : ∀ s ∈ segs, s.operation = key →
      (s.eval facts principal at_ = .ok .true ↔ s.Matches false r row principal at_) := by
    intro s hs hop
    obtain ⟨t, ht⟩ := h.evaluated s hs hop
    rw [← Segment.eval_eq_ok (hsegs s hs).check (hsegs s hs).proper hfacts ht, ht, Except.ok.injEq]
  constructor
  · rw [h.isTrue]
    exact exists_congr fun s => and_congr_right fun hs => and_congr_right fun hop => hiff s hs hop
  · intro f
    rw [h.mem_fields, and_comm, SomeReads]
    exact and_congr_right fun _ => exists_congr fun s => and_congr_right fun hs =>
      and_congr_right fun hop => and_congr_left fun _ => hiff s hs hop

omit [Engine] in
/-- What a decision on the row's facts says of the segments. -/
theorem Decided.of_row {r : Resource} {segs : List Segment} {op principal : Str} {at_ : Instant}
    {facts : Dict Str Fact} {d : Decision} (hsegs : ∀ s ∈ segs, Fits r s)
    (hfacts : FactsOf r row facts) (h : Decided r segs op facts principal at_ d) :
    (d.action = .true ↔ SomeMatch false r segs r.viewOperation principal at_ row ∧
      SomeMatch false r segs op principal at_ row) ∧
    ∀ f, f ∈ d.fields ↔ SomeMatch false r segs r.viewOperation principal at_ row ∧
      SomeReads false r segs op principal at_ row f := by
  obtain ⟨⟨_, hview⟩, act, fs, hact, haction, hfields⟩ := h
  obtain ⟨hvisible, -⟩ := (entitled_spec hview).someMatch hsegs hfacts
  obtain ⟨hpermitted, hreads⟩ := (entitled_spec hact).someMatch hsegs hfacts
  exact ⟨by rw [haction, Tri.and_eq_true_iff, hvisible, hpermitted],
    fun f => by rw [hfields, hvisible, hreads]⟩

/-- What the list shows of a row and what the decision says of it are the same. -/
structure Agrees (plan : Plan) (full : List Arg) (row : Row) (d : Decision) : Prop where
  listed : plan.where_.eval full row.columns = .true ↔ d.action = .true
  fields : plan.where_.eval full row.columns = .true → plan.fields (plan.bits full row) = d.fields

/-- The segments that match the row only by an empty path add nothing: where they make
it visible and permitted other segments do, and those read the same fields. -/
structure EmptyPathsAddNothing (r : Resource) (segs : List Segment) (op principal : Str)
    (at_ : Instant) (row : Row) : Prop where
  listed : SomeMatch true r segs r.viewOperation principal at_ row →
    SomeMatch true r segs op principal at_ row →
    SomeMatch false r segs r.viewOperation principal at_ row ∧
      SomeMatch false r segs op principal at_ row
  fields : SomeMatch true r segs r.viewOperation principal at_ row →
    ∀ f, SomeReads true r segs op principal at_ row f →
    SomeReads false r segs op principal at_ row f

omit [Engine] [Interp] in
/-- What matches without the estimate matches with it. -/
theorem SomeMatch.mono {r : Resource} {segs : List Segment} {key principal : Str} {at_ : Instant}
    (h : SomeMatch false r segs key principal at_ row) :
    SomeMatch true r segs key principal at_ row := by
  obtain ⟨s, hs, hop, hm⟩ := h
  exact ⟨s, hs, hop, hm.mono⟩

omit [Engine] [Interp] in
/-- What is readable without the estimate is readable with it. -/
theorem SomeReads.mono {r : Resource} {segs : List Segment} {key principal : Str}
    {at_ : Instant} {f : Str} (h : SomeReads false r segs key principal at_ row f) :
    SomeReads true r segs key principal at_ row f := by
  obtain ⟨hout, s, hs, hop, hm, hf⟩ := h
  exact ⟨hout, s, hs, hop, hm.mono, hf⟩

omit [Engine] [Interp] in
/-- Where a field is readable the row matches. -/
theorem SomeReads.someMatch {e : Bool} {r : Resource} {segs : List Segment} {key principal : Str}
    {at_ : Instant} {f : Str} (h : SomeReads e r segs key principal at_ row f) :
    SomeMatch e r segs key principal at_ row := by
  obtain ⟨-, s, hs, hop, hm, -⟩ := h
  exact ⟨s, hs, hop, hm⟩

/-- The list and the decision in terms of the matches: they agree where empty paths
add nothing. -/
theorem agrees_iff {r : Resource} {segs : List Segment} {op principal : Str} {at_ : Instant}
    {facts : Dict Str Fact} {full : List Arg} {plan : Plan} {d : Decision}
    (hsegs : ∀ s ∈ segs, Fits r s) (hfacts : FactsOf r row facts)
    (hlisted : Listed r segs op principal at_ row full plan)
    (hd : evaluate r segs op facts principal at_ = .ok d) :
    Agrees plan full row d ↔ EmptyPathsAddNothing r segs op principal at_ row := by
  obtain ⟨haction, hfields⟩ := (evaluate_spec hd).of_row hsegs hfacts
  constructor
  · intro h
    have hlist := fun hv ho => haction.mp (h.listed.mp (hlisted.where_.mpr ⟨hv, ho⟩))
    refine ⟨hlist, fun hv f hf => ?_⟩
    have hwhere := hlisted.where_.mpr ⟨hv, hf.someMatch⟩
    exact ((hfields f).mp (h.fields hwhere ▸ (hlisted.mem_fields f).mpr hf)).2
  · intro h
    refine ⟨?_, fun hwhere => ?_⟩
    · rw [hlisted.where_, haction]
      exact ⟨fun hm => h.listed hm.1 hm.2, fun hm => ⟨hm.1.mono, hm.2.mono⟩⟩
    · obtain ⟨hv, ho⟩ := hlisted.where_.mp hwhere
      obtain ⟨xs, hxs⟩ := evaluate_sorted hd
      rw [hxs, Plan.fields]
      refine sortedSet_congr _ fun f => ?_
      rw [← mem_sortedSet (· ≤ ·), ← Plan.fields, hlisted.mem_fields,
        ← mem_sortedSet (· ≤ ·) xs, ← hxs, hfields]
      exact ⟨fun hf => ⟨(h.listed hv ho).1, h.fields hv f hf⟩, fun hf => hf.2.mono⟩

/-- **Lists and single records agree** exactly where empty paths add nothing: the list's
predicate is true of the rows the operation is allowed on, and shows the same fields.
The list is compiled, and the record decided, wherever digests exist and the numbers
fit. -/
theorem plan_agrees {r : Resource} {segs : List Segment} (hcheck : ∀ s ∈ segs, s.check r = .ok ())
    (hproper : ∀ s ∈ segs, s.Proper r)
    (hpush : ∀ dim d, r.dims.get? dim = some d → d.pushdown ≠ .notPushdownable) (op principal : Str)
    (at_ : Instant) (alias_ : Str) (before after : List Arg) {facts : Dict Str Fact}
    (hfacts : FactsOf r row facts) :
    ((∀ s ∈ segs, ∃ x, s.digest = .ok x) → (∃ x, r.digest = .ok x) →
      (∀ c ∈ op, isSurrogate c = false) →
      ∃ plan, compilePlan r segs op principal at_ alias_ before.length = .ok plan) ∧
    ((∀ s ∈ segs, s.BoundsFit) → AmountsFit r facts →
      ∃ d, evaluate r segs op facts principal at_ = .ok d) ∧
    ∀ plan d, compilePlan r segs op principal at_ alias_ before.length = .ok plan →
      evaluate r segs op facts principal at_ = .ok d →
      (Agrees plan (before ++ plan.args ++ after) row d ↔
        EmptyPathsAddNothing r segs op principal at_ row) := by
  have hsegs : ∀ s ∈ segs, Fits r s := fun s hs => ⟨hcheck s hs, hproper s hs⟩
  have hrow : ∀ dim d, r.dims.get? dim = some d → ∃ f, FactOf row d f := fun dim d hd =>
    (hfacts dim d hd).imp fun _ h => h.2
  refine ⟨fun hdigest hr hop => exists_compilePlan principal alias_ _ hcheck hpush hdigest hr hop,
    fun hfit hamounts => exists_evaluate fun s hs =>
      Segment.exists_eval (hcheck s hs) (hproper s hs) hfacts (hfit s hs) hamounts,
    fun plan d hplan hd => ?_⟩
  exact agrees_iff hsegs hfacts (compilePlan_spec hsegs hrow hplan ⟨before, after, rfl, rfl⟩) hd

end

/-! ## A list by department -/

/-- A document in a department. -/
def treeResource : Resource where
  type := str "doc"
  viewOperation := str "doc.view"
  dimensions := some ⟨[(str "dept", { kind := .orgTree, column := str "dept_path" })], by decide⟩
  fields := ⟨[(str "title", { cls := .ordinary })], sampleFields_nodup⟩

/-- Viewing the documents of one department. -/
def treeSegment (path : String) : Segment where
  operation := str "doc.view"
  atoms := ⟨[(str "dept", { kind := .tree, items := [⟨str path, .exact⟩] })],
    List.nodup_singleton _⟩
  readFields := [str "title"]
  validFrom := str "2026-01-01T00:00:00Z"

def treeRow (path : String) : Row := fun c => if c = str "dept_path" then .text (str path)
    else .null

def treeFacts (path : String) : Dict Str Fact :=
  ⟨[(str "dept", .value (str path) [])], List.nodup_singleton _⟩

def treeAt : Instant := 70000000000000000

example : ((Compiler.segment ⟨treeResource, str "o", [], 0⟩ (treeSegment "a") []).toOption.map
    fun p =>
    p.1.text ColumnRef.text) = some (str "((\"o\".\"dept_path\" = $1))") := by decide +kernel

theorem treeSegment_atoms {path : String} {dim : Str} {a : Atom} {d : Dimension}
    (ha : (treeSegment path).atoms.get? dim = some a) (hd : treeResource.dims.get? dim = some d) :
    dim = str "dept" ∧ a = { kind := .tree, items := [⟨str path, .exact⟩] } ∧
      d = { kind := .orgTree, column := str "dept_path" } := by
  rw [Dict.get?_eq_some_iff] at ha hd
  obtain ⟨⟩ := List.mem_singleton.mp ha
  obtain ⟨⟩ := List.mem_singleton.mp hd
  exact ⟨rfl, rfl, rfl⟩

theorem treeSegment_proper (path : String) : (treeSegment path).Proper treeResource := by
  intro dim a d ha hd
  obtain ⟨-, rfl, rfl⟩ := treeSegment_atoms ha hd
  exact ⟨by simp, by simp⟩

theorem treeFacts_of (path : String) : FactsOf treeResource (treeRow path) (treeFacts path) := by
  intro dim d hd
  rw [Dict.get?_eq_some_iff] at hd
  obtain ⟨⟩ := List.mem_singleton.mp hd
  exact ⟨.value (str path) [], Dict.get?_eq_some_iff.mpr (List.mem_singleton_self _),
    .text _ (by simp) (if_pos rfl)⟩

theorem treeSegment_active (path : String) : (treeSegment path).activeAt treeAt = true := by
  have hfrom : (rfc3339 (str "2026-01-01T00:00:00Z")).any
    (fun start => decide (start ≤ treeAt)) = true := by
    decide +kernel
  obtain ⟨start, hstart, hle⟩ := Option.any_eq_true .. |>.mp hfrom
  rw [decide_eq_true_iff] at hle
  simp only [Segment.activeAt, treeSegment, hstart, not_lt.mpr hle, if_false, if_true]

/-- The department is compared as a text. -/
theorem treeSegment_matches (e : Bool) (path : String) (h : str path = [] → e = true) :
    (treeSegment path).Matches e treeResource (treeRow path) [] treeAt := by
  refine ⟨treeSegment_active path, fun dim a d ha hd => ?_⟩
  obtain ⟨-, rfl, rfl⟩ := treeSegment_atoms ha hd
  exact ⟨str path, if_pos rfl, h, _, List.mem_singleton_self _, by simp [TreeItem.holds]⟩

theorem treeResource_pushable : ∀ dim d, treeResource.dims.get? dim = some d →
    d.pushdown ≠ .notPushdownable := by
  intro dim d hd
  rw [Dict.get?_eq_some_iff] at hd
  obtain ⟨⟩ := List.mem_singleton.mp hd
  decide

theorem treeOperation_plain : ∀ c ∈ str "doc.view", isSurrogate c = false := by
  have hall : (str "doc.view").all (fun c => !isSurrogate c) = true := rfl
  exact fun c hc => by simpa using List.all_eq_true.mp hall c hc

theorem treeSegment_digest : ∃ x, @Segment.digest Interp.ascii (treeSegment "a") = .ok x :=
  exists_ok_of_isSome (by decide +kernel)

/-- **An empty path is listed** and not allowed: the SQL compares it with an item's
empty path, evaluation calls it no path. -/
theorem empty_path_listed : ∃ (defs : Definitions) (i : Index) (r : Resource) (segs : List Segment)
    (row : Row) (facts : Dict Str Fact) (plan : Plan) (d : Decision), defs.validate = .ok i ∧
    r ∈ defs.resources ∧ (∀ dim d, r.dims.get? dim = some d → d.pushdown ≠ .notPushdownable) ∧
    (∀ s ∈ segs, s.check r = .ok () ∧ s.Proper r) ∧ FactsOf r row facts ∧
    @compilePlan Interp.ascii r segs r.viewOperation [] treeAt [] 0 = .ok plan ∧
    @evaluate Interp.ascii r segs r.viewOperation facts [] treeAt = .ok d ∧
    @Pred.eval ColumnRef Engine.plain plan.args row.columns plan.where_ = .true ∧
    d.action = .false := by
  obtain ⟨plan, hplan⟩ := @exists_compilePlan Interp.ascii treeResource [treeSegment ""]
    (str "doc.view") treeAt [] [] 0 (List.forall_mem_singleton.mpr rfl) treeResource_pushable
    (List.forall_mem_singleton.mpr (exists_ok_of_isSome (by decide +kernel)))
    (exists_ok_of_isSome (by decide +kernel)) treeOperation_plain
  have hfits : ∀ s ∈ [treeSegment ""], Fits treeResource s :=
    List.forall_mem_singleton.mpr ⟨rfl, treeSegment_proper ""⟩
  obtain ⟨hwhere, -, -⟩ := @compilePlan_spec Engine.plain (treeRow "") Interp.ascii _ _ _ _
    _ _ _ _ hfits (fun dim d hd => (treeFacts_of "" dim d hd).imp fun _ h => h.2) hplan
      plan.args ⟨[], [], rfl, by simp⟩
  have hmatch : SomeMatch true treeResource [treeSegment ""] (str "doc.view") [] treeAt
    (treeRow "") :=
    ⟨_, List.mem_singleton_self _, rfl, treeSegment_matches true "" fun _ => rfl⟩
  exact ⟨{ component := str "test/docs", resources := [treeResource],
           operations := [{ key := str "doc.view", resourceType := str "doc", purpose := str "read",
                            riskClass := str "low" }] }, _, treeResource, [treeSegment ""],
                            treeRow "",
    treeFacts "", plan, ⟨.false, .false, []⟩, rfl, List.mem_singleton_self _, treeResource_pushable,
    fun s hs => ⟨(hfits s hs).check, (hfits s hs).proper⟩, treeFacts_of "",
    hplan, by decide +kernel, hwhere.mpr ⟨hmatch, hmatch⟩, rfl⟩

/-- A path that is not empty is listed and allowed. -/
theorem plan_agrees_sample : ∃ (plan : Plan) (d : Decision),
    @compilePlan Interp.ascii treeResource [treeSegment "a"] (str "doc.view")
    [] treeAt [] 0 = .ok plan ∧ @evaluate Interp.ascii treeResource [treeSegment "a"]
    (str "doc.view") (treeFacts "a") [] treeAt
      = .ok d ∧
    @Agrees Engine.plain plan plan.args (treeRow "a") d := by
  obtain ⟨hplan, hdecide, hagree⟩ := @plan_agrees Engine.plain Interp.ascii (treeRow "a")
    treeResource [treeSegment "a"] (List.forall_mem_singleton.mpr rfl)
    (List.forall_mem_singleton.mpr (treeSegment_proper "a")) treeResource_pushable
    (str "doc.view") [] treeAt [] [] [] (treeFacts "a") (treeFacts_of "a")
  obtain ⟨plan, hplan⟩ := hplan (List.forall_mem_singleton.mpr treeSegment_digest)
    (exists_ok_of_isSome (by decide +kernel)) treeOperation_plain
  have hd : @evaluate Interp.ascii treeResource [treeSegment "a"] (str "doc.view")
    (treeFacts "a") []
      treeAt = .ok ⟨.true, .true, [str "title"]⟩ := by decide +kernel
  have hmatch := treeSegment_matches false "a" (by decide)
  have hnothing : EmptyPathsAddNothing treeResource [treeSegment "a"] (str "doc.view") [] treeAt
      (treeRow "a") := by
    refine ⟨fun _ _ => ?_, fun _ f hf => ?_⟩
    · exact ⟨⟨_, List.mem_singleton_self _, rfl, hmatch⟩,
        ⟨_, List.mem_singleton_self _, rfl, hmatch⟩⟩
    · obtain ⟨hout, s, hs, hop, -, hread⟩ := hf
      obtain rfl := List.mem_singleton.mp hs
      exact ⟨hout, _, hs, hop, hmatch, hread⟩
  have hagrees := (hagree plan _ hplan hd).mpr hnothing
  simp only [List.nil_append, List.append_nil] at hagrees
  exact ⟨plan, _, hplan, hd, hagrees⟩

end BeSdk
