/-
BeSdk.Lists.Walk — following the cursors of a list returns every row that the request
asks for, once, in order.

A page is asked for with no cursor or with the cursor of the last row read
(`Continues`), and says that it wants the rows after that one (`compile_continues`).
Over rows that stand strictly in order these are the rows not read
(`Keyset.sorted_after_last`), so a page returns the next of them and the cursor of its
last (`page_spec`). The walk is an induction on the rows left (`walk_from`).
-/
import BeSdk.Lists.Pages

namespace BeSdk.Lists

open Sql (Kind Pred Param Arg OrderKey Comparison Table Value Engine)

/-! ## Compiling a page -/

section
variable [Engine] {table : Table Str} {spec : Spec} {textOf : Value → Str} {req : Request}
    {plan : Plan}
  {r' : Option Resource} {p : Prepared}

/-- The items of an ORDER BY, as columns of the statement. -/
def Spec.orderKeys (s : Spec) (sort : List Order) : List (OrderKey ColumnRef) :=
  sort.map (fun o => ⟨s.col (s.colOf o).column, o.desc⟩) ++ [⟨s.col s.idColumn, false⟩]

omit [Engine] in
theorem rename_orderKeys (s : Spec) (sort : List Order) :
    (s.orderKeys sort).map (OrderKey.rename ColumnRef.name) = s.keys sort := by
  rw [Spec.orderKeys, Spec.keys, List.map_append, List.map_map]
  rfl

omit [Engine] in
theorem orderBy_eq : ∀ {sort : List Order}, (∀ o ∈ sort, (spec.cols.get? o.field).isSome = true) →
    spec.orderBy sort = .ok (spec.orderKeys sort)
  | [], _ => rfl
  | o :: sort, h => by
      rw [List.forall_mem_cons] at h
      obtain ⟨c, hc⟩ := Option.isSome_iff_exists.mp h.1
      have hcol : spec.colOf o = c := by rw [Spec.colOf, hc, Option.getD_some]
      rw [Spec.orderBy, hc, Spec.orderKeys, List.map_cons, hcol, List.cons_append]
      dsimp only
      rw [orderBy_eq h.2]
      rfl

/-- A compiled page asks for the rows of `Q`, in the request's order. -/
structure Asks (table : Table Str) (spec : Spec) (req : Request) (Q : Row → Prop)
    (q : Query) : Prop where
  takes : q.where_.takes q.args (table.kind ∘ ColumnRef.name) = true
  eval : ∀ row ∈ table.rows, q.where_.eval q.args (Row.columns row) = .true ↔ Q row
  order : q.orderBy.map (OrderKey.rename ColumnRef.name) = spec.keys req.sort

/-- A cursor that continues after a row; there is none at the start. -/
def Continues [Interp] (spec : Spec) (textOf : Value → Str) (sort : List Order)
    (filterHash planHash : Str) : Option Row → Str → Prop
  | none, cursor => cursor = []
  | some y, cursor =>
      Opens cursor (spec.rowKeys textOf sort y).1 (spec.rowKeys textOf sort y).2 filterHash planHash

/-- The rows that come after a row, all of them at the start. -/
def After (spec : Spec) (sort : List Order) (y : Option Row) (row : Row) : Prop :=
  ∀ x ∈ y, Keyset.Before (Sql.rowOrder (spec.keys sort)) x row

theorem MeanAll.continued {args full : List Arg} {ps : List (Pred ColumnRef)} {Q : Row → Prop}
    (h : MeanAll table args ps Q) (hargs : args <+: full)
    (htakes : ∀ c ∈ ps, c.takes args (table.kind ∘ ColumnRef.name) = true) :
    SayAll table full ps Q := by
  have hsame := getElem?_continued hargs
  refine ⟨fun c hc => ?_, fun row hrow => ?_⟩
  · rw [Pred.Uses.takes_congr hsame c (h.uses c hc)]
    exact htakes c hc
  · rw [← h.eval htakes row hrow]
    refine forall₂_congr fun c hc => ?_
    rw [Pred.Uses.eval_congr hsame (fun _ _ => rfl) c (h.uses c hc)]

/-- A compiled page. -/
def Prepared.query (p : Prepared) (plan : Plan) (spec : Spec) (req : Request) (limit : Int)
    (conditions : List (Pred ColumnRef)) (args : List Arg) : Query where
  where_ := .chain conditions
  args := args
  orderBy := spec.orderKeys req.sort
  alias_ := spec.alias_
  limit := limit
  hits := plan.hits
  sorts := req.sort
  filterHash := p.filterHash
  planHash := plan.digest
  readableOnly := p.readableOnly
  plan := some plan

omit [Engine] in
theorem compile_eq [Interp] (hp : prepare r' plan spec req = .ok p)
    (hcols : ∀ o ∈ req.sort, (spec.cols.get? o.field).isSome = true) (limit limit' : Int)
    (cursor : Str) : compile r' plan spec limit { req with cursor, limit := limit' } =
      if cursor = [] then .ok (p.query plan spec req limit p.conditions p.args)
      else (spec.resume cursor req.sort p.filterHash plan.digest p.args).map fun c =>
        p.query plan spec req limit (p.conditions ++ [c.1]) c.2 := by
  have hp' : prepare r' plan spec { req with cursor, limit := limit' } = .ok p := hp
  rw [compile, hp']
  by_cases hnil : cursor = []
  · simp only [bind, Except.bind, hnil, ne_eq, not_true_eq_false, if_false, if_true, pure,
      Except.pure, orderBy_eq hcols, List.append_nil]
    rfl
  · simp only [bind, Except.bind, hnil, ne_eq, not_false_eq_true, if_false, if_true, pure,
      Except.pure, orderBy_eq hcols]
    cases spec.resume cursor req.sort p.filterHash plan.digest p.args <;> rfl

/-- A page that continues after a row asks for the wanted rows after it. -/
theorem compile_continues [Interp] {restricted : Str → Bool} (hp : prepare r' plan spec req = .ok p)
    (hprep : Prepares table plan spec req restricted p)
    (htakes : ∀ c ∈ p.conditions, c.takes p.args (table.kind ∘ ColumnRef.name) = true)
    (hs : Sound table spec textOf req.sort) {y : Option Row} (hy : ∀ x ∈ y, x ∈ table.rows)
    {cursor : Str} (hcursor : Continues spec textOf req.sort p.filterHash plan.digest y
      cursor) (limit limit' : Int) :
    ∃ q, compile r' plan spec limit { req with cursor, limit := limit' } = .ok q ∧
      Asks table spec req (fun row => req.Wants plan spec row ∧ After spec req.sort y row) q ∧
      q.limit = limit ∧ q.filterHash = p.filterHash ∧ q.planHash = plan.digest := by
  have hcols : ∀ o ∈ req.sort, (spec.cols.get? o.field).isSome = true :=
    fun o ho => (hprep.sorts o ho).1
  cases y with
  | none =>
      have hnil : cursor = [] := hcursor
      have hsay := hprep.means.continued List.prefix_rfl htakes
      refine ⟨p.query plan spec req limit p.conditions p.args, by rw [compile_eq hp hcols,
        if_pos hnil], ⟨Sql.takesAll_iff.mpr hsay.takes, fun row hrow => ?_,
        rename_orderKeys _ _⟩, rfl, rfl, rfl⟩
      rw [Prepared.query, Sql.eval_chain_eq_true_iff, hsay.eval row hrow]
      simp [After]
  | some x =>
      have hopens : Opens cursor _ _ _ _ := hcursor
      obtain ⟨c, args, hc, hargs, hsays⟩ :=
        (yields_resume hs (hy x rfl) hcols hopens).exists_ok p.args
      have hsay := hprep.means.continued hargs htakes
      refine ⟨p.query plan spec req limit (p.conditions ++ [c]) args,
        by rw [compile_eq hp hcols, if_neg hopens.nonempty, hc]; rfl,
        ⟨Sql.takesAll_iff.mpr ?_, fun row hrow => ?_, rename_orderKeys _ _⟩, rfl, rfl, rfl⟩
      · rw [List.forall_mem_append, List.forall_mem_singleton]
        exact ⟨hsay.takes, hsays.takes⟩
      · rw [Prepared.query, Sql.eval_chain_eq_true_iff, List.forall_mem_append,
          List.forall_mem_singleton, hsay.eval row hrow, hsays.eval row hrow]
        simp [After]

/-! ## Reading a page -/

/-- The database returns the rows asked for, in order. -/
theorem Asks.select {Q : Row → Prop} [DecidablePred Q] {q : Query}
    (h : Asks table spec req Q q) (n : Nat) :
    Sql.select table ColumnRef.name q.where_ q.args q.orderBy n =
      some ((Keyset.sorted (Sql.rowOrder (spec.keys req.sort))
        (table.rows.filter fun row => decide (Q row))).take n) := by
  rw [Sql.select, if_pos h.takes, h.order]
  have hfilter : (table.rows.filter fun row => decide
    (q.where_.eval q.args (row ∘ ColumnRef.name) = .true)) =
      table.rows.filter fun row => decide (Q row) :=
    List.filter_congr fun row hrow => decide_eq_decide.mpr (h.eval row hrow)
  rw [hfilter]

variable {α : Type} {scan : Row → α} {keys : α → List Str × Str}

/-- **A page** holds the first of the rows asked for, and its cursor continues after the
last of them where there are more. -/
theorem page_spec [Interp] {Q : Row → Prop} [DecidablePred Q] {q : Query}
    (hasks : Asks table spec req Q q) (hlimit : 1 ≤ q.limit)
    (hs : Sound table spec textOf req.sort)
    (hkeys : ∀ row ∈ table.rows, keys (scan row) = spec.rowKeys textOf req.sort row)
    (hf : Paired q.filterHash) (hp : Paired q.planHash) {rest : List Row}
    (hrest : Keyset.sorted (Sql.rowOrder (spec.keys req.sort))
      (table.rows.filter fun row => decide (Q row)) = rest) :
    ∃ cursor, page table q scan keys = .ok ((rest.take q.limit.toNat).map scan, cursor) ∧
      (rest.length ≤ q.limit.toNat → cursor = []) ∧
      (q.limit.toNat < rest.length → cursor ≠ [] ∧ ∃ y, (rest.take q.limit.toNat).getLast? =
        some y ∧ y ∈ table.rows ∧ Continues spec textOf req.sort q.filterHash q.planHash
        (some y) cursor) := by
  obtain ⟨n, hn⟩ : ∃ n : Nat, q.limit = n + 1 := ⟨(q.limit - 1).toNat, by omega⟩
  have hread : (q.limit + 1).toNat = n + 2 := by omega
  have htake : (rest.take (n + 2)).take (n + 1) = rest.take (n + 1) := by
    rw [List.take_take, Nat.min_eq_left (by omega)]
  have hlen : (rest.take (n + 2)).length = min (n + 2) rest.length := List.length_take
  rw [page, hasks.select, hrest, hread, show q.limit.toNat = n + 1 by omega, hn]
  dsimp only
  rw [htake]
  by_cases hmore : rest.length ≤ n + 1
  · rw [if_pos (by rw [hlen]; omega)]
    exact ⟨[], rfl, fun _ => rfl, fun h => absurd h (by omega)⟩
  · rw [if_neg (by rw [hlen]; omega)]
    have hne : rest.take (n + 1) ≠ [] := by
      rw [ne_eq, List.take_eq_nil_iff]
      rintro (h | h)
      · omega
      · simp [h] at hmore
    obtain ⟨y, hy⟩ : ∃ y, (rest.take (n + 1)).getLast? = some y :=
      ⟨_, List.getLast?_eq_some_getLast hne⟩
    have hyrow : y ∈ table.rows := by
      have hmem : y ∈ rest := List.mem_of_mem_take (List.mem_of_getLast? hy)
      rw [← hrest] at hmem
      exact List.mem_of_mem_filter ((Keyset.sorted_perm _).mem_iff.mp hmem)
    have hpaired : ∀ k ∈ (spec.rowKeys textOf req.sort y).1, Paired k := by
      rw [Spec.rowKeys, List.forall_mem_map]
      exact fun o ho => (hs.sorts o ho y hyrow).paired
    obtain ⟨cursor, hnext, hopens⟩ := next_opens hpaired (hs.ids y hyrow).paired hf hp
    refine ⟨cursor, ?_, fun h => absurd h hmore, fun _ => ⟨hopens.nonempty, y, hy, hyrow, hopens⟩⟩
    have hrowkeys : keys (scan y) = ((spec.rowKeys textOf req.sort y).1,
      textOf (y spec.idColumn)) := hkeys y hyrow
    rw [List.getLast?_map, hy, Option.map_some]
    dsimp only
    rw [hrowkeys]
    dsimp only
    rw [hnext]

/-! ## Walking -/

omit [Engine] in
/-- A request with a page size in the range is compiled under the subject's plan. -/
theorem build_eq [Interp] {subj : Subject} {clock : Clock}
    (hplan : subj.list clock spec.operation spec.alias_ 0 = .ok plan)
    (hlimit : 1 ≤ req.limit ∧ req.limit ≤ maxLimit) :
    build subj clock spec req =
      compile ((subj.defs.operation spec.operation).bind fun o => subj.defs.resource
        o.resourceType) plan spec req.limit req := by
  have hne : req.limit ≠ 0 := by omega
  have hrange : ¬ (req.limit < 1 ∨ maxLimit < req.limit) := by omega
  simp only [build, hplan, hne, hrange, if_false]
  rfl

/-- The plan of a list reads its resource's dimensions, and its digest can be written. -/
theorem list_shaped [Interp] {subj : Subject} {clock : Clock} {op alias_ : Str}
    (h : subj.list clock op alias_ 0 = .ok plan) : ∃ o r, subj.defs.operation op = some o ∧
      subj.defs.resource o.resourceType = some r ∧ Shaped r plan ∧ Paired plan.digest := by
  obtain ⟨o, r, g, ho, hr, hcompile⟩ := list_compiled h
  exact ⟨o, r, ho, hr, compilePlan_reads hcompile, paired_compilePlan hcompile⟩

omit [Engine] in
/-- The pages of a walk over the rows, from its `i`-th page on. -/
inductive Walked (scan : Row → α) (limits : Nat → Int) : Nat → List Row → List (List α × Str) → Prop
  | last {i : Nat} {rows : List Row} : rows.length ≤ (limits i).toNat →
      Walked scan limits i rows [(rows.map scan, [])]
  | more {i : Nat} {rows : List Row} {cursor : Str} {pages : List (List α × Str)} :
      (limits i).toNat < rows.length → cursor ≠ [] → Walked scan limits (i + 1)
      (rows.drop (limits i).toNat) pages →
        Walked scan limits i rows (((rows.take (limits i).toNat).map scan, cursor) :: pages)

/-- The pages hold exactly the rows, each page but the last as many as it was asked for,
and the cursor is empty on the last page, where no rows are left, and on no other. -/
structure Complete (listed : List α) (limits : Nat → Int) (pages : List (List α × Str)) : Prop where
  rows : pages.flatMap Prod.fst = listed
  size : ∀ j p, pages[j]? = some p → (p.1.length : Int) ≤ limits j ∧
    (p.2 ≠ [] → (p.1.length : Int) = limits j)
  last : ∀ j p, pages[j]? = some p → (p.2 = [] ↔ j + 1 = pages.length)
  left : ∀ j p, pages[j]? = some p → (p.2 = [] ↔ (pages.take (j + 1)).flatMap Prod.fst = listed)

omit [Engine] in
theorem Walked.complete {limits : Nat → Int} (hlimits : ∀ i, 1 ≤ limits i)
    {i : Nat} {rows : List Row} {pages : List (List α × Str)}
    (h : Walked scan limits i rows pages) :
    pages ≠ [] ∧ Complete (rows.map scan) (fun j => limits (i + j)) pages := by
  induction h with
  | @last i rows hlen =>
      have hsize := hlimits i
      have honly : ∀ {j : Nat} {p : List α × Str}, [(rows.map scan, ([] : Str))][j]? = some p →
          j = 0 ∧ p = (rows.map scan, []) := by
        intro j p hp
        cases j with
        | zero => exact ⟨rfl, (Option.some.inj hp).symm⟩
        | succ j => cases hp
      refine ⟨by simp, by simp, fun j p hp => ?_, fun j p hp => ?_, fun j p hp => ?_⟩
      · obtain ⟨rfl, rfl⟩ := honly hp
        simp only [List.length_map, Nat.add_zero, ne_eq, not_true_eq_false, false_implies, and_true]
        omega
      · obtain ⟨rfl, rfl⟩ := honly hp
        simp
      · obtain ⟨rfl, rfl⟩ := honly hp
        simp
  | @more i rows cursor pages hlen hcursor _ ih =>
      obtain ⟨hne, hrows, hsizes, hlast, hleft⟩ := ih
      have hsize := hlimits i
      have hsplit : (rows.take (limits i).toNat).map scan ++ (rows.drop (limits i).toNat).map
        scan = rows.map scan := by
        rw [← List.map_append, List.take_append_drop]
      refine ⟨by simp, by rw [List.flatMap_cons, hrows, hsplit], fun j p hp => ?_,
        fun j p hp => ?_, fun j p hp => ?_⟩
      · cases j with
        | zero =>
            obtain rfl := Option.some.inj hp
            simp only [List.length_map, List.length_take, Nat.add_zero]
            omega
        | succ j =>
            have := hsizes j p hp
            rwa [Nat.add_right_comm, Nat.add_assoc] at this
      · cases j with
        | zero =>
            obtain rfl := Option.some.inj hp
            simpa [hcursor] using hne
        | succ j =>
            rw [hlast j p hp, List.length_cons]
            omega
      · cases j with
        | zero =>
            obtain rfl := Option.some.inj hp
            have hfewer : ((rows.take (limits i).toNat).map scan).length <
              (rows.map scan).length := by
              simp only [List.length_map, List.length_take]
              omega
            simp only [hcursor, false_iff, Nat.zero_add, List.take_succ_cons, List.take_zero,
              List.flatMap_cons, List.flatMap_nil, List.append_nil]
            exact fun heq => absurd (congrArg List.length heq) hfewer.ne
        | succ j =>
            rw [hleft j p hp, List.take_succ_cons, List.flatMap_cons, ← hsplit,
              List.append_right_inj]

/-- No two rows are equal in the order: their IDs differ. -/
theorem Sound.distinct {sort : List Order} (hs : Sound table spec textOf sort) :
    table.rows.Pairwise fun x y => Sql.rowOrder (spec.keys sort) x y ≠ .eq := by
  refine hs.unique.imp_of_mem fun {x y} hx hy hne heq => hne ?_
  have hid := Keyset.lex_eq_eq_iff.mp heq spec.idKey.compare
    (List.mem_map_of_mem (by simp [Spec.keys]))
  rw [OrderKey.compare, if_neg (by simp [Spec.idKey])] at hid
  have hxid := hs.ids x hx
  have hyid := hs.ids y hy
  rw [Sql.order_of_hasKind (Sql.cast_hasKind hxid.back).1 (Sql.cast_hasKind hyid.back).1
    hxid.ne_null hyid.ne_null]
  exact congrArg some hid

/-- The wanted rows after the last one read are those left. -/
theorem sorted_left {Q : Row → Prop} [DecidablePred Q] {sort : List Order}
    (hs : Sound table spec textOf sort) {n : Nat} {y : Option Row}
    [DecidablePred fun row => Q row ∧ After spec sort y row] {rows : List Row}
    (hrows : Keyset.sorted (Sql.rowOrder (spec.keys sort))
      (table.rows.filter fun row => decide (Q row)) = rows)
    (hy : (rows.take n).getLast? = y) (hn : y = none → n = 0) :
    Keyset.sorted (Sql.rowOrder (spec.keys sort))
      (table.rows.filter fun row => decide (Q row ∧ After spec sort y row)) = rows.drop n := by
  subst hrows
  cases y with
  | none =>
      obtain rfl := hn rfl
      simp [After]
  | some x =>
      rw [← Keyset.sorted_after_last (hs.distinct.sublist List.filter_sublist) hy,
        List.filter_filter]
      congr 1
      refine List.filter_congr fun row _ => ?_
      simp [After, Bool.and_comm]

/-- What a walk needs: the plan stays the same and the page sizes are in the range. -/
structure Steady [Interp] (spec : Spec) (plan : Plan) (defs : Index)
    (asks : Nat → Subject × Clock) (limits : Nat → Int) :
    Prop where
  defs : ∀ i, (asks i).1.defs = defs
  plan : ∀ i, (asks i).1.list (asks i).2 spec.operation spec.alias_ 0 = .ok plan
  limits : ∀ i, 1 ≤ limits i ∧ limits i ≤ maxLimit

variable [Interp] {defs : Index} {asks : Nat → Subject × Clock} {limits : Nat → Int}

/-- The page of a walk that has read `n` of the rows. -/
theorem listPage_spec {restricted : Str → Bool} (hsteady : Steady spec plan defs asks limits)
    (hp : prepare ((defs.operation spec.operation).bind fun o => defs.resource o.resourceType)
      plan spec req = .ok p)
    (hprep : Prepares table plan spec req restricted p)
    (htakes : ∀ c ∈ p.conditions, c.takes p.args (table.kind ∘ ColumnRef.name) = true)
    (hs : Sound table spec textOf req.sort)
    (hkeys : ∀ row ∈ table.rows, keys (scan row) = spec.rowKeys textOf req.sort row)
    [DecidablePred (req.Wants plan spec)] {rows : List Row}
    (hrows : Keyset.sorted (Sql.rowOrder (spec.keys req.sort))
      (table.rows.filter fun row => decide (req.Wants plan spec row)) =
      rows) {n : Nat} {y : Option Row} (hy : (rows.take n).getLast? = y) (hn :
      y = none → n = 0) {cursor : Str}
    (hcursor : Continues spec textOf req.sort p.filterHash plan.digest y cursor) (i : Nat) :
    ∃ next, listPage table scan keys spec (asks i).1 (asks i).2
    { req with cursor, limit := limits i } =
        .ok (((rows.drop n).take (limits i).toNat).map scan, next) ∧
      ((rows.drop n).length ≤ (limits i).toNat → next = []) ∧
      ((limits i).toNat < (rows.drop n).length → next ≠ [] ∧
        ∃ x, ((rows.drop n).take (limits i).toNat).getLast? = some x ∧
          Continues spec textOf req.sort p.filterHash plan.digest (some x) next) := by
  classical
  have hyrow : ∀ x ∈ y, x ∈ table.rows := by
    intro x hx
    have hmem : x ∈ rows := List.mem_of_mem_take (List.mem_of_getLast? (hy.trans hx))
    rw [← hrows] at hmem
    exact List.mem_of_mem_filter ((Keyset.sorted_perm _).mem_iff.mp hmem)
  obtain ⟨q, hcompile, hasks, hlimit, hf, hplanHash⟩ :=
    compile_continues hp hprep htakes hs hyrow hcursor (limits i) (limits i)
  have hbuild : build (asks i).1 (asks i).2 spec { req with cursor, limit := limits i } =
    .ok q := by
    rw [build_eq (hsteady.plan i) (hsteady.limits i), hsteady.defs i]
    exact hcompile
  obtain ⟨o, r, -, -, -, hdigest⟩ := list_shaped (hsteady.plan i)
  obtain ⟨next, hpage, hlast, hmore⟩ : ∃ next, page table q scan keys = .ok (_, next) ∧ _ ∧ _ :=
    page_spec hasks (by rw [hlimit]; exact (hsteady.limits i).1) hs hkeys
      (by rw [hf]; exact hprep.paired) (by rw [hplanHash]; exact hdigest)
      (sorted_left hs hrows hy hn)
  rw [hlimit] at hpage hlast hmore
  rw [hf, hplanHash] at hmore
  refine ⟨next, by rw [listPage, hbuild]; exact hpage, hlast, fun h => ?_⟩
  obtain ⟨hnext, x, hx, -, hcontinues⟩ := hmore h
  exact ⟨hnext, x, hx, hcontinues⟩

/-- The walk on from a page, by the number of rows left. -/
theorem walk_from {restricted : Str → Bool} (hsteady : Steady spec plan defs asks limits)
    (hp : prepare ((defs.operation spec.operation).bind fun o => defs.resource o.resourceType)
      plan spec req = .ok p)
    (hprep : Prepares table plan spec req restricted p)
    (htakes : ∀ c ∈ p.conditions, c.takes p.args (table.kind ∘ ColumnRef.name) = true)
    (hs : Sound table spec textOf req.sort)
    (hkeys : ∀ row ∈ table.rows, keys (scan row) = spec.rowKeys textOf req.sort row)
    [DecidablePred (req.Wants plan spec)] {rows : List Row}
    (hrows : Keyset.sorted (Sql.rowOrder (spec.keys req.sort))
      (table.rows.filter fun row => decide (req.Wants plan spec row)) =
      rows) : ∀ (left n : Nat), (rows.drop n).length ≤ left →
      ∀ (y : Option Row), (rows.take n).getLast? = y →
    (y = none → n = 0) → ∀ (cursor : Str), Continues spec textOf req.sort p.filterHash
    plan.digest y cursor → ∀ (i : Nat),
      ∃ pages, Walked scan limits i (rows.drop n) pages ∧ ∀ fuel, left < fuel →
        walk table scan keys spec asks limits req fuel i cursor = .ok (some pages) := by
  intro left
  induction left with
  | zero =>
      intro n hleft y hy hn cursor hcursor i
      obtain ⟨next, hpage, hlast, -⟩ := listPage_spec hsteady hp hprep htakes hs hkeys hrows
        hy hn hcursor i
      have hlen : (rows.drop n).length ≤ (limits i).toNat := by omega
      obtain rfl := hlast hlen
      rw [List.take_of_length_le hlen] at hpage
      refine ⟨_, .last hlen, fun fuel hfuel => ?_⟩
      obtain ⟨fuel, rfl⟩ := Nat.exists_eq_succ_of_ne_zero (by omega : fuel ≠ 0)
      rw [walk, hpage]
      rfl
  | succ left ih =>
      intro n hleft y hy hn cursor hcursor i
      obtain ⟨next, hpage, hlast, hmore⟩ := listPage_spec hsteady hp hprep htakes hs hkeys
        hrows hy hn hcursor i
      have hsize := (hsteady.limits i).1
      by_cases hlen : (rows.drop n).length ≤ (limits i).toNat
      · obtain rfl := hlast hlen
        rw [List.take_of_length_le hlen] at hpage
        refine ⟨_, .last hlen, fun fuel hfuel => ?_⟩
        obtain ⟨fuel, rfl⟩ := Nat.exists_eq_succ_of_ne_zero (by omega : fuel ≠ 0)
        rw [walk, hpage]
        rfl
      · have hgt : (limits i).toNat < (rows.drop n).length := by omega
        obtain ⟨hnext, x, hx, hcontinues⟩ := hmore hgt
        -- the last of the rows read by now is the last of this page
        have hread : (rows.take (n + (limits i).toNat)).getLast? = some x := by
          rw [List.take_add, List.getLast?_append, hx]
          rfl
        obtain ⟨pages, hwalked, hwalk⟩ := ih (n + (limits i).toNat)
          (by rw [List.length_drop] at hleft hgt ⊢; omega) (some x)
          hread (by simp) next hcontinues (i + 1)
        rw [← List.drop_drop] at hwalked
        refine ⟨_, .more hgt hnext hwalked, fun fuel hfuel => ?_⟩
        obtain ⟨fuel, rfl⟩ := Nat.exists_eq_succ_of_ne_zero (by omega : fuel ≠ 0)
        rw [walk, hpage]
        simp only [bind, Except.bind, hnext, if_false, hwalk fuel (by omega), Option.map_some,
          pure, Except.pure]

/-- **Following the cursors** returns the rows that the request asks for, each once, in the
order of its sort keys with the ID as the last: for any page sizes in the range, while
the table and the plan stay the same. -/
theorem walk_complete (hsteady : Steady spec plan defs asks limits)
    (hs : Sound table spec textOf req.sort)
    (hkeys : ∀ row ∈ table.rows, keys (scan row) = spec.rowKeys textOf req.sort row) {q : Query}
    (haccepted : build (asks 0).1 (asks 0).2 spec
      { req with cursor := [], limit := limits 0 } = .ok q)
    (htaken : q.where_.takes q.args (table.kind ∘ ColumnRef.name) = true) :
    ∃ (rows : List Row) (pages : List (List α × Str)), rows.Pairwise
    (Keyset.Before (Sql.rowOrder (spec.keys req.sort))) ∧
      (∀ row, row ∈ rows ↔ row ∈ table.rows ∧ req.Wants plan spec row) ∧
      (∀ fuel, rows.length < fuel → walk table scan keys spec asks limits req fuel 0 [] =
        .ok (some pages)) ∧
      Complete (rows.map scan) limits pages := by
  classical
  obtain ⟨o, r, -, -, hshaped, -⟩ := list_shaped (hsteady.plan 0)
  rw [build_eq (hsteady.plan 0) (hsteady.limits 0), hsteady.defs 0] at haccepted
  obtain ⟨p, hp, -⟩ := bind_eq_ok_iff.mp haccepted
  have hp' : prepare ((defs.operation spec.operation).bind fun o => defs.resource
    o.resourceType) plan spec req = .ok p := hp
  obtain ⟨narrowed, -, hprep⟩ := prepare_spec hshaped hp'
  have hprep : Prepares table plan spec req _ p := hprep
  have hcompile := compile_eq hp' (fun o ho => (hprep.sorts o ho).1) (limits 0) (limits 0) []
  rw [if_pos rfl] at hcompile
  have hq : p.query plan spec req (limits 0) p.conditions p.args = q :=
    Except.ok.inj (hcompile.symm.trans haccepted)
  rw [← hq] at htaken
  have htakes := Sql.takesAll_iff.mp htaken
  obtain ⟨pages, hwalked, hwalk⟩ := walk_from hsteady hp' hprep htakes hs hkeys rfl _ 0 le_rfl
    none rfl (fun _ => rfl) [] rfl 0
  refine ⟨_, pages, Keyset.sorted_before (hs.distinct.sublist List.filter_sublist),
    fun row => ?_, hwalk, ?_⟩
  · rw [(Keyset.sorted_perm _).mem_iff, List.mem_filter, decide_eq_true_iff]
  · have hcomplete := (hwalked.complete fun i => (hsteady.limits i).1).2
    simpa using hcomplete

end

/-! ## The documents of a department -/

/-- A document, with a title that everybody may know and a cost that not everybody may. -/
def docResource : Resource :=
  { treeResource with fields :=
    ⟨[(str "title", { cls := .ordinary }), (str "cost", { cls := .restricted })], by decide⟩ }

def docOperation : Operation where
  key := str "doc.view"
  resourceType := str "doc"
  purpose := str "read"
  riskClass := str "low"

/-- A member with one operation, whose view gives the principal `p` the documents of the
department `a`. -/
def docSubject : Subject where
  principal := str "p"
  defs := ⟨⟨[(str "doc", docResource)], by decide⟩,
    ⟨[(str "doc.view", docOperation)], by decide⟩⟩
  holder :=
    { shards := ⟨[(some (str "s"),
        { shard := { shard := str "s", applicability := [str "doc"], digest := str "d",
                     subjects := ⟨[(str "p", { segments := [treeSegment "a"] })], by decide⟩ },
          sentAt := 0 })], by decide⟩ }
  at_ := treeAt

def docClock : Clock := ⟨1, 1, 1⟩

def docSpec : Spec where
  operation := str "doc.view"
  alias_ := str "d"
  idColumn := str "id"
  idKind := .text
  columns := [{ field := str "title", column := str "title", kind := .text, sortable := true },
    { field := str "cost", column := str "cost", kind := .text, sortable := true,
      filterable := true }]

theorem docLookup : ∃ g, docSubject.holder.lookupFor docClock.now docClock.nowStale
    docClock.wall (str "doc") (str "p") (str "low") false = .ok g ∧ g.segments =
    [treeSegment "a"] := by
  obtain ⟨e, he, hsegs⟩ : ∃ e, docSubject.holder.answering (str "doc") (str "low")
    docClock.now = some e ∧
      e.2.shard.segmentsFor (str "doc") (str "p") = [treeSegment "a"] :=
    ⟨_, List.find?_cons_of_pos (by decide +kernel), rfl⟩
  simp only [Holder.lookupFor, Holder.lookup, he]
  exact ⟨_, rfl, hsegs⟩

theorem docGrant : ∃ g, docSubject.grant docClock (str "doc.view") =
    .ok (docOperation, docResource, g) ∧ g.segments = [treeSegment "a"] := by
  obtain ⟨g, hg, hsegs⟩ := docLookup
  have hop : docSubject.defs.operation (str "doc.view") = some docOperation := rfl
  have hr : docSubject.defs.resource docOperation.resourceType = some docResource := rfl
  have hrisk : docSubject.defs.risk docOperation docResource = str "low" := by decide +kernel
  refine ⟨g, ?_, hsegs⟩
  rw [Subject.grant, hop]
  dsimp only
  rw [hr]
  dsimp only
  rw [hrisk]
  exact bind_eq_ok_iff.mpr ⟨g, hg, rfl⟩

/-- The subject's plan lists the documents of the department. -/
theorem docPlan : ∃ plan, @Subject.list Interp.ascii docSubject docClock docSpec.operation
    docSpec.alias_ 0 = .ok plan ∧ plan.where_ = .or
    [.and [.or [.cmp ⟨str "d", str "dept_path"⟩ .eq ⟨0, none⟩]]] ∧ plan.args = [.text (str "a")] ∧
    plan.hits = [.coalesce (.and [.or [.cmp ⟨str "d", str "dept_path"⟩ .eq ⟨0, none⟩]])] ∧
    plan.sets = [[str "title"]] := by
  obtain ⟨g, hgrant, hsegs⟩ := docGrant
  have hactive : activeFor g.segments docResource.viewOperation treeAt = [treeSegment "a"] := by
    have hkeep : (decide ((treeSegment "a").operation = str "doc.view") &&
      (treeSegment "a").activeAt treeAt) = true := by
      rw [treeSegment_active, Bool.and_true]
      rfl
    rw [hsegs]
    exact List.filter_eq_self.mpr (List.forall_mem_singleton.mpr hkeep)
  obtain ⟨digest, hdigest⟩ : ∃ x, @planDigest Interp.ascii docResource [treeSegment "a"]
    (str "doc.view") = .ok x :=
    @exists_planDigest Interp.ascii _ _ _ (List.forall_mem_singleton.mpr treeSegment_digest)
      (exists_ok_of_isSome (by decide +kernel)) treeOperation_plain
  have hsegments : Compiler.segments ⟨docResource, str "d", str "p", 0⟩ [treeSegment "a"] [] =
      .ok ([.and [.or [.cmp ⟨str "d", str "dept_path"⟩ .eq ⟨0, none⟩]]], [.text (str "a")]) := rfl
  have hread : [treeSegment "a"].map (fun s => s.readFields.filter docResource.outputs) =
    [[str "title"]] := by decide +kernel
  have hplan := @compilePlan_view Interp.ascii _ _ _ _ _ _ _ _ _ _ hactive hsegments hdigest
  exact ⟨_, bind_eq_ok_iff.mpr ⟨_, hgrant, hplan⟩, rfl, rfl, rfl, hread⟩

def docRow (cost id title : String) : Row := fun c =>
  if c = str "id" then .text (str id) else if c = str "title" then .text (str title)
  else if c = str "cost" then .text (str cost) else .text (str "a")

/-- Three documents of one cost. -/
def docTable (cost : String) : Table Str where
  kind _ := .text
  rows := [docRow cost "1" "x", docRow cost "2" "y", docRow cost "3" "y"]
  typed row hrow c := by
    have hdoc : ∀ id title, (docRow cost id title c).hasKind .text = true := fun id title => by
      unfold docRow
      split
      · rfl
      split
      · rfl
      split <;> rfl
    simp only [List.mem_cons, List.not_mem_nil, or_false] at hrow
    rcases hrow with rfl | rfl | rfl <;> exact hdoc _ _

/-- Texts are their own text. -/
def docText : Value → Str
  | .text s => s
  | _ => []

def docRequest : Request := { sort := [⟨str "title", true⟩] }

/-- Every value of the documents travels. -/
theorem docTravels [Engine] {cost : String} (hcost : Paired (str cost)) :
    ∀ row ∈ (docTable cost).rows, ∀ c, Travels docText .text (row c) := by
  have hpaired : ∀ s ∈ [str "1", str "2", str "3", str "x", str "y", str "a"], Paired s := by
    have hall : ∀ s ∈ [str "1", str "2", str "3", str "x", str "y", str "a"], s.all
      (fun c => !isSurrogate c) = true := by
      decide
    exact fun s hs c hc => by simpa using List.all_eq_true.mp (hall s hs) c hc
  simp only [List.forall_mem_cons] at hpaired
  obtain ⟨h1, h2, h3, hx, hy, ha, -⟩ := hpaired
  have hdoc : ∀ {id title : String}, Paired (str id) → Paired (str title) →
    ∀ c, Travels docText .text (docRow cost id title c) := by
    intro id title hid htitle c
    unfold docRow
    split
    · exact ⟨rfl, hid⟩
    split
    · exact ⟨rfl, htitle⟩
    split
    · exact ⟨rfl, hcost⟩
    · exact ⟨rfl, ha⟩
  simp only [docTable, List.forall_mem_cons]
  exact ⟨hdoc h1 hx, hdoc h2 hy, hdoc h3 hy, by simp⟩

theorem docSound : @Sound Engine.plain (docTable "1") docSpec docText docRequest.sort := by
  have htravels := @docTravels Engine.plain "1" (fun c hc => by rw [List.mem_singleton.mp hc]; rfl)
  refine @Sound.mk Engine.plain _ _ _ _ (by decide +kernel)
    (fun row hrow => htravels row hrow _) fun o ho row hrow => ?_
  obtain rfl := List.mem_singleton.mp ho
  exact htravels row hrow _

theorem docPrepare (plan : Plan) : ∃ p, prepare (some docResource) plan docSpec docRequest = .ok p ∧
    p.conditions = [plan.where_] ∧ p.args = plan.args := by
  obtain ⟨d, hd⟩ : ∃ d, digest (docRequest.record [] []) = .ok d :=
    exists_ok_of_isSome (by decide +kernel)
  refine ⟨{ conditions := [plan.where_], args := plan.args, filterHash := d, readableOnly := [] },
    bind_eq_ok_iff.mpr ⟨[], rfl, bind_eq_ok_iff.mpr ⟨([], plan.args), rfl, ?_⟩⟩, rfl, rfl⟩
  have hkeyword : docRequest.keyword = [] := rfl
  rw [← hkeyword] at hd
  simp only [hkeyword, ne_eq, not_true_eq_false, false_and, if_false]
  refine bind_eq_ok_iff.mpr ⟨(), rfl, bind_eq_ok_iff.mpr ⟨d, hd, rfl⟩⟩

/-- The walk over the documents, two to a page. -/
theorem walk_documents : ∃ (plan : Plan) (rows : List Row) (pages : List (List Row × Str)),
    @Subject.list Interp.ascii docSubject docClock docSpec.operation docSpec.alias_ 0 = .ok plan ∧
    rows.Pairwise (Keyset.Before (@Sql.rowOrder Engine.plain _ (docSpec.keys docRequest.sort))) ∧
    (∀ row, row ∈ rows ↔ row ∈ (docTable "1").rows ∧ @Request.Wants Engine.plain plan docSpec
      docRequest row) ∧
    (∀ fuel, rows.length < fuel → @walk Interp.ascii Engine.plain _ (docTable "1") id
      (docSpec.rowKeys docText docRequest.sort) docSpec (fun _ => (docSubject, docClock))
      (fun _ => 2) docRequest fuel 0 [] = .ok (some pages)) ∧
    Complete (rows.map id) (fun _ => 2) pages := by
  obtain ⟨plan, hplan, hwhere, hargs, -, -⟩ := docPlan
  obtain ⟨p, hp, hconditions, hpargs⟩ := docPrepare plan
  have hsteady : @Steady Interp.ascii docSpec plan docSubject.defs
    (fun _ => (docSubject, docClock)) fun _ => 2 :=
    @Steady.mk Interp.ascii _ _ _ _ _ (fun _ => rfl) (fun _ => hplan) fun _ => by decide
  have hcompile := @compile_eq _ _ _ _ _ Interp.ascii hp (by decide +kernel) 2 2 []
  rw [if_pos rfl] at hcompile
  have hbuild : @build Interp.ascii docSubject docClock docSpec
    { docRequest with cursor := [], limit := 2 } =
      .ok (p.query plan docSpec docRequest 2 p.conditions p.args) :=
    (@build_eq docSpec _ plan Interp.ascii _ _ hplan (by decide)).trans hcompile
  have htaken : @Pred.takes Engine.plain _ p.args ((docTable "1").kind ∘ ColumnRef.name)
    (.chain p.conditions) = true := by
    rw [hconditions, hpargs, hwhere, hargs]
    decide +kernel
  obtain ⟨rows, pages, hrows⟩ := @walk_complete Engine.plain (docTable "1")
    docSpec docText docRequest plan Row id (docSpec.rowKeys docText docRequest.sort)
    Interp.ascii docSubject.defs _ _ hsteady docSound (fun _ _ => rfl) _ hbuild htaken
  exact ⟨plan, rows, pages, hplan, hrows⟩

end BeSdk.Lists
