/-
BeSdk.Lists.Conditions — what the conditions of a compiled page say of a row.

A condition is built together with its arguments, so what it says is stated under
every list of arguments that holds them: `Yields x Q` says that a computation returns
and that its result satisfies `Q` there. `Says table full p Q` is the result wanted of
a condition: the database takes it, and of the table's rows it is true where `Q` is.

`after_says` is the keyset condition. Its `i`-th disjunct says that the first `i` keys
equal the cursor's and the next one comes after; together they say that the row is
after the cursor's row in the ORDER BY (`resume_says`). `prepare_spec` is everything
else a page asks for.
-/
import BeSdk.Lists.Cursor
import BeSdk.Authz.PlanReads

namespace BeSdk.Lists

open Sql (Kind Pred Param Arg OrderKey Comparison Table Value Engine)

/-! ## Computations -/

/-- The computation returns, and its result satisfies `Q` under its arguments. -/
structure Yields {α : Type} (x : Compile α) (Q : List Arg → α → Prop) : Prop where
  returns : Returns x
  emits : Emits 0 x Q

section
variable {α β : Type}

theorem Yields.pure {a : α} {Q : List Arg → α → Prop} (h : ∀ full, Q full a) : Yields (pure a) Q :=
  ⟨.pure a, .pure h⟩

/-- One compilation after another yields what the second does. -/
theorem Yields.bind {x : Compile α} {f : α → Compile β} {P : List Arg → α → Prop}
    {Q : List Arg → β → Prop} (hx : Yields x P)
    (hf : ∀ a, Yields (f a) fun full b => P full a → Q full b) : Yields (x >>= f) Q :=
  ⟨hx.returns.bind fun a => (hf a).returns, hx.emits.bind fun a => (hf a).emits⟩

theorem Yields.mono {x : Compile α} {P Q : List Arg → α → Prop} (hx : Yields x P)
    (h : ∀ full a, P full a → Q full a) : Yields x Q := ⟨hx.returns, hx.emits.mono h⟩

/-- One result for each item. -/
theorem Yields.mapM {f : α → Compile β} {Q : α → List Arg → β → Prop} :
    ∀ {l : List α}, (∀ a ∈ l, Yields (f a) (Q a)) → Yields (l.mapM f) fun full bs =>
    List.Forall₂ (fun a b => Q a full b) l bs
  | [], _ => .pure fun _ => .nil
  | a :: l, h => by
      rw [List.forall_mem_cons] at h
      rw [List.mapM_cons]
      exact h.1.bind fun b => (Yields.mapM h.2).bind fun bs => .pure fun full hbs hb => .cons hb hbs

/-- What a computation without arguments before it returns. -/
theorem Yields.exists_ok {x : Compile α} {Q : List Arg → α → Prop} (hx : Yields x Q)
    (args : List Arg) : ∃ a args', x args = .ok (a, args') ∧ args <+: args' ∧ Q args' a := by
  obtain ⟨⟨a, args'⟩, h⟩ := hx.returns args
  obtain ⟨hargs, hQ⟩ := hx.emits args a args' h
  exact ⟨a, args', h, hargs, hQ args' ⟨[], [], rfl, by simp⟩⟩

end

/-- An argument stands at the index it is given. -/
theorem yields_arg (v : Arg) : Yields (arg v) fun full i => full[i]? = some v := by
  refine ⟨fun args => ⟨_, rfl⟩, fun args i args' h => ?_⟩
  obtain ⟨rfl, rfl⟩ := Prod.mk.inj (Except.ok.inj h)
  refine ⟨List.prefix_append .., ?_⟩
  rintro full ⟨before, after, hlen, rfl⟩
  obtain rfl := List.length_eq_zero_iff.mp hlen
  simp

theorem yields_typed (k : Kind) (v : Arg) :
    Yields (typed k v) fun full p => p.cast = some k ∧ full[p.index]? = some v :=
  (yields_arg v).bind fun _ => .pure fun _ hi => ⟨rfl, hi⟩

/-! ## Saying -/

section
variable [Engine] {table : Table Str} {full : List Arg}

/-- Under the arguments the database takes the condition, and it says `Q` of the table's rows. -/
structure Says (table : Table Str) (full : List Arg) (p : Pred ColumnRef) (Q : Row → Prop) :
    Prop where
  takes : p.takes full (table.kind ∘ ColumnRef.name) = true
  eval : ∀ row ∈ table.rows, p.eval full (Row.columns row) = .true ↔ Q row

/-- The conditions together say `Q`. -/
structure SayAll (table : Table Str) (full : List Arg) (ps : List (Pred ColumnRef))
    (Q : Row → Prop) : Prop where
  takes : ∀ p ∈ ps, p.takes full (table.kind ∘ ColumnRef.name) = true
  eval : ∀ row ∈ table.rows, (∀ p ∈ ps, p.eval full (Row.columns row) = .true) ↔ Q row

theorem SayAll.nil : SayAll table full [] fun _ => True := ⟨by simp, by simp⟩

/-- Conditions say what each of them does. -/
theorem SayAll.cons {p : Pred ColumnRef} {ps : List (Pred ColumnRef)} {P Q : Row → Prop}
    (hp : Says table full p P) (hps : SayAll table full ps Q) :
    SayAll table full (p :: ps) fun row => P row ∧ Q row :=
  ⟨List.forall_mem_cons.mpr ⟨hp.takes, hps.takes⟩, fun row hrow => by
    rw [List.forall_mem_cons, hp.eval row hrow, hps.eval row hrow]⟩

/-- A conjunction says what its parts do and one more. -/
theorem SayAll.and {p : Pred ColumnRef} {ps : List (Pred ColumnRef)} {P Q : Row → Prop}
    (hps : SayAll table full ps Q) (hp : Says table full p P) :
    Says table full (.and (ps ++ [p])) fun row => Q row ∧ P row := by
  refine ⟨Sql.takesAll_iff.mpr ?_, fun row hrow => ?_⟩
  · rw [List.forall_mem_append, List.forall_mem_singleton]
    exact ⟨hps.takes, hp.takes⟩
  · rw [Sql.eval_and_eq_true_iff, List.forall_mem_append, List.forall_mem_singleton,
      hps.eval row hrow, hp.eval row hrow]

theorem Says.congr {p : Pred ColumnRef} {P Q : Row → Prop} (hp : Says table full p P)
    (h : ∀ row ∈ table.rows, P row ↔ Q row) : Says table full p Q :=
  ⟨hp.takes, fun row hrow => (hp.eval row hrow).trans (h row hrow)⟩

theorem SayAll.congr {ps : List (Pred ColumnRef)} {P Q : Row → Prop} (hps : SayAll table full ps P)
    (h : ∀ row ∈ table.rows, P row ↔ Q row) : SayAll table full ps Q :=
  ⟨hps.takes, fun row hrow => (hps.eval row hrow).trans (h row hrow)⟩

/-- A disjunction says that one of its parts does. -/
theorem says_or {ι : Type} {l : List ι} {ps : List (Pred ColumnRef)} {Q : ι → Row → Prop}
    (h : List.Forall₂ (fun i p => Says table full p (Q i)) l ps) :
    Says table full (.or ps) fun row => ∃ i ∈ l, Q i row := by
  have hall : (∀ p ∈ ps, p.takes full (table.kind ∘ ColumnRef.name) = true) ∧
      ∀ row ∈ table.rows, (∃ p ∈ ps, p.eval full (Row.columns row) = .true) ↔ ∃ i ∈ l, Q i row := by
    induction h with
    | nil => simp
    | cons hp _ ih =>
        refine ⟨List.forall_mem_cons.mpr ⟨hp.takes, ih.1⟩, fun row hrow => ?_⟩
        simp only [List.mem_cons, exists_eq_or_imp, hp.eval row hrow, ih.2 row hrow]
  exact ⟨Sql.takesAll_iff.mpr hall.1, fun row hrow =>
    (Sql.eval_or_eq_true_iff ps).trans (hall.2 row hrow)⟩

/-- The comparison of a column with a value written as text. -/
theorem says_cmp {s : Spec} {name : Str} {k : Kind} {op : Comparison} {text : Str}
    {w : Value} {p : Param} (hkind : table.kind name = k)
    (hnull : ∀ row ∈ table.rows, row name ≠ .null) (hcast : Sql.cast k text = some w)
    (hp : p.cast = some k ∧ full[p.index]? = some (.text text)) :
    Says table full (.cmp (s.col name) op p) fun row => op.holds ((row name).sortOrder w) =
    true := by
  obtain ⟨hw, hwn⟩ := Sql.cast_hasKind hcast
  have hreads : Arg.reads k full[p.index]? = true := by
    rw [hp.2, Arg.reads, hcast]
    rfl
  refine ⟨?_, fun row hrow => ?_⟩
  · have hname : (table.kind ∘ ColumnRef.name) (s.col name) = k := hkind
    rw [Pred.takes, hname, hreads, Param.fits, hp.1]
    simp
  · have htyped := table.typed row hrow name
    rw [hkind] at htyped
    have hcol : Row.columns row (s.col name) = row name := rfl
    have hvalue : p.value full k = some w := by
      rw [Param.value, hp.2, hp.1]
      exact hcast
    rw [Pred.eval, hcol, Sql.testParam_of_value htyped hvalue, Value.test,
      Sql.order_of_hasKind htyped hw (hnull row hrow) hwn, Tri.ofBool_eq_true_iff]

/-! ## The keyset condition -/

/-- The column of a sort key. -/
def Spec.colOf (s : Spec) (o : Order) : Column :=
  (s.cols.get? o.field).getD { field := [], column := [], kind := .text }

def Spec.keyOf (s : Spec) (o : Order) : OrderKey Str := ⟨(s.colOf o).column, o.desc⟩

def Spec.idKey (s : Spec) : OrderKey Str := ⟨s.idColumn, false⟩

/-- The keys rows are ordered by, as columns of the table, the ID last. -/
def Spec.keys (s : Spec) (sort : List Order) : List (OrderKey Str) := sort.map s.keyOf ++ [s.idKey]

/-- A value that the database reads back from the text it writes it as, which has no
unpaired surrogate. -/
structure Travels (textOf : Value → Str) (k : Kind) (v : Value) : Prop where
  back : Sql.cast k (textOf v) = some v
  paired : Paired (textOf v)

/-- A table a list can be walked over: the IDs are unique, and the IDs and the values of
the sort columns are there and survive the way through text. -/
structure Sound (table : Table Str) (spec : Spec) (textOf : Value → Str) (sort : List Order) :
    Prop where
  unique : table.rows.Pairwise fun row row' => (row spec.idColumn).order
    (row' spec.idColumn) ≠ some .eq
  ids : ∀ row ∈ table.rows, Travels textOf spec.idKind (row spec.idColumn)
  sorts : ∀ o ∈ sort, ∀ row ∈ table.rows, Travels textOf (spec.colOf o).kind
    (row (spec.colOf o).column)

/-- The sort values of a row as text, and its ID. -/
def Spec.rowKeys (s : Spec) (textOf : Value → Str) (sort : List Order) (row : Row) :
    List Str × Str :=
  (sort.map fun o => textOf (row (s.colOf o).column), textOf (row s.idColumn))

theorem Travels.ne_null {textOf : Value → Str} {k : Kind} {v : Value}
    (h : Travels textOf k v) : v ≠ .null :=
  (Sql.cast_hasKind h.back).2

/-- A value of a column that travels as a kind is of the column's type. -/
theorem Travels.kind_eq {textOf : Value → Str} {k : Kind} {row : Row} {name : Str}
    (hrow : row ∈ table.rows) (h : Travels textOf k (row name)) : table.kind name = k := by
  have hkind := Value.kind_of_hasKind (Sql.cast_hasKind h.back).1 h.ne_null
  have htable := Value.kind_of_hasKind (table.typed row hrow name) h.ne_null
  exact Option.some.inj (htable.symm.trans hkind)

/-- A row agrees with the cursor in a key. -/
theorem holds_eq_iff (k : OrderKey Str) (y row : Row) :
    Comparison.eq.holds ((row k.column).sortOrder (y k.column)) = true ↔ k.compare y row = .eq := by
  rw [OrderKey.compare, Comparison.holds, beq_iff_eq]
  split
  · exact Iff.rfl
  · exact Std.OrientedCmp.eq_comm

/-- A row comes after the cursor by a key. -/
theorem holds_next_iff (k : OrderKey Str) (y row : Row) :
    (if k.desc then Comparison.lt else .gt).holds ((row k.column).sortOrder (y k.column)) = true ↔
      k.compare y row = .lt := by
  rw [OrderKey.compare]
  split
  · rw [Comparison.holds, beq_iff_eq]
  · rw [Comparison.holds, beq_iff_eq, Std.OrientedCmp.gt_iff_lt]

section
variable {spec : Spec} {textOf : Value → Str} {sort : List Order} {y : Row}

/-- The comparison of a column with the value it has in a row. -/
theorem says_cmp_row {name : Str} {k : Kind}
    (htravels : ∀ row ∈ table.rows, Travels textOf k (row name))
    (hy : y ∈ table.rows) {op : Comparison} {p : Param}
    (hp : p.cast = some k ∧ full[p.index]? = some (.text (textOf (y name)))) :
    Says table full (.cmp (spec.col name) op p) fun row => op.holds
    ((row name).sortOrder (y name)) = true :=
  says_cmp ((htravels y hy).kind_eq hy) (fun row hrow => (htravels row hrow).ne_null)
    (htravels y hy).back hp

omit [Engine] in
theorem sortColumn_eq {o : Order} (h : (spec.cols.get? o.field).isSome = true) :
    spec.sortColumn o = pure (spec.colOf o) := by
  obtain ⟨c, hc⟩ := Option.isSome_iff_exists.mp h
  rw [Spec.sortColumn, Spec.colOf, hc]
  rfl

/-- The first keys equal those of a row. -/
theorem yields_equals (hy : y ∈ table.rows) :
    ∀ {l : List Order}, (∀ o ∈ l, (spec.cols.get? o.field).isSome = true) →
    (∀ o ∈ l, ∀ row ∈ table.rows, Travels textOf (spec.colOf o).kind (row (spec.colOf o).column)) →
    Yields (spec.equals (l.map fun o => (o, .str (textOf (y (spec.colOf o).column)))))
    fun full ps =>
      SayAll table full ps fun row => ∀ o ∈ l, (spec.keyOf o).compare y row = .eq
  | [], _, _ => .pure fun _ => SayAll.nil.congr (by simp)
  | o :: l, hcols, htravels => by
      rw [List.forall_mem_cons] at hcols htravels
      rw [List.map_cons, Spec.equals, sortColumn_eq hcols.1, pure_bind]
      refine (yields_typed _ _).bind fun p => (yields_equals hy hcols.2 htravels.2).bind fun ps =>
        .pure fun full hps hp => ?_
      refine (SayAll.cons (says_cmp_row htravels.1 hy hp) hps).congr fun row _ => ?_
      rw [List.forall_mem_cons]
      exact and_congr_left fun _ => holds_eq_iff (spec.keyOf o) y row

/-- The `i`-th disjunct: the first `i` keys equal those of a row, and the next one comes after
its. -/
theorem yields_after (hs : Sound table spec textOf sort) (hy : y ∈ table.rows)
    (hcols : ∀ o ∈ sort, (spec.cols.get? o.field).isSome = true)
    {i : Nat} (hi : i < sort.length + 1) :
    Yields (spec.after (sort.map fun o => (o, .str (textOf (y (spec.colOf o).column))))
      (some (.str (textOf (y spec.idColumn)))) i) fun full p => Says table full p fun row =>
        (∀ k ∈ (spec.keys sort).take i, k.compare y row = .eq) ∧
          ∃ k, (spec.keys sort)[i]? = some k ∧ k.compare y row = .lt := by
  have htake : (spec.keys sort).take i = (sort.take i).map spec.keyOf := by
    rw [Spec.keys, List.take_append_of_le_length (by simp; omega), List.map_take]
  have hcols' : ∀ o ∈ sort.take i, (spec.cols.get? o.field).isSome = true := fun o ho =>
    hcols o (List.mem_of_mem_take ho)
  have hargs := @yields_equals _ table _ _ _ hy _ hcols' fun o ho =>
    hs.sorts o (List.mem_of_mem_take ho)
  rw [Spec.after, ← List.map_take, List.getElem?_map]
  refine hargs.bind fun ands => ?_
  simp only [htake, List.forall_mem_map]
  cases ho : sort[i]? with
  | some o =>
      have hmem := List.mem_of_getElem? ho
      have hkey : (spec.keys sort)[i]? = some (spec.keyOf o) := by
        rw [Spec.keys, getElem?_join (by rw [List.getElem?_map, ho]; rfl)]
      simp only [Option.map_some, sortColumn_eq (hcols o hmem), pure_bind, hkey,
        Option.some.injEq, exists_eq_left']
      refine (yields_typed _ _).bind fun p => .pure fun full hp hands => ?_
      refine (hands.and (says_cmp_row (hs.sorts o hmem) hy hp)).congr fun row _ => ?_
      exact and_congr_right fun _ => holds_next_iff (spec.keyOf o) y row
  | none =>
      have hlen : i = sort.length := by
        have := List.getElem?_eq_none_iff.mp ho
        omega
      have hkey : (spec.keys sort)[i]? = some spec.idKey := by
        rw [Spec.keys, hlen, ← List.length_map (f := spec.keyOf), List.getElem?_concat_length]
      simp only [Option.map_none, hkey, Option.some.injEq, exists_eq_left']
      refine (yields_typed _ _).bind fun p => .pure fun full hp hands => ?_
      refine (hands.and (says_cmp_row hs.ids hy hp)).congr fun row _ => ?_
      exact and_congr_right fun _ => holds_next_iff spec.idKey y row

/-- **The keyset condition** says that a row comes after the cursor's row in the order. -/
theorem yields_resume [Interp] (hs : Sound table spec textOf sort) (hy : y ∈ table.rows)
    (hcols : ∀ o ∈ sort, (spec.cols.get? o.field).isSome = true) {cursor filterHash planHash : Str}
    (hopens : Opens cursor (spec.rowKeys textOf sort y).1 (spec.rowKeys textOf sort y).2
      filterHash planHash) :
    Yields (spec.resume cursor sort filterHash planHash) fun full p => Says table full p fun row =>
      Keyset.Before (Sql.rowOrder (spec.keys sort)) y row := by
  obtain ⟨ms, hopen, hf, hp, hid⟩ := hopens.opens
  have hlen : (spec.rowKeys textOf sort y).1.length = sort.length := by simp [Spec.rowKeys]
  rw [hlen] at hopen
  have hzip : sort.zip ((spec.rowKeys textOf sort y).1.map Json.str) =
      sort.map fun o => (o, Json.str (textOf (y (spec.colOf o).column))) := by
    have hzip := @List.zip_map' _ _ _ (fun o : Order => o)
      (fun o => Json.str (textOf (y (spec.colOf o).column))) sort
    rw [List.map_id'] at hzip
    rw [Spec.rowKeys, List.map_map]
    exact hzip
  rw [Spec.resume, hopen]
  simp only [hf, hp, Bool.true_eq_false, if_false, hzip, hid]
  refine (Yields.mapM fun i hi => yields_after hs hy hcols (List.mem_range.mp hi)).bind fun ors =>
    .pure fun full hors => ?_
  refine (says_or hors).congr fun row _ => ?_
  rw [Keyset.Before, Sql.rowOrder, Keyset.lex_eq_lt_iff]
  constructor
  · rintro ⟨i, -, hargs, k, hk, hlt⟩
    refine ⟨i, ?_, _, by rw [List.getElem?_map, hk]; rfl, hlt⟩
    rw [← List.map_take, List.forall_mem_map]
    exact hargs
  · rintro ⟨i, hargs, cmp, hcmp, hlt⟩
    rw [← List.map_take, List.forall_mem_map] at hargs
    rw [List.getElem?_map] at hcmp
    obtain ⟨k, hk, rfl⟩ := Option.map_eq_some_iff.mp hcmp
    refine ⟨i, ?_, hargs, k, hk, hlt⟩
    have := (List.getElem?_eq_some_iff.mp hk).1
    simpa [Spec.keys] using this

end

end

end BeSdk.Lists
