/-
BeSdk.Lists.Pages — which rows a request asks for, and that a compiled page asks the
database for those.

`Request.Wants` is the purpose of the conditions a page is built from: the rows the
plan lists, that show the fields the request narrows to, and that its filters hold of.
`prepare_spec` says that the conditions say this, whatever arguments come after theirs.

A condition is read only in a statement that the database takes (`Pred.takes`), where
every argument is a value of its column's type.
-/
import BeSdk.Lists.Conditions

namespace BeSdk.Lists

open Sql (Kind Pred Param Arg OrderKey Comparison Table Value Engine)

/-! ## Filters -/

section
variable [Engine]

/-- What a filter says of a row: how the value of its column compares with the values
its texts are read as. -/
def Filter.Holds (s : Spec) (f : Filter) (row : Row) : Prop :=
  ∃ c, s.cols.get? f.field = some c ∧
    if f.op = str "in" then
      ∃ v ∈ f.values, ∃ w, Sql.cast c.kind v = some w ∧ (row c.column).test .eq w = .true
    else
      ∃ op v w, lookup f.op ops = some op ∧ f.values = [v] ∧ Sql.cast c.kind v = some w ∧
        (row c.column).test op w = .true

variable {args full : List Arg} {table : Table Str} {spec : Spec}

/-- A condition reads arguments before its end, and in a statement that is taken says `Q`. -/
structure Means (table : Table Str) (full : List Arg) (p : Pred ColumnRef) (Q : Row → Prop) :
    Prop where
  uses : p.Uses (fun _ => True) full.length
  eval : p.takes full (table.kind ∘ ColumnRef.name) = true →
    ∀ row ∈ table.rows, p.eval full (Row.columns row) = .true ↔ Q row

/-- A filter's condition says what the filter does. -/
theorem emits_filter {c : Column} {f : Filter} (hc : spec.cols.get? f.field = some c) :
    Emits 0 (spec.filter c f) fun full p => Means table full p (f.Holds spec) := by
  have hcol : ∀ {row : Row}, Row.columns row (spec.col c.column) = row c.column := rfl
  have hkind : (table.kind ∘ ColumnRef.name) (spec.col c.column) = table.kind c.column := rfl
  unfold Spec.filter
  dsimp only
  by_cases hin : f.op = str "in"
  · rw [if_pos hin]
    split
    · next hempty =>
      refine .pure fun full => ⟨trivial, fun _ row _ => ?_⟩
      have hnil : f.values = [] := by simpa using hempty
      simp [Filter.Holds, hc, hin, hnil]
    · refine (yields_arg _).emits.bind fun i => .pure fun full hi =>
        ⟨⟨trivial, (List.getElem?_eq_some_iff.mp hi).1⟩, ?_⟩
      intro htakes row hrow
      rw [Pred.takes, hkind, Bool.and_eq_true, Param.fits] at htakes
      obtain ⟨hfits, hreads⟩ := htakes
      have hk : c.kind = table.kind c.column := by simpa using hfits
      simp only [hi, Arg.readsAll, ← hk, List.all_eq_true] at hreads
      have htyped := table.typed row hrow c.column
      rw [← hk] at htyped
      rw [Pred.eval, hcol, Sql.testAny_eq_true_iff htyped rfl hi hreads]
      simp [Filter.Holds, hc, hin]
  · rw [if_neg hin]
    split
    · next op v hop hvalues =>
      refine (yields_typed _ _).emits.bind fun p => .pure fun full hp =>
        ⟨⟨trivial, (List.getElem?_eq_some_iff.mp hp.2).1⟩, ?_⟩
      intro htakes row hrow
      rw [Pred.takes, hkind, Bool.and_eq_true, Param.fits, hp.1] at htakes
      obtain ⟨hfits, hreads⟩ := htakes
      have hk : c.kind = table.kind c.column := by simpa using hfits
      rw [hp.2, ← hk] at hreads
      obtain ⟨w, hw⟩ := Option.isSome_iff_exists.mp hreads
      have htyped := table.typed row hrow c.column
      rw [← hk] at htyped
      have hvalue : p.value full c.kind = some w := by
        rw [Param.value, hp.2, hp.1]
        exact hw
      rw [Pred.eval, hcol, Sql.testParam_of_value htyped hvalue]
      simp [Filter.Holds, hc, hin, hop, hvalues, hw]
    · exact .throw

/-- The conditions together, read in a statement that is taken. -/
structure MeanAll (table : Table Str) (full : List Arg) (ps : List (Pred ColumnRef))
    (Q : Row → Prop) : Prop where
  uses : ∀ p ∈ ps, p.Uses (fun _ => True) full.length
  eval : (∀ p ∈ ps, p.takes full (table.kind ∘ ColumnRef.name) = true) →
    ∀ row ∈ table.rows, (∀ p ∈ ps, p.eval full (Row.columns row) = .true) ↔ Q row

theorem MeanAll.nil : MeanAll table full [] fun _ => True := ⟨by simp, by simp⟩

theorem MeanAll.cons {p : Pred ColumnRef} {ps : List (Pred ColumnRef)} {P Q : Row → Prop}
    (hp : Means table full p P) (hps : MeanAll table full ps Q) :
    MeanAll table full (p :: ps) fun row => P row ∧ Q row := by
  refine ⟨List.forall_mem_cons.mpr ⟨hp.uses, hps.uses⟩, fun htakes row hrow => ?_⟩
  rw [List.forall_mem_cons] at htakes ⊢
  rw [hp.eval htakes.1 row hrow, hps.eval htakes.2 row hrow]

theorem MeanAll.append {ps qs : List (Pred ColumnRef)} {P Q : Row → Prop}
    (hps : MeanAll table full ps P) (hqs : MeanAll table full qs Q) :
    MeanAll table full (ps ++ qs) fun row => P row ∧ Q row := by
  refine ⟨List.forall_mem_append.mpr ⟨hps.uses, hqs.uses⟩, fun htakes row hrow => ?_⟩
  rw [List.forall_mem_append] at htakes ⊢
  rw [hps.eval htakes.1 row hrow, hqs.eval htakes.2 row hrow]

theorem MeanAll.congr {ps : List (Pred ColumnRef)} {P Q : Row → Prop}
    (hps : MeanAll table full ps P) (h : ∀ row, P row ↔ Q row) : MeanAll table full ps Q :=
  ⟨hps.uses, fun htakes row hrow => (hps.eval htakes row hrow).trans (h row)⟩

/-- The conditions of the filters say what the filters do. -/
theorem emits_filters (plan : Plan) (restricted : Str → Bool) : ∀ (fs : List Filter),
    Emits 0 (spec.filters plan restricted fs) fun full ps =>
      MeanAll table full ps fun row => ∀ f ∈ fs, f.Holds spec row
  | [] => .pure fun _ => MeanAll.nil.congr (by simp)
  | f :: fs => by
      unfold Spec.filters
      split
      · exact .throw
      next c hc =>
        split
        · exact .throw
        split
        · exact .throw
        have hfilter : Emits 0 (spec.filter c f) fun full p => Means table full p
          (f.Holds spec) := emits_filter hc
        refine hfilter.bind fun p => (emits_filters plan restricted fs).bind fun ps =>
          .pure fun full hps hp => ?_
        exact (MeanAll.cons hp hps).congr fun row => by rw [List.forall_mem_cons]

/-! ## Preparing -/

/-- The rows a request asks for. A keyword finds none. -/
structure Request.Wants (plan : Plan) (spec : Spec) (req : Request) (row : Row) : Prop where
  listed : plan.where_.eval plan.args row.columns = .true
  shows : ∀ name ∈ req.readableOnly, name ∈ plan.fields (plan.bits plan.args row)
  filters : ∀ f ∈ req.filters, f.Holds spec row
  keyword : req.keyword = []

omit [Engine] in
/-- The fields narrowed to are those named, declared and not secret. -/
theorem mem_narrow {r : Option Resource} :
    ∀ {names seen out : List Str}, narrow r names seen = .ok out →
    ∀ n, n ∈ out ↔ n ∈ seen ∨ n ∈ names
  | [], seen, out, h, n => by
      obtain rfl := Except.ok.inj h
      simp
  | name :: names, seen, out, h, n => by
      rw [narrow] at h
      split at h
      · cases h
      split at h
      · cases h
      rw [mem_narrow h n]
      split
      · next hmem =>
        rw [List.mem_cons]
        constructor
        · rintro (h | h)
          · exact .inl h
          · exact .inr (.inr h)
        · rintro (h | rfl | h)
          · exact .inl h
          · exact .inl hmem
          · exact .inr h
      · simp [or_assoc]

omit [Engine] in
/-- What is known of a sort key that is accepted. -/
theorem mem_checkSorts {plan : Plan} {restricted : Str → Bool} : ∀ {sort : List Order},
    spec.checkSorts plan restricted sort = .ok () →
    ∀ o ∈ sort, (spec.cols.get? o.field).isSome = true ∧
      (restricted o.field = true → plan.readableEverywhere o.field = true)
  | [], _ => by simp
  | o :: sort, h => by
      rw [Spec.checkSorts] at h
      split at h
      · cases h
      next c hc =>
        split at h
        · cases h
        split at h
        · cases h
        next hplan =>
          rw [List.forall_mem_cons]
          refine ⟨⟨by rw [hc]; rfl, fun hr => ?_⟩, mem_checkSorts h⟩
          rw [not_and, Bool.not_eq_false] at hplan
          exact hplan hr

omit [Engine] in
/-- Arguments added later are none of those read before. -/
theorem getElem?_continued (h : args <+: full) : ∀ i < args.length, full[i]? = args[i]? := by
  obtain ⟨rest, rfl⟩ := h
  exact fun i hi => List.getElem?_append_left hi

/-- The plan's own condition and the narrowing, under arguments that continue the plan's. -/
theorem means_of_uses {r : Resource} {n : Nat} {p : Pred ColumnRef} (hp : p.Uses r.Reads n)
    (hn : n ≤ args.length) (h : args <+: full) :
    Means table full p fun row => p.eval args row.columns = .true := by
  have hlen := h.length_le
  refine ⟨Pred.Uses.mono (fun _ _ => trivial) (hn.trans hlen) p hp, fun _ row _ => ?_⟩
  rw [Pred.Uses.eval_congr (fun i hi => getElem?_continued h i (hi.trans_le hn))
    (fun _ _ => rfl) p hp]

/-- The narrowing to the rows that show some fields. -/
theorem means_narrowed {r : Resource} {plan : Plan} (hs : Shaped r plan) :
    ∀ (names : List Str), plan.args <+: full → MeanAll table full
    (names.map plan.readableWhere) fun row =>
      ∀ name ∈ names, name ∈ plan.fields (plan.bits plan.args row)
  | [], _ => MeanAll.nil.congr (by simp)
  | name :: names, hargs => by
      have hname := (means_of_uses (hs.readableWhere name) le_rfl hargs : Means table full _ _)
      refine (MeanAll.cons hname (means_narrowed hs names hargs)).congr fun row => ?_
      rw [List.forall_mem_cons, Plan.readableWhere_iff]

/-- What preparing a request gives. -/
structure Prepares (table : Table Str) (plan : Plan) (spec : Spec) (req : Request)
    (restricted : Str → Bool) (p : Prepared) : Prop where
  means : MeanAll table p.args p.conditions (req.Wants plan spec)
  sorts : ∀ o ∈ req.sort, (spec.cols.get? o.field).isSome = true ∧
    (restricted o.field = true → plan.readableEverywhere o.field = true)
  paired : Paired p.filterHash

theorem prepare_spec {r : Resource} {r' : Option Resource} {plan : Plan} {req : Request}
    {p : Prepared} (hs : Shaped r plan) (h : prepare r' plan spec req = .ok p) : ∃ narrowed,
      narrow r' req.readableOnly [] = .ok narrowed ∧ Prepares table plan spec req
      (isRestricted r' narrowed) p := by
  obtain ⟨narrowed, hnarrow, h⟩ := bind_eq_ok_iff.mp h
  obtain ⟨⟨filters, args⟩, hfilters, h⟩ := bind_eq_ok_iff.mp h
  refine ⟨narrowed, hnarrow, ?_⟩
  dsimp only at h
  have hemits : Emits 0 (spec.filters plan (isRestricted r' narrowed) req.filters) fun full ps =>
      MeanAll table full ps fun row => ∀ f ∈ req.filters, f.Holds spec row :=
        emits_filters plan _ req.filters
  obtain ⟨hargs, hfilters⟩ := hemits _ _ _ hfilters
  split at h
  · cases h
  · simp only [bind_eq_ok_iff, pure_eq_ok_iff] at h
    obtain ⟨⟨⟩, hsorts, filterHash, hhash, rfl⟩ := h
    have hwhere := (means_of_uses hs.where_ le_rfl hargs : Means table args plan.where_ _)
    have hkeyword : MeanAll table args (if req.keyword = [] then [] else [.const false])
      fun _ => req.keyword = [] := by
      split
      · next hnil => exact MeanAll.nil.congr fun _ => by simp [hnil]
      · next hne =>
        refine ⟨List.forall_mem_singleton.mpr trivial, fun _ row _ => ?_⟩
        simp [hne]
    refine ⟨((MeanAll.cons hwhere (((means_narrowed hs narrowed hargs).append
      (hfilters args ⟨[], [], rfl, by simp⟩)).append hkeyword)).congr fun row => ?_),
      mem_checkSorts hsorts, paired_digest hhash⟩
    have hmem : ∀ n, n ∈ narrowed ↔ n ∈ req.readableOnly := fun n => by simp [mem_narrow hnarrow n]
    simp only [hmem]
    exact ⟨fun ⟨hl, ⟨hshow, hf⟩, hq⟩ => ⟨hl, hshow, hf, hq⟩,
      fun h => ⟨h.listed, ⟨h.shows, h.filters⟩, h.keyword⟩⟩

end

end BeSdk.Lists
