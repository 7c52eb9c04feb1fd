/-
BeSdk.Lists.Secrecy — a list does not tell what it does not show.

A field of class restricted or secret that has a column of its own is a secret of the
rows that the subject is not shown it on. Two tables that differ in these values only
(`Differ`) are the same to the caller: the same rows in the same order and the same next
cursors (`ids_conceal`), and the same outputs after masking, page after page
(`list_conceals`). A request may name the field in a filter, a sort or the narrowing, and
may bring any cursor.

The reason is in `build`: a condition reads the field's column only where it was
accepted, and then every row that the list returns shows the field
(`unread_of_hidden`). So a pair of rows is either one row twice, or it is told apart by
no condition and no sort key (`kept_related`).
-/
import BeSdk.Lists.Walk
import BeSdk.Authz.FieldTheorems
import BeSdk.Lib.TwoRuns

namespace BeSdk.Lists

open Sql (Kind Pred Param Arg OrderKey Comparison Table Value Engine)

/-! ## What is secret -/

/-- Rows that agree on every column but one. -/
def SameBut (column : Str) (row row' : Row) : Prop := ∀ name, name ≠ column → row name = row' name

/-- A field that not everybody may read, in a column that nothing else of the list or of
the resource's dimensions stands in. -/
structure Spec.Withholds (spec : Spec) (r : Resource) (f column : Str) : Prop where
  cls : ∃ fd, r.fields.get? f = some fd ∧ fd.cls ≠ .ordinary
  dims : ¬ r.DimensionColumn column
  id : spec.idColumn ≠ column
  columns : ∀ c ∈ spec.columns, c.column = column → c.field = f

section
variable [Engine]

/-- The plan lists the row, and the field is one of those that its hits show. -/
def Shows (plan : Plan) (f : Str) (row : Row) : Prop :=
  plan.where_.eval plan.args row.columns = .true ∧ f ∈ plan.fields (plan.bits plan.args row)

/-- A row twice, or with two values of the field where it is not shown. -/
def Alike (plan : Plan) (f column : Str) (row row' : Row) : Prop :=
  SameBut column row row' ∧ (Shows plan f row → row column = row' column)

/-- Two tables of one shape with the same rows but for values that are not shown. -/
structure Differ (plan : Plan) (f column : Str) (t t' : Table Str) : Prop where
  kind : t.kind = t'.kind
  rows : List.Forall₂ (Alike plan f column) t.rows t'.rows

/-- What a caller is given of a page: of each row its keys and what masking leaves of its
output, and the next cursor. -/
def given (r : Resource) (keys : Row → List Str × Str) (out : Row → Dict Str Json)
    (plan : Plan) (p : List Row × Str) : List ((List Str × Str) × Dict Str Json) × Str :=
  (p.1.map fun row => (keys row, mask r (out row) (plan.fields (plan.bits plan.args row))), p.2)

/-- Which rows a page lists, by their IDs, and the next cursor. -/
def idsOf (spec : Spec) (p : List Row × Str) : List Value × Str :=
  (p.1.map fun row => row spec.idColumn, p.2)

/-- What a caller is given of the pages of a walk, from its `i`-th page on. -/
def givenFrom (r : Resource) (keys : Row → List Str × Str) (out : Row → Dict Str Json)
    (plans : Nat → Plan) : Nat → List (List Row × Str) →
    List (List ((List Str × Str) × Dict Str Json) × Str)
  | _, [] => []
  | i, p :: pages => given r keys out (plans i) p :: givenFrom r keys out plans (i + 1) pages

/-- An output made from a row has the field's value from the field's column, and nothing
else from there. -/
structure Outputs (f column : Str) (out : Row → Dict Str Json) : Prop where
  keys : ∀ row row', SameBut column row row' → (out row).keys = (out row').keys
  values : ∀ row row', SameBut column row row' → ∀ k ≠ f, (out row).get? k = (out row').get? k

end

/-! ## What a page reads -/

section
variable {K : ColumnRef → Prop} {spec : Spec} {plan : Plan}

/-- What each compilation of a list emits, all of them do. -/
theorem Emits.forall_mapM {α β : Type} {f : α → Compile β} {Q : List Arg → β → Prop} :
    ∀ {l : List α}, (∀ a ∈ l, Emits 0 (f a) Q) → Emits 0 (l.mapM f) fun full bs =>
    ∀ b ∈ bs, Q full b
  | [], _ => .pure fun _ => by simp
  | a :: l, h => by
      rw [List.forall_mem_cons] at h
      rw [List.mapM_cons]
      exact h.1.bind fun b => (Emits.forall_mapM h.2).bind fun bs => .pure fun full hbs hb =>
        List.forall_mem_cons.mpr ⟨hb, hbs⟩

theorem emits_typed (k : Kind) (v : Arg) :
    Emits 0 (typed k v) fun full p => p.index < full.length :=
  (yields_typed k v).emits.mono fun _ _ h => (List.getElem?_eq_some_iff.mp h.2).1

/-- A filter uses its own column. -/
theorem filter_uses {c : Column} (hcol : K (spec.col c.column)) (f : Filter) :
    Emits 0 (spec.filter c f) fun full p => p.Uses K full.length := by
  unfold Spec.filter
  dsimp only
  split
  · split
    · exact .pure fun _ => trivial
    · exact (yields_arg _).emits.bind fun i => .pure fun full hi =>
        ⟨hcol, (List.getElem?_eq_some_iff.mp hi).1⟩
  · split
    · exact (emits_typed _ _).bind fun p => .pure fun full hp => ⟨hcol, hp⟩
    · exact .throw

/-- The filters that are accepted read their columns. -/
theorem filters_uses {restricted : Str → Bool} :
    ∀ {fs : List Filter}, (∀ f ∈ fs, ∀ c, spec.cols.get? f.field = some c →
    (restricted f.field = true → plan.readableEverywhere f.field = true) → K (spec.col c.column)) →
    Emits 0 (spec.filters plan restricted fs) fun full ps => ∀ p ∈ ps, p.Uses K full.length
  | [], _ => .pure fun _ => by simp
  | f :: fs, h => by
      rw [List.forall_mem_cons] at h
      unfold Spec.filters
      split
      · exact .throw
      next c hc =>
        split
        · exact .throw
        split
        · exact .throw
        next hplan =>
          rw [not_and, Bool.not_eq_false] at hplan
          exact (filter_uses (h.1 c hc hplan) f).bind fun p => (filters_uses h.2).bind
            fun ps => .pure fun full hps hp =>
            List.forall_mem_cons.mpr ⟨hp, hps⟩

theorem sortColumn_emits (o : Order) :
    Emits 0 (spec.sortColumn o) fun _ c => spec.cols.get? o.field = some c := by
  rw [Spec.sortColumn]
  split
  · exact .throw
  · next c hc => exact .pure fun _ => hc

/-- The keys of a cursor use the columns of the sort. -/
theorem equals_uses :
    ∀ {keys : List (Order × Json)}, (∀ k ∈ keys, ∀ c, spec.cols.get? k.1.field = some c →
    K (spec.col c.column)) → Emits 0 (spec.equals keys) fun full ps => ∀ p ∈ ps, p.Uses
    K full.length
  | [], _ => .pure fun _ => by simp
  | (o, v) :: keys, h => by
      rw [List.forall_mem_cons] at h
      rw [Spec.equals]
      exact (sortColumn_emits o).bind fun c => (emits_typed _ _).bind fun p =>
        (equals_uses h.2).bind fun ps =>
        .pure fun full hps hp hc => List.forall_mem_cons.mpr ⟨⟨h.1 c hc, hp⟩, hps⟩

/-- The keyset condition of any cursor reads the columns of the sort keys and the ID. -/
theorem resume_uses [Interp] {sorts : List Order}
    (hsorts : ∀ o ∈ sorts, ∀ c, spec.cols.get? o.field = some c → K (spec.col c.column))
    (hid : K (spec.col spec.idColumn)) (raw filterHash planHash : Str) :
    Emits 0 (spec.resume raw sorts filterHash planHash) fun full p => p.Uses K full.length := by
  unfold Spec.resume
  split
  · exact .throw
  · exact .throw
  next ms k _ =>
    split
    · exact .throw
    split
    · exact .throw
    have hzip : ∀ x ∈ sorts.zip k, ∀ c, spec.cols.get? x.1.field = some c →
      K (spec.col c.column) := fun x hx =>
      hsorts x.1 (List.of_mem_zip hx).1
    refine (Emits.forall_mapM fun i _ => ?_).bind fun ors => .pure fun full hors =>
      Sql.usesAll_iff.mpr hors
    unfold Spec.after
    refine (equals_uses fun x hx => hzip x (List.mem_of_mem_take hx)).bind fun ands => ?_
    split
    · next o v ho =>
      refine (sortColumn_emits o).bind fun c => (emits_typed _ _).bind fun p =>
        .pure fun full hp hc hands => ?_
      refine Sql.usesAll_iff.mpr (List.forall_mem_append.mpr ⟨hands,
        List.forall_mem_singleton.mpr ⟨?_, hp⟩⟩)
      exact hzip (o, v) (List.mem_of_getElem? ho) c hc
    · split
      · exact .throw
      · refine (emits_typed _ _).bind fun p => .pure fun full hp hands => ?_
        exact Sql.usesAll_iff.mpr (List.forall_mem_append.mpr ⟨hands,
          List.forall_mem_singleton.mpr ⟨hid, hp⟩⟩)

/-- What preparing a request puts together. -/
theorem prepare_parts {r' : Option Resource} {req : Request} {p : Prepared}
    (h : prepare r' plan spec req = .ok p) :
    ∃ narrowed filters, narrow r' req.readableOnly [] = .ok narrowed ∧
      spec.filters plan (isRestricted r' narrowed) req.filters plan.args = .ok (filters, p.args) ∧
      spec.checkSorts plan (isRestricted r' narrowed) req.sort = .ok () ∧
      p.conditions = plan.where_ :: (narrowed.map plan.readableWhere ++ filters ++
        if req.keyword = [] then [] else [.const false]) := by
  obtain ⟨narrowed, hnarrow, h⟩ := bind_eq_ok_iff.mp h
  obtain ⟨⟨filters, args⟩, hfilters, h⟩ := bind_eq_ok_iff.mp h
  dsimp only at h
  split at h
  · cases h
  · simp only [bind_eq_ok_iff, pure_eq_ok_iff] at h
    obtain ⟨⟨⟩, hsorts, filterHash, -, rfl⟩ := h
    exact ⟨narrowed, filters, hnarrow, hfilters, hsorts, rfl⟩

/-- What compiling a page adds: the condition of its cursor. -/
theorem compile_parts [Interp] {r' : Option Resource} {req : Request} {limit : Int} {q : Query}
    (h : compile r' plan spec limit req = .ok q) : ∃ p, prepare r' plan spec req = .ok p ∧
      q.orderBy = spec.orderKeys req.sort ∧ ∃ resume, q.where_ = .chain
      (p.conditions ++ resume) ∧ p.args <+: q.args ∧
        ∀ K : ColumnRef → Prop, (∀ o ∈ req.sort, ∀ c, spec.cols.get? o.field = some c →
          K (spec.col c.column)) → K (spec.col spec.idColumn) →
          ∀ c ∈ resume, c.Uses K q.args.length := by
  obtain ⟨p, hp, -⟩ := bind_eq_ok_iff.mp h
  have hp : prepare r' plan spec req = .ok p := hp
  obtain ⟨narrowed, filters, -, -, hsorts, -⟩ := prepare_parts hp
  have heq := compile_eq hp (fun o ho => (mem_checkSorts hsorts o ho).1) limit req.limit req.cursor
  have h : compile r' plan spec limit { req with cursor := req.cursor, limit := req.limit } =
    .ok q := h
  rw [heq] at h
  refine ⟨p, hp, ?_⟩
  by_cases hnil : req.cursor = []
  · rw [if_pos hnil] at h
    obtain rfl := Except.ok.inj h
    exact ⟨rfl, [], by simp [Prepared.query], List.prefix_rfl, by simp⟩
  · rw [if_neg hnil] at h
    obtain ⟨⟨c, args⟩, hc, rfl⟩ := map_eq_ok_iff.mp h
    refine ⟨rfl, [c], rfl, ?_, fun K hcols hid => List.forall_mem_singleton.mpr ?_⟩
    · exact (@resume_uses (fun _ => True) spec _ _ (fun _ _ _ _ => trivial) trivial _ _
        _ _ _ _ hc).1
    · exact ((resume_uses hcols hid _ _ _) _ _ _ hc).2 args ⟨[], [], rfl, by simp⟩

end

/-! ## Rows that are kept -/

section
variable [Engine] {spec : Spec} {plan : Plan} {r : Resource} {f column : Str} {row row' : Row}

omit [Engine] in
theorem SameBut.eq (h : SameBut column row row') (hcolumn : row column = row' column) :
    row = row' := by
  funext name
  by_cases hname : name = column
  · rw [hname, hcolumn]
  · exact h name hname

omit [Engine] in
/-- No other field has the column that is withheld. -/
theorem Spec.Withholds.unread (hw : spec.Withholds r f column) {name : Str} (hname : name ≠ f)
    {c : Column} (hc : spec.cols.get? name = some c) : c.column ≠ column := by
  obtain ⟨c', hmem, heq⟩ := List.mem_map.mp
    (Dict.mem_pairs_of_mem_ofPairs (Dict.get?_eq_some_iff.mp hc))
  obtain ⟨rfl, rfl⟩ := Prod.mk.inj heq
  exact fun hcolumn => hname (hw.columns c' hmem hcolumn)

omit [Engine] in
theorem Spec.Withholds.ne (hw : spec.Withholds r f column) {c : ColumnRef} (hc : r.Reads c) :
    c.name ≠ column := by
  rintro rfl
  exact hw.dims hc

/-- What reads dimensions does not tell the rows apart. -/
theorem eval_of_reads (hw : spec.Withholds r f column) (h : SameBut column row row')
    {n : Nat} {p : Pred ColumnRef} (hp : p.Uses r.Reads n) (args : List Arg) :
    p.eval args row.columns = p.eval args row'.columns :=
  Pred.Uses.eval_congr (fun _ _ => rfl) (fun c hc => h c.name (hw.ne hc)) p hp

theorem bits_of_sameBut (hs : Shaped r plan) (hw : spec.Withholds r f column)
    (h : SameBut column row row') : plan.bits plan.args row = plan.bits plan.args row' :=
  hs.bits_congr fun name hname => h name fun heq => hw.dims (heq ▸ hname)

/-- Being alike is symmetric. -/
theorem Alike.symm (hs : Shaped r plan) (hw : spec.Withholds r f column)
    (h : Alike plan f column row row') : Alike plan f column row' row := by
  refine ⟨fun name hname => (h.1 name hname).symm, fun hshows => (h.2 ?_).symm⟩
  rw [Shows, eval_of_reads hw h.1 hs.where_, bits_of_sameBut hs hw h.1]
  exact hshows

/-- Where the list has rows that do not show the field, nothing that was accepted names it. -/
theorem restricted_of_hidden (hs : Shaped r plan) (hw : spec.Withholds r f column)
    {narrowed : List Str} (hlisted : plan.where_.eval plan.args row.columns = .true)
    (hhidden : f ∉ plan.fields (plan.bits plan.args row))
    (hnarrowed : f ∉ narrowed) : isRestricted (some r) narrowed f = true ∧
    plan.readableEverywhere f = false := by
  obtain ⟨fd, hfd, hcls⟩ := hw.cls
  refine ⟨by simp [isRestricted, hfd, hcls, hnarrowed], Bool.eq_false_iff.mpr fun heverywhere => ?_⟩
  exact hhidden (hs.readable_of_everywhere heverywhere hlisted)

/-- Two rows that a page returns at one place. -/
structure Kept (spec : Spec) (req : Request) (plan : Plan) (f column : Str) (row row' : Row) :
    Prop where
  same : SameBut column row row'
  shown : f ∈ plan.fields (plan.bits plan.args row) → row = row'
  keys : ∀ k ∈ spec.keys req.sort, row k.column = row' k.column

/-- What reads the plan's own arguments says the same under the page's. -/
theorem eval_of_compiled [Interp] {req : Request} {limit : Int} {q : Query}
    (hq : compile (some r) plan spec limit req = .ok q)
    {p : Pred ColumnRef} (hp : p.Uses r.Reads plan.args.length) :
    p.eval q.args row.columns = p.eval plan.args row.columns := by
  obtain ⟨p', hprepare, -, resume, -, hargs, -⟩ := compile_parts hq
  obtain ⟨narrowed, filters, -, hfilters, -, -⟩ := prepare_parts hprepare
  have hfront : plan.args <+: p'.args :=
    ((@filters_uses (fun _ => True) spec plan _ _ (fun _ _ _ _ _ => trivial)) _ _ _ hfilters).1
  exact Pred.Uses.eval_congr (fun i hi => getElem?_continued (hfront.trans hargs) i hi)
    (fun _ _ => rfl) p hp

/-- A page keeps listed rows only. -/
theorem listed_of_kept [Interp] (hs : Shaped r plan) {req : Request} {limit : Int} {q : Query}
    (hq : compile (some r) plan spec limit req = .ok q)
    (hkept : q.where_.eval q.args row.columns = .true) :
    plan.where_.eval plan.args row.columns = .true := by
  rw [← eval_of_compiled hq hs.where_]
  obtain ⟨p, hp, -, resume, hwhere, -, -⟩ := compile_parts hq
  obtain ⟨narrowed, filters, -, -, -, hconditions⟩ := prepare_parts hp
  rw [hwhere, Sql.eval_chain_eq_true_iff, hconditions] at hkept
  exact hkept plan.where_ (by simp)

/-- Where the field is not shown, no condition of the page and no sort key reads its column. -/
theorem unread_of_hidden [Interp] (hs : Shaped r plan) (hw : spec.Withholds r f column)
    {req : Request} {limit : Int} {q : Query} (hq : compile (some r) plan spec limit req =
      .ok q) (hkept : q.where_.eval q.args row.columns = .true)
    (hhidden : f ∉ plan.fields (plan.bits plan.args row)) :
    q.where_.Uses (fun c => c.name ≠ column) q.args.length ∧
    ∀ k ∈ spec.keys req.sort, k.column ≠ column := by
  obtain ⟨p, hp, -, resume, hwhere, hargs, hresume⟩ := compile_parts hq
  obtain ⟨narrowed, filters, -, hfilters, hsorts, hconditions⟩ := prepare_parts hp
  have hfront : plan.args <+: p.args :=
    ((@filters_uses (fun _ => True) spec plan _ _ (fun _ _ _ _ _ => trivial)) _ _ _ hfilters).1
  have hlisted := listed_of_kept hs hq hkept
  rw [hwhere, Sql.eval_chain_eq_true_iff, hconditions] at hkept
  have hnarrowed : f ∉ narrowed := fun hmem => by
    have htrue := hkept (plan.readableWhere f) (by simp [List.mem_map_of_mem hmem])
    rw [eval_of_compiled hq (hs.readableWhere f)] at htrue
    exact hhidden (Plan.readableWhere_iff.mp htrue)
  obtain ⟨hrestricted, heverywhere⟩ := restricted_of_hidden hs hw hlisted hhidden hnarrowed
  have haccepted : ∀ {name : Str}, (isRestricted (some r) narrowed name = true →
    plan.readableEverywhere name = true) →
      name ≠ f := by
    rintro name hname rfl
    exact Bool.false_ne_true (heverywhere.symm.trans (hname hrestricted))
  have hsorted : ∀ o ∈ req.sort, ∀ c, spec.cols.get? o.field = some c → c.column ≠ column :=
    fun o ho c hc =>
    hw.unread (haccepted (mem_checkSorts hsorts o ho).2) hc
  refine ⟨?_, fun k hk => ?_⟩
  · have hreads : ∀ {p : Pred ColumnRef}, p.Uses r.Reads plan.args.length →
        p.Uses (fun c => c.name ≠ column) q.args.length := fun {p} huses =>
      Pred.Uses.mono (fun _ hc => hw.ne hc) (hfront.trans hargs).length_le p huses
    have hfiltered : ∀ c ∈ filters, c.Uses (fun c => c.name ≠ column) q.args.length := fun c hc =>
      Pred.Uses.mono (fun _ => id) hargs.length_le c
        (((filters_uses fun g _ c hc hname => hw.unread (haccepted hname) hc) _ _ _
          hfilters).2 _ ⟨[], [], rfl, by simp⟩ c hc)
    rw [hwhere]
    refine Sql.usesAll_iff.mpr (List.forall_mem_append.mpr ⟨?_, hresume _ hsorted hw.id⟩)
    rw [hconditions, List.forall_mem_cons, List.forall_mem_append, List.forall_mem_append,
      List.forall_mem_map]
    refine ⟨hreads hs.where_, ⟨fun name _ => hreads (hs.readableWhere name), hfiltered⟩, ?_⟩
    split
    · simp
    · exact List.forall_mem_singleton.mpr trivial
  · rw [Spec.keys, List.mem_append, List.mem_map, List.mem_singleton] at hk
    rcases hk with ⟨o, ho, rfl⟩ | rfl
    · obtain ⟨c, hc⟩ := Option.isSome_iff_exists.mp (mem_checkSorts hsorts o ho).1
      rw [Spec.keyOf, Spec.colOf, hc]
      exact hsorted o ho c hc
    · exact hw.id

/-- **A page keeps both rows of a pair or none**, and those it keeps look the same. -/
theorem kept_related [Interp] (hs : Shaped r plan) (hw : spec.Withholds r f column)
    {req : Request} {limit : Int} {q : Query}
    (hq : compile (some r) plan spec limit req = .ok q) (h : Alike plan f column row row')
    (hkept : q.where_.eval q.args row.columns = .true) :
    q.where_.eval q.args row'.columns = .true ∧ Kept spec req plan f column row row' := by
  by_cases hf : f ∈ plan.fields (plan.bits plan.args row)
  · obtain rfl := h.1.eq (h.2 ⟨listed_of_kept hs hq hkept, hf⟩)
    exact ⟨hkept, h.1, fun _ => rfl, fun _ _ => rfl⟩
  · obtain ⟨huses, hkeys⟩ := unread_of_hidden hs hw hq hkept hf
    refine ⟨?_, h.1, fun hmem => absurd hmem hf, fun k hk => h.1 _ (hkeys k hk)⟩
    rw [← hkept]
    exact (Pred.Uses.eval_congr (fun _ _ => rfl) (fun c hc => h.1 c.name hc) _ huses).symm

/-! ## Pages -/

omit [Engine] in
/-- What is masked is the same where the readable values are. -/
theorem maskGo_congr {readable : List Str} (hf : f ∉ readable) {l l' : List (Str × Json)}
    (h : List.Forall₂ (fun x y => x.1 = y.1 ∧ (x.1 ≠ f → x.2 = y.2)) l l')
    (shaped : Dict Str Json) (names : List Str) :
    maskGo r readable l shaped names = maskGo r readable l' shaped names := by
  induction h generalizing shaped names with
  | nil => rfl
  | @cons x y l l' hxy _ ih =>
      obtain ⟨k, v⟩ := x
      obtain ⟨_, w⟩ := y
      obtain ⟨hkey, hvalue⟩ := hxy
      obtain rfl := hkey
      rw [maskGo, maskGo]
      split
      · exact ih _ _
      split
      · next hk =>
        have hne : k ≠ f := fun heq => hf (heq ▸ hk)
        have hv : v = w := hvalue hne
        rw [hv]
        exact ih _ _
      · exact ih _ _

omit [Engine] in
/-- Entries with the same keys whose values are looked up alike. -/
theorem forall₂_entries {d d' : Dict Str Json} (hkeys : d.keys = d'.keys)
    (hvalues : ∀ k ≠ f, d.get? k = d'.get? k) : List.Forall₂
    (fun x y => x.1 = y.1 ∧ (x.1 ≠ f → x.2 = y.2)) d.entries d'.entries := by
  rw [List.forall₂_iff_get]
  have hlen : d.entries.length = d'.entries.length := by
    simpa [Dict.keys] using congrArg List.length hkeys
  refine ⟨hlen, fun i hi hi' => ?_⟩
  have hkey : (d.entries.get ⟨i, hi⟩).1 = (d'.entries.get ⟨i, hi'⟩).1 := by
    have hget := congrArg (fun l => l[i]?) hkeys
    simpa [Dict.keys, hi, hi'] using hget
  refine ⟨hkey, fun hne => ?_⟩
  have hx := Dict.get?_eq_some_iff.mpr (List.get_mem d.entries ⟨i, hi⟩)
  have hy := Dict.get?_eq_some_iff.mpr (List.get_mem d'.entries ⟨i, hi'⟩)
  rw [hvalues _ hne, hkey, hy] at hx
  exact (Option.some.inj hx).symm

omit [Engine] in
/-- Masking hides the value of a field that is not readable. -/
theorem mask_congr {readable : List Str} (hf : f ∉ readable) {out out' : Dict Str Json}
    (hkeys : out.keys = out'.keys) (hvalues : ∀ k ≠ f, out.get? k = out'.get? k) :
    mask r out readable = mask r out' readable := by
  rw [mask, mask, maskGo_congr hf (forall₂_entries hkeys hvalues)]

variable {out : Row → Dict Str Json} {keys : Row → List Str × Str} {req : Request}

/-- The caller is given the same of both rows. -/
theorem Kept.shape (hs : Shaped r plan) (hw : spec.Withholds r f column)
    (hout : Outputs f column out) (h : Kept spec req plan f column row row') :
    mask r (out row) (plan.fields (plan.bits plan.args row)) =
      mask r (out row') (plan.fields (plan.bits plan.args row')) := by
  rw [← bits_of_sameBut hs hw h.same]
  by_cases hf : f ∈ plan.fields (plan.bits plan.args row)
  · rw [h.shown hf]
  · exact mask_congr hf (hout.keys row row' h.same) (hout.values row row' h.same)

/-- Rows are ordered by the columns of the sort. -/
theorem rowOrder_congr {x x' y y' : Row} :
    ∀ {ks : List (OrderKey Str)}, (∀ k ∈ ks, x k.column = x' k.column) →
    (∀ k ∈ ks, y k.column = y' k.column) → Sql.rowOrder ks x y = Sql.rowOrder ks x' y'
  | [], _, _ => rfl
  | k :: ks, hx, hy => by
      rw [List.forall_mem_cons] at hx hy
      have hrest : Keyset.lex (ks.map OrderKey.compare) x y =
        Keyset.lex (ks.map OrderKey.compare) x' y' :=
        rowOrder_congr hx.2 hy.2
      rw [Sql.rowOrder, List.map_cons, Keyset.lex, compareLex, compareLex, hrest,
        OrderKey.compare, OrderKey.compare, hx.1, hy.1]

variable {t t' : Table Str}

/-- The rows of a page, in their order. -/
theorem select_related [Interp] (hs : Shaped r plan) (hw : spec.Withholds r f column)
    (hd : Differ plan f column t t') {limit : Int} {q : Query}
    (hq : compile (some r) plan spec limit req = .ok q) (n : Nat) :
    Option.Rel (List.Forall₂ (Kept spec req plan f column))
    (Sql.select t ColumnRef.name q.where_ q.args q.orderBy n)
      (Sql.select t' ColumnRef.name q.where_ q.args q.orderBy n) := by
  obtain ⟨p, hp, horder, -⟩ := compile_parts hq
  rw [Sql.select, Sql.select, hd.kind, horder, rename_orderKeys]
  split
  · refine .some (List.forall₂_take n
      (TwoRuns.sorted_related (fun x y x' y' hx hy => rowOrder_congr hx.keys hy.keys) ?_))
    refine TwoRuns.filter_related (fun row row' h => decide_eq_decide.mpr ?_)
      (fun row row' h hkept => ?_) hd.rows
    · exact ⟨fun htrue => (kept_related hs hw hq h htrue).1,
        fun htrue => (kept_related hs hw hq (h.symm hs hw) htrue).1⟩
    · exact (kept_related hs hw hq h (of_decide_eq_true hkept)).2
  · exact .none

/-- **One page**, to a caller who does not tell its rows apart. -/
theorem page_related [Interp] {β : Type} {g : Row → β} (hs : Shaped r plan)
    (hw : spec.Withholds r f column) (hd : Differ plan f column t t')
    (hkeys : ∀ row row', (∀ k ∈ spec.keys req.sort, row k.column = row' k.column) →
      keys row = keys row')
    (hg : ∀ row row', Kept spec req plan f column row row' → g row = g row')
    {limit : Int} {q : Query} (hq : compile (some r) plan spec limit req = .ok q) :
    (page t q id keys).map (fun p => (p.1.map g, p.2)) =
      (page t' q id keys).map (fun p => (p.1.map g, p.2)) := by
  have hrows := select_related hs hw hd hq (q.limit + 1).toNat
  rw [page, page]
  generalize Sql.select t ColumnRef.name q.where_ q.args q.orderBy (q.limit + 1).toNat =
    selected at hrows ⊢
  generalize Sql.select t' ColumnRef.name q.where_ q.args q.orderBy (q.limit + 1).toNat =
    selected' at hrows ⊢
  cases hrows with
  | none => rfl
  | @some rows rows' h =>
      have htake := List.forall₂_take q.limit.toNat h
      have hgiven : (rows.take q.limit.toNat).map g = (rows'.take q.limit.toNat).map g :=
        TwoRuns.map_related hg htake
      simp only [List.map_id_fun, id_eq, h.length_eq]
      split
      · simp only [Except.map, hgiven]
      · have hlast := TwoRuns.getLast?_related htake
        generalize (rows.take q.limit.toNat).getLast? = last at hlast ⊢
        generalize (rows'.take q.limit.toNat).getLast? = last' at hlast ⊢
        cases hlast with
        | none => rfl
        | some hlast =>
            dsimp only
            rw [hkeys _ _ hlast.keys]
            split
            · rfl
            · simp only [Except.map, hgiven]

/-! ## The caller -/

variable [Interp] {asks : Nat → Subject × Clock} {plans : Nat → Plan}

omit [Engine] in
/-- A request that is accepted is compiled under the subject's plan. -/
theorem compiled_of_build {subj : Subject} {clock : Clock} {q : Query}
    (hplan : subj.list clock spec.operation spec.alias_ 0 = .ok plan)
    (h : build subj clock spec req = .ok q) :
    compile ((subj.defs.operation spec.operation).bind fun o => subj.defs.resource
      o.resourceType) plan spec (if req.limit = 0 then defaultLimit else req.limit) req =
      .ok q := by
  rw [build] at h
  generalize (if req.limit = 0 then defaultLimit else req.limit) = limit at h ⊢
  dsimp only at h
  split at h
  · cases h
  · obtain ⟨plan', hplan', hcompile⟩ := bind_eq_ok_iff.mp h
    obtain rfl := Except.ok.inj (hplan'.symm.trans hplan)
    exact hcompile

/-- The plan of a list is shaped by the list's resource. -/
theorem shaped_of_plan {subj : Subject} {clock : Clock}
    (hplan : subj.list clock spec.operation spec.alias_ 0 = .ok plan)
    (hr : ((subj.defs.operation spec.operation).bind fun o => subj.defs.resource
      o.resourceType) = some r) : Shaped r plan := by
  obtain ⟨o, r', ho, hr', hs, -⟩ := list_shaped hplan
  rw [ho, Option.bind_some, hr'] at hr
  obtain rfl := Option.some.inj hr
  exact hs

/-- A page that a subject asks for, with any cursor and any page size. -/
theorem listPage_related {β : Type} {g : Row → β} {subj : Subject} {clock : Clock}
    (hplan : subj.list clock spec.operation spec.alias_ 0 = .ok plan)
    (hr : ((subj.defs.operation spec.operation).bind fun o => subj.defs.resource
      o.resourceType) = some r)
    (hw : spec.Withholds r f column) (hd : Differ plan f column t t')
    (hkeys : ∀ row row', (∀ k ∈ spec.keys req.sort, row k.column = row' k.column) →
      keys row = keys row')
    (hg : ∀ row row', Kept spec req plan f column row row' → g row = g row')
    (limit : Int) (cursor : Str) :
    (listPage t id keys spec subj clock { req with cursor, limit }).map
      (fun p => (p.1.map g, p.2)) =
      (listPage t' id keys spec subj clock { req with cursor, limit }).map
      (fun p => (p.1.map g, p.2)) := by
  have hs := shaped_of_plan hplan hr
  rw [listPage, listPage]
  cases hbuild : build subj clock spec { req with cursor, limit } with
  | error e => rfl
  | ok q =>
      have hcompile := compiled_of_build hplan hbuild
      rw [hr] at hcompile
      refine page_related hs hw hd ?_ ?_ hcompile
      · exact hkeys
      · exact fun row row' h => hg row row' ⟨h.same, h.shown, h.keys⟩

/-- A walk over pages that are the same to a caller, who is given the cursors. -/
theorem walk_related {γ : Type} {g : Nat → List Row × Str → γ}
    {gs : Nat → List (List Row × Str) → List γ}
    (hgs : ∀ i p pages, gs i (p :: pages) = g i p :: gs (i + 1) pages)
    (hcursor : ∀ i p p', g i p = g i p' → p.2 = p'.2)
    (hpage : ∀ i limit cursor,
      (listPage t id keys spec (asks i).1 (asks i).2 { req with cursor, limit }).map (g i) =
        (listPage t' id keys spec (asks i).1 (asks i).2 { req with cursor, limit }).map (g i))
    (limits : Nat → Int) (fuel : Nat) : ∀ i cursor,
    (walk t id keys spec asks limits req fuel i cursor).map (Option.map (gs i)) =
      (walk t' id keys spec asks limits req fuel i cursor).map (Option.map (gs i)) := by
  induction fuel with
  | zero => exact fun i cursor => rfl
  | succ fuel ih =>
      intro i cursor
      rw [walk, walk]
      refine TwoRuns.bind_related (hpage i (limits i) cursor) fun p p' hgiven => ?_
      rw [hcursor i p p' hgiven]
      split
      · simp only [pure, Except.pure, Except.map, Option.map_some, hgs, hgiven]
      · refine TwoRuns.bind_related (ih (i + 1) p'.2) fun w w' hrest => ?_
        have hpages : (w.map (p :: ·)).map (gs i) = (w'.map (p' :: ·)).map (gs i) := by
          simp only [Option.map_map, Function.comp_def, hgs, hgiven]
          have hcons := congrArg (Option.map (g i p' :: ·)) hrest
          simpa only [Option.map_map, Function.comp_def] using hcons
        exact congrArg Except.ok hpages

/-- **Which rows a list has says nothing of what it does not show.** Two tables with the
same rows but for the values of a restricted or secret field where the subject is not
shown it list the same rows: each page, with any cursor, has the same IDs and the same
next cursor, or fails in the same way, and so does every walk. -/
theorem ids_conceal (hplans : ∀ i, (asks i).1.list (asks i).2 spec.operation spec.alias_ 0 =
    .ok (plans i))
    (hr : ∀ i, (((asks i).1.defs.operation spec.operation).bind
      fun o => (asks i).1.defs.resource o.resourceType) = some r)
    (hw : spec.Withholds r f column) (hd : ∀ i, Differ (plans i) f column t t')
    (hkeys : ∀ row row', (∀ k ∈ spec.keys req.sort, row k.column = row' k.column) →
      keys row = keys row') :
    (∀ i limit cursor,
      (listPage t id keys spec (asks i).1 (asks i).2 { req with cursor, limit }).map
      (idsOf spec) =
        (listPage t' id keys spec (asks i).1 (asks i).2 { req with cursor, limit }).map
        (idsOf spec)) ∧
    ∀ limits fuel i cursor,
      (walk t id keys spec asks limits req fuel i cursor).map
      (Option.map (List.map (idsOf spec))) =
        (walk t' id keys spec asks limits req fuel i cursor).map
        (Option.map (List.map (idsOf spec))) := by
  have hpage := fun i => listPage_related (hplans i) (hr i) hw (hd i) hkeys fun row row' h =>
    (h.same spec.idColumn hw.id : row spec.idColumn = row' spec.idColumn)
  exact ⟨hpage, walk_related (fun _ _ _ => rfl) (fun _ _ _ h => (Prod.ext_iff.mp h).2) hpage⟩

/-- **A list conceals what it does not show.** Two tables with the same rows but for the
values of a restricted or secret field where the subject is not shown it give the caller
the same: each page, with any cursor, has the same keys, the same masked outputs and the
same next cursor, or fails in the same way, and so does every walk. -/
theorem list_conceals (hplans : ∀ i, (asks i).1.list (asks i).2 spec.operation spec.alias_ 0 =
    .ok (plans i))
    (hr : ∀ i, (((asks i).1.defs.operation spec.operation).bind
      fun o => (asks i).1.defs.resource o.resourceType) = some r)
    (hw : spec.Withholds r f column) (hd : ∀ i, Differ (plans i) f column t t')
    (hkeys : ∀ row row', (∀ k ∈ spec.keys req.sort, row k.column = row' k.column) →
      keys row = keys row')
    (hout : Outputs f column out) :
    (∀ i limit cursor,
      (listPage t id keys spec (asks i).1 (asks i).2 { req with cursor, limit }).map
      (given r keys out (plans i)) =
        (listPage t' id keys spec (asks i).1 (asks i).2 { req with cursor, limit }).map
        (given r keys out (plans i))) ∧
    ∀ limits fuel i cursor,
      (walk t id keys spec asks limits req fuel i cursor).map
      (Option.map (givenFrom r keys out plans i)) =
        (walk t' id keys spec asks limits req fuel i cursor).map
        (Option.map (givenFrom r keys out plans i)) := by
  have hgiven : ∀ i row row', Kept spec req (plans i) f column row row' →
      (keys row, mask r (out row) ((plans i).fields ((plans i).bits (plans i).args row))) =
        (keys row', mask r (out row') ((plans i).fields ((plans i).bits (plans i).args row'))) :=
    fun i row row' h =>
      Prod.ext (hkeys row row' h.keys) (h.shape (shaped_of_plan (hplans i) (hr i)) hw hout)
  have hpage := fun i => listPage_related (hplans i) (hr i) hw (hd i) hkeys (hgiven i)
  exact ⟨hpage, walk_related (fun _ _ _ => rfl) (fun _ _ _ h => (Prod.ext_iff.mp h).2) hpage⟩

end

/-! ## The costs of a department -/

/-- What a handler makes of a document. -/
def docOut (row : Row) : Dict Str Json :=
  ⟨[(str "title", .str (docText (row (str "title")))),
    (str "cost", .str (docText (row (str "cost"))))], by
    simp [str_inj]⟩

theorem docOutputs : Outputs (str "cost") (str "cost") docOut where
  keys _ _ _ := rfl
  values row row' h k hk := by
    have htitle : row (str "title") = row' (str "title") := h _ (by decide)
    simp only [Dict.get?, docOut, lookup, htitle, Ne.symm hk, if_false]

theorem docWithholds : docSpec.Withholds docResource (str "cost") (str "cost") where
  cls := ⟨{ cls := .restricted }, by decide, by decide⟩
  dims h := by
    obtain ⟨dim, d, hd, hname⟩ := h
    have hmem := Dict.get?_eq_some_iff.mp hd
    obtain ⟨rfl, rfl⟩ := Prod.mk.inj (List.mem_singleton.mp hmem)
    revert hname
    decide
  id := by decide
  columns := by decide

theorem docDiffer [Engine] {plan : Plan} (hsets : plan.sets = [[str "title"]])
    (cost cost' : String) : Differ plan (str "cost") (str "cost") (docTable cost)
    (docTable cost') := by
  have halike : ∀ id title, Alike plan (str "cost") (str "cost") (docRow cost id title)
    (docRow cost' id title) :=
    fun id title => ⟨fun name hname => by simp [docRow, hname], fun hshows => by
      obtain ⟨h, hh, -, hf⟩ := Plan.mem_fields_bits.mp hshows.2
      have hset := (List.of_mem_zip hh).2
      rw [hsets, List.mem_singleton] at hset
      rw [hset, List.mem_singleton] at hf
      exact absurd hf (by decide)⟩
  exact ⟨rfl, .cons (halike _ _) (.cons (halike _ _) (.cons (halike _ _) .nil))⟩

/-- The keys of a row are those of the columns of the sort. -/
theorem rowKeys_congr (spec : Spec) (textOf : Value → Str) (sort : List Order) (row row' : Row)
    (h : ∀ k ∈ spec.keys sort, row k.column = row' k.column) :
    spec.rowKeys textOf sort row = spec.rowKeys textOf sort row' := by
  rw [Spec.keys, List.forall_mem_append, List.forall_mem_map, List.forall_mem_singleton] at h
  have hid : row spec.idColumn = row' spec.idColumn := h.2
  rw [Spec.rowKeys, Spec.rowKeys, hid]
  congr 1
  refine List.map_congr_left fun o ho => ?_
  have ho : row (spec.colOf o).column = row' (spec.colOf o).column := h.1 o ho
  rw [ho]

/-- Which documents there are does not depend on their costs, to who may not see these. -/
theorem document_ids_conceal : ∃ plan, @Subject.list Interp.ascii docSubject docClock
    docSpec.operation docSpec.alias_ 0 = .ok plan ∧ ∀ limits fuel,
      (@walk Interp.ascii Engine.plain _ (docTable "1") id
        (docSpec.rowKeys docText docRequest.sort) docSpec (fun _ => (docSubject, docClock))
        limits docRequest fuel 0 []).map (Option.map (List.map (idsOf docSpec))) =
      (@walk Interp.ascii Engine.plain _ (docTable "9") id
        (docSpec.rowKeys docText docRequest.sort) docSpec (fun _ => (docSubject, docClock))
        limits docRequest fuel 0 []).map (Option.map (List.map (idsOf docSpec))) := by
  obtain ⟨plan, hplan, -, -, -, hsets⟩ := docPlan
  refine ⟨plan, hplan, fun limits fuel => ?_⟩
  exact (@ids_conceal Engine.plain docSpec docResource (str "cost") (str "cost") _ docRequest
    _ _ Interp.ascii (fun _ => (docSubject, docClock)) (fun _ => plan) (fun _ => hplan)
    (fun _ => rfl) docWithholds (fun _ => @docDiffer Engine.plain plan hsets "1" "9")
    (rowKeys_congr docSpec docText docRequest.sort)).2 limits fuel 0 []

/-- What the documents cost is nobody's to see who may not: two departments of the same
documents at other costs look the same. -/
theorem costs_concealed : ∃ plan, @Subject.list Interp.ascii docSubject docClock
    docSpec.operation docSpec.alias_ 0 = .ok plan ∧ ∀ limits fuel,
      (@walk Interp.ascii Engine.plain _ (docTable "1") id
        (docSpec.rowKeys docText docRequest.sort) docSpec (fun _ => (docSubject, docClock))
        limits docRequest fuel 0 []).map (Option.map (@givenFrom Engine.plain docResource
          (docSpec.rowKeys docText docRequest.sort) docOut (fun _ => plan) 0)) =
      (@walk Interp.ascii Engine.plain _ (docTable "9") id
        (docSpec.rowKeys docText docRequest.sort) docSpec (fun _ => (docSubject, docClock))
        limits docRequest fuel 0 []).map (Option.map (@givenFrom Engine.plain docResource
          (docSpec.rowKeys docText docRequest.sort) docOut (fun _ => plan) 0)) := by
  obtain ⟨plan, hplan, -, -, -, hsets⟩ := docPlan
  refine ⟨plan, hplan, fun limits fuel => ?_⟩
  exact (@list_conceals Engine.plain docSpec docResource (str "cost") (str "cost") docOut _
    docRequest _ _ Interp.ascii (fun _ => (docSubject, docClock)) (fun _ => plan)
    (fun _ => hplan) (fun _ => rfl) docWithholds (fun _ => @docDiffer Engine.plain plan hsets
      "1" "9") (rowKeys_congr docSpec docText docRequest.sort) docOutputs).2
    limits fuel 0 []

end BeSdk.Lists
