/-
BeSdk.Authz.PlanReads — what a compiled plan can depend on, and what a row it lists is
shown.

A plan reads the columns of the resource's dimensions and its own arguments, whatever
the segments are (`compilePlan_reads`): no other column of a row and no argument added
later changes what it says. A row that it lists has a hit (`Shaped.hit`), and the
fields of a hit never include a secret one. From these come the two ways a field is
readable on a row: every segment reads it (`Shaped.readable_of_everywhere`), or the
list was narrowed to the rows that show it (`Shaped.readable_of_where`).
-/
import BeSdk.Authz.PlanTheorems
import BeSdk.Sql.SelectTheorems

namespace BeSdk

open Sql (Pred Param Arg Comparison Value Engine)

/-! ## Columns -/

/-- A column a dimension of the resource stands in. -/
def Resource.DimensionColumn (r : Resource) (name : Str) : Prop :=
  ∃ dim d, r.dims.get? dim = some d ∧ (name = d.column ∨ name = d.currencyColumn)

/-- The columns a plan for the resource may read. -/
def Resource.Reads (r : Resource) (c : ColumnRef) : Prop := r.DimensionColumn c.name

theorem Compiler.below_arg (c : Compiler) (v : Arg) :
    Emits c.base (c.arg v) fun full i => i < full.length :=
  (c.emits_arg v).mono fun _ _ h => (List.getElem?_eq_some_iff.mp h).1

section
variable {K : ColumnRef → Prop}

theorem Compiler.uses_item (c : Compiler) {col : ColumnRef} (hcol : K col) (it : TreeItem) :
    Emits c.base (c.item col it) fun full p => p.Uses K full.length := by
  unfold Compiler.item
  split
  · exact (c.below_arg _).bind fun path => (c.below_arg _).bind fun pattern =>
      .pure fun full hpattern hpath => ⟨⟨hcol, hpath⟩, ⟨hcol, hpattern⟩, trivial⟩
  · exact (c.below_arg _).bind fun path => .pure fun full hpath => ⟨hcol, hpath⟩

theorem Compiler.uses_items (c : Compiler) {col : ColumnRef} (hcol : K col) :
    ∀ (items : List TreeItem), Emits c.base (c.items col items) fun full ps =>
    ∀ p ∈ ps, p.Uses K full.length
  | [] => .pure fun full => by simp
  | it :: items => (c.uses_item hcol it).bind fun p => (c.uses_items hcol items).bind fun ps =>
      .pure fun full hps hp => List.forall_mem_cons.mpr ⟨hp, hps⟩

theorem uses_orAll {n : Nat} {ps : List (Pred ColumnRef)} (h : ∀ p ∈ ps, p.Uses K n) :
    (orAll ps).Uses K n := by
  rw [orAll]
  split
  · exact trivial
  · exact Sql.usesAll_iff.mpr h

theorem Compiler.uses_bound (c : Compiler) {col : ColumnRef} (hcol : K col) (closed : Option Bool)
    (incl excl : Comparison) (bound : Option Str) :
    Emits c.base (c.bound col closed incl excl bound) fun full ps => ∀ p ∈ ps, p.Uses K
    full.length := by
  cases bound with
  | none => exact .pure fun full => by simp
  | some v =>
      exact (c.below_arg _).bind fun i => .pure fun full hi =>
        List.forall_mem_singleton.mpr ⟨hcol, hi⟩

end

theorem Compiler.uses_atom (c : Compiler) (dim : Str) (a : Atom) :
    Emits c.base (c.atom dim a) fun full p => ∀ q ∈ p, q.Uses c.r.Reads full.length := by
  unfold Compiler.atom
  split
  · exact .throw
  next d hd =>
    have hcol : c.r.Reads (c.col d.column) := ⟨dim, d, hd, .inl rfl⟩
    have hcurrency : c.r.Reads (c.col d.currencyColumn) := ⟨dim, d, hd, .inr rfl⟩
    dsimp only
    split
    · exact .throw
    cases a.kind with
    | all => exact .pure fun full => by simp
    | in_ =>
        dsimp only
        split
        · exact .pure fun full => by simp [Pred.Uses]
        · exact (c.below_arg _).bind fun i => .pure fun full hi => by
            simpa [Pred.Uses] using ⟨hcol, hi⟩
    | self_ =>
        exact (c.below_arg _).bind fun i => .pure fun full hi => by
          simpa [Pred.Uses] using ⟨hcol, hi⟩
    | tree =>
        refine (c.uses_items hcol a.items).bind fun ps => .pure fun full hps => ?_
        simpa using uses_orAll hps
    | interval =>
        refine (c.below_arg _).bind fun currency =>
          (c.uses_bound hcol a.loClosed .ge .gt a.lo).bind fun lo =>
          (c.uses_bound hcol a.hiClosed .le .lt a.hi).bind fun hi => .pure fun full hhi hlo hi => ?_
        simp only [Option.mem_def, Option.some.injEq, forall_eq']
        refine Sql.usesAll_iff.mpr fun p hp => ?_
        simp only [List.mem_append, List.mem_cons, List.not_mem_nil, or_false] at hp
        rcases hp with ((rfl | rfl) | hp) | hp
        · exact hcol
        · exact ⟨hcurrency, hi⟩
        · exact hlo p hp
        · exact hhi p hp
    | other _ => exact .throw

theorem Compiler.uses_atoms (c : Compiler) : ∀ (l : List (Str × Atom)),
    Emits c.base (c.atoms l) fun full ps => ∀ p ∈ ps, p.Uses c.r.Reads full.length
  | [] => .pure fun full => by simp
  | (dim, a) :: l => (c.uses_atom dim a).bind fun p => (c.uses_atoms l).bind fun ps =>
      .pure fun full hps hp => by
      rw [List.forall_mem_append]
      exact ⟨fun q hq => hp q (Option.mem_toList.mp hq), hps⟩

theorem Compiler.uses_segment (c : Compiler) (s : Segment) :
    Emits c.base (c.segment s) fun full p => p.Uses c.r.Reads full.length := by
  refine (c.uses_atoms _).bind fun ps => .pure fun full hps => ?_
  split
  · exact trivial
  · exact Sql.usesAll_iff.mpr hps

/-- One predicate for each segment. -/
theorem Compiler.uses_segments (c : Compiler) : ∀ (segs : List Segment),
    Emits c.base (c.segments segs) fun full ps =>
      ps.length = segs.length ∧ ∀ p ∈ ps, p.Uses c.r.Reads full.length
  | [] => .pure fun full => by simp
  | s :: segs => (c.uses_segment s).bind fun p => (c.uses_segments segs).bind fun ps =>
      .pure fun full hps hp =>
      ⟨by rw [List.length_cons, List.length_cons, hps.1], List.forall_mem_cons.mpr ⟨hp, hps.2⟩⟩

/-! ## Plans -/

/-- What a compiled plan is, whatever the segments. -/
structure Shaped [Engine] (r : Resource) (plan : Plan) : Prop where
  where_ : plan.where_.Uses r.Reads plan.args.length
  hits : ∀ h ∈ plan.hits, h.Uses r.Reads plan.args.length
  length : plan.hits.length = plan.sets.length
  hit : ∀ (args : List Arg) (columns : ColumnRef → Value), plan.where_.eval args columns = .true →
    ∃ h ∈ plan.hits, h.eval args columns = .true
  sets : ∀ s ∈ plan.sets, ∀ f ∈ s, r.outputs f = true

section
variable [Engine]

theorem orAll_hit {ps : List (Pred ColumnRef)} {args : List Arg} {columns : ColumnRef → Value}
    (h : (orAll ps).eval args columns = .true) :
    ∃ p ∈ ps.map Pred.coalesce, p.eval args columns = .true := by
  obtain ⟨p, hp, htrue⟩ := (eval_orAll_eq_true_iff ps).mp h
  exact ⟨.coalesce p, List.mem_map_of_mem hp, (Sql.eval_coalesce_eq_true_iff p).mpr htrue⟩

omit [Engine] in
theorem uses_coalesce {K : ColumnRef → Prop} {n : Nat} {ps : List (Pred ColumnRef)}
    (h : ∀ p ∈ ps, p.Uses K n) : ∀ p ∈ ps.map Pred.coalesce, p.Uses K n := by
  rw [List.forall_mem_map]
  exact h

/-- **A compiled plan reads the dimensions' columns and its own arguments**, and lists
only rows that have a hit. -/
theorem compilePlan_reads [Interp] {r : Resource} {segs : List Segment} {op principal : Str}
    {at_ : Instant} {alias_ : Str} {plan : Plan}
    (h : compilePlan r segs op principal at_ alias_ 0 = .ok plan) : Shaped r plan := by
  have hemits := fun key => Compiler.uses_segments ⟨r, alias_, principal, 0⟩
    (activeFor segs key at_)
  have hall : ∀ args, Bound 0 args args := fun args => ⟨[], [], rfl, by simp⟩
  have houtputs : ∀ s ∈ (activeFor segs op at_).map fun s => s.readFields.filter r.outputs, ∀ f ∈ s,
      r.outputs f = true := by
    rw [List.forall_mem_map]
    exact fun s _ f hf => (List.mem_filter.mp hf).2
  rw [compilePlan] at h
  obtain ⟨⟨viewPreds, args⟩, hview, h⟩ := bind_eq_ok_iff.mp h
  obtain ⟨-, hviewQ⟩ := hemits _ _ _ _ hview
  by_cases hop : op = r.viewOperation
  · subst hop
    simp only [ne_eq, not_true_eq_false, if_false, pure_bind, bind_eq_ok_iff, pure_eq_ok_iff] at h
    obtain ⟨digest, -, rfl⟩ := h
    obtain ⟨hlen, huses⟩ := hviewQ args (hall args)
    exact ⟨uses_orAll huses, uses_coalesce huses, by simp [hlen], fun _ _ => orAll_hit, houtputs⟩
  · simp only [ne_eq, hop, not_false_eq_true, if_true, bind_eq_ok_iff, pure_eq_ok_iff] at h
    obtain ⟨⟨opPreds, args'⟩, hops, _, rfl, digest, -, rfl⟩ := h
    obtain ⟨hargs, hopQ⟩ := hemits _ _ _ _ hops
    obtain ⟨hlen, huses⟩ := hopQ args' (hall args')
    obtain ⟨-, hviews⟩ := hviewQ args' (Bound.of_prefix hargs (hall args'))
    refine ⟨⟨uses_orAll hviews, uses_orAll huses, trivial⟩,
      uses_coalesce huses, by simp [hlen], fun full columns htrue => ?_,
      houtputs⟩
    rw [Sql.eval_chain_eq_true_iff, List.forall_mem_cons, List.forall_mem_singleton] at htrue
    exact orAll_hit htrue.2

/-! ## Readable fields -/

variable {r : Resource} {plan : Plan} {args : List Arg} {row : Row}

/-- The fields of a row's bits are those of the sets whose predicate is true. -/
theorem Plan.mem_fields_bits {f : Str} : f ∈ plan.fields (plan.bits args row) ↔
    ∃ h ∈ plan.hits.zip plan.sets, h.1.eval args row.columns = .true ∧ f ∈ h.2 := by
  rw [Plan.fields, mem_sortedSet, Plan.bits, List.mem_flatMap, List.zip_map_left]
  simp only [List.mem_map]
  constructor
  · rintro ⟨_, ⟨h, hmem, rfl⟩, hf⟩
    by_cases htrue : h.1.eval args row.columns = .true
    · exact ⟨h, hmem, htrue, by simpa [htrue] using hf⟩
    · simp [htrue] at hf
  · rintro ⟨h, hmem, htrue, hf⟩
    exact ⟨_, ⟨h, hmem, rfl⟩, by simpa [htrue] using hf⟩

/-- Narrowing to the rows that show a field keeps exactly them. -/
theorem Plan.readableWhere_iff {f : Str} :
    (plan.readableWhere f).eval args row.columns = .true ↔
    f ∈ plan.fields (plan.bits args row) := by
  have hmem : ∀ {h : Pred ColumnRef × List Str},
      h ∈ (plan.hits.zip plan.sets).filter (fun h => f ∈ h.2) ↔ h ∈ plan.hits.zip plan.sets ∧
      f ∈ h.2 := by
    simp [List.mem_filter]
  rw [Plan.mem_fields_bits, Plan.readableWhere]
  split
  · next hnil =>
    constructor
    · simp
    · rintro ⟨h, hzip, -, hf⟩
      have := hmem.mpr ⟨hzip, hf⟩
      rw [hnil] at this
      cases this
  · rw [Sql.eval_or_eq_true_iff]
    constructor
    · rintro ⟨_, hp, htrue⟩
      obtain ⟨h, hh, rfl⟩ := List.mem_map.mp hp
      obtain ⟨hzip, hf⟩ := hmem.mp hh
      exact ⟨h, hzip, htrue, hf⟩
    · rintro ⟨h, hzip, htrue, hf⟩
      exact ⟨h.1, List.mem_map_of_mem (hmem.mpr ⟨hzip, hf⟩), htrue⟩

/-- The narrowing reads what the hits do. -/
theorem Shaped.readableWhere (hs : Shaped r plan) (f : Str) :
    (plan.readableWhere f).Uses r.Reads plan.args.length := by
  rw [Plan.readableWhere]
  split
  · exact trivial
  · refine Sql.usesAll_iff.mpr ?_
    rw [List.forall_mem_map]
    intro h hh
    exact hs.hits h.1 (List.of_mem_zip (List.mem_of_mem_filter hh)).1

/-- A field every segment reads is readable on every row listed. -/
theorem Shaped.readable_of_everywhere (hs : Shaped r plan)
    {f : Str} (hf : plan.readableEverywhere f = true)
    (hlisted : plan.where_.eval args row.columns = .true) :
    f ∈ plan.fields (plan.bits args row) := by
  rw [Plan.readableEverywhere, Bool.and_eq_true, List.all_eq_true] at hf
  obtain ⟨h, hh, htrue⟩ := hs.hit args row.columns hlisted
  obtain ⟨i, hi, rfl⟩ := List.mem_iff_getElem.mp hh
  have hi' : i < plan.sets.length := hs.length ▸ hi
  have hzip : (plan.hits[i], plan.sets[i]) ∈ plan.hits.zip plan.sets := by
    rw [← List.getElem_zip (h := by simpa using ⟨hi, hi'⟩)]
    exact List.getElem_mem _
  exact Plan.mem_fields_bits.mpr ⟨_, hzip, htrue, of_decide_eq_true (hf.2 _ (List.getElem_mem hi'))⟩

/-- What a plan says of a row depends on the row's dimensions only. -/
theorem Shaped.bits_congr (hs : Shaped r plan)
    {row' : Row} (hrow : ∀ name, r.DimensionColumn name → row name = row' name) :
    plan.bits plan.args row = plan.bits plan.args row' := by
  rw [Plan.bits, Plan.bits]
  refine List.map_congr_left fun h hh => ?_
  have heval : h.eval plan.args row.columns = h.eval plan.args row'.columns :=
    Pred.Uses.eval_congr (fun _ _ => rfl) (fun c hc => hrow c.name hc) h (hs.hits h hh)
  rw [heval]

end

end BeSdk
