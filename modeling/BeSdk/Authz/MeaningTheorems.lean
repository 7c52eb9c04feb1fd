/-
BeSdk.Authz.MeaningTheorems — segments that say the same.

`Segment.SaysSame` compares two segments dimension by dimension: the same kinds, the
same sets of values and items, and bounds that their two readers, the pattern of the
evaluation and the database, take for one number (`ReadAlike`). Such segments evaluate
alike on all facts (`Segment.eval_congr`) and select the same rows
(`Segment.selects_congr`).

One thing about the order of the atoms remains. An interval raises on an amount beyond
the limits of `Decimal`, and an atom that is false before it keeps it from being looked
at. So the two segments must agree on what stands before such an interval
(`Segment.SameOrder`), and on nothing else.
-/
import BeSdk.Authz.GrantTheorems
import BeSdk.Authz.PlanTheorems

namespace BeSdk

open Sql (Pred Arg Value Engine SameNumber)

/-! ## Bounds -/

/-- The evaluation takes the bounds for numbers. -/
def Atom.Matched (a : Atom) : Prop := ∀ v, v ∈ a.lo ∨ v ∈ a.hi → decimalFullmatch v = true

/-- The bounds are within the limits of `Decimal`. -/
def Atom.BoundsFit (a : Atom) : Prop := ∀ v, v ∈ a.lo ∨ v ∈ a.hi → NumberFits v

/-- A condition on the numbers an interval compares. -/
theorem Atom.forall_numbers_iff {P : Str → Prop} (a : Atom) (value : Str) :
    (∀ v ∈ a.numbers value, P v) ↔ P value ∧ ∀ v, v ∈ a.lo ∨ v ∈ a.hi → P v := by
  rw [a.forall_numbers]
  simp [or_imp, forall_and]

section
variable [Engine]

/-- Decimal texts that the database reads as one number have one value. -/
theorem value_eq_of_sameNumber {v v' : Str} (h : SameNumber v v') (hv : decimalFullmatch v = true)
    (hv' : decimalFullmatch v' = true) {b b' : Dec} (hb : readDecimal v = some b)
    (hb' : readDecimal v' = some b') : b.value = b'.value := by
  rw [SameNumber, Engine.toNumeric_decimal v b hv hb, Engine.toNumeric_decimal v' b' hv' hb',
    Option.rel_some_some] at h
  exact (Dec.eq_iff b b').mp h

/-- A condition on the number of a bound, where the bounds are decimal texts. -/
theorem forall_number_congr {P : ℚ → Prop} {bound bound' : Option Str}
    (h : Option.Rel SameNumber bound bound') (hall : ∀ v ∈ bound, decimalFullmatch v = true)
    (hall' : ∀ v ∈ bound', decimalFullmatch v = true) :
    (∀ v ∈ bound, ∀ b, readDecimal v = some b → P b.value) ↔
      ∀ v ∈ bound', ∀ b, readDecimal v = some b → P b.value := by
  cases h with
  | none => exact Iff.rfl
  | @some v v' hvv' =>
    have hv := hall v rfl
    have hv' := hall' v' rfl
    obtain ⟨b, hb⟩ := readDecimal_of_fullmatch hv
    obtain ⟨b', hb'⟩ := readDecimal_of_fullmatch hv'
    simp [hb, hb', value_eq_of_sameNumber hvv' hv hv' hb hb']

/-! ## Atoms -/

/-- Atoms that say the same, in the parts that their kind has. -/
structure Atom.SaysSame (a a' : Atom) : Prop where
  kind : a.kind = a'.kind
  values : a.kind = .in_ → ∀ v, v ∈ a.values ↔ v ∈ a'.values
  items : a.kind = .tree → ∀ i, i ∈ a.items ↔ i ∈ a'.items
  currency : a.kind = .interval → a.currency = a'.currency
  matched : a.kind = .interval → (a.Matched ↔ a'.Matched)
  fits : a.kind = .interval → a.Matched → (a.BoundsFit ↔ a'.BoundsFit)
  lo : a.kind = .interval → Option.Rel SameNumber a.lo a'.lo
  loClosed : a.kind = .interval → a.loClosed = a'.loClosed
  hi : a.kind = .interval → Option.Rel SameNumber a.hi a'.hi
  hiClosed : a.kind = .interval → a.hiClosed = a'.hiClosed

theorem Atom.SaysSame.symm {a a' : Atom} (h : a.SaysSame a') : a'.SaysSame a where
  kind := h.kind.symm
  values hk v := (h.values (h.kind.trans hk) v).symm
  items hk i := (h.items (h.kind.trans hk) i).symm
  currency hk := (h.currency (h.kind.trans hk)).symm
  matched hk := (h.matched (h.kind.trans hk)).symm
  fits hk hm := by
    have hk' := h.kind.trans hk
    exact (h.fits hk' ((h.matched hk').mpr hm)).symm
  lo hk := Sql.rel_symm Sql.SameNumber.symm (h.lo (h.kind.trans hk))
  loClosed hk := (h.loClosed (h.kind.trans hk)).symm
  hi hk := Sql.rel_symm Sql.SameNumber.symm (h.hi (h.kind.trans hk))
  hiClosed hk := (h.hiClosed (h.kind.trans hk)).symm

variable [Interp]

omit [Engine] [Interp] in
/-- Two definite answers that are true together are the same. -/
theorem Tri.eq_of_definite {t t' : Tri} (ht : t ≠ .unknown) (ht' : t' ≠ .unknown)
    (h : t = .true ↔ t' = .true) : t = t' := by
  cases t <;> cases t' <;> simp_all

/-- Intervals that say the same come to the same: both raise, or both are undecided, or
both are decided by the same numbers. -/
theorem Atom.SaysSame.interval_eq {a a' : Atom} (h : a.SaysSame a') (hk : a.kind = .interval)
    (value currency : Str) : a.interval value currency = a'.interval value currency := by
  have hcurrency := h.currency hk
  by_cases hcur : currency = a.currency
  case neg => rw [Atom.interval, if_pos hcur, Atom.interval, if_pos (hcurrency ▸ hcur)]
  subst hcur
  have hmatched : (∀ v ∈ a.numbers value, decimalFullmatch v = true) ↔
      ∀ v ∈ a'.numbers value, decimalFullmatch v = true := by
    rw [a.forall_numbers_iff, a'.forall_numbers_iff]
    exact and_congr_right fun _ => h.matched hk
  by_cases hall : ∀ v ∈ a.numbers value, decimalFullmatch v = true
  case neg =>
    rw [interval_unmatched hall, hcurrency, interval_unmatched (hmatched.not.mp hall)]
  have hall' := hmatched.mp hall
  obtain ⟨hvalue, hbounds⟩ := (a.forall_numbers_iff value).mp hall
  obtain ⟨-, hbounds'⟩ := (a'.forall_numbers_iff value).mp hall'
  have hover : (∃ v ∈ a.numbers value, ¬ NumberFits v) ↔
      ∃ v ∈ a'.numbers value, ¬ NumberFits v := by
    have hfits : (∀ v ∈ a.numbers value, NumberFits v) ↔ ∀ v ∈ a'.numbers value, NumberFits v := by
      rw [a.forall_numbers_iff, a'.forall_numbers_iff]
      exact and_congr_right fun _ => h.fits hk hbounds
    simpa using hfits.not
  rcases interval_raises a value a.currency with ⟨⟨-, -, hunfit⟩, herror⟩ | ⟨hreturns, t, ht⟩
  · rw [herror, hcurrency]
    exact ((interval_raises a' value a'.currency).error_iff.mpr
      ⟨rfl, rfl, hall', hover.mp hunfit⟩).symm
  · obtain ⟨t', ht'⟩ := (interval_raises a' value a'.currency).ok_iff.mpr fun hr =>
      hreturns ⟨rfl, hall, hover.mpr hr.2.2⟩
    obtain ⟨x, hx⟩ := readDecimal_of_fullmatch hvalue
    obtain ⟨hdef, hiff⟩ := interval_eq_ok hbounds hvalue hx ht
    obtain ⟨hdef', hiff'⟩ := interval_eq_ok hbounds' hvalue hx ht'
    rw [ht, hcurrency, ht', Except.ok.injEq]
    refine Tri.eq_of_definite hdef hdef' (hiff.trans (Iff.trans ?_ hiff'.symm))
    rw [hcurrency, h.loClosed hk, h.hiClosed hk]
    exact and_congr_right fun _ => and_congr
      (forall_number_congr (P := fun q => if a'.loClosed.getD false then q ≤ x.value
        else q < x.value) (h.lo hk) (fun v hv => hbounds v (.inl hv)) fun v hv =>
          hbounds' v (.inl hv))
      (forall_number_congr (P := fun q => if a'.hiClosed.getD false then x.value ≤ q
        else x.value < q) (h.hi hk) (fun v hv => hbounds v (.inr hv)) fun v hv =>
          hbounds' v (.inr hv))

/-- Atoms that say the same come to the same on every fact. -/
theorem Atom.SaysSame.eval_eq {a a' : Atom} (h : a.SaysSame a') (f : Option Fact)
    (principal : Str) : a.eval f principal = a'.eval f principal := by
  unfold Atom.eval
  rw [← h.kind]
  split
  · rfl
  match f with
  | none => rfl
  | some .unobtained => rfl
  | some .null => rfl
  | some (.value v currency) =>
    dsimp only
    unfold Atom.onValue
    rw [← h.kind]
    cases hk : a.kind with
    | interval => exact h.interval_eq hk v currency
    | in_ =>
      have hvalues : a.values.contains v = a'.values.contains v := by
        rw [Bool.eq_iff_iff, List.contains_iff_mem, List.contains_iff_mem, h.values hk]
      simp only [hvalues]
    | tree =>
      have hitems : (a.items.any fun i => i.holds v) = a'.items.any fun i => i.holds v := by
        rw [Bool.eq_iff_iff, List.any_eq_true, List.any_eq_true]
        exact exists_congr fun i => and_congr_left fun _ => h.items hk i
      simp only [hitems]
    | _ => rfl

omit [Interp] in
/-- Atoms that say the same select the same rows. -/
theorem Atom.SaysSame.selects {a a' : Atom} (h : a.SaysSame a') (row : Row) (d : Dimension)
    (principal : Str) (hsel : a.Selects row d principal) : a'.Selects row d principal := by
  unfold Atom.Selects at hsel ⊢
  rw [← h.kind]
  cases hk : a.kind with
  | all => trivial
  | self_ => simpa only [hk] using hsel
  | other text => simp only [hk] at hsel
  | in_ =>
    simp only [hk] at hsel
    exact (Sql.testAny_congr (h.values hk) _).mp hsel
  | tree =>
    simp only [hk] at hsel
    obtain ⟨it, hit, hit'⟩ := hsel
    exact ⟨it, (h.items hk it).mp hit, hit'⟩
  | interval =>
    simp only [hk] at hsel
    obtain ⟨hnull, hcur, hlo, hhi⟩ := hsel
    have hbound : ∀ {bound bound' : Option Str} {closed : Option Bool}
        {incl excl : Sql.Comparison}, Option.Rel SameNumber bound bound' →
        boundSelects (row d.column) closed incl excl bound →
        boundSelects (row d.column) closed incl excl bound' := by
      intro bound bound' closed incl excl hrel hbound
      cases hrel with
      | none => exact hbound
      | some hvv' =>
        rintro _ ⟨⟩
        rw [← Sql.testParam_congr hvv']
        exact hbound _ rfl
    refine ⟨hnull, h.currency hk ▸ hcur, ?_, ?_⟩
    · exact h.loClosed hk ▸ hbound (h.lo hk) hlo
    · exact h.hiClosed hk ▸ hbound (h.hi hk) hhi

end

/-! ## Order -/

/-- What stands before an element of a list, without repetitions. -/
theorem sublist_pair_iff {α : Type} {before after : List α} {k x : α}
    (h : (before ++ x :: after).Nodup) :
    List.Sublist [k, x] (before ++ x :: after) ↔ k ∈ before := by
  constructor
  · intro hsub
    obtain ⟨l, l', heq, hl, hl'⟩ := List.sublist_append_iff.mp hsub
    cases l with
    | cons y l =>
      obtain ⟨rfl, -⟩ := List.cons.inj heq
      exact hl.subset (List.mem_cons_self ..)
    | nil =>
      obtain rfl : [k, x] = l' := heq
      -- both are behind the middle, so `x` is there twice
      have hx : x ∉ after := (List.nodup_cons.mp (List.nodup_append.mp h).2.1).1
      cases hl' with
      | cons _ hl' => exact absurd (hl'.subset (by simp)) hx
      | cons_cons _ hl' => exact absurd (hl'.subset (by simp)) hx
  · intro hk
    exact (List.singleton_sublist.mpr hk).append (by simp)

/-- The atom of one dimension stands before another's. -/
def Segment.Before (s : Segment) (k i : Str) : Prop := List.Sublist [k, i] s.atoms.keys

/-- Whether a segment raises, told by what stands before its intervals. -/
theorem atomsOverflow_iff [Interp] {s : Segment} {facts : Dict Str Fact} {principal : Str} :
    atomsOverflow facts principal s.atoms.entries ↔
      ∃ i a, s.atoms.get? i = some a ∧ a.Overflows (facts.get? i) ∧
        ∀ k b, s.atoms.get? k = some b → s.Before k i →
          b.eval (facts.get? k) principal ≠ .ok .false := by
  constructor
  · rintro ⟨before, p, after, heq, hbefore, hp⟩
    refine ⟨p.1, p.2, Dict.get?_eq_some_iff.mpr (by simp [heq]), hp, fun k b hb hlt => ?_⟩
    have hnd := s.atoms.nodup
    rw [Segment.Before, Dict.keys] at hlt
    rw [heq, List.map_append, List.map_cons] at hlt hnd
    obtain ⟨q, hq, rfl⟩ := List.mem_map.mp ((sublist_pair_iff hnd).mp hlt)
    have hget : s.atoms.get? q.1 = some q.2 := Dict.get?_eq_some_iff.mpr (by simp [heq, hq])
    obtain rfl := Option.some.inj (hb.symm.trans hget)
    exact hbefore q hq
  · rintro ⟨i, a, ha, hover, hbefore⟩
    obtain ⟨before, after, heq⟩ := List.append_of_mem (Dict.get?_eq_some_iff.mp ha)
    refine ⟨before, (i, a), after, heq, fun q hq => ?_, hover⟩
    have hnd := s.atoms.nodup
    refine hbefore q.1 q.2 (Dict.get?_eq_some_iff.mpr (by simp [heq, hq])) ?_
    rw [Segment.Before, Dict.keys]
    rw [heq, List.map_append, List.map_cons] at hnd ⊢
    exact (sublist_pair_iff hnd).mpr (List.mem_map_of_mem hq)

/-- The same atoms stand before each interval that can raise, those aside that are
never false. -/
def Segment.SameOrder (s s' : Segment) : Prop :=
  ∀ i a k b, s.atoms.get? i = some a → a.kind = .interval → a.Matched →
    s.atoms.get? k = some b → b.kind ≠ .all → (s.Before k i ↔ s'.Before k i)

/-! ## Segments -/

section
variable [Engine]

/-- Segments that say the same. -/
structure Segment.SaysSame (s s' : Segment) : Prop where
  active : ∀ t, s.activeAt t = s'.activeAt t
  atoms : ∀ dim, Option.Rel Atom.SaysSame (s.atoms.get? dim) (s'.atoms.get? dim)
  order : s.SameOrder s'

variable {s s' : Segment}

/-- Each atom has its counterpart. -/
theorem Segment.SaysSame.atom (h : s.SaysSame s') {dim : Str} {a : Atom}
    (ha : s.atoms.get? dim = some a) : ∃ a', s'.atoms.get? dim = some a' ∧ a.SaysSame a' := by
  have hdim := h.atoms dim
  rw [ha] at hdim
  generalize s'.atoms.get? dim = x at hdim
  cases hdim with
  | some haa' => exact ⟨_, rfl, haa'⟩

theorem Segment.SaysSame.symm (h : s.SaysSame s') : s'.SaysSame s where
  active t := (h.active t).symm
  atoms dim := Sql.rel_symm Atom.SaysSame.symm (h.atoms dim)
  order := by
    have hback : ∀ {dim a'}, s'.atoms.get? dim = some a' →
        ∃ a, s.atoms.get? dim = some a ∧ a.SaysSame a' := by
      intro dim a' ha'
      have hdim := h.atoms dim
      rw [ha'] at hdim
      generalize s.atoms.get? dim = x at hdim
      cases hdim with
      | some haa' => exact ⟨_, rfl, haa'⟩
    intro i a' k b' ha' hk' hm' hb' hne'
    obtain ⟨a, ha, haa'⟩ := hback ha'
    obtain ⟨b, hb, hbb'⟩ := hback hb'
    have hk := haa'.kind.trans hk'
    exact (h.order i a k b ha hk ((haa'.matched hk).mpr hm') hb (hbb'.kind ▸ hne')).symm

/-- What holds of the atoms of one holds of the other's. -/
theorem Segment.SaysSame.forall_atoms (h : s.SaysSame s') {P : Str → Atom → Prop}
    (hP : ∀ dim a a', a.SaysSame a' → P dim a → P dim a')
    (hs : ∀ p ∈ s.atoms.entries, P p.1 p.2) : ∀ p ∈ s'.atoms.entries, P p.1 p.2 := by
  rintro ⟨dim, a'⟩ hmem
  obtain ⟨a, ha, haa'⟩ := h.symm.atom (Dict.get?_eq_some_iff.mpr hmem)
  exact hP dim a a' haa'.symm (hs (dim, a) (Dict.get?_eq_some_iff.mp ha))

section
variable [Interp]

/-- Where one raises, so does the other. -/
theorem Segment.SaysSame.overflow (h : s.SaysSame s') {facts : Dict Str Fact} {principal : Str}
    (hover : atomsOverflow facts principal s.atoms.entries) :
    atomsOverflow facts principal s'.atoms.entries := by
  obtain ⟨i, a, ha, hraises, hbefore⟩ := atomsOverflow_iff.mp hover
  obtain ⟨a', ha', haa'⟩ := h.atom ha
  have hraises' : a'.Overflows (facts.get? i) := by
    have herror := (a.eval_raises (facts.get? i) principal).error_iff.mpr ⟨rfl, hraises⟩
    rw [haa'.eval_eq] at herror
    exact ((a'.eval_raises (facts.get? i) principal).error_iff.mp herror).2
  refine atomsOverflow_iff.mpr ⟨i, a', ha', hraises', fun k b' hb' hlt hfalse => ?_⟩
  obtain ⟨b, hb, hbb'⟩ := h.symm.atom hb'
  rw [hbb'.eval_eq] at hfalse
  have hne : b.kind ≠ .all := by
    intro hall
    simp [Atom.eval, hall] at hfalse
  obtain ⟨hk, v, -, hnumbers, -⟩ := hraises
  have hmatched := ((a.forall_numbers_iff v).mp hnumbers).2
  exact hbefore k b hb ((h.order i a k b ha hk hmatched hb hne).mpr hlt) hfalse

/-- An answer that is true or false is the other's answer too. -/
theorem Segment.SaysSame.definite (h : s.SaysSame s') {facts : Dict Str Fact} {principal : Str}
    {t t' : Tri} (ht : evalAtoms facts principal s.atoms.entries .true = .ok t)
    (ht' : evalAtoms facts principal s'.atoms.entries .true = .ok t') :
    (t = .true → t' = .true) ∧ (t = .false → t' = .false) := by
  constructor
  · rintro rfl
    have htrue : evalAtoms facts principal s'.atoms.entries .true = .ok .true := by
      refine evalAtoms_eq_true_iff.mpr ⟨rfl, ?_⟩
      refine h.forall_atoms (P := fun dim a => a.eval (facts.get? dim) principal = .ok .true)
        (fun dim a a' haa' ha => by rw [← haa'.eval_eq, ha]) ?_
      exact (evalAtoms_eq_true_iff.mp ht).2
    exact Except.ok.inj (ht'.symm.trans htrue)
  · rintro rfl
    obtain ⟨p, hp, hfalse⟩ := exists_of_evalAtoms_eq_false (by decide) ht
    obtain ⟨a', ha', haa'⟩ := h.atom (Dict.get?_eq_some_iff.mpr hp)
    have hmem := Dict.get?_eq_some_iff.mp ha'
    rw [haa'.eval_eq] at hfalse
    cases t' with
    | false => rfl
    | true =>
      have htrue := (evalAtoms_eq_true_iff.mp ht').2 (p.1, a') hmem
      rw [hfalse] at htrue
      cases htrue
    | unknown =>
      obtain ⟨u, hu, hne⟩ := forall_of_evalAtoms_eq_unknown ht' (p.1, a') hmem
      rw [hfalse] at hu
      exact absurd (Except.ok.inj hu).symm hne

/-- **Segments that say the same evaluate alike.** -/
theorem Segment.SaysSame.eval_eq (h : s.SaysSame s') (facts : Dict Str Fact) (principal : Str)
    (at_ : Instant) : s.eval facts principal at_ = s'.eval facts principal at_ := by
  unfold Segment.eval
  rw [h.active]
  split
  · rfl
  have hraises : Raises tooLarge (evalAtoms facts principal s.atoms.entries .true)
      (atomsOverflow facts principal s.atoms.entries) := evalAtoms_raises _ _
  rcases hraises with ⟨hover, herror⟩ | ⟨hnone, t, ht⟩
  · rw [herror]
    exact ((evalAtoms_raises s'.atoms.entries .true).error_iff.mpr ⟨rfl, h.overflow hover⟩).symm
  · obtain ⟨t', ht'⟩ := (evalAtoms_raises s'.atoms.entries .true).ok_iff.mpr fun hover =>
      hnone (h.symm.overflow hover)
    obtain ⟨htrue, hfalse⟩ := h.definite ht ht'
    obtain ⟨htrue', hfalse'⟩ := h.symm.definite ht' ht
    rw [ht, ht']
    cases t with
    | true => rw [htrue rfl]
    | false => rw [hfalse rfl]
    | unknown =>
      cases t' with
      | true => cases htrue' rfl
      | false => cases hfalse' rfl
      | unknown => rfl

end

/-- **Segments that say the same select the same rows.** -/
theorem Segment.SaysSame.selects_iff (h : s.SaysSame s') (row : Row) (r : Resource)
    (principal : Str) : s.Selects row r principal ↔ s'.Selects row r principal := by
  have hone : ∀ {s s' : Segment}, s.SaysSame s' → s.Selects row r principal →
      s'.Selects row r principal := fun h =>
    h.forall_atoms (P := fun dim a => ∀ d, r.dims.get? dim = some d → a.Selects row d principal)
      fun dim a a' haa' ha d hd => haa'.selects row d principal (ha d hd)
  exact ⟨hone h, hone h.symm⟩

/-- They are compiled in the same places. -/
theorem Segment.SaysSame.compiles_iff (h : s.SaysSame s') (c : Compiler) (args args' : List Arg) :
    (∃ x, c.segment s args = .ok x) ↔ ∃ x, c.segment s' args' = .ok x := by
  have hone : ∀ {s s' : Segment}, s.SaysSame s' → (∀ p ∈ s.atoms.entries, c.Takes p.1 p.2) →
      ∀ p ∈ s'.atoms.entries, c.Takes p.1 p.2 := fun h =>
    h.forall_atoms fun dim a a' haa' ha => by
      unfold Compiler.Takes at ha ⊢
      rwa [← haa'.kind]
  rw [c.segment_ok_iff, c.segment_ok_iff]
  exact ⟨hone h, hone h.symm⟩

/-- Their predicates are true on the same rows, wherever they stand in a query. -/
theorem Segment.SaysSame.predicate_iff (h : s.SaysSame s') {c : Compiler}
    {args args' out out' full full' : List Arg} {p p' : Pred ColumnRef}
    (hp : c.segment s args = .ok (p, out)) (hp' : c.segment s' args' = .ok (p', out'))
    (hfull : Bound c.base out full) (hfull' : Bound c.base out' full') (row : Row) :
    p.eval full row.columns = .true ↔ p'.eval full' row.columns = .true := by
  have hselects : p.eval full row.columns = .true ↔ s.Selects row c.r c.principal :=
    (c.emits_segment row s args p out hp).2 full hfull
  have hselects' : p'.eval full' row.columns = .true ↔ s'.Selects row c.r c.principal :=
    (c.emits_segment row s' args' p' out' hp').2 full' hfull'
  rw [hselects, hselects', h.selects_iff]

end

end BeSdk
