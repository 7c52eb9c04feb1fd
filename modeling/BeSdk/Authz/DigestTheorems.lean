/-
BeSdk.Authz.DigestTheorems — what a segment's digest identifies.

Two checked segments of one canonical form need not mean the same. The form writes the
values of an `in` atom in normal form, and the evaluation and the database compare them as
they are; it takes every text that `Decimal` reads for a bound, and the evaluation only
those of its own pattern; it forgets the order of the atoms. `Segment.SpelledAlike` is
what has to be known besides the form, and `Segment.OneForm.meansSame` and
`Segment.OneForm.spelledAlike` say that it is neither too little nor too much: the second
finds the facts on which segments that are not spelled alike come apart.

The numbers of bounds are a condition of their own (`Segment.SameBounds`): the canonical
form rounds to a hundred digits.
-/
import BeSdk.Authz.FormTheorems
import BeSdk.Authz.MeaningTheorems
import BeSdk.CanonDecimal

namespace BeSdk

open Sql (Pred Arg Engine SameNumber)

section
variable [Interp]

/-! ## Spelling -/

/-- Atoms that tell no more than their canonical form does: values that are one text in
normal form are in both, and the evaluation takes the bounds of both for numbers, or of
neither. -/
structure Atom.SpelledAlike (a a' : Atom) : Prop where
  values : a.kind = .in_ → ∀ v ∈ a.values, ∀ v' ∈ a'.values, Canon.text v = Canon.text v' →
    v ∈ a'.values ∧ v' ∈ a.values
  matched : a.kind = .interval → (a.Matched ↔ a'.Matched)

/-- Segments that tell no more than their canonical form does. -/
structure Segment.SpelledAlike (s s' : Segment) : Prop where
  validFrom : ReadTogether s.validFrom s'.validFrom
  validUntil : ReadTogether s.validUntil s'.validUntil
  atoms : ∀ dim a a', s.atoms.get? dim = some a → s'.atoms.get? dim = some a' → a.SpelledAlike a'
  order : s.SameOrder s'

section
variable [Engine]

/-- Texts of a bound with one number: decimal texts whose number is their canonical form,
or texts that the database reads as one number. -/
def SameBound (v v' : Str) : Prop :=
  (decimalFullmatch v = true ∧ decimalFullmatch v' = true ∧ Canon.Keeps v ∧ Canon.Keeps v') ∨
    SameNumber v v'

/-- The bounds of the segments' intervals have the same numbers. -/
def Segment.SameBounds (s s' : Segment) : Prop :=
  ∀ dim a a', s.atoms.get? dim = some a → s'.atoms.get? dim = some a' → a.kind = .interval →
    (∀ v ∈ a.lo, ∀ v' ∈ a'.lo, SameBound v v') ∧ ∀ v ∈ a.hi, ∀ v' ∈ a'.hi, SameBound v v'

end

/-! ## Atoms of one form -/

/-- What `decimal` takes is within the limits of `Decimal`. -/
theorem numberFits_of_canonical {v amount : Str} (hv : decimalFullmatch v = true)
    (h : Canon.decimal v = .ok amount) : NumberFits v := by
  intro b hb
  by_contra hunfit
  rw [Canon.decimal, decimalOf_of_fullmatch hv hb, if_neg hunfit] at h
  cases h

/-- A decimal text denotes its number. -/
theorem denoted_of_fullmatch {v : Str} (hv : decimalFullmatch v = true) :
    Canon.denoted v = readDecimal v := by
  rw [Canon.denoted, numericAsAscii_eq (decimalChar_of_fullmatch hv)]

omit [Interp] in
/-- The form of a bound says whether it is closed. -/
theorem closedForm_injective {closed closed' : Option Bool}
    (h : (closedForm closed).same (closedForm closed') = true) : closed = closed' := by
  cases closed <;> cases closed' <;> simp_all [closedForm, Json.same]

/-- The bounds of a canonical form are within the limits of `Decimal`. -/
theorem Atom.Form.boundsFit {a : Atom} {ms : List (Str × Json)} (h : a.Form ms)
    (hk : a.kind = .interval) (hm : a.Matched) : a.BoundsFit := by
  have hbound : ∀ {name : String} {bound : Option Str} {closed : Option Bool},
      BoundAt ms name bound closed → (∀ v ∈ bound, decimalFullmatch v = true) →
      ∀ v ∈ bound, NumberFits v := by
    rintro name bound closed hat hall v ⟨⟩
    obtain ⟨amount, hamount, -⟩ := hat
    exact numberFits_of_canonical (hall v rfl) hamount
  rintro v (hv | hv)
  · exact hbound (h.lo_at hk) (fun w hw => hm w (.inl hw)) v hv
  · exact hbound (h.hi_at hk) (fun w hw => hm w (.inr hw)) v hv

omit [Interp] in
/-- A checked atom is of a kind that is understood. -/
theorem Atom.understood {a : Atom} {d : Dimension} (h : a.bad d = some false) (text : Str) :
    a.kind ≠ .other text := by
  intro hk
  simp [Atom.bad, hk] at h

omit [Interp] in
/-- A checked interval says of each bound it has whether it is closed, and of no other. -/
theorem Atom.closed_of_check {a : Atom} {d : Dimension} (h : a.bad d = some false)
    (hk : a.kind = .interval) :
    a.lo.isNone = a.loClosed.isNone ∧ a.hi.isNone = a.hiClosed.isNone := by
  simp only [Atom.bad, hk, Option.some.injEq, Bool.or_eq_false_iff, bne_eq_false_iff_eq] at h
  exact ⟨h.1.2, h.2⟩

omit [Interp] in
/-- Kinds that are understood are told apart by their texts. -/
theorem AtomKind.eq_of_text {k k' : AtomKind} (hk : ∀ t, k ≠ .other t) (hk' : ∀ t, k' ≠ .other t)
    (h : k.text = k'.text) : k = k' := by
  cases k <;> cases k' <;> simp_all [AtomKind.text, str_inj]

/-- Checked atoms of one canonical form. -/
structure Atom.OneForm (a a' : Atom) (d : Dimension) (ms ns : List (Str × Json)) : Prop where
  fits : a.bad d = some false
  fits' : a'.bad d = some false
  form : a.Form ms
  form' : a'.Form ns
  same : (Json.obj ms).same (.obj ns) = true

section
variable {a a' : Atom} {d : Dimension} {ms ns : List (Str × Json)}

/-- They are of one kind, -/
theorem Atom.OneForm.kind_eq (h : a.OneForm a' d ms ns) : a.kind = a'.kind := by
  have htext := sameAt_of_same h.form.nodup h.same (str "kind")
  rw [SameAt, h.form.kind_at, h.form'.kind_at, Option.rel_some_some] at htext
  exact AtomKind.eq_of_text (Atom.understood h.fits) (Atom.understood h.fits')
    (eq_of_same_str htext)

/-- and intervals in one currency. -/
theorem Atom.OneForm.currency_eq (h : a.OneForm a' d ms ns) (hk : a.kind = .interval) :
    a.currency = a'.currency := by
  have hcurrency := sameAt_of_same h.form.nodup h.same (str "currency")
  rw [SameAt, h.form.currency_at hk, h.form'.currency_at (h.kind_eq ▸ hk), Option.rel_some_some]
    at hcurrency
  exact eq_of_same_str hcurrency

section
variable [Engine]

/-- Bounds of one canonical form and one number are that number for the database. -/
theorem SameBound.sameNumber {v v' amount : Str} (h : SameBound v v')
    (hv : Canon.decimal v = .ok amount) (hv' : Canon.decimal v' = .ok amount) :
    SameNumber v v' := by
  rcases h with ⟨hm, hm', hkeeps, hkeeps'⟩ | h
  · obtain ⟨d, p, hd⟩ := Canon.accepted_spec hkeeps hv
    obtain ⟨d', p', hd'⟩ := Canon.accepted_spec hkeeps' hv'
    have hread := hd.denoted
    have hread' := hd'.denoted
    rw [denoted_of_fullmatch hm] at hread
    rw [denoted_of_fullmatch hm'] at hread'
    rw [SameNumber, Engine.toNumeric_decimal v d hm hread,
      Engine.toNumeric_decimal v' d' hm' hread', Option.rel_some_some]
    exact (Dec.eq_iff d d').mpr ((hd.eq_iff hd').mp rfl)
  · exact h

/-- One bound of two intervals of one form. -/
theorem BoundAt.sameNumber {ms ns : List (Str × Json)} (hm : (ms.map Prod.fst).Nodup)
    (hsame : (Json.obj ms).same (.obj ns) = true) {name : String} {bound bound' : Option Str}
    {closed closed' : Option Bool} (h : BoundAt ms name bound closed)
    (h' : BoundAt ns name bound' closed') (hclosed : bound.isNone = closed.isNone)
    (hclosed' : bound'.isNone = closed'.isNone)
    (hbounds : ∀ v ∈ bound, ∀ v' ∈ bound', SameBound v v') :
    Option.Rel SameNumber bound bound' ∧ closed = closed' := by
  have hamount := sameAt_of_same hm hsame (str name)
  have hflag := sameAt_of_same hm hsame (str (name ++ "_closed"))
  unfold SameAt at hamount hflag
  cases bound with
  | none =>
    cases bound' with
    | none =>
      have hopen : closed = none := by simpa using hclosed.symm
      have hopen' : closed' = none := by simpa using hclosed'.symm
      exact ⟨.none, hopen.trans hopen'.symm⟩
    | some v' =>
      obtain ⟨amount', -, hat', -⟩ := h'
      rw [BoundAt.eq_1] at h
      rw [h, hat'] at hamount
      cases hamount
  | some v =>
    obtain ⟨amount, hv, hat, hflagAt⟩ := h
    cases bound' with
    | none =>
      rw [BoundAt.eq_1] at h'
      rw [hat, h'] at hamount
      cases hamount
    | some v' =>
      obtain ⟨amount', hv', hat', hflagAt'⟩ := h'
      rw [hat, hat', Option.rel_some_some] at hamount
      rw [hflagAt, hflagAt', Option.rel_some_some] at hflag
      obtain rfl := eq_of_same_str hamount
      exact ⟨.some ((hbounds v rfl v' rfl).sameNumber hv hv'), closedForm_injective hflag⟩

/-- They say the same, when they have the same bounds and are spelled alike. -/
theorem Atom.OneForm.saysSame (h : a.OneForm a' d ms ns)
    (hbounds : a.kind = .interval → (∀ v ∈ a.lo, ∀ v' ∈ a'.lo, SameBound v v') ∧
      ∀ v ∈ a.hi, ∀ v' ∈ a'.hi, SameBound v v')
    (hspelled : a.SpelledAlike a') : a.SaysSame a' := by
  have hat := sameAt_of_same h.form.nodup h.same
  have hkind := h.kind_eq
  have hrel : a.kind = .interval →
      (Option.Rel SameNumber a.lo a'.lo ∧ a.loClosed = a'.loClosed) ∧
        Option.Rel SameNumber a.hi a'.hi ∧ a.hiClosed = a'.hiClosed := by
    intro hk
    obtain ⟨hlo, hhi⟩ := Atom.closed_of_check h.fits hk
    obtain ⟨hlo', hhi'⟩ := Atom.closed_of_check h.fits' (hkind ▸ hk)
    exact ⟨BoundAt.sameNumber h.form.nodup h.same (h.form.lo_at hk) (h.form'.lo_at (hkind ▸ hk)) hlo
        hlo' (hbounds hk).1,
      BoundAt.sameNumber h.form.nodup h.same (h.form.hi_at hk) (h.form'.hi_at (hkind ▸ hk)) hhi hhi'
        (hbounds hk).2⟩
  refine ⟨hkind, fun hk => ?_, fun hk => ?_, fun hk => ?_, hspelled.matched, fun hk hm => ?_,
    fun hk => (hrel hk).1.1, fun hk => (hrel hk).1.2, fun hk => (hrel hk).2.1,
    fun hk => (hrel hk).2.2⟩
  · obtain ⟨out, hout, hvalues⟩ := h.form.values_at hk
    obtain ⟨out', hout', hvalues'⟩ := h.form'.values_at (hkind ▸ hk)
    have hlists := hat (str "values")
    rw [SameAt, hvalues, hvalues', Option.rel_some_some] at hlists
    have htexts := mem_iff_of_same_texts hout hout' hlists
    intro x
    constructor
    · intro hx
      obtain ⟨x', hx', heq⟩ := List.mem_map.mp ((htexts _).mp (List.mem_map_of_mem hx))
      exact (hspelled.values hk x hx x' hx' heq.symm).1
    · intro hx'
      obtain ⟨x', hx, heq⟩ := List.mem_map.mp ((htexts _).mpr (List.mem_map_of_mem hx'))
      exact (hspelled.values hk x' hx x hx' heq).2
  · obtain ⟨out, hout, hitems⟩ := h.form.items_at hk
    obtain ⟨out', hout', hitems'⟩ := h.form'.items_at (hkind ▸ hk)
    have hlists := hat (str "items")
    rw [SameAt, hitems, hitems', Option.rel_some_some] at hlists
    exact mem_iff_of_same_items hout hout' hlists
  · exact h.currency_eq hk
  · exact iff_of_true (h.form.boundsFit hk hm)
      (h.form'.boundsFit (hkind ▸ hk) ((hspelled.matched hk).mp hm))

end

end

/-! ## Segments of one form -/

/-- Checked segments of one canonical form. -/
structure Segment.OneForm (r : Resource) (s s' : Segment) : Prop where
  check : s.check r = .ok ()
  check' : s'.check r = .ok ()
  same : ∃ type c c', s.canonical type = .ok c ∧ s'.canonical type = .ok c' ∧ SameForm c c'

section
variable {r : Resource} {s s' : Segment}

/-- The parts of their forms are the same. -/
theorem Segment.OneForm.parts (h : s.OneForm r s') :
    ∃ ms atoms reads valid ns atoms' reads' valid', s.Form ms atoms reads valid ∧
      s'.Form ns atoms' reads' valid' ∧ s.operation = s'.operation ∧
      (Json.obj atoms).same (.obj atoms') = true ∧
      (Json.list reads).same (.list reads') = true ∧ valid.same valid' = true := by
  obtain ⟨type, c, c', hc, hc', hsame⟩ := h.same
  obtain ⟨ms, atoms, reads, valid, rfl, hform⟩ := Segment.canonical_form hc
  obtain ⟨ns, atoms', reads', valid', rfl, hform'⟩ := Segment.canonical_form hc'
  have hoperation := hsame (str "operation") (by simp [str_inj])
  have hatoms := hsame (str "atoms") (by simp [str_inj])
  have hreads := hsame (str "read_fields") (by simp [str_inj])
  have hvalid := hsame (str "valid") (by simp [str_inj])
  rw [SameAt, hform.operation_at, hform'.operation_at, Option.rel_some_some] at hoperation
  rw [SameAt, hform.atoms_at, hform'.atoms_at, Option.rel_some_some] at hatoms
  rw [SameAt, hform.reads_at, hform'.reads_at, Option.rel_some_some] at hreads
  rw [SameAt, hform.valid_at, hform'.valid_at, Option.rel_some_some] at hvalid
  exact ⟨ms, atoms, reads, valid, ns, atoms', reads', valid', hform, hform',
    eq_of_same_str hoperation, hatoms, hreads, hvalid⟩

/-- Their atoms have one form, dimension by dimension. -/
theorem Segment.OneForm.atoms (h : s.OneForm r s') (dim : Str) :
    Option.Rel (fun a a' => ∃ d ms ns, Atom.OneForm a a' d ms ns) (s.atoms.get? dim)
      (s'.atoms.get? dim) := by
  obtain ⟨_, atoms, _, _, _, atoms', _, _, hform, hform', -, hatoms, -, -⟩ := h.parts
  have hat : Option.Rel (fun (a : Atom) v => a.canonical = .ok v) (s.atoms.get? dim)
    (lookup dim atoms) := lookup_forall₂ hform.atoms_spec dim
  have hat' : Option.Rel (fun (a : Atom) v => a.canonical = .ok v) (s'.atoms.get? dim)
    (lookup dim atoms') := lookup_forall₂ hform'.atoms_spec dim
  have hkeys : (atoms.map Prod.fst).Nodup := by
    have heq : s.atoms.entries.map Prod.fst = atoms.map Prod.fst :=
      List.forall₂_eq_eq_eq ▸ (List.forall₂_map_left_iff.mpr (List.forall₂_map_right_iff.mpr
        (hform.atoms_spec.imp fun p q hpq => hpq.1)))
    rw [← heq]
    exact s.atoms.nodup
  have hdim := sameAt_of_same hkeys hatoms dim
  unfold SameAt at hdim
  generalize lookup dim atoms = x at hat hdim
  generalize lookup dim atoms' = y at hat' hdim
  cases ha : s.atoms.get? dim with
  | none =>
    rw [ha] at hat
    cases hat
    cases hdim
    generalize s'.atoms.get? dim = z at hat'
    cases hat'
    exact .none
  | some a =>
    rw [ha] at hat
    cases hat with
    | @some _ v hv =>
    cases hdim with
    | @some _ v' hvv' =>
    cases ha' : s'.atoms.get? dim with
    | none =>
      rw [ha'] at hat'
      cases hat'
    | some a' =>
      rw [ha', Option.rel_some_some] at hat'
      obtain ⟨d, hd, hbad⟩ := Segment.atom_of_check h.check ha
      obtain ⟨d', hd', hbad'⟩ := Segment.atom_of_check h.check' ha'
      obtain rfl : d = d' := Option.some.inj (hd.symm.trans hd')
      obtain ⟨ms, rfl, hform⟩ := Atom.canonical_form hv
      obtain ⟨ns, rfl, hform'⟩ := Atom.canonical_form hat'
      exact .some ⟨d, ms, ns, hbad, hbad', hform, hform', hvv'⟩

/-- Each atom has a counterpart of its form. -/
theorem Segment.OneForm.exists_atom (h : s.OneForm r s') {dim : Str} {a : Atom}
    (ha : s.atoms.get? dim = some a) :
    ∃ a', s'.atoms.get? dim = some a' ∧ ∃ d ms ns, Atom.OneForm a a' d ms ns := by
  have hdim := h.atoms dim
  rw [ha] at hdim
  generalize s'.atoms.get? dim = x at hdim
  cases hdim with
  | some hform => exact ⟨_, rfl, hform⟩

/-- They have an end together. -/
theorem Segment.OneForm.noEnd_iff (h : s.OneForm r s') :
    s.validUntil = [] ↔ s'.validUntil = [] := by
  obtain ⟨_, _, _, _, _, _, _, _, hform, hform', -, -, -, hvalid⟩ := h.parts
  obtain ⟨vs, start, rfl, hnd, -, -, huntil⟩ := Segment.canonicalValid_spec hform.valid_spec
  obtain ⟨ws, start', rfl, -, -, -, huntil'⟩ := Segment.canonicalValid_spec hform'.valid_spec
  have hstop := sameAt_of_same hnd hvalid (str "until")
  unfold SameAt at hstop
  rcases huntil with ⟨hnone, hat⟩ | ⟨stop, hsome, -, hat⟩
  · rcases huntil' with ⟨hnone', -⟩ | ⟨stop', -, -, hat'⟩
    · exact iff_of_true hnone hnone'
    · rw [hat, hat'] at hstop
      cases hstop
  · rcases huntil' with ⟨-, hat'⟩ | ⟨stop', hsome', -, -⟩
    · rw [hat, hat'] at hstop
      cases hstop
    · exact iff_of_false hsome hsome'

theorem Segment.OneForm.atom (h : s.OneForm r s') {dim : Str} {a a' : Atom}
    (ha : s.atoms.get? dim = some a) (ha' : s'.atoms.get? dim = some a') :
    ∃ d ms ns, Atom.OneForm a a' d ms ns := by
  have hdim := h.atoms dim
  rwa [ha, ha', Option.rel_some_some] at hdim

section
variable [Engine]

/-- They say the same, when they have the same bounds and are spelled alike. -/
theorem Segment.OneForm.saysSame (h : s.OneForm r s') (hbounds : s.SameBounds s')
    (hspelled : s.SpelledAlike s') : s.SaysSame s' := by
  refine ⟨?_, fun dim => ?_, hspelled.order⟩
  · obtain ⟨_, _, _, _, _, _, _, _, hform, hform', -, -, -, hvalid⟩ := h.parts
    exact Segment.activeAt_congr hform.valid_spec hform'.valid_spec hvalid hspelled.validFrom
      hspelled.validUntil
  · have hdim := h.atoms dim
    cases ha : s.atoms.get? dim with
    | none =>
      rw [ha] at hdim
      generalize s'.atoms.get? dim = x at hdim
      cases hdim
      exact .none
    | some a =>
      cases ha' : s'.atoms.get? dim with
      | none =>
        rw [ha, ha'] at hdim
        cases hdim
      | some a' =>
        obtain ⟨d, ms, ns, hone⟩ := h.atom ha ha'
        exact .some (hone.saysSame (hbounds dim a a' ha ha') (hspelled.atoms dim a a' ha ha'))

/-- Segments that mean the same for a resource: of one operation, valid at the same
instants, evaluated alike, with the same fields to read, and with predicates that are true
on the same rows. -/
structure Segment.MeansSame (r : Resource) (s s' : Segment) : Prop where
  operation : s.operation = s'.operation
  active : ∀ t, s.activeAt t = s'.activeAt t
  evaluates : ∀ facts principal at_,
    s.eval facts principal at_ = s'.eval facts principal at_
  reads : ∀ f, f ∈ s.readFields ↔ f ∈ s'.readFields
  compiles : ∀ (c : Compiler) (args args' : List Arg), c.r = r →
    ((∃ x, c.segment s args = .ok x) ↔ ∃ x, c.segment s' args' = .ok x)
  rows : ∀ (c : Compiler) (args args' out out' full full' : List Arg) (p p' : Pred ColumnRef),
    c.r = r → c.segment s args = .ok (p, out) → c.segment s' args' = .ok (p', out') →
    Bound c.base out full → Bound c.base out' full' → ∀ row : Row,
      (p.eval full row.columns = .true ↔ p'.eval full' row.columns = .true)

/-- Segments of one form that are spelled alike mean the same. -/
theorem Segment.OneForm.meansSame {r : Resource} {s s' : Segment} (h : s.OneForm r s')
    (hbounds : s.SameBounds s') (hspelled : s.SpelledAlike s') : s.MeansSame r s' := by
  have hsays := h.saysSame hbounds hspelled
  obtain ⟨_, _, _, _, _, _, _, _, hform, hform', hoperation, -, hreads, -⟩ := h.parts
  exact {
    operation := hoperation
    active := hsays.active
    evaluates := hsays.eval_eq
    reads := mem_iff_of_same_texts hform.reads_spec hform'.reads_spec hreads
    compiles := fun c args args' _ => hsays.compiles_iff c args args'
    rows := fun c args args' out out' full full' p p' _ hp hp' hfull hfull' =>
      hsays.predicate_iff hp hp' hfull hfull' }

end

end

/-! ## What evaluation tells -/

/-- Facts of one dimension, -/
def factOf (dim : Str) (f : Fact) : Dict Str Fact := ⟨[(dim, f)], List.nodup_singleton _⟩

/-- and of two. -/
def factsOf (i : Str) (f : Fact) (k : Str) (g : Fact) (h : i ≠ k) : Dict Str Fact :=
  ⟨[(i, f), (k, g)], by simp [h]⟩

omit [Interp] in
@[simp] theorem get?_factOf (dim k : Str) (f : Fact) :
    (factOf dim f).get? k = if dim = k then some f else none := by
  simp [factOf, Dict.get?, lookup]

omit [Interp] in
@[simp] theorem get?_factsOf {i k : Str} {f g : Fact} (h : i ≠ k) (j : Str) :
    (factsOf i f k g h).get? j = if i = j then some f else if k = j then some g else none := by
  simp [factsOf, Dict.get?, lookup]

/-- A fact that is not there makes no atom false, -/
theorem Atom.eval_unobtained (a : Atom) (principal : Str) :
    ∃ t, a.eval none principal = .ok t ∧ t ≠ .false := by
  unfold Atom.eval
  split
  · exact ⟨.true, rfl, by decide⟩
  · exact ⟨.unknown, rfl, by decide⟩

omit [Interp] in
/-- and none raise. -/
theorem Atom.not_overflows_unobtained (a : Atom) : ¬ a.Overflows none := by
  rintro ⟨-, v, hv, -⟩
  cases hv

/-- An amount beyond the limits of `Decimal`. -/
def hugeAmount : Str := str "1e1000000000000000000"

omit [Interp] in
theorem hugeAmount_unfit : ¬ NumberFits hugeAmount := by
  intro h
  have hread : readDecimal hugeAmount = some ⟨false, 1, 1000000000000000000⟩ := by decide +kernel
  exact absurd (h _ hread) (by decide +kernel)

omit [Interp] in
/-- It makes an interval of numbers raise. -/
theorem Atom.overflows_hugeAmount {a : Atom} (hk : a.kind = .interval) (hm : a.Matched) :
    a.Overflows (some (.value hugeAmount a.currency)) := by
  refine ⟨hk, hugeAmount, rfl, (a.forall_numbers_iff _).mpr ⟨by decide +kernel, hm⟩, hugeAmount,
    List.mem_cons_self .., hugeAmount_unfit⟩

section
variable {s : Segment} {at_ : Instant} {dim : Str} {a : Atom}

/-- On the fact of one dimension a segment is false where the atom is, -/
theorem Segment.eval_factOf (hact : s.activeAt at_ = true) (ha : s.atoms.get? dim = some a)
    {f : Fact} {principal : Str} {t : Tri} (ht : a.eval (some f) principal = .ok t) :
    ∃ u, s.eval (factOf dim f) principal at_ = .ok u ∧ (u = .false ↔ t = .false) := by
  have hother : ∀ k b, s.atoms.get? k = some b →
      ∃ u, b.eval ((factOf dim f).get? k) principal = .ok u ∧ (u = .false → t = .false) := by
    intro k b hb
    rw [get?_factOf]
    split
    · next heq =>
      subst heq
      obtain rfl := Option.some.inj (ha.symm.trans hb)
      exact ⟨t, ht, id⟩
    · obtain ⟨u, hu, hne⟩ := b.eval_unobtained principal
      exact ⟨u, hu, fun h => absurd h hne⟩
  have hnone : ¬ s.Overflows (factOf dim f) principal at_ := by
    rintro ⟨-, hover⟩
    obtain ⟨k, b, hb, hraises, -⟩ := atomsOverflow_iff.mp hover
    have herror := (b.eval_raises ((factOf dim f).get? k) principal).error_iff.mpr ⟨rfl, hraises⟩
    obtain ⟨u, hu, -⟩ := hother k b hb
    rw [hu] at herror
    cases herror
  obtain ⟨u, hu⟩ := (s.eval_raises (factOf dim f) principal at_).ok_iff.mpr hnone
  refine ⟨u, hu, ?_⟩
  have hmem := Dict.get?_eq_some_iff.mp ha
  have hself : a.eval ((factOf dim f).get? dim) principal = .ok t := by
    rw [get?_factOf, if_pos rfl, ht]
  simp only [Segment.eval, hact, Bool.not_true, Bool.false_eq_true, if_false] at hu
  constructor
  · rintro rfl
    obtain ⟨p, hp, hfalse⟩ := exists_of_evalAtoms_eq_false (by decide) hu
    obtain ⟨w, hw, hw'⟩ := hother p.1 p.2 (Dict.get?_eq_some_iff.mpr hp)
    rw [hfalse] at hw
    exact hw' (Except.ok.inj hw).symm
  · rintro rfl
    cases u with
    | false => rfl
    | true =>
      have htrue := (evalAtoms_eq_true_iff.mp hu).2 (dim, a) hmem
      rw [hself] at htrue
      cases htrue
    | unknown =>
      obtain ⟨w, hw, hne⟩ := forall_of_evalAtoms_eq_unknown hu (dim, a) hmem
      rw [hself] at hw
      exact absurd (Except.ok.inj hw).symm hne

/-- and raises where the atom does. -/
theorem Segment.eval_factOf_raises (hact : s.activeAt at_ = true)
    (ha : s.atoms.get? dim = some a) {f : Fact} (hover : a.Overflows (some f)) (principal : Str) :
    s.eval (factOf dim f) principal at_ = .error tooLarge := by
  refine (s.eval_raises (factOf dim f) principal at_).error_iff.mpr ⟨rfl, hact, ?_⟩
  refine atomsOverflow_iff.mpr ⟨dim, a, ha, ?_, fun k b hb _ hfalse => ?_⟩
  · rwa [get?_factOf, if_pos rfl]
  · rw [get?_factOf] at hfalse
    split at hfalse
    · next heq =>
      subst heq
      obtain rfl := Option.some.inj (ha.symm.trans hb)
      have herror := (a.eval_raises (some f) principal).error_iff.mpr ⟨rfl, hover⟩
      rw [hfalse] at herror
      cases herror
    · obtain ⟨u, hu, hne⟩ := b.eval_unobtained principal
      rw [hu] at hfalse
      exact hne (Except.ok.inj hfalse)

/-- An interval beside an atom that is false: it raises, unless the other is before it. -/
theorem Segment.eval_factsOf_raises_iff (hact : s.activeAt at_ = true)
    (ha : s.atoms.get? dim = some a) (hk : a.kind = .interval) (hm : a.Matched) {k : Str} {b : Atom}
    (hb : s.atoms.get? k = some b) (hne : b.kind ≠ .all) (hdim : dim ≠ k) (principal : Str) :
    s.eval (factsOf dim (.value hugeAmount a.currency) k .null hdim) principal at_ =
      .error tooLarge ↔ ¬ s.Before k dim := by
  have hover := Atom.overflows_hugeAmount hk hm
  have hfalse : b.eval (some .null) principal = .ok .false := by
    rw [Atom.eval, if_neg hne]
  rw [(s.eval_raises _ principal at_).error_iff, Segment.Overflows, atomsOverflow_iff]
  simp only [true_and, hact, get?_factsOf]
  constructor
  · rintro ⟨i, a', ha', hraises, hbefore⟩ hlt
    have hi : i = dim := by
      by_contra hi
      rw [if_neg (Ne.symm hi)] at hraises
      split at hraises
      · obtain ⟨-, v, hv, -⟩ := hraises
        cases hv
      · exact a'.not_overflows_unobtained hraises
    subst hi
    refine hbefore k b hb hlt ?_
    rw [if_neg hdim, if_pos rfl, hfalse]
  · intro hbefore
    refine ⟨dim, a, ha, by rwa [if_pos rfl], fun j c hc hlt hj => ?_⟩
    split at hj
    · next heq =>
      subst heq
      obtain rfl := Option.some.inj (ha.symm.trans hc)
      rw [(a.eval_raises _ principal).error_iff.mpr ⟨rfl, hover⟩] at hj
      cases hj
    · split at hj
      · next heq => exact hbefore (heq ▸ hlt)
      · obtain ⟨u, hu, hu'⟩ := c.eval_unobtained principal
        rw [hu] at hj
        exact hu' (Except.ok.inj hj)

omit [Interp] in
/-- Nothing stands before itself. -/
theorem Segment.not_before_self (s : Segment) (k : Str) : ¬ s.Before k k := by
  intro h
  have hnd := h.nodup s.atoms.nodup
  simp at hnd

omit [Interp] in
/-- RFC 3339 reads the validity of a segment that is ever valid. -/
theorem Segment.read_of_active (hact : s.activeAt at_ = true) :
    (rfc3339 s.validFrom).isSome = true ∧
      (s.validUntil ≠ [] → (rfc3339 s.validUntil).isSome = true) := by
  unfold Segment.activeAt at hact
  split at hact
  · cases hact
  next start hstart =>
  refine ⟨by rw [hstart]; rfl, fun hne => ?_⟩
  rw [if_neg hne] at hact
  split at hact
  · cases hact
  · split at hact
    · cases hact
    · next stop hstop => rw [hstop]; rfl

end

section
variable {r : Resource} {s s' : Segment} {at_ : Instant}

/-- Values with one normal form are in both, of segments that evaluate alike. -/
theorem Segment.mem_of_evaluates (h : ∀ facts principal at_,
    s.eval facts principal at_ = s'.eval facts principal at_) (hact : s.activeAt at_ = true)
    (hact' : s'.activeAt at_ = true) {dim : Str} {a a' : Atom} (ha : s.atoms.get? dim = some a)
    (ha' : s'.atoms.get? dim = some a') (hk : a.kind = .in_) (hk' : a'.kind = .in_) {v : Str}
    (hv : v ∈ a.values) : v ∈ a'.values := by
  by_contra hv'
  have heval : ∀ {b : Atom}, b.kind = .in_ →
      b.eval (some (.value v [])) [] = .ok (.ofBool (b.values.contains v)) := by
    intro b hb
    simp [Atom.eval, Atom.onValue, hb]
  obtain ⟨u, hu, hfalse⟩ := Segment.eval_factOf hact ha (heval hk)
  obtain ⟨u', hu', hfalse'⟩ := Segment.eval_factOf hact' ha' (heval hk')
  rw [h, hu', Except.ok.injEq] at hu
  subst hu
  have hin : a.values.contains v = true := List.contains_iff_mem.mpr hv
  have hout : a'.values.contains v = false := by simpa using hv'
  rw [hin] at hfalse
  rw [hout] at hfalse'
  exact absurd (hfalse.mp (hfalse'.mpr rfl)) (by decide)

/-- Bounds that are numbers for the one are numbers for the other: the huge amount makes
the one raise. -/
theorem Segment.matched_of_evaluates (h : ∀ facts principal at_,
    s.eval facts principal at_ = s'.eval facts principal at_) (hact : s.activeAt at_ = true)
    (hact' : s'.activeAt at_ = true) {dim : Str} {a a' : Atom} (ha : s.atoms.get? dim = some a)
    (ha' : s'.atoms.get? dim = some a') (hk : a.kind = .interval) (hk' : a'.kind = .interval)
    (hcurrency : a.currency = a'.currency) (hm : a.Matched) : a'.Matched := by
  by_contra hm'
  have herror := Segment.eval_factOf_raises hact ha (Atom.overflows_hugeAmount hk hm) []
  have hunknown : a'.eval (some (.value hugeAmount a.currency)) [] = .ok .unknown := by
    have hinterval : a'.interval hugeAmount a'.currency = .ok .unknown :=
      interval_unmatched fun hall => hm' ((a'.forall_numbers_iff _).mp hall).2
    simpa [Atom.eval, Atom.onValue, hk', hcurrency] using hinterval
  obtain ⟨u, hu, -⟩ := Segment.eval_factOf hact' ha' hunknown
  rw [h, hu] at herror
  cases herror

/-- Checked segments of one form that evaluate alike, and are ever valid, are spelled
alike. -/
theorem Segment.OneForm.spelledAlike (hone : s.OneForm r s') (hact : s.activeAt at_ = true)
    (hactive : ∀ t, s.activeAt t = s'.activeAt t) (heval : ∀ facts principal at_,
      s.eval facts principal at_ = s'.eval facts principal at_) : s.SpelledAlike s' := by
  have hact' : s'.activeAt at_ = true := (hactive at_).symm.trans hact
  have hmatched : ∀ dim a a', s.atoms.get? dim = some a → s'.atoms.get? dim = some a' →
      a.kind = .interval → (a.Matched ↔ a'.Matched) := by
    intro dim a a' ha ha' hk
    obtain ⟨d, ms, ns, hform⟩ := hone.atom ha ha'
    have hk' := hform.kind_eq ▸ hk
    have hcurrency := hform.currency_eq hk
    exact ⟨Segment.matched_of_evaluates heval hact hact' ha ha' hk hk' hcurrency,
      Segment.matched_of_evaluates (fun facts principal t => (heval facts principal t).symm) hact'
        hact ha' ha hk' hk hcurrency.symm⟩
  obtain ⟨hfrom, huntil⟩ := Segment.read_of_active hact
  obtain ⟨hfrom', huntil'⟩ := Segment.read_of_active hact'
  refine ⟨hfrom.trans hfrom'.symm, ?_, fun dim a a' ha ha' => ⟨fun hk v hv v' hv' _ => ?_,
    hmatched dim a a' ha ha'⟩, fun i a k b ha hk hm hb hne => ?_⟩
  · by_cases hnone : s.validUntil = []
    · rw [hnone, hone.noEnd_iff.mp hnone]
      rfl
    · exact (huntil hnone).trans (huntil' (hone.noEnd_iff.not.mp hnone)).symm
  · obtain ⟨d, ms, ns, hform⟩ := hone.atom ha ha'
    have hk' := hform.kind_eq ▸ hk
    exact ⟨Segment.mem_of_evaluates heval hact hact' ha ha' hk hk' hv,
      Segment.mem_of_evaluates (fun facts principal t => (heval facts principal t).symm) hact' hact
        ha' ha hk' hk hv'⟩
  · by_cases hdim : i = k
    · subst hdim
      exact iff_of_false (s.not_before_self i) (s'.not_before_self i)
    obtain ⟨a', ha', d, ms, ns, hform⟩ := hone.exists_atom ha
    obtain ⟨b', hb', d', ms', ns', hform'⟩ := hone.exists_atom hb
    have hraises := Segment.eval_factsOf_raises_iff hact ha hk hm hb hne hdim []
    have hraises' := Segment.eval_factsOf_raises_iff hact' ha' (hform.kind_eq ▸ hk)
      ((hmatched i a a' ha ha' hk).mp hm) hb' (hform'.kind_eq ▸ hne) hdim []
    rw [← hform.currency_eq hk, ← heval, hraises] at hraises'
    exact not_iff_not.mp hraises'

end

/-! ## Respelled segments -/

/-- Texts of one number, or one text. -/
def RespellsDecimal (v v' : Str) : Prop :=
  v = v' ∨ ∃ d d', decimalOf v = .ok (.finite d) ∧ decimalOf v' = .ok (.finite d') ∧
    d.value = d'.value

/-- Texts of one instant, or one text. -/
def RespellsInstant (v v' : Str) : Prop :=
  v = v' ∨ ∃ i, Canon.readInstant v = some i ∧ Canon.readInstant v' = some i

/-- An atom with its values and items reordered or repeated and its bounds respelled. -/
structure Atom.Respells (a a' : Atom) : Prop where
  kind : a.kind = a'.kind
  values : ∀ v, v ∈ a.values ↔ v ∈ a'.values
  items : ∀ i, i ∈ a.items ↔ i ∈ a'.items
  currency : a.currency = a'.currency
  lo : Option.Rel RespellsDecimal a.lo a'.lo
  loClosed : a.loClosed = a'.loClosed
  hi : Option.Rel RespellsDecimal a.hi a'.hi
  hiClosed : a.hiClosed = a'.hiClosed

/-- A segment with its atoms respelled, its fields reordered or repeated and its instants
respelled. -/
structure Segment.Respells (s s' : Segment) : Prop where
  operation : s.operation = s'.operation
  atoms : List.Forall₂ (fun p p' => p.1 = p'.1 ∧ p.2.Respells p'.2) s.atoms.entries
    s'.atoms.entries
  readFields : ∀ f, f ∈ s.readFields ↔ f ∈ s'.readFields
  writeFields : ∀ f, f ∈ s.writeFields ↔ f ∈ s'.writeFields
  validFrom : RespellsInstant s.validFrom s'.validFrom
  validUntil : RespellsInstant s.validUntil s'.validUntil
  resourceType : s.resourceType = s'.resourceType
  binding : s.binding = s'.binding
  source : s.source = s'.source
  definition : s.definition = s'.definition

omit [Interp] in
theorem RespellsInstant.symm {v v' : Str} (h : RespellsInstant v v') : RespellsInstant v' v := by
  rcases h with rfl | ⟨i, hi, hi'⟩
  · exact .inl rfl
  · exact .inr ⟨i, hi', hi⟩

theorem RespellsDecimal.symm {v v' : Str} (h : RespellsDecimal v v') : RespellsDecimal v' v := by
  rcases h with rfl | ⟨d, d', hd, hd', hvalue⟩
  · exact .inl rfl
  · exact .inr ⟨d', d, hd', hd, hvalue.symm⟩

theorem Atom.Respells.symm {a a' : Atom} (h : a.Respells a') : a'.Respells a where
  kind := h.kind.symm
  values v := (h.values v).symm
  items i := (h.items i).symm
  currency := h.currency.symm
  lo := Sql.rel_symm RespellsDecimal.symm h.lo
  loClosed := h.loClosed.symm
  hi := Sql.rel_symm RespellsDecimal.symm h.hi
  hiClosed := h.hiClosed.symm

theorem Segment.Respells.symm {s s' : Segment} (h : s.Respells s') : s'.Respells s where
  operation := h.operation.symm
  atoms := (h.atoms.imp fun _ _ hp => ⟨hp.1.symm, hp.2.symm⟩).flip
  readFields f := (h.readFields f).symm
  writeFields f := (h.writeFields f).symm
  validFrom := h.validFrom.symm
  validUntil := h.validUntil.symm
  resourceType := h.resourceType.symm
  binding := h.binding.symm
  source := h.source.symm
  definition := h.definition.symm

/-- A respelled bound has the same form, -/
theorem canonicalBound_respelled {name : String} {bound bound' : Option Str}
    {closed : Option Bool} {out : List (Str × Json)} (h : Option.Rel RespellsDecimal bound bound')
    (hout : canonicalBound name bound closed = .ok out) :
    canonicalBound name bound' closed = .ok out := by
  cases h with
  | none => exact hout
  | @some v v' hvv' =>
    rcases hvv' with rfl | ⟨d, d', hd, hd', hvalue⟩
    · exact hout
    · obtain ⟨amount, hamount, hout⟩ := bind_eq_ok_iff.mp hout
      exact bind_eq_ok_iff.mpr ⟨amount, Canon.decimal_of_value_eq hd hd' hvalue hamount, hout⟩

/-- a respelled atom, -/
theorem Atom.canonical_respelled {a a' : Atom} (h : a.Respells a') {v : Json}
    (hv : a.canonical = .ok v) : a'.canonical = .ok v := by
  unfold Atom.canonical at hv ⊢
  rw [← h.kind]
  dsimp only at hv ⊢
  cases hk : a.kind with
  | in_ =>
    simp only [hk] at hv ⊢
    obtain ⟨out, hout, hv⟩ := bind_eq_ok_iff.mp hv
    refine bind_eq_ok_iff.mpr ⟨out, ?_, hv⟩
    have htexts : ∀ vs : List Str, vs.map (fun v => Json.str (Canon.text v)) =
      (vs.map Canon.text).map Json.str := fun vs => by rw [List.map_map]; rfl
    rw [htexts] at hout ⊢
    refine Canon.sortedSet_congr (Canon.toldApart_texts _) (fun x => ?_) hout
    simp only [List.mem_map, h.values]
  | tree =>
    simp only [hk] at hv ⊢
    obtain ⟨out, hout, hv⟩ := bind_eq_ok_iff.mp hv
    refine bind_eq_ok_iff.mpr ⟨out, ?_, hv⟩
    refine Canon.sortedSet_congr (toldApart_items _) (fun x => ?_) hout
    simp only [List.mem_map, h.items]
  | interval =>
    simp only [hk] at hv ⊢
    obtain ⟨lo, hlo, hv⟩ := bind_eq_ok_iff.mp hv
    obtain ⟨hi, hhi, hv⟩ := bind_eq_ok_iff.mp hv
    refine bind_eq_ok_iff.mpr ⟨lo, ?_, bind_eq_ok_iff.mpr ⟨hi, ?_, ?_⟩⟩
    · exact h.loClosed ▸ canonicalBound_respelled h.lo hlo
    · exact h.hiClosed ▸ canonicalBound_respelled h.hi hhi
    · rw [← h.currency]
      exact hv
  | all => simpa only [hk] using hv
  | self_ => simpa only [hk] using hv
  | other text => simpa only [hk] using hv

omit [Interp] in
/-- a respelled instant, -/
theorem instant_respelled {v v' a : Str} (h : RespellsInstant v v') (ha : Canon.instant v = .ok a) :
    Canon.instant v' = .ok a := by
  rcases h with rfl | ⟨i, hi, hi'⟩
  · exact ha
  · rw [Canon.instant, hi] at ha
    rw [Canon.instant, hi']
    exact ha

omit [Interp] in
/-- No end is respelled as no end. -/
theorem RespellsInstant.nil_iff {v v' : Str} (h : RespellsInstant v v') : v = [] ↔ v' = [] := by
  have hnil : Canon.readInstant [] = none := rfl
  rcases h with rfl | ⟨i, hi, hi'⟩
  · exact Iff.rfl
  · constructor
    · rintro rfl
      rw [hnil] at hi
      cases hi
    · rintro rfl
      rw [hnil] at hi'
      cases hi'

/-- a respelled validity, -/
theorem canonicalValid_respelled {s s' : Segment} (h : s.Respells s') {v : Json}
    (hv : s.canonicalValid = .ok v) : s'.canonicalValid = .ok v := by
  unfold Segment.canonicalValid at hv ⊢
  obtain ⟨start, hstart, hv⟩ := bind_eq_ok_iff.mp hv
  refine bind_eq_ok_iff.mpr ⟨start, instant_respelled h.validFrom hstart, ?_⟩
  by_cases hnone : s.validUntil = []
  · rw [if_pos hnone] at hv
    rwa [if_pos (h.validUntil.nil_iff.mp hnone)]
  · rw [if_neg hnone] at hv
    rw [if_neg (h.validUntil.nil_iff.not.mp hnone)]
    obtain ⟨stop, hstop, hv⟩ := bind_eq_ok_iff.mp hv
    exact bind_eq_ok_iff.mpr ⟨stop, instant_respelled h.validUntil hstop, hv⟩

omit [Interp] in
/-- a reordered set of texts, -/
theorem sortedTexts_respelled {ss ts : List Str} (h : ∀ s, s ∈ ss ↔ s ∈ ts) {out : List Json}
    (hout : Canon.sortedSet (ss.map Json.str) = .ok out) :
    Canon.sortedSet (ts.map Json.str) = .ok out :=
  Canon.sortedSet_congr (Canon.toldApart_texts ss) (fun x => by simp only [List.mem_map, h]) hout

/-- all atoms, -/
theorem canonicalAtoms_respelled {l l' : List (Str × Atom)}
    (h : List.Forall₂ (fun p p' => p.1 = p'.1 ∧ p.2.Respells p'.2) l l')
    {out : List (Str × Json)}
    (hout : l.mapM (fun p => do return (p.1, ← p.2.canonical)) = .ok out) :
    l'.mapM (fun p => do return (p.1, ← p.2.canonical)) = .ok out := by
  rw [mapM_eq_ok_iff] at hout ⊢
  induction h generalizing out with
  | nil => exact hout
  | @cons p p' l l' hp _ ih =>
    cases hout with
    | cons hq hrest =>
    refine .cons ?_ (ih hrest)
    rw [canonicalEntry_eq_ok_iff] at hq ⊢
    exact ⟨hp.1.symm.trans hq.1, Atom.canonical_respelled hp.2 hq.2⟩

/-- and the segment. -/
theorem Segment.canonical_respelled {s s' : Segment} (h : s.Respells s') {type : Str} {c : Json}
    (hc : s.canonical type = .ok c) : s'.canonical type = .ok c := by
  unfold Segment.canonical at hc ⊢
  obtain ⟨atoms, hatoms, hc⟩ := bind_eq_ok_iff.mp hc
  obtain ⟨valid, hvalid, hc⟩ := bind_eq_ok_iff.mp hc
  obtain ⟨reads, hreads, hc⟩ := bind_eq_ok_iff.mp hc
  obtain ⟨writes, hwrites, hc⟩ := bind_eq_ok_iff.mp hc
  obtain ⟨definition, hdefinition, hc⟩ := bind_eq_ok_iff.mp hc
  refine bind_eq_ok_iff.mpr ⟨atoms, canonicalAtoms_respelled h.atoms hatoms,
    bind_eq_ok_iff.mpr ⟨valid, canonicalValid_respelled h hvalid,
      bind_eq_ok_iff.mpr ⟨reads, sortedTexts_respelled h.readFields hreads,
        bind_eq_ok_iff.mpr ⟨writes, sortedTexts_respelled h.writeFields hwrites,
          bind_eq_ok_iff.mpr ⟨definition, ?_, ?_⟩⟩⟩⟩⟩
  · rw [← h.definition]
    exact hdefinition
  · rw [← h.operation, ← h.binding, ← h.source]
    exact hc

theorem Segment.Respells.canonical_iff {s s' : Segment} (h : s.Respells s') (type : Str)
    (c : Json) : s.canonical type = .ok c ↔ s'.canonical type = .ok c :=
  ⟨Segment.canonical_respelled h, Segment.canonical_respelled h.symm⟩

/-- So it has the same digest. -/
theorem Segment.Respells.digest_iff {s s' : Segment} (h : s.Respells s') (x : Str) :
    s.digest = .ok x ↔ s'.digest = .ok x := by
  unfold Segment.digest
  simp only [bind_eq_ok_iff, h.canonical_iff, h.resourceType]

/-! ## Identity -/

section
variable [Engine]

/-- **A digest identifies a meaning**, of segments that tell no more than their canonical
form does: two checked segments of one form, with the same numbers for bounds, mean the
same where they are spelled alike, and nowhere else if they are ever valid. The other way
round a respelled segment keeps its form and its digest. -/
theorem digest_identifies :
    (∀ (r : Resource) (s s' : Segment) (type : Str) (c c' : Json), s.check r = .ok () →
      s'.check r = .ok () → s.canonical type = .ok c → s'.canonical type = .ok c' →
      SameForm c c' → s.SameBounds s' →
      (s.SpelledAlike s' → s.MeansSame r s') ∧
      ((∃ t, s.activeAt t = true) → s.MeansSame r s' → s.SpelledAlike s')) ∧
    ∀ s s' : Segment, s.Respells s' →
      (∀ type c, s.canonical type = .ok c ↔ s'.canonical type = .ok c) ∧
      ∀ x, s.digest = .ok x ↔ s'.digest = .ok x := by
  refine ⟨fun r s s' type c c' hcheck hcheck' hc hc' hsame hbounds => ?_,
    fun s s' h => ⟨h.canonical_iff, h.digest_iff⟩⟩
  have hone : s.OneForm r s' := ⟨hcheck, hcheck', type, c, c', hc, hc', hsame⟩
  refine ⟨hone.meansSame hbounds, ?_⟩
  rintro ⟨t, hact⟩ hmeans
  exact hone.spelledAlike hact hmeans.active hmeans.evaluates

end

end

/-! ## Orders from half a euro -/

/-- `orderSegment "0.5"` with everything respelled. -/
def respelledSegment : Segment :=
  { orderSegment "0.50" with
    readFields := [str "total", str "total"]
    validFrom := str "2026-01-01T01:00:00+01:00" }

theorem respelled_bounds {dim : Str} {a a' : Atom}
    (ha : (orderSegment "0.5").atoms.get? dim = some a)
    (ha' : respelledSegment.atoms.get? dim = some a') :
    a = { kind := .interval, currency := str "EUR", lo := some (str "0.5"),
          loClosed := some true } ∧
      a' = { kind := .interval, currency := str "EUR", lo := some (str "0.50"),
             loClosed := some true } := by
  rw [Dict.get?_eq_some_iff] at ha ha'
  obtain ⟨⟩ := List.mem_singleton.mp ha
  obtain ⟨⟩ := List.mem_singleton.mp ha'
  exact ⟨rfl, rfl⟩

/-- One instant, in two offsets. -/
theorem respelled_instants : rfc3339 (str "2026-01-01T00:00:00Z") =
    rfc3339 (str "2026-01-01T01:00:00+01:00") := by
  decide +kernel

theorem respelled_sameBounds :
    @Segment.SameBounds Interp.ascii Engine.plain (orderSegment "0.5") respelledSegment := by
  intro dim a a' ha ha' _
  obtain ⟨rfl, rfl⟩ := respelled_bounds ha ha'
  refine ⟨?_, by simp⟩
  rintro v ⟨⟩ v' ⟨⟩
  have hread : readDecimal (str "0.5") = some ⟨false, 5, -1⟩ := rfl
  have hread' : readDecimal (str "0.50") = some ⟨false, 50, -2⟩ := rfl
  refine .inr ?_
  change Option.Rel _ ((readDecimal (str "0.5")).map Sql.Numeric.finite)
    ((readDecimal (str "0.50")).map Sql.Numeric.finite)
  rw [hread, hread']
  exact .some rfl

theorem respelled_alike : @Segment.SpelledAlike Interp.ascii (orderSegment "0.5")
    respelledSegment := by
  refine @Segment.SpelledAlike.mk Interp.ascii _ _ ?_ rfl ?_ fun _ _ _ _ _ _ _ _ _ => Iff.rfl
  · exact congrArg Option.isSome respelled_instants
  · intro dim a a' ha ha'
    obtain ⟨rfl, rfl⟩ := respelled_bounds ha ha'
    have hmatched : ∀ lo : String, decimalFullmatch (str lo) = true →
        ({ kind := .interval, currency := str "EUR", lo := some (str lo),
           loClosed := some true } : Atom).Matched := by
      rintro lo hlo v (hv | hv)
      · rwa [← Option.some.inj hv]
      · cases hv
    exact @Atom.SpelledAlike.mk Interp.ascii _ _ (by simp) fun _ =>
      iff_of_true (hmatched "0.5" rfl) (hmatched "0.50" rfl)

theorem respelled_respells : @Segment.Respells Interp.ascii (orderSegment "0.5")
    respelledSegment := by
  have hbound : @RespellsDecimal Interp.ascii (str "0.5") (str "0.50") :=
    .inr ⟨⟨false, 5, -1⟩, ⟨false, 50, -2⟩, by decide +kernel, by decide +kernel,
      (Dec.eq_iff _ _).mp rfl⟩
  have hinstants : Canon.readInstant (str "2026-01-01T00:00:00Z") =
      Canon.readInstant (str "2026-01-01T01:00:00+01:00") ∧
      (Canon.readInstant (str "2026-01-01T00:00:00Z")).isSome = true := by
    decide +kernel
  obtain ⟨i, hi⟩ := Option.isSome_iff_exists.mp hinstants.2
  have hatom := @Atom.Respells.mk Interp.ascii
    { kind := .interval, currency := str "EUR", lo := some (str "0.5"), loClosed := some true }
    { kind := .interval, currency := str "EUR", lo := some (str "0.50"), loClosed := some true }
    rfl (fun _ => Iff.rfl) (fun _ => Iff.rfl) rfl (.some hbound) rfl .none rfl
  refine @Segment.Respells.mk Interp.ascii _ _ rfl (.cons ⟨rfl, hatom⟩ .nil) ?_
    (fun _ => Iff.rfl) (.inr ⟨i, hi, hinstants.1 ▸ hi⟩) (.inl rfl) rfl rfl rfl rfl
  simp [respelledSegment, orderSegment]

/-- Half a euro in two spellings, at one instant in two time zones. -/
theorem digest_identifies_half : ∃ s s' : Segment, s.atoms ≠ s'.atoms ∧
    s.validFrom ≠ s'.validFrom ∧ s.readFields ≠ s'.readFields ∧
    s.activeAt orderTime = true ∧
    (∃ c, @Segment.canonical Interp.ascii s [] = .ok c ∧
      @Segment.canonical Interp.ascii s' [] = .ok c) ∧
    (∃ x, @Segment.digest Interp.ascii s = .ok x ∧ @Segment.digest Interp.ascii s' = .ok x) ∧
    @Segment.MeansSame Interp.ascii Engine.plain orderResource s s' := by
  obtain ⟨hmeans, hrespell⟩ := @digest_identifies Interp.ascii Engine.plain
  obtain ⟨hform, hdigest⟩ := hrespell _ _ respelled_respells
  have hself : (@Segment.canonical Interp.ascii (orderSegment "0.5") []).toOption.any
    (fun c => c.same c) = true := by decide +kernel
  obtain ⟨c, hc⟩ : ∃ c, @Segment.canonical Interp.ascii (orderSegment "0.5") [] = .ok c :=
    exists_ok_of_isSome (by decide +kernel)
  rw [hc] at hself
  have hc' := (hform [] c).mp hc
  obtain ⟨x, hx⟩ : ∃ x, @Segment.digest Interp.ascii (orderSegment "0.5") = .ok x :=
    exists_ok_of_isSome (by decide +kernel)
  refine ⟨_, _, by decide +kernel, by decide +kernel, by decide +kernel, by decide +kernel,
    ⟨c, hc, hc'⟩, ⟨x, hx, (hdigest x).mp hx⟩, ?_⟩
  exact (hmeans orderResource _ _ [] c c rfl rfl hc hc'
    (@Segment.sameForm_of_same Interp.ascii _ _ _ _ hc hself) respelled_sameBounds).1
      respelled_alike

/-- **One digest, two meanings**: a bound with a blank before it is the same number in
canonical form, and the evaluation does not take it for one. -/
theorem digest_collides : ∃ (defs : Definitions) (i : Index) (r : Resource) (s s' : Segment)
    (facts : Dict Str Fact), defs.validate = .ok i ∧ r ∈ defs.resources ∧
    s.check r = .ok () ∧ s'.check r = .ok () ∧
    (∃ c, @Segment.canonical Interp.ascii s r.type = .ok c ∧
      @Segment.canonical Interp.ascii s' r.type = .ok c) ∧
    (∃ x, @Segment.digest Interp.ascii s = .ok x ∧ @Segment.digest Interp.ascii s' = .ok x) ∧
    @Segment.eval Interp.ascii s facts (str "p") orderTime = .ok .true ∧
    @Segment.eval Interp.ascii s' facts (str "p") orderTime = .ok .unknown := by
  have hrespells : @Segment.Respells Interp.ascii (orderSegment "10") (orderSegment " 10") := by
    have hbound : @RespellsDecimal Interp.ascii (str "10") (str " 10") :=
      .inr ⟨⟨false, 10, 0⟩, ⟨false, 10, 0⟩, by decide +kernel, by decide +kernel, rfl⟩
    have hatom := @Atom.Respells.mk Interp.ascii
      { kind := .interval, currency := str "EUR", lo := some (str "10"), loClosed := some true }
      { kind := .interval, currency := str "EUR", lo := some (str " 10"), loClosed := some true }
      rfl (fun _ => Iff.rfl) (fun _ => Iff.rfl) rfl (.some hbound) rfl .none rfl
    exact @Segment.Respells.mk Interp.ascii _ _ rfl (.cons ⟨rfl, hatom⟩ .nil) (fun _ => Iff.rfl)
      (fun _ => Iff.rfl) (.inl rfl) (.inl rfl) rfl rfl rfl rfl
  obtain ⟨c, hc⟩ : ∃ c, @Segment.canonical Interp.ascii (orderSegment "10") orderResource.type =
    .ok c := exists_ok_of_isSome (by decide +kernel)
  obtain ⟨x, hx⟩ : ∃ x, @Segment.digest Interp.ascii (orderSegment "10") = .ok x :=
    exists_ok_of_isSome (by decide +kernel)
  exact ⟨orderDefinitions, _, orderResource, orderSegment "10", orderSegment " 10", orderFacts,
    rfl, List.mem_singleton_self _, rfl, rfl,
    ⟨c, hc, (@Segment.Respells.canonical_iff Interp.ascii _ _ hrespells _ c).mp hc⟩,
    ⟨x, hx, (@Segment.Respells.digest_iff Interp.ascii _ _ hrespells x).mp hx⟩, rfl, rfl⟩

end BeSdk
