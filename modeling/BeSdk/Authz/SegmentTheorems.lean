/-
BeSdk.Authz.SegmentTheorems — what the evaluator computes, and that partial
knowledge is sound.

The first half says what a result of each loop means in terms of its parts: a
segment is true when every atom is (`evalAtoms_eq_true_iff`), an entitlement is
true when some segment of the operation is (`entitled_spec`). The loops are not
unfolded after that.

The second half compares two evaluations, on partial facts and on facts that
extend them (`Extends`: what was known is unchanged). Every stage is monotone in
the knowledge order, so a definite answer survives (`partial_sound`). The early
exit of the segment loop is the one place where the two runs do not evaluate the
same atoms: an atom that becomes false stops the second run earlier.
-/
import BeSdk.Authz.Segment
import BeSdk.Lib.Fallible

namespace BeSdk

/-! ## The answer of a decision -/

@[simp] theorem and_eq (a b : Tri) : and_ a b = a.and b := by cases a <;> cases b <;> rfl

theorem Decision.error_eq_none_iff (d : Decision) :
    d.error = none ↔ d.visible = .true ∧ d.action = .true := by
  obtain ⟨v, a, fs⟩ := d
  cases v <;> cases a <;> simp [Decision.error]

theorem Decision.error_isNotFound {d : Decision} {e : Errs.Error} (h : d.error = some e)
    (he : e.is_ (str "be") (str "NOT_FOUND") = true) : d.visible = .false := by
  have hreason : e.reason = str "NOT_FOUND" := (of_decide_eq_true he).2
  rw [Decision.error] at h
  split at h
  · next hvisible => exact hvisible
  · split at h
    · rw [← Option.some.inj h, Errs.new_reason (by simp [platform]), str_inj] at hreason
      simp at hreason
    · split at h
      · rw [← Option.some.inj h, Errs.new_reason (by simp [platform]), str_inj] at hreason
        simp at hreason
      · cases h

theorem Decision.error_isDenied {d : Decision} {e : Errs.Error} (h : d.error = some e)
    (he : e.is_ (str "be") (str "PERMISSION_DENIED") = true) : d.action = .false := by
  have hreason : e.reason = str "PERMISSION_DENIED" := (of_decide_eq_true he).2
  rw [Decision.error] at h
  split at h
  · rw [← Option.some.inj h, Errs.new_reason (by simp [platform]), str_inj] at hreason
    simp at hreason
  · split at h
    · next haction => exact haction
    · split at h
      · rw [← Option.some.inj h, Errs.new_reason (by simp [platform]), str_inj] at hreason
        simp at hreason
      · cases h

section
variable [Interp]

/-! ## What a segment's result means -/

/-- A segment is true exactly when all its atoms are. -/
theorem evalAtoms_eq_true_iff {facts : Dict Str Fact} {principal : Str} :
    ∀ {l : List (Str × Atom)} {out : Tri}, evalAtoms facts principal l out = .ok .true ↔
      out = .true ∧ ∀ p ∈ l, p.2.eval (facts.get? p.1) principal = .ok .true
  | [], out => by simp [evalAtoms]
  | (dim, a) :: rest, out => by
      rw [evalAtoms, bind_eq_ok_iff, List.forall_mem_cons]
      constructor
      · rintro ⟨t, ht, h⟩
        cases t with
        | false => cases h
        | unknown => exact absurd (evalAtoms_eq_true_iff.mp h).1 (by decide)
        | true => exact ⟨(evalAtoms_eq_true_iff.mp h).1, ht, (evalAtoms_eq_true_iff.mp h).2⟩
      · rintro ⟨hout, ht, hrest⟩
        exact ⟨.true, ht, evalAtoms_eq_true_iff.mpr ⟨hout, hrest⟩⟩

/-- A false segment has a false atom. -/
theorem exists_of_evalAtoms_eq_false {facts : Dict Str Fact} {principal : Str} :
    ∀ {l : List (Str × Atom)} {out : Tri}, out ≠ .false →
      evalAtoms facts principal l out = .ok .false →
      ∃ p ∈ l, p.2.eval (facts.get? p.1) principal = .ok .false
  | [], out, hout, h => by
      rw [evalAtoms, Except.ok.injEq] at h
      exact absurd h hout
  | (dim, a) :: rest, out, hout, h => by
      rw [evalAtoms, bind_eq_ok_iff] at h
      obtain ⟨t, ht, h⟩ := h
      cases t with
      | false => exact ⟨(dim, a), List.mem_cons_self .., ht⟩
      | unknown =>
          obtain ⟨p, hp, hf⟩ := exists_of_evalAtoms_eq_false (by decide) h
          exact ⟨p, List.mem_cons_of_mem _ hp, hf⟩
      | true =>
          obtain ⟨p, hp, hf⟩ := exists_of_evalAtoms_eq_false hout h
          exact ⟨p, List.mem_cons_of_mem _ hp, hf⟩

/-- An undecided segment has no false atom. -/
theorem forall_of_evalAtoms_eq_unknown {facts : Dict Str Fact} {principal : Str} :
    ∀ {l : List (Str × Atom)} {out : Tri}, evalAtoms facts principal l out = .ok .unknown →
      ∀ p ∈ l, ∃ t, p.2.eval (facts.get? p.1) principal = .ok t ∧ t ≠ .false
  | [], _, _ => by simp
  | (dim, a) :: rest, out, h => by
      rw [evalAtoms, bind_eq_ok_iff] at h
      obtain ⟨t, ht, h⟩ := h
      rw [List.forall_mem_cons]
      cases t with
      | false => cases h
      | unknown => exact ⟨⟨.unknown, ht, by decide⟩, forall_of_evalAtoms_eq_unknown h⟩
      | true => exact ⟨⟨.true, ht, by decide⟩, forall_of_evalAtoms_eq_unknown h⟩

/-! ## What an entitlement means -/

/-- The result of the disjunction over an operation's segments. -/
structure Entitled (segs : List Segment) (op : Str) (facts : Dict Str Fact) (principal : Str)
    (at_ : Instant) (res : Tri) (fields : List Str) : Prop where
  evaluated : ∀ s ∈ segs, s.operation = op → ∃ t, s.eval facts principal at_ = .ok t
  isTrue : res = .true ↔ ∃ s ∈ segs, s.operation = op ∧ s.eval facts principal at_ = .ok .true
  isFalse : res = .false ↔ ∀ s ∈ segs, s.operation = op → s.eval facts principal at_ = .ok .false
  mem_fields : ∀ f, f ∈ fields ↔
    ∃ s ∈ segs, s.operation = op ∧ s.eval facts principal at_ = .ok .true ∧ f ∈ s.readFields

/-- The same of the loop: the rest of the segments joins what came before. -/
theorem entitledGo_spec {op : Str} {facts : Dict Str Fact} {principal : Str} {at_ : Instant} :
    ∀ {segs : List Segment} {r : Tri} {fs : List Str} {res : Tri} {fields : List Str},
      entitledGo op facts principal at_ segs r fs = .ok (res, fields) →
      ∃ res' fields', Entitled segs op facts principal at_ res' fields' ∧ res = r.or res' ∧
        ∀ f, f ∈ fields ↔ f ∈ fs ∨ f ∈ fields'
  | [], r, fs, res, fields, h => by
      rw [entitledGo, Except.ok.injEq, Prod.mk.injEq] at h
      obtain ⟨rfl, rfl⟩ := h
      exact ⟨.false, [], ⟨by simp, by simp, by simp, by simp⟩, by cases r <;> rfl, by simp⟩
  | s :: segs, r, fs, res, fields, h => by
      rw [entitledGo] at h
      split at h
      · next hop =>
          obtain ⟨res', fields', hspec, hres, hfields⟩ := entitledGo_spec h
          refine ⟨res', fields', ⟨?_, ?_, ?_, ?_⟩, hres, hfields⟩
          · rw [List.forall_mem_cons]
            exact ⟨fun h => absurd h hop, hspec.evaluated⟩
          · rw [hspec.isTrue]; simp [hop]
          · rw [hspec.isFalse]; simp [hop]
          · intro f; rw [hspec.mem_fields]; simp [hop]
      · next hop =>
          rw [not_not] at hop
          obtain ⟨t, ht, h⟩ := bind_eq_ok_iff.mp h
          cases t with
          | true =>
              obtain ⟨res', fields', hspec, hres, hfields⟩ := entitledGo_spec h
              refine ⟨.true, s.readFields ++ fields', ⟨?_, ?_, ?_, ?_⟩, ?_, ?_⟩
              · rw [List.forall_mem_cons]
                exact ⟨fun _ => ⟨.true, ht⟩, hspec.evaluated⟩
              · simp [hop, ht]
              · simp [hop, ht]
              · intro f; rw [List.mem_append, hspec.mem_fields]; simp [hop, ht]
              · rw [hres]; cases r <;> rfl
              · intro f; rw [hfields, List.mem_append, List.mem_append, or_assoc]
          | unknown =>
              obtain ⟨res', fields', hspec, hres, hfields⟩ := entitledGo_spec h
              refine ⟨Tri.unknown.or res', fields', ⟨?_, ?_, ?_, ?_⟩, ?_, hfields⟩
              · rw [List.forall_mem_cons]
                exact ⟨fun _ => ⟨.unknown, ht⟩, hspec.evaluated⟩
              · rw [Tri.or_eq_true_iff, hspec.isTrue]; simp [hop, ht]
              · rw [Tri.or_eq_false_iff]; simp [hop, ht]
              · intro f; rw [hspec.mem_fields]; simp [hop, ht]
              · rw [hres]; cases r <;> cases res' <;> rfl
          | false =>
              obtain ⟨res', fields', hspec, hres, hfields⟩ := entitledGo_spec h
              refine ⟨res', fields', ⟨?_, ?_, ?_, ?_⟩, hres, hfields⟩
              · rw [List.forall_mem_cons]
                exact ⟨fun _ => ⟨.false, ht⟩, hspec.evaluated⟩
              · rw [hspec.isTrue]; simp [ht]
              · rw [hspec.isFalse]; simp [ht]
              · intro f; rw [hspec.mem_fields]; simp [ht]

theorem entitled_spec {segs : List Segment} {op : Str} {facts : Dict Str Fact} {principal : Str}
    {at_ : Instant} {res : Tri} {fields : List Str}
    (h : entitled segs op facts principal at_ = .ok (res, fields)) :
    Entitled segs op facts principal at_ res fields := by
  obtain ⟨res', fields', hspec, hres, hfields⟩ := entitledGo_spec h
  obtain rfl : res = res' := by rw [hres]; cases res' <;> rfl
  exact ⟨hspec.evaluated, hspec.isTrue, hspec.isFalse, fun f => by
    rw [hfields, ← hspec.mem_fields]; simp⟩

/-! ## What a decision means -/

/-- A decision in terms of the two entitlements it joins. -/
structure Decided (r : Resource) (segs : List Segment) (op : Str) (facts : Dict Str Fact)
    (principal : Str) (at_ : Instant) (d : Decision) : Prop where
  view : ∃ fs, entitled segs r.viewOperation facts principal at_ = .ok (d.visible, fs)
  action : ∃ act fs, entitled segs op facts principal at_ = .ok (act, fs) ∧
    d.action = d.visible.and act ∧
    ∀ f, f ∈ d.fields ↔ d.visible = .true ∧ f ∈ fs ∧ r.outputs f = true

/-- For the view operation the decision joins visibility with itself, so one form
covers both cases of the source. -/
theorem evaluate_spec {r : Resource} {segs : List Segment} {op : Str} {facts : Dict Str Fact}
    {principal : Str} {at_ : Instant} {d : Decision}
    (h : evaluate r segs op facts principal at_ = .ok d) :
    Decided r segs op facts principal at_ d := by
  have hfields : ∀ (v : Tri) (fs : List Str) (f : Str),
      f ∈ (if v = .true then sortedSet (· ≤ ·) (fs.filter r.outputs) else []) ↔
        v = .true ∧ f ∈ fs ∧ r.outputs f = true := by
    intro v fs f
    split <;> simp_all [mem_sortedSet]
  rw [evaluate, bind_eq_ok_iff] at h
  obtain ⟨⟨visible, viewFields⟩, hview, h⟩ := h
  dsimp only at h
  by_cases hop : op = r.viewOperation
  · simp only [hop, ne_eq, not_true_eq_false, if_false, pure_bind, pure_eq_ok_iff] at h
    subst h
    refine ⟨⟨viewFields, hview⟩, visible, viewFields, by rw [hop]; exact hview, ?_, hfields _ _⟩
    cases visible <;> rfl
  · simp only [ne_eq, hop, not_false_eq_true, if_true] at h
    obtain ⟨⟨act, fs⟩, hent, h⟩ := bind_eq_ok_iff.mp h
    simp only [pure_bind, pure_eq_ok_iff] at h
    subst h
    exact ⟨⟨viewFields, hview⟩, act, fs, hent, and_eq _ _, hfields _ _⟩

/-- The fields of a decision are a sorted set. -/
theorem evaluate_sorted {r : Resource} {segs : List Segment} {op : Str} {facts : Dict Str Fact}
    {principal : Str} {at_ : Instant} {d : Decision}
    (h : evaluate r segs op facts principal at_ = .ok d) :
    ∃ xs, d.fields = sortedSet (· ≤ ·) xs := by
  have hset : ∀ (v : Tri) (fs : List Str), ∃ xs, (if v = .true then
      sortedSet (· ≤ ·) (fs.filter r.outputs) else []) = sortedSet (· ≤ ·) xs := by
    intro v fs
    split
    · exact ⟨_, rfl⟩
    · exact ⟨[], rfl⟩
  rw [evaluate] at h
  obtain ⟨⟨visible, viewFields⟩, -, h⟩ := bind_eq_ok_iff.mp h
  dsimp only at h
  split at h
  · obtain ⟨⟨act, fields⟩, -, h⟩ := bind_eq_ok_iff.mp h
    simp only [pure_bind, pure_eq_ok_iff] at h
    exact h ▸ hset visible fields
  · simp only [pure_bind, pure_eq_ok_iff] at h
    exact h ▸ hset visible viewFields

/-! ## More knowledge -/

/-- The second facts know all the first do: a value or a null is kept, what was not
obtained or absent may be anything. -/
def Extends (facts facts' : Dict Str Fact) : Prop :=
  ∀ dim f, facts.get? dim = some f → f ≠ .unobtained → facts'.get? dim = some f

theorem Atom.eval_below {a : Atom} {f f' : Option Fact} {principal : Str} {t t' : Tri}
    (hf : ∀ x, f = some x → x ≠ .unobtained → f' = some x) (h : a.eval f principal = .ok t)
    (h' : a.eval f' principal = .ok t') : Tri.Below t t' := by
  by_cases hall : a.kind = .all
  · simp only [Atom.eval, hall, if_true, Except.ok.injEq] at h h'
    rw [← h, ← h']
  · match f, hf, h with
    | none, _, h =>
        simp only [Atom.eval, hall, if_false, Except.ok.injEq] at h
        exact Or.inl h.symm
    | some .unobtained, _, h =>
        simp only [Atom.eval, hall, if_false, Except.ok.injEq] at h
        exact Or.inl h.symm
    | some .null, hf, h =>
        rw [hf .null rfl (by simp), h, Except.ok.injEq] at h'
        exact Or.inr h'
    | some (.value v c), hf, h =>
        rw [hf (.value v c) rfl (by simp), h, Except.ok.injEq] at h'
        exact Or.inr h'

/-- A segment keeps a definite value when the facts grow. -/
theorem Segment.eval_below {s : Segment} {facts facts' : Dict Str Fact} {principal : Str}
    {at_ : Instant} {t t' : Tri} (hext : Extends facts facts')
    (h : s.eval facts principal at_ = .ok t) (h' : s.eval facts' principal at_ = .ok t') :
    Tri.Below t t' := by
  rw [Segment.eval] at h h'
  split at h
  · next hact =>
      rw [if_pos hact, Except.ok.injEq] at h'
      rw [Except.ok.injEq] at h
      rw [← h, ← h']
  · next hact =>
      rw [if_neg hact] at h'
      have atom : ∀ p ∈ s.atoms.entries, ∀ x x', p.2.eval (facts.get? p.1) principal = .ok x →
          p.2.eval (facts'.get? p.1) principal = .ok x' → Tri.Below x x' :=
        fun p _ x x' hx hx' => Atom.eval_below (hext p.1) hx hx'
      cases t with
      | unknown => exact Tri.below_unknown _
      | true =>
          have htrue := (evalAtoms_eq_true_iff.mp h).2
          cases t' with
          | true => rfl
          | false =>
              obtain ⟨p, hp, hf⟩ := exists_of_evalAtoms_eq_false (by decide) h'
              exact absurd (atom p hp _ _ (htrue p hp) hf) (by decide)
          | unknown =>
              -- every atom is true in the second run as well
              have hall : evalAtoms facts' principal s.atoms.entries .true = .ok .true := by
                refine evalAtoms_eq_true_iff.mpr ⟨rfl, fun p hp => ?_⟩
                obtain ⟨x, hx, -⟩ := forall_of_evalAtoms_eq_unknown h' p hp
                rw [hx, (atom p hp _ _ (htrue p hp) hx).eq_of_ne (by decide)]
              rw [h'] at hall
              cases hall
      | false =>
          obtain ⟨p, hp, hf⟩ := exists_of_evalAtoms_eq_false (by decide) h
          cases t' with
          | false => rfl
          | true =>
              have hx := (evalAtoms_eq_true_iff.mp h').2 p hp
              exact absurd (atom p hp _ _ hf hx) (by decide)
          | unknown =>
              obtain ⟨x, hx, hne⟩ := forall_of_evalAtoms_eq_unknown h' p hp
              exact absurd ((atom p hp _ _ hf hx).eq_of_ne (by decide)) hne

/-- An entitlement keeps a definite value, and its true segments. -/
theorem Entitled.below {segs : List Segment} {op : Str} {facts facts' : Dict Str Fact}
    {principal : Str} {at_ : Instant} {res res' : Tri} {fields fields' : List Str}
    (hext : Extends facts facts') (h : Entitled segs op facts principal at_ res fields)
    (h' : Entitled segs op facts' principal at_ res' fields') :
    Tri.Below res res' ∧ ∀ f ∈ fields, f ∈ fields' := by
  have keep : ∀ s ∈ segs, s.operation = op → ∀ t, t ≠ .unknown →
      s.eval facts principal at_ = .ok t → s.eval facts' principal at_ = .ok t := by
    intro s hs hop t hne ht
    obtain ⟨t', ht'⟩ := h'.evaluated s hs hop
    rw [ht', (Segment.eval_below hext ht ht').eq_of_ne hne]
  constructor
  · cases res with
    | unknown => exact Tri.below_unknown _
    | true =>
        obtain ⟨s, hs, hop, ht⟩ := h.isTrue.mp rfl
        exact Or.inr (h'.isTrue.mpr ⟨s, hs, hop, keep s hs hop _ (by decide) ht⟩).symm
    | false =>
        have hall := h.isFalse.mp rfl
        exact Or.inr (h'.isFalse.mpr fun s hs hop =>
          keep s hs hop _ (by decide) (hall s hs hop)).symm
  · intro f hf
    obtain ⟨s, hs, hop, ht, hmem⟩ := (h.mem_fields f).mp hf
    exact (h'.mem_fields f).mpr ⟨s, hs, hop, keep s hs hop _ (by decide) ht, hmem⟩

/-- Visibility, permission and fields on more knowledge. -/
theorem evaluate_below {r : Resource} {segs : List Segment} {op : Str}
    {facts facts' : Dict Str Fact} {principal : Str} {at_ : Instant} {d d' : Decision}
    (hext : Extends facts facts') (h : evaluate r segs op facts principal at_ = .ok d)
    (h' : evaluate r segs op facts' principal at_ = .ok d') :
    Tri.Below d.visible d'.visible ∧ Tri.Below d.action d'.action ∧
      ∀ f ∈ d.fields, f ∈ d'.fields := by
  obtain ⟨⟨vf, hv⟩, act, fs, ha, hact, hfields⟩ := evaluate_spec h
  obtain ⟨⟨vf', hv'⟩, act', fs', ha', hact', hfields'⟩ := evaluate_spec h'
  have hvis := (entitled_spec hv).below hext (entitled_spec hv')
  have hperm := (entitled_spec ha).below hext (entitled_spec ha')
  refine ⟨hvis.1, by rw [hact, hact']; exact hvis.1.and hperm.1, fun f hf => ?_⟩
  obtain ⟨hvt, hmem, hout⟩ := (hfields f).mp hf
  refine (hfields' f).mpr ⟨?_, hperm.2 f hmem, hout⟩
  rw [hvis.1.eq_of_ne (by rw [hvt]; decide), hvt]

/-- **Partial knowledge is sound.** What is decided on partial facts stays decided
when the missing ones are obtained: visibility, permission, the fields read, and
the answers "allowed", "not found" and "denied". -/
theorem partial_sound {r : Resource} {segs : List Segment} {op : Str} {facts facts' : Dict Str Fact}
    {principal : Str} {at_ : Instant} {d d' : Decision} (hext : Extends facts facts')
    (h : evaluate r segs op facts principal at_ = .ok d)
    (h' : evaluate r segs op facts' principal at_ = .ok d') :
    (d.visible ≠ .unknown → d'.visible = d.visible) ∧
    (d.action ≠ .unknown → d'.action = d.action) ∧
    (∀ f ∈ d.fields, f ∈ d'.fields) ∧
    (d.error = none → d'.error = none) ∧
    (∀ e, d.error = some e → e.is_ (str "be") (str "NOT_FOUND") = true → d'.error = some e) ∧
    (∀ e, d.error = some e → e.is_ (str "be") (str "PERMISSION_DENIED") = true →
      d'.error ≠ none) := by
  obtain ⟨hvis, hact, hfields⟩ := evaluate_below hext h h'
  refine ⟨hvis.eq_of_ne, hact.eq_of_ne, hfields, fun hnone => ?_, fun e he hnf => ?_,
    fun e he hpd => ?_⟩
  · rw [Decision.error_eq_none_iff] at hnone ⊢
    exact ⟨by rw [hvis.eq_of_ne (by rw [hnone.1]; decide), hnone.1],
      by rw [hact.eq_of_ne (by rw [hnone.2]; decide), hnone.2]⟩
  · have hv := Decision.error_isNotFound he hnf
    have hv' : d'.visible = .false := by rw [hvis.eq_of_ne (by rw [hv]; decide), hv]
    rw [← he, Decision.error, Decision.error, if_pos hv, if_pos hv']
  · have ha := Decision.error_isDenied he hpd
    have ha' : d'.action = .false := by rw [hact.eq_of_ne (by rw [ha]; decide), ha]
    rw [Ne, Decision.error_eq_none_iff, ha']
    simp

end

/-! ## An evaluation -/

theorem sampleFields_nodup :
    ([(str "title", ({ cls := .ordinary } : Field))].map Prod.fst).Nodup := by decide

/-- A document with a department and an owner. -/
def sampleResource : Resource where
  type := str "doc"
  viewOperation := str "doc.view"
  dimensions := some ⟨[(str "dept", { kind := .valueSet, column := str "dept" }),
    (str "owner", { kind := .principal, column := str "owner" })], by decide⟩
  fields := ⟨[(str "title", { cls := .ordinary })], sampleFields_nodup⟩

/-- Viewing one's own documents of department `a`. -/
def sampleSegment : Segment where
  operation := str "doc.view"
  atoms := ⟨[(str "dept", { kind := .in_, values := [str "a"] }),
    (str "owner", { kind := .self_ })], by decide⟩
  readFields := [str "title"]
  validFrom := str "2026-01-01T00:00:00Z"

/-- Facts of a document, each a known value. -/
def sampleFacts (facts : List (Str × Str)) : Dict Str Fact :=
  Dict.ofPairs (facts.map fun p => (p.1, .value p.2 []))

/-- Another department decides against the document before its owner is known. -/
theorem partial_sound_sample : ∃ d d' : Decision, d.visible = .false ∧ d'.visible = d.visible :=
  let facts := sampleFacts [(str "dept", str "b")]
  let facts' := sampleFacts [(str "dept", str "b"), (str "owner", str "p")]
  have hext : Extends facts facts' := by
    intro dim f h _
    by_cases hd : dim = str "dept"
    · subst hd; exact h
    · change (if str "dept" = dim then _ else none) = _ at h
      rw [if_neg (Ne.symm hd)] at h
      cases h
  have h : @evaluate Interp.ascii sampleResource [sampleSegment] (str "doc.view") facts (str "p")
      70000000000000000 = .ok ⟨.false, .false, []⟩ := rfl
  have h' : @evaluate Interp.ascii sampleResource [sampleSegment] (str "doc.view") facts' (str "p")
      70000000000000000 = .ok ⟨.false, .false, []⟩ := rfl
  ⟨_, _, rfl, (@partial_sound Interp.ascii _ _ _ _ _ _ _ _ _ hext h h').1 (by decide)⟩

end BeSdk
