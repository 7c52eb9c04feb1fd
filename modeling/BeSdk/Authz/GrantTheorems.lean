/-
BeSdk.Authz.GrantTheorems — grants add up: what a decision owes to the list of
segments it is made from.

An evaluation depends on the segments it counts as a set: those of the view
operation and of the asked one that are valid at the instant (`evaluate_congr`). A
larger set never lowers an answer (`evaluate_mono`), with one exception: an added
interval whose comparison `Decimal` refuses makes the whole evaluation raise, and
then there is no answer at all. `Segment.Overflows` says which those are, and
`evaluate_raises` that nothing else raises.
-/
import BeSdk.Authz.Match

namespace BeSdk

section
variable [Interp]

/-! ## What raises -/

/-- The refusal of `Decimal`. -/
def tooLarge : Exc := .decimal .invalidOperation

/-- The numbers an interval compares. -/
def Atom.numbers (a : Atom) (value : Str) : List Str := value :: (a.lo.toList ++ a.hi.toList)

omit [Interp] in
theorem Atom.forall_numbers {P : Str → Prop} (a : Atom) (value : Str) :
    (∀ s ∈ a.numbers value, P s) ↔ P value ∧ (∀ s ∈ a.lo, P s) ∧ ∀ s ∈ a.hi, P s := by
  simp [Atom.numbers, or_imp, forall_and]

/-- The comparison meets a decimal text beyond `Decimal`'s limits. -/
def Atom.Overflows (a : Atom) (f : Option Fact) : Prop :=
  a.kind = .interval ∧ ∃ v, f = some (.value v a.currency) ∧
    (∀ s ∈ a.numbers v, decimalFullmatch s = true) ∧ ∃ s ∈ a.numbers v, ¬ NumberFits s

/-- A number's text is refused where it does not fit. -/
theorem toDecimal_raises {s : Str} (hs : decimalFullmatch s = true) :
    Raises tooLarge (toDecimal s) (¬ NumberFits s) := by
  obtain ⟨b, hb⟩ := readDecimal_of_fullmatch hs
  have hfits : NumberFits s ↔ b.fits = true := by simp [NumberFits, hb]
  rw [hfits, toDecimal, decimalOf_of_fullmatch hs hb]
  cases b.fits with
  | true => exact .inr ⟨by simp, _, rfl⟩
  | false => exact .inl ⟨by simp, rfl⟩

/-- The same of a bound that may be absent. -/
theorem mapM_toDecimal_raises {bound : Option Str} (hs : ∀ s ∈ bound, decimalFullmatch s = true) :
    Raises tooLarge (bound.mapM toDecimal) (∃ s ∈ bound, ¬ NumberFits s) := by
  cases bound with
  | none => exact (Raises.of_ok rfl).congr (by simp)
  | some s =>
    have hbound := (toDecimal_raises (hs s rfl)).bind fun x _ => Raises.of_ok (a := some x) rfl
    exact hbound.congr (by simp)

/-- An interval with a text that is no decimal is not decided. -/
theorem interval_unmatched {a : Atom} {value : Str}
    (h : ¬ ∀ s ∈ a.numbers value, decimalFullmatch s = true) :
    a.interval value a.currency = .ok .unknown := by
  have hany : ([some value, a.lo, a.hi].any fun v => v.any fun s => !decimalFullmatch s) =
    true := by
    by_contra hnone
    refine h ((a.forall_numbers value).mpr ?_)
    simpa [Option.any_eq_false] using hnone
  rw [Atom.interval, if_neg (by simp), if_pos hany]

/-- An interval raises where its comparison overflows, and only there. -/
theorem interval_raises (a : Atom) (value currency : Str) :
    Raises tooLarge (a.interval value currency)
    (currency = a.currency ∧ (∀ s ∈ a.numbers value, decimalFullmatch s = true) ∧
      ∃ s ∈ a.numbers value, ¬ NumberFits s) := by
  by_cases hcur : currency = a.currency
  case neg => exact (Raises.of_ok (if_pos hcur)).congr (by simp [hcur])
  subst hcur
  by_cases hall : ∀ s ∈ a.numbers value, decimalFullmatch s = true
  case neg =>
    exact (Raises.of_ok (interval_unmatched hall)).congr (by simp [hall])
  have hbounds := (a.forall_numbers value).mp hall
  have hlohi : ∀ s, s ∈ a.lo ∨ s ∈ a.hi → decimalFullmatch s = true := fun s hs =>
    hs.elim (hbounds.2.1 s) (hbounds.2.2 s)
  have hfits : (∃ s ∈ a.numbers value, ¬ NumberFits s) ↔
      ¬ NumberFits value ∨ (∃ s ∈ a.lo, ¬ NumberFits s) ∨ ∃ s ∈ a.hi, ¬ NumberFits s := by
    simp [Atom.numbers, or_and_right, exists_or]
  have hcompared : Raises tooLarge (a.interval value a.currency)
      (¬ NumberFits value ∨ (∃ s ∈ a.lo, ¬ NumberFits s) ∨ (∃ s ∈ a.hi, ¬ NumberFits s) ∨
        False) := by
    rw [interval_eq hlohi hbounds.1]
    refine (toDecimal_raises hbounds.1).bind fun x hx =>
      (mapM_toDecimal_raises hbounds.2.1).bind fun lo hlo =>
      (mapM_toDecimal_raises hbounds.2.2).bind fun hi hhi => ?_
    obtain ⟨b, -, rfl⟩ := toDecimal_eq_ok hbounds.1 hx
    obtain ⟨below, hbelow, -⟩ := excluded_spec (fun d => belowLo_finite b d a.loClosed)
      hbounds.2.1 hlo
    obtain ⟨above, habove, -⟩ := excluded_spec (fun d => aboveHi_finite b d a.hiClosed)
      hbounds.2.2 hhi
    rw [hbelow, habove]
    cases below with
    | true => exact .of_ok rfl
    | false => cases above <;> exact .of_ok rfl
  exact hcompared.congr (by rw [hfits, or_false]; exact ⟨fun h => ⟨rfl, hall, h⟩, fun h => h.2.2⟩)

theorem Atom.eval_raises (a : Atom) (f : Option Fact) (principal : Str) :
    Raises tooLarge (a.eval f principal) (a.Overflows f) := by
  unfold Atom.eval Atom.Overflows
  by_cases hall : a.kind = .all
  · rw [if_pos hall]
    exact (Raises.of_ok rfl).congr (by simp [hall])
  rw [if_neg hall]
  match f with
  | none => exact (Raises.of_ok rfl).congr (by simp)
  | some .unobtained => exact (Raises.of_ok rfl).congr (by simp)
  | some .null => exact (Raises.of_ok rfl).congr (by simp)
  | some (.value v currency) =>
    dsimp only
    unfold Atom.onValue
    cases hk : a.kind with
    | all => exact absurd hk hall
    | interval =>
      refine (interval_raises a v currency).congr ⟨fun h => ⟨rfl, v, by rw [h.1], h.2⟩, ?_⟩
      intro h
      obtain ⟨-, v', heq, hnumbers⟩ := h
      obtain ⟨rfl, rfl⟩ := Fact.value.inj (Option.some.inj heq)
      exact ⟨rfl, hnumbers⟩
    | tree =>
      dsimp only
      split <;> exact (Raises.of_ok rfl).congr (by simp)
    | _ => exact (Raises.of_ok rfl).congr (by simp)

/-- Some atom overflows before one is false. -/
def atomsOverflow (facts : Dict Str Fact) (principal : Str) (l : List (Str × Atom)) : Prop :=
  ∃ before p after, l = before ++ p :: after ∧
    (∀ q ∈ before, q.2.eval (facts.get? q.1) principal ≠ .ok .false) ∧
    p.2.Overflows (facts.get? p.1)

theorem atomsOverflow_cons {facts : Dict Str Fact} {principal dim : Str} {a : Atom}
    {l : List (Str × Atom)} : atomsOverflow facts principal ((dim, a) :: l) ↔
    a.Overflows (facts.get? dim) ∨
      (a.eval (facts.get? dim) principal ≠ .ok .false ∧ atomsOverflow facts principal l) := by
  constructor
  · intro h
    obtain ⟨before, p, after, heq, hbefore, hp⟩ := h
    cases before with
    | nil =>
      obtain ⟨rfl, rfl⟩ := List.cons.inj heq
      exact .inl hp
    | cons q before =>
      obtain ⟨rfl, rfl⟩ := List.cons.inj heq
      rw [List.forall_mem_cons] at hbefore
      exact .inr ⟨hbefore.1, before, p, after, rfl, hbefore.2, hp⟩
  · intro h
    rcases h with hp | ⟨hne, before, p, after, rfl, hbefore, hp⟩
    · exact ⟨[], (dim, a), l, rfl, by simp, hp⟩
    · exact ⟨(dim, a) :: before, p, after, rfl, List.forall_mem_cons.mpr ⟨hne, hbefore⟩, hp⟩

theorem evalAtoms_raises {facts : Dict Str Fact} {principal : Str} (l : List (Str × Atom))
    (out : Tri) : Raises tooLarge (evalAtoms facts principal l out)
    (atomsOverflow facts principal l) := by
  induction l generalizing out with
  | nil => exact (Raises.of_ok rfl).congr (by simp [atomsOverflow])
  | cons p l ih =>
    obtain ⟨dim, a⟩ := p
    rw [evalAtoms]
    have hatom := a.eval_raises (facts.get? dim) principal
    refine (hatom.bind (Q := a.eval (facts.get? dim) principal ≠ .ok .false ∧
      atomsOverflow facts principal l) fun t ht => ?_).congr atomsOverflow_cons.symm
    cases t with
    | false => exact (Raises.of_ok rfl).congr (by simp [ht])
    | unknown => exact (ih .unknown).congr (by simp [ht])
    | true => exact (ih out).congr (by simp [ht])

/-- The segment raises: it is valid, and an interval overflows before an atom is false. -/
def Segment.Overflows (s : Segment) (facts : Dict Str Fact) (principal : Str)
    (at_ : Instant) : Prop :=
  s.activeAt at_ = true ∧ atomsOverflow facts principal s.atoms.entries

theorem Segment.eval_raises (s : Segment) (facts : Dict Str Fact) (principal : Str)
    (at_ : Instant) : Raises tooLarge (s.eval facts principal at_)
    (s.Overflows facts principal at_) := by
  unfold Segment.eval Segment.Overflows
  cases s.activeAt at_ with
  | false => exact (Raises.of_ok rfl).congr (by simp)
  | true => exact (evalAtoms_raises s.atoms.entries .true).congr (by simp)

theorem entitledGo_raises {op : Str} {facts : Dict Str Fact} {principal : Str} {at_ : Instant}
    (segs : List Segment) (res : Tri) (fields : List Str) :
    Raises tooLarge (entitledGo op facts principal at_ segs res fields)
      (∃ s ∈ segs, s.operation = op ∧ s.Overflows facts principal at_) := by
  induction segs generalizing res fields with
  | nil => exact (Raises.of_ok rfl).congr (by simp)
  | cons s segs ih =>
    rw [entitledGo]
    by_cases hop : s.operation = op
    case neg =>
      rw [if_pos hop]
      exact (ih res fields).congr (by simp [hop])
    rw [if_neg (not_not.mpr hop)]
    have hsegment := s.eval_raises facts principal at_
    refine (hsegment.bind (Q := ∃ s ∈ segs, s.operation = op ∧
      s.Overflows facts principal at_) fun t _ => ?_).congr
      (by simp [hop])
    cases t with
    | false => exact ih _ _
    | unknown => exact ih _ _
    | true => exact ih _ _

/-! ## What counts -/

/-- A segment of one of the two operations a decision is made of. -/
def Segment.Asked (s : Segment) (r : Resource) (op : Str) : Prop :=
  s.operation = r.viewOperation ∨ s.operation = op

theorem evaluate_raises (r : Resource) (segs : List Segment) (op : Str)
    (facts : Dict Str Fact) (principal : Str) (at_ : Instant) :
    Raises tooLarge (evaluate r segs op facts principal at_)
      (∃ s ∈ segs, s.Asked r op ∧ s.Overflows facts principal at_) := by
  have hasked : (∃ s ∈ segs, s.Asked r op ∧ s.Overflows facts principal at_) ↔
      (∃ s ∈ segs, s.operation = r.viewOperation ∧ s.Overflows facts principal at_) ∨
        ∃ s ∈ segs, s.operation = op ∧ s.Overflows facts principal at_ := by
    simp only [Segment.Asked, or_and_right, and_or_left, exists_or]
  rw [hasked, evaluate]
  by_cases hop : op = r.viewOperation
  · subst hop
    simp only [ne_eq, not_true_eq_false, if_false, or_self]
    refine ((entitledGo_raises segs .false []).bind fun v _ => ?_).congr (iff_of_eq (or_false _))
    exact .of_ok rfl
  · simp only [ne_eq, hop, not_false_eq_true, if_true]
    refine (entitledGo_raises segs .false []).bind (Q := ∃ s ∈ segs, s.operation = op ∧
      s.Overflows facts principal at_) fun v _ => ?_
    have hact : Raises tooLarge (entitled segs op facts principal at_)
        (∃ s ∈ segs, s.operation = op ∧ s.Overflows facts principal at_) :=
        entitledGo_raises segs .false []
    refine Raises.congr (P := (∃ s ∈ segs, s.operation = op ∧
      s.Overflows facts principal at_) ∨ False) ?_ (by simp)
    exact hact.bind fun v' _ => .of_ok rfl

/-! ## The segments as a set -/

/-- A segment of one of the two operations that is valid at the instant. -/
def Segment.Counts (s : Segment) (r : Resource) (op : Str) (at_ : Instant) : Prop :=
  s.Asked r op ∧ s.activeAt at_ = true

/-- Every segment of the first list that counts is in the second. -/
def Within (r : Resource) (op : Str) (at_ : Instant) (segs more : List Segment) : Prop :=
  ∀ s ∈ segs, s.Counts r op at_ → s ∈ more

theorem Segment.Overflows.counts {s : Segment} {r : Resource} {op : Str}
    {facts : Dict Str Fact} {principal : Str} {at_ : Instant}
    (h : s.Overflows facts principal at_) (ha : s.Asked r op) : s.Counts r op at_ := ⟨ha, h.1⟩

theorem Segment.eval_inactive {s : Segment} {at_ : Instant} (h : s.activeAt at_ = false)
    (facts : Dict Str Fact) (principal : Str) : s.eval facts principal at_ = .ok .false := by
  simp [Segment.eval, h]

section
variable {r : Resource} {segs more : List Segment} {op key : Str} {facts : Dict Str Fact}
    {principal : Str}
  {at_ : Instant} {res res' : Tri} {fields fields' : List Str}

/-- An entitlement rises with its segments. -/
theorem Entitled.mono (hkey : key = r.viewOperation ∨ key = op) (hsub : Within r op at_ segs more)
    (h : Entitled segs key facts principal at_ res fields)
    (h' : Entitled more key facts principal at_ res' fields') :
    res ≤ res' ∧ ∀ f ∈ fields, f ∈ fields' := by
  have hasked : ∀ s : Segment, s.operation = key → s.Asked r op := by
    intro s hs
    rcases hkey with rfl | rfl
    · exact .inl hs
    · exact .inr hs
  -- a segment that is not false is valid, so it counts
  have hkept : ∀ s ∈ segs, s.operation = key → s.eval facts principal at_ ≠ .ok .false →
    s ∈ more := by
    intro s hs hop hne
    refine hsub s hs ⟨hasked s hop, ?_⟩
    by_contra hinactive
    exact hne (Segment.eval_inactive (by simpa using hinactive) facts principal)
  refine ⟨(Tri.le_iff res res').mpr ⟨?_, ?_⟩, ?_⟩
  · intro htrue
    obtain ⟨s, hs, hop, heval⟩ := h.isTrue.mp htrue
    exact h'.isTrue.mpr ⟨s, hkept s hs hop (by simp [heval]), hop, heval⟩
  · intro hfalse
    refine h.isFalse.mpr fun s hs hop => ?_
    by_contra hne
    exact hne (h'.isFalse.mp hfalse s (hkept s hs hop hne) hop)
  · intro f hf
    obtain ⟨s, hs, hop, heval, hread⟩ := (h.mem_fields f).mp hf
    exact (h'.mem_fields f).mpr ⟨s, hkept s hs hop (by simp [heval]), hop, heval, hread⟩

/-- A decision is at most another: in visibility, in permission, and in what it reads. -/
structure Decision.AtMost (d d' : Decision) : Prop where
  visible : d.visible ≤ d'.visible
  action : d.action ≤ d'.action
  fields : ∀ f ∈ d.fields, f ∈ d'.fields

/-- **More segments decide no less.** -/
theorem evaluate_mono {d d' : Decision} (hsub : Within r op at_ segs more)
    (h : evaluate r segs op facts principal at_ = .ok d)
    (h' : evaluate r more op facts principal at_ = .ok d') :
    d.AtMost d' := by
  obtain ⟨⟨vf, hv⟩, act, fs, ha, hact, hfields⟩ := evaluate_spec h
  obtain ⟨⟨vf', hv'⟩, act', fs', ha', hact', hfields'⟩ := evaluate_spec h'
  obtain ⟨hvisible, -⟩ := (entitled_spec hv).mono (.inl rfl) hsub (entitled_spec hv')
  obtain ⟨hpermitted, hreads⟩ := (entitled_spec ha).mono (.inr rfl) hsub (entitled_spec ha')
  refine ⟨hvisible, ?_, ?_⟩
  · rw [hact, hact']
    exact Tri.and_le_and hvisible hpermitted
  · intro f hf
    obtain ⟨hseen, hread, hout⟩ := (hfields f).mp hf
    exact (hfields' f).mpr ⟨((Tri.le_iff _ _).mp hvisible).1 hseen, hreads f hread, hout⟩

omit [Interp] in
theorem Decision.AtMost.antisymm {d d' : Decision} (h : d.AtMost d') (h' : d'.AtMost d)
    (hsorted : ∃ xs, d.fields = sortedSet (· ≤ ·) xs)
    (hsorted' : ∃ xs, d'.fields = sortedSet (· ≤ ·) xs) :
    d = d' := by
  obtain ⟨visible, action, fields⟩ := d
  obtain ⟨visible', action', fields'⟩ := d'
  obtain ⟨xs, rfl⟩ := hsorted
  obtain ⟨xs', rfl⟩ := hsorted'
  have hmem : ∀ f, f ∈ xs ↔ f ∈ xs' := by
    intro f
    have hle := h.fields f
    have hge := h'.fields f
    simp only [mem_sortedSet] at hle hge
    exact ⟨hle, hge⟩
  have hvisible : visible = visible' := Tri.le_antisymm h.visible h'.visible
  have haction : action = action' := Tri.le_antisymm h.action h'.action
  rw [hvisible, haction, sortedSet_congr _ hmem]

theorem Within.overflows (hsub : Within r op at_ segs more)
    (h : ∃ s ∈ segs, s.Asked r op ∧ s.Overflows facts principal at_) :
    ∃ s ∈ more, s.Asked r op ∧ s.Overflows facts principal at_ := by
  obtain ⟨s, hs, hasked, hover⟩ := h
  exact ⟨s, hsub s hs (hover.counts hasked), hasked, hover⟩

/-- **The segments that count decide**, as a set: their order and how often each is
there make no difference, and neither do the others. -/
theorem evaluate_congr (hsub : Within r op at_ segs more) (hsup : Within r op at_ more segs) :
    evaluate r more op facts principal at_ = evaluate r segs op facts principal at_ := by
  rcases evaluate_raises r segs op facts principal at_ with ⟨hover, he⟩ | ⟨hnone, d, hd⟩
  · rw [he]
    exact (evaluate_raises r more op facts principal at_).error_iff.mpr ⟨rfl, hsub.overflows hover⟩
  · obtain ⟨d', hd'⟩ := (evaluate_raises r more op facts principal at_).ok_iff.mpr fun h =>
      hnone (hsup.overflows h)
    have heq := (evaluate_mono hsub hd hd').antisymm (evaluate_mono hsup hd' hd)
      (evaluate_sorted hd) (evaluate_sorted hd')
    rw [hd, hd', heq]

/-! ## Adding segments -/

/-- What an evaluation came to is not lowered in another one: where the first one has
an answer, so has the second, and it is no less. -/
def NotLowered (x y : Except Exc Decision) : Prop := ∀ d, x = .ok d → ∃ d', y = .ok d' ∧ d.AtMost d'

/-- Adding lowers nothing exactly where nothing is added that raises, unless something
that raises was there. -/
theorem notLowered_iff (hsub : ∀ s ∈ segs, s ∈ more) :
    NotLowered (evaluate r segs op facts principal at_) (evaluate r more op facts principal at_) ↔
      ((∃ s ∈ segs, s.Asked r op ∧ s.Overflows facts principal at_) ∨
        ∀ s ∈ more, s.Asked r op → ¬ s.Overflows facts principal at_) := by
  have hmore : (∀ s ∈ more, s.Asked r op → ¬ s.Overflows facts principal at_) ↔
      ∃ d', evaluate r more op facts principal at_ = .ok d' := by
    rw [(evaluate_raises r more op facts principal at_).ok_iff]
    push Not
    exact Iff.rfl
  rw [hmore]
  rcases evaluate_raises r segs op facts principal at_ with ⟨hover, he⟩ | ⟨hnone, d, hd⟩
  · simp [NotLowered, he, hover]
  · simp only [NotLowered, hd, Except.ok.injEq, forall_eq', hnone, false_or]
    constructor
    · intro h
      obtain ⟨d', hd', -⟩ := h
      exact ⟨d', hd'⟩
    · intro h
      obtain ⟨d', hd'⟩ := h
      exact ⟨d', hd', evaluate_mono (fun s hs _ => hsub s hs) hd hd'⟩

/-- **Grants add up.** The order and the repetition of segments make no difference, nor
does a segment that is not valid at the instant or is of a third operation; and adding
segments lowers nothing exactly where none of them raises. -/
theorem grants_add_up (r : Resource) (segs : List Segment) (op : Str) (facts : Dict Str Fact)
    (principal : Str) (at_ : Instant) :
    (∀ segs', (∀ s, s ∈ segs' ↔ s ∈ segs) →
      evaluate r segs' op facts principal at_ = evaluate r segs op facts principal at_) ∧
    (∀ more, (∀ s ∈ segs, s ∈ more) →
      (∀ s ∈ more, s ∉ segs → s.activeAt at_ = false ∨
        (s.operation ≠ op ∧ s.operation ≠ r.viewOperation)) →
      evaluate r more op facts principal at_ = evaluate r segs op facts principal at_) ∧
    (∀ more, (∀ s ∈ segs, s ∈ more) →
      (NotLowered (evaluate r segs op facts principal at_)
        (evaluate r more op facts principal at_) ↔
        ((∃ s ∈ segs, s.Asked r op ∧ s.Overflows facts principal at_) ∨
          ∀ s ∈ more, s.Asked r op → ¬ s.Overflows facts principal at_))) := by
  refine ⟨fun segs' hmem => ?_, fun more hsub hidle => ?_, fun more hsub => notLowered_iff hsub⟩
  · exact evaluate_congr (fun s hs _ => (hmem s).mpr hs) fun s hs _ => (hmem s).mp hs
  · refine evaluate_congr (fun s hs _ => hsub s hs) fun s hs hcounts => ?_
    by_contra hnew
    rcases hidle s hs hnew with hinactive | ⟨hop, hview⟩
    · rw [hcounts.2] at hinactive
      cases hinactive
    · exact hcounts.1.elim hview hop

end

end

/-! ## Orders by amount -/

/-- An order with one amount. -/
def orderResource : Resource where
  type := str "order"
  viewOperation := str "order.view"
  dimensions :=
    some ⟨[(str "total",
      { kind := .amount, column := str "total", currencyColumn := str "currency" })],
    by decide⟩
  fields := ⟨[(str "total", { cls := .ordinary })], by decide⟩

def orderDefinitions : Definitions where
  component := str "test/orders"
  resources := [orderResource]
  operations :=
    [{ key := str "order.view", resourceType := str "order",
       purpose := str "read", riskClass := str "low" }]

/-- Viewing the orders above an amount. -/
def orderSegment (lo : String) : Segment where
  operation := str "order.view"
  atoms :=
    ⟨[(str "total", { kind := .interval, currency := str "EUR", lo := some (str lo),
                      loClosed := some true })], List.nodup_singleton _⟩
  readFields := [str "total"]
  validFrom := str "2026-01-01T00:00:00Z"

/-- An order over twenty euros. -/
def orderFacts : Dict Str Fact := ⟨[(str "total", .value (str "20") (str "EUR"))], by decide⟩

/-- A moment of 2026. -/
def orderTime : Instant := 70000000000000000

theorem grants_add_up_twice :
    @evaluate Interp.ascii orderResource [orderSegment "10", orderSegment "10"]
      (str "order.view") orderFacts (str "p") orderTime = .ok ⟨.true, .true, [str "total"]⟩ := by
  have hsame :=
    (@grants_add_up Interp.ascii orderResource [orderSegment "10"] (str
      "order.view") orderFacts (str "p")
    orderTime).1
  rw [hsame [orderSegment "10", orderSegment "10"] (by simp)]
  rfl

/-- An order that one segment lets see cannot be decided any more once a second one is
added, which `Segment.check` accepts: its bound passes for a decimal, and `Decimal`
refuses it. -/
theorem grant_lost : ∃ defs i r segs s facts d, Definitions.validate defs = .ok i ∧
    r ∈ defs.resources ∧ (∀ t ∈ segs ++ [s], t.check r = .ok ()) ∧
    @evaluate Interp.ascii r segs (str "order.view") facts (str "p") orderTime = .ok d ∧
    d.action = .true ∧ @evaluate Interp.ascii r (segs ++ [s]) (str "order.view") facts
    (str "p") orderTime = .error tooLarge := by
  refine ⟨orderDefinitions, _, orderResource, [orderSegment "10"],
    orderSegment "1e1000000000000000000", orderFacts, ⟨.true, .true, [str "total"]⟩, rfl,
    List.mem_singleton_self _, ?_, rfl, rfl, rfl⟩
  intro t ht
  simp only [List.cons_append, List.nil_append, List.mem_cons, List.not_mem_nil, or_false] at ht
  rcases ht with rfl | rfl <;> rfl

end BeSdk
