/-
BeSdk.Authz.Match — what a segment says of a row, and that evaluation decides it.

`Segment.Matches` is the meaning of a segment without an algorithm: it is active,
and every atom holds of the column its dimension names. It takes one flag, whether
an organization path that is the empty text counts as a path: the evaluator answers
false on it ("an empty path is not the root"), a comparison in SQL does not know
the difference. Everything else has one reading.

`FactOf` is the fact a column gives: NULL a null, a text its value, a number any
decimal text of its value with the text of the currency column. On such facts an
evaluation that returns says exactly whether the segment matches
(`Segment.eval_eq_true_iff`), and it returns whenever the numbers involved are not
too large for the constructor (`exists_segment_eval`).
-/
import BeSdk.Authz.SegmentTheorems
import BeSdk.Py.DecimalTheorems
import BeSdk.Sql.Pred

namespace BeSdk

open Sql (Value)

/-- A row of a table, by column name. -/
abbrev Row := Str → Value

/-! ## Meaning -/

/-- Whether a bound admits a number from below (`lo`) or above. -/
def aboveBound (bound : Option Str) (closed : Option Bool) (x : ℚ) : Prop :=
  ∀ s ∈ bound, ∀ b, readDecimal s = some b →
    if closed.getD false then b.value ≤ x else b.value < x

def belowBound (bound : Option Str) (closed : Option Bool) (x : ℚ) : Prop :=
  ∀ s ∈ bound, ∀ b, readDecimal s = some b →
    if closed.getD false then x ≤ b.value else x < b.value

/-- What an atom says of a row. -/
def Atom.Holds (emptyPath : Bool) (a : Atom) (d : Dimension) (row : Row) (principal : Str) : Prop :=
  match a.kind with
  | .all => True
  | .in_ => ∃ v ∈ a.values, row d.column = .text v
  | .self_ => row d.column = .text principal
  | .tree => ∃ v, row d.column = .text v ∧ (v = [] → emptyPath = true) ∧
      ∃ i ∈ a.items, i.holds v = true
  | .interval => ∃ x, row d.column = .numeric (.finite x) ∧
      row d.currencyColumn = .text a.currency ∧ aboveBound a.lo a.loClosed x.value ∧
      belowBound a.hi a.hiClosed x.value
  | .other _ => False

/-- What a segment says of a row. -/
def Segment.Matches (emptyPath : Bool) (s : Segment) (r : Resource) (row : Row) (principal : Str)
    (at_ : Instant) : Prop :=
  s.activeAt at_ = true ∧ ∀ dim a d, s.atoms.get? dim = some a → r.dims.get? dim = some d →
    a.Holds emptyPath d row principal

/-- What holds without the estimate holds with it. -/
theorem Atom.Holds.mono {a : Atom} {d : Dimension} {row : Row} {principal : Str}
    (h : a.Holds false d row principal) : a.Holds true d row principal := by
  unfold Atom.Holds at h ⊢
  split at h <;> first | exact h | skip
  obtain ⟨v, hv, hne, hi⟩ := h
  exact ⟨v, hv, fun _ => rfl, hi⟩

/-- A match that does not count empty paths is a match. -/
theorem Segment.Matches.mono {s : Segment} {r : Resource} {row : Row} {principal : Str}
    {at_ : Instant} (h : s.Matches false r row principal at_) :
    s.Matches true r row principal at_ :=
  ⟨h.1, fun dim a d ha hd => (h.2 dim a d ha hd).mono⟩

/-! ## Facts of a row -/

/-- The fact a column gives. -/
inductive FactOf (row : Row) (d : Dimension) : Fact → Prop
  | null : row d.column = .null → FactOf row d .null
  | text (s : Str) : d.kind ≠ .amount → row d.column = .text s → FactOf row d (.value s [])
  | amount (x x' : Dec) (s currency : Str) : d.kind = .amount →
      row d.column = .numeric (.finite x) → row d.currencyColumn = .text currency →
      decimalFullmatch s = true → readDecimal s = some x' →
      x'.value = x.value → FactOf row d (.value s currency)

/-- The facts are the row's columns. -/
def FactsOf (r : Resource) (row : Row) (facts : Dict Str Fact) : Prop :=
  ∀ dim d, r.dims.get? dim = some d → ∃ f, facts.get? dim = some f ∧ FactOf row d f

/-- The bounds of an interval, and no membership condition on an amount. -/
def Atom.Proper (a : Atom) (d : Dimension) : Prop :=
  (a.kind = .in_ → d.kind ≠ .amount) ∧
  (a.kind = .interval → ∀ s, s ∈ a.lo ∨ s ∈ a.hi → decimalFullmatch s = true)

/-- A segment whose interval bounds are decimal texts, without `in` on an amount. -/
def Segment.Proper (s : Segment) (r : Resource) : Prop :=
  ∀ dim a d, s.atoms.get? dim = some a → r.dims.get? dim = some d → a.Proper d

/-! ## What a check says -/

/-- Checked atoms are of declared dimensions and not bad. -/
theorem checkAtoms_eq_ok {dims : Dict Str Dimension} : ∀ {l : List (Str × Atom)},
    checkAtoms dims l = .ok () → ∀ p ∈ l, ∃ d, dims.get? p.1 = some d ∧ p.2.bad d = some false
  | [], _ => by simp
  | (dim, a) :: rest, h => by
      rw [checkAtoms] at h
      obtain ⟨⟨⟩, ha, hrest⟩ := bind_eq_ok_iff.mp h
      rw [List.forall_mem_cons]
      refine ⟨?_, checkAtoms_eq_ok hrest⟩
      rw [checkAtom] at ha
      split at ha
      · cases ha
      next d hd =>
        split at ha
        · cases ha
        · cases ha
        next hbad => exact ⟨d, hd, hbad⟩

/-- Every atom of a checked segment is on a declared dimension and fits it. -/
theorem Segment.atom_of_check {s : Segment} {r : Resource} (h : s.check r = .ok ()) {dim : Str}
    {a : Atom} (ha : s.atoms.get? dim = some a) :
    ∃ d, r.dims.get? dim = some d ∧ a.bad d = some false := by
  rw [Segment.check] at h
  split at h
  · cases h
  · obtain ⟨⟨⟩, hatoms, -⟩ := bind_eq_ok_iff.mp h
    exact checkAtoms_eq_ok hatoms (dim, a) (Dict.get?_eq_some_iff.mp ha)

/-! ## Evaluation -/

theorem belowLo_finite (x b : Dec) (closed : Option Bool) :
    belowLo (.finite x) (.finite b) closed =
      .ok (!decide (if closed.getD false then b.value ≤ x.value else b.value < x.value)) := by
  simp only [belowLo, compared, Decimal.lt, Decimal.eq, bind, Except.bind, pure, Except.pure]
  rcases lt_trichotomy x.value b.value with h | h | h
  · simp [(Dec.lt_iff x b).mpr h, h.not_gt, h.not_ge]
  · have hlt : x.lt b = false := Bool.eq_false_iff.mpr fun hl => h.not_lt ((Dec.lt_iff x b).mp hl)
    simp [hlt, (Dec.eq_iff x b).mpr h, h]
  · have hlt : x.lt b = false := Bool.eq_false_iff.mpr fun hl => h.not_gt ((Dec.lt_iff x b).mp hl)
    have heq : x.eq b = false := Bool.eq_false_iff.mpr fun he => h.ne' ((Dec.eq_iff x b).mp he)
    simp [hlt, heq, h, h.le]

theorem aboveHi_finite (x b : Dec) (closed : Option Bool) :
    aboveHi (.finite x) (.finite b) closed =
      .ok (!decide (if closed.getD false then x.value ≤ b.value else x.value < b.value)) := by
  simp only [aboveHi, compared, Decimal.lt, Decimal.eq, bind, Except.bind, pure, Except.pure]
  rcases lt_trichotomy b.value x.value with h | h | h
  · simp [(Dec.lt_iff b x).mpr h, h.not_gt, h.not_ge]
  · have hlt : b.lt x = false := Bool.eq_false_iff.mpr fun hl => h.not_lt ((Dec.lt_iff b x).mp hl)
    simp [hlt, (Dec.eq_iff x b).mpr h.symm, h]
  · have hlt : b.lt x = false := Bool.eq_false_iff.mpr fun hl => h.not_gt ((Dec.lt_iff b x).mp hl)
    have heq : x.eq b = false := Bool.eq_false_iff.mpr fun he => h.ne ((Dec.eq_iff x b).mp he)
    simp [hlt, heq, h, h.le]

section
variable [Interp]

/-- A number's text is read as the number, unless it is too large. -/
theorem toDecimal_eq_ok {s : Str} (hs : decimalFullmatch s = true) {v : Decimal}
    (h : toDecimal s = .ok v) : ∃ b, readDecimal s = some b ∧ v = .finite b := by
  obtain ⟨b, hb⟩ := readDecimal_of_fullmatch hs
  rw [toDecimal, decimalOf_of_fullmatch hs hb] at h
  split at h
  · next hfit =>
      split at hfit
      · cases hfit
        exact ⟨b, hb, (Except.ok.inj h).symm⟩
      · cases hfit
  · cases h

theorem toDecimal_of_fits {s : Str} (hs : decimalFullmatch s = true) {b : Dec}
    (hb : readDecimal s = some b) (hfit : b.fits = true) : toDecimal s = .ok (.finite b) := by
  rw [toDecimal, decimalOf_of_fullmatch hs hb, if_pos hfit]

/-- Whether a present bound excludes a number, when the bound could be read. -/
theorem excluded_spec {excludes : Decimal → Option Bool → Except Exc Bool} {closed : Option Bool}
    {admits : Dec → Prop} [DecidablePred admits]
    (hex : ∀ b, excludes (.finite b) closed = .ok (!decide (admits b))) {bound : Option Str}
    {v : Option Decimal} (hs : ∀ s ∈ bound, decimalFullmatch s = true)
    (h : bound.mapM toDecimal = .ok v) :
    ∃ out, excluded excludes v closed = .ok out ∧
      (out = false ↔ ∀ s ∈ bound, ∀ b, readDecimal s = some b → admits b) := by
  cases bound with
  | none =>
      obtain rfl : none = v := Except.ok.inj h
      exact ⟨false, rfl, by simp⟩
  | some s =>
      obtain ⟨w, hw, hv⟩ := bind_eq_ok_iff.mp h
      obtain rfl : some w = v := Except.ok.inj hv
      obtain ⟨b, hb, rfl⟩ := toDecimal_eq_ok (hs s rfl) hw
      exact ⟨_, hex b, by simp [hb]⟩

omit [Interp] in
theorem any_not_fullmatch {v : Option Str} (h : ∀ s ∈ v, decimalFullmatch s = true) :
    v.any (fun s => !decimalFullmatch s) = false := by
  cases v with
  | none => rfl
  | some s => simp [h s rfl]

/-- An interval of the right currency, with every number a decimal text. -/
theorem interval_eq {a : Atom} {value : Str}
    (hbounds : ∀ s, s ∈ a.lo ∨ s ∈ a.hi → decimalFullmatch s = true)
    (hvalue : decimalFullmatch value = true) :
    a.interval value a.currency = do
      let amount ← toDecimal value
      let lo ← a.lo.mapM toDecimal
      let hi ← a.hi.mapM toDecimal
      if ← excluded (belowLo amount) lo a.loClosed then return .false
      if ← excluded (aboveHi amount) hi a.hiClosed then return .false
      return .true := by
  have hmatch : ([some value, a.lo, a.hi].any fun v => v.any fun s => !decimalFullmatch s) =
    false := by
    simp only [List.any_cons, List.any_nil, Option.any_some, hvalue, Bool.not_true, Bool.or_false,
      any_not_fullmatch fun s hs => hbounds s (Or.inl hs),
      any_not_fullmatch fun s hs => hbounds s (Or.inr hs)]
  rw [Atom.interval, if_neg (by simp), if_neg (by simp [hmatch])]

/-- An interval that could be evaluated is decided, by its currency and bounds. -/
theorem interval_eq_ok {a : Atom} {value currency : Str} {t : Tri}
    (hbounds : ∀ s, s ∈ a.lo ∨ s ∈ a.hi → decimalFullmatch s = true)
    (hvalue : decimalFullmatch value = true) {x : Dec} (hx : readDecimal value = some x)
    (h : a.interval value currency = .ok t) :
    t ≠ .unknown ∧ (t = .true ↔ currency = a.currency ∧
      aboveBound a.lo a.loClosed x.value ∧ belowBound a.hi a.hiClosed x.value) := by
  by_cases hcur : currency = a.currency
  · subst hcur
    rw [interval_eq hbounds hvalue] at h
    obtain ⟨amount, hamount, h⟩ := bind_eq_ok_iff.mp h
    obtain ⟨lo, hlo, h⟩ := bind_eq_ok_iff.mp h
    obtain ⟨hi, hhi, h⟩ := bind_eq_ok_iff.mp h
    obtain ⟨x', hx', rfl⟩ := toDecimal_eq_ok hvalue hamount
    obtain rfl : x = x' := Option.some.inj (hx.symm.trans hx')
    obtain ⟨below, hbelow, hbelow'⟩ := excluded_spec (fun b => belowLo_finite x b a.loClosed)
      (fun s hs => hbounds s (Or.inl hs)) hlo
    obtain ⟨above, habove, habove'⟩ := excluded_spec (fun b => aboveHi_finite x b a.hiClosed)
      (fun s hs => hbounds s (Or.inr hs)) hhi
    rw [aboveBound, belowBound, ← hbelow', ← habove']
    obtain ⟨b, hb, h⟩ := bind_eq_ok_iff.mp h
    obtain rfl : b = below := Except.ok.inj (hb.symm.trans hbelow)
    cases b with
    | true =>
        obtain rfl := pure_eq_ok_iff.mp h
        simp
    | false =>
        obtain ⟨b, hb, h⟩ := bind_eq_ok_iff.mp h
        obtain rfl : b = above := Except.ok.inj (hb.symm.trans habove)
        cases b <;> obtain rfl := pure_eq_ok_iff.mp h <;> simp
  · rw [Atom.interval, if_pos hcur] at h
    obtain rfl := Except.ok.inj h
    simp [hcur]

/-- An atom on the fact of its column is decided, and is true when it holds. -/
theorem Atom.eval_eq_ok {a : Atom} {d : Dimension} {row : Row} {f : Fact} {principal : Str}
    {t : Tri} (hf : FactOf row d f) (hbad : a.bad d = some false) (hproper : a.Proper d)
    (h : a.eval (some f) principal = .ok t) :
    t ≠ .unknown ∧ (t = .true ↔ a.Holds false d row principal) := by
  unfold Atom.bad at hbad
  unfold Atom.eval at h
  unfold Atom.Holds
  by_cases hall : a.kind = .all
  · rw [if_pos hall] at h
    obtain rfl := Except.ok.inj h
    simp [hall]
  rw [if_neg hall] at h
  cases hf with
  | null hnull =>
      obtain rfl := Except.ok.inj h
      cases hk : a.kind <;> simp_all
  | text s hne hs =>
      dsimp only at h
      rw [Atom.onValue] at h
      cases hk : a.kind with
      | all => exact absurd hk hall
      | in_ =>
          rw [hk] at h
          obtain rfl := Except.ok.inj h
          simp [hs]
      | self_ =>
          rw [hk] at h
          obtain rfl := Except.ok.inj h
          simp [hs]
      | tree =>
          rw [hk] at h
          dsimp only at h
          split at h
          · next hnil =>
              obtain rfl := Except.ok.inj h
              simp [hs, hnil]
          · next hne' =>
              obtain rfl := Except.ok.inj h
              simp [hs, hne']
      | interval => simp [hk, hne] at hbad
      | other k => simp [hk] at hbad
  | amount x x' s currency hkind hx hcur hs hx' hval =>
      dsimp only at h
      rw [Atom.onValue] at h
      cases hk : a.kind with
      | all => exact absurd hk hall
      | in_ => exact absurd hkind (hproper.1 hk)
      | self_ => simp [hk, hkind] at hbad
      | tree => simp [hk, hkind] at hbad
      | other k => simp [hk] at hbad
      | interval =>
          rw [hk] at h
          obtain ⟨hdef, hiff⟩ := interval_eq_ok (hproper.2 hk) hs hx' h
          refine ⟨hdef, hiff.trans ?_⟩
          rw [hval]
          simp [hx, hcur]

/-- An active segment on a row's facts is decided, and is true when it matches. -/
theorem Segment.eval_eq_ok {s : Segment} {r : Resource} {row : Row} {facts : Dict Str Fact}
    {principal : Str} {at_ : Instant} {t : Tri} (hcheck : s.check r = .ok ()) (hproper : s.Proper r)
    (hfacts : FactsOf r row facts) (h : s.eval facts principal at_ = .ok t) :
    t = .true ↔ s.Matches false r row principal at_ := by
  rw [Segment.eval] at h
  split at h
  · next hact =>
      obtain rfl := Except.ok.inj h
      simp only [Bool.not_eq_true'] at hact
      simp [Segment.Matches, hact]
  next hact =>
    have hact : s.activeAt at_ = true := by simpa using hact
    have hatom : ∀ dim a, s.atoms.get? dim = some a → ∃ d f, r.dims.get? dim = some d ∧
        facts.get? dim = some f ∧ ∀ t, a.eval (some f) principal = .ok t →
          t ≠ .unknown ∧ (t = .true ↔ a.Holds false d row principal) := by
      intro dim a ha
      obtain ⟨d, hd, hbad⟩ := Segment.atom_of_check hcheck ha
      obtain ⟨f, hf, hfact⟩ := hfacts dim d hd
      exact ⟨d, f, hd, hf, fun t ht => Atom.eval_eq_ok hfact hbad (hproper dim a d ha hd) ht⟩
    constructor
    · rintro rfl
      refine ⟨hact, fun dim a d ha hd => ?_⟩
      obtain ⟨d', f, hd', hf, hiff⟩ := hatom dim a ha
      obtain rfl : d = d' := Option.some.inj (hd.symm.trans hd')
      have htrue := (evalAtoms_eq_true_iff.mp h).2 (dim, a) (Dict.get?_eq_some_iff.mp ha)
      rw [hf] at htrue
      exact (hiff _ htrue).2.mp rfl
    · rintro ⟨-, hmatch⟩
      have hholds : ∀ p ∈ s.atoms.entries, ∀ t, p.2.eval (facts.get? p.1) principal = .ok t →
          t = .true := by
        rintro ⟨dim, a⟩ hp t ht
        obtain ⟨d, f, hd, hf, hiff⟩ := hatom dim a (Dict.get?_eq_some_iff.mpr hp)
        rw [hf] at ht
        exact (hiff t ht).2.mpr (hmatch dim a d (Dict.get?_eq_some_iff.mpr hp) hd)
      cases t with
      | true => rfl
      | false =>
          obtain ⟨p, hp, hfalse⟩ := exists_of_evalAtoms_eq_false (by decide) h
          exact absurd (hholds p hp _ hfalse) (by decide)
      | unknown =>
          have htrue : evalAtoms facts principal s.atoms.entries .true = .ok .true := by
            refine evalAtoms_eq_true_iff.mpr ⟨rfl, fun p hp => ?_⟩
            obtain ⟨u, hu, -⟩ := forall_of_evalAtoms_eq_unknown h p hp
            rw [hu, hholds p hp u hu]
          exact Except.ok.inj (h.symm.trans htrue)

/-! ## Evaluation returns -/

/-- A number that is not too large for the constructor. -/
def NumberFits (s : Str) : Prop := ∀ b, readDecimal s = some b → b.fits = true

/-- The bounds of a segment's intervals fit. -/
def Segment.BoundsFit (s : Segment) : Prop :=
  ∀ dim a, s.atoms.get? dim = some a → ∀ b, b ∈ a.lo ∨ b ∈ a.hi → NumberFits b

/-- The texts of the amounts fit. -/
def AmountsFit (r : Resource) (facts : Dict Str Fact) : Prop :=
  ∀ dim d v c, r.dims.get? dim = some d → d.kind = .amount → facts.get? dim = some (.value v c) →
    NumberFits v

theorem exists_toDecimal {s : Str} (hs : decimalFullmatch s = true) (hfit : NumberFits s) :
    ∃ b, toDecimal s = .ok (.finite b) := by
  obtain ⟨b, hb⟩ := readDecimal_of_fullmatch hs
  exact ⟨b, toDecimal_of_fits hs hb (hfit b hb)⟩

/-- Bounds that fit are read. -/
theorem exists_mapM_toDecimal {bound : Option Str} (hs : ∀ s ∈ bound, decimalFullmatch s = true)
    (hfit : ∀ s ∈ bound, NumberFits s) : ∃ v, bound.mapM toDecimal = .ok v := by
  cases bound with
  | none => exact ⟨none, rfl⟩
  | some s =>
      obtain ⟨b, hb⟩ := exists_toDecimal (hs s rfl) (hfit s rfl)
      exact ⟨some (.finite b), bind_eq_ok_iff.mpr ⟨_, hb, rfl⟩⟩

/-- An interval of numbers that fit is decided. -/
theorem exists_interval {a : Atom} {value currency : Str}
    (hbounds : ∀ s, s ∈ a.lo ∨ s ∈ a.hi → decimalFullmatch s = true)
    (hfit : ∀ s, s ∈ a.lo ∨ s ∈ a.hi → NumberFits s) (hvalue : decimalFullmatch value = true)
    (hvfit : NumberFits value) : ∃ t, a.interval value currency = .ok t := by
  by_cases hcur : currency = a.currency
  · subst hcur
    obtain ⟨x, hx⟩ := exists_toDecimal hvalue hvfit
    obtain ⟨lo, hlo⟩ := exists_mapM_toDecimal (fun s hs => hbounds s (Or.inl hs))
      fun s hs => hfit s (Or.inl hs)
    obtain ⟨hi, hhi⟩ := exists_mapM_toDecimal (fun s hs => hbounds s (Or.inr hs))
      fun s hs => hfit s (Or.inr hs)
    obtain ⟨below, hbelow, -⟩ := excluded_spec (fun b => belowLo_finite x b a.loClosed)
      (fun s hs => hbounds s (Or.inl hs)) hlo
    obtain ⟨above, habove, -⟩ := excluded_spec (fun b => aboveHi_finite x b a.hiClosed)
      (fun s hs => hbounds s (Or.inr hs)) hhi
    rw [interval_eq hbounds hvalue]
    simp only [bind_eq_ok_iff, hx, hlo, hhi, hbelow, habove, Except.ok.injEq, exists_eq_left']
    cases below with
    | true => exact ⟨.false, rfl⟩
    | false =>
        refine ⟨if above then .false else .true, bind_eq_ok_iff.mpr ⟨above, rfl, ?_⟩⟩
        cases above <;> rfl
  · exact ⟨.false, by rw [Atom.interval, if_pos hcur]⟩

/-- A proper atom is decided on the row's fact. -/
theorem Atom.exists_eval {a : Atom} {d : Dimension} {row : Row} {f : Fact} {principal : Str}
    (hf : FactOf row d f) (hbad : a.bad d = some false) (hproper : a.Proper d)
    (hfit : ∀ s, s ∈ a.lo ∨ s ∈ a.hi → NumberFits s)
    (hamount : d.kind = .amount → ∀ v c, f = .value v c → NumberFits v) :
    ∃ t, a.eval (some f) principal = .ok t := by
  unfold Atom.bad at hbad
  unfold Atom.eval
  by_cases hall : a.kind = .all
  · exact ⟨.true, if_pos hall⟩
  rw [if_neg hall]
  cases hf with
  | null => exact ⟨.false, rfl⟩
  | text s hne =>
      dsimp only
      unfold Atom.onValue
      cases hk : a.kind <;> simp_all [exists_eq']
      split <;> exact ⟨_, rfl⟩
  | amount x x' s currency hkind _ _ hs =>
      dsimp only
      unfold Atom.onValue
      cases hk : a.kind with
      | all => exact absurd hk hall
      | in_ => exact absurd hkind (hproper.1 hk)
      | self_ => simp [hk, hkind] at hbad
      | tree => simp [hk, hkind] at hbad
      | other k => simp [hk] at hbad
      | interval => exact exists_interval (hproper.2 hk) hfit hs (hamount hkind s currency rfl)

/-- So are all atoms of a segment. -/
theorem exists_evalAtoms {facts : Dict Str Fact} {principal : Str} : ∀ {l : List (Str × Atom)}
    (out : Tri), (∀ p ∈ l, ∃ t, p.2.eval (facts.get? p.1) principal = .ok t) →
    ∃ t, evalAtoms facts principal l out = .ok t
  | [], out, _ => ⟨out, rfl⟩
  | (dim, a) :: l, out, h => by
      rw [List.forall_mem_cons] at h
      obtain ⟨⟨t, ht⟩, hrest⟩ := h
      simp only [evalAtoms, bind_eq_ok_iff, ht, Except.ok.injEq, exists_eq_left']
      cases t with
      | false => exact ⟨.false, rfl⟩
      | unknown => exact exists_evalAtoms .unknown hrest
      | true => exact exists_evalAtoms out hrest

/-- So is a segment. -/
theorem Segment.exists_eval {s : Segment} {r : Resource} {row : Row} {facts : Dict Str Fact}
    {principal : Str} {at_ : Instant} (hcheck : s.check r = .ok ()) (hproper : s.Proper r)
    (hfacts : FactsOf r row facts) (hfit : s.BoundsFit) (hamounts : AmountsFit r facts) :
    ∃ t, s.eval facts principal at_ = .ok t := by
  rw [Segment.eval]
  split
  · exact ⟨.false, rfl⟩
  · refine exists_evalAtoms .true fun p hp => ?_
    have ha := Dict.get?_eq_some_iff.mpr hp
    obtain ⟨d, hd, hbad⟩ := Segment.atom_of_check hcheck ha
    obtain ⟨f, hf, hfact⟩ := hfacts p.1 d hd
    rw [hf]
    refine Atom.exists_eval hfact hbad (hproper p.1 p.2 d ha hd) (hfit p.1 p.2 ha) ?_
    rintro hkind v c rfl
    exact hamounts p.1 d v c hd hkind hf

/-- So are all segments of a grant. -/
theorem exists_entitledGo {op : Str} {facts : Dict Str Fact} {principal : Str} {at_ : Instant} :
    ∀ {segs : List Segment} (res : Tri) (fields : List Str),
      (∀ s ∈ segs, ∃ t, s.eval facts principal at_ = .ok t) →
      ∃ out, entitledGo op facts principal at_ segs res fields = .ok out
  | [], res, fields, _ => ⟨(res, fields), rfl⟩
  | s :: segs, res, fields, h => by
      rw [List.forall_mem_cons] at h
      obtain ⟨⟨t, ht⟩, hrest⟩ := h
      rw [entitledGo]
      split
      · exact exists_entitledGo res fields hrest
      · simp only [bind_eq_ok_iff, ht, Except.ok.injEq, exists_eq_left']
        cases t <;> exact exists_entitledGo _ _ hrest

/-- An evaluation whose segments all evaluate returns a decision. -/
theorem exists_evaluate {r : Resource} {segs : List Segment} {op : Str} {facts : Dict Str Fact}
    {principal : Str} {at_ : Instant} (h : ∀ s ∈ segs, ∃ t, s.eval facts principal at_ = .ok t) :
    ∃ d, evaluate r segs op facts principal at_ = .ok d := by
  obtain ⟨⟨visible, viewFields⟩, hview⟩ := @exists_entitledGo _ r.viewOperation _ _ _ _ .false [] h
  obtain ⟨⟨act, fields⟩, hact⟩ := @exists_entitledGo _ op _ _ _ _ .false [] h
  rw [evaluate, entitled, entitled]
  simp only [bind_eq_ok_iff, hview, hact, Except.ok.injEq, exists_eq_left']
  split <;> exact ⟨_, rfl⟩

end

end BeSdk
