/-
BeSdk.Authz.FieldTheorems — readable fields: what a decision and a plan let a caller
read, and what masking shows of an output.

Both fields of a decision and fields of a hit bitmap are the fields some granting
segment reads, without the undeclared and the secret ones (`mem_fields_of_evaluate`,
`mem_fields_of_plan`), so what holds of one holds of the other. Nothing reads
`derived_from` here: a derived field comes without its sources where the granting
segments do not read them (`Derives`). Masking shows readable fields as they are and
the other declared ones as null (`get?_mask`); the names of those stand under
`_masked`, where a field declared under that name may be in their way
(`MaskedShown`).
-/
import BeSdk.Authz.Subject
import BeSdk.Authz.PlanTheorems
import BeSdk.Authz.DefinitionTheorems

namespace BeSdk

/-! ## Fields that are granted -/

/-- A segment that is true for the asked operation, on a visible record, reads the field. -/
def ReadByDecision [Interp] (r : Resource) (segs : List Segment) (op : Str) (facts : Dict Str Fact)
    (principal : Str) (at_ : Instant) (f : Str) : Prop :=
  (∃ s ∈ segs, s.operation = r.viewOperation ∧ s.eval facts principal at_ = .ok .true) ∧
    ∃ s ∈ segs, s.operation = op ∧ s.eval facts principal at_ = .ok .true ∧ f ∈ s.readFields

/-- A segment of the plan whose hit is set reads the field. -/
def ReadByHits (segs : List Segment) (op : Str) (at_ : Instant) (hits : List Bool) (f : Str) :
    Prop :=
  ∃ (i : Nat) (s : Segment), hits[i]? = some true ∧ (activeFor segs op at_)[i]? = some s ∧
    f ∈ s.readFields

section
variable [Interp]

theorem mem_fields_of_evaluate {r : Resource} {segs : List Segment} {op : Str}
    {facts : Dict Str Fact} {principal : Str} {at_ : Instant} {d : Decision}
    (h : evaluate r segs op facts principal at_ = .ok d)
    (f : Str) : f ∈ d.fields ↔ r.outputs f = true ∧
    ReadByDecision r segs op facts principal at_ f := by
  obtain ⟨⟨viewFields, hview⟩, act, fields, hop, -, hfields⟩ := evaluate_spec h
  rw [hfields, (entitled_spec hview).isTrue, (entitled_spec hop).mem_fields]
  unfold ReadByDecision
  constructor
  · intro hf
    exact ⟨hf.2.2, hf.1, hf.2.1⟩
  · intro hf
    exact ⟨hf.2.1, hf.2.2, hf.1⟩

/-- The fields each hit of a compiled plan reads. -/
theorem compilePlan_sets {r : Resource} {segs : List Segment} {op principal : Str} {at_ : Instant}
    {alias_ : Str} {base : Nat} {plan : Plan}
    (h : compilePlan r segs op principal at_ alias_ base = .ok plan) :
    plan.sets = (activeFor segs op at_).map fun s => s.readFields.filter r.outputs := by
  rw [compilePlan] at h
  obtain ⟨⟨viewPreds, args⟩, -, h⟩ := bind_eq_ok_iff.mp h
  by_cases hop : op = r.viewOperation
  · subst hop
    simp only [ne_eq, not_true_eq_false, if_false, pure_bind, bind_eq_ok_iff, pure_eq_ok_iff] at h
    obtain ⟨digest, -, rfl⟩ := h
    rfl
  · simp only [ne_eq, hop, not_false_eq_true, if_true, bind_eq_ok_iff, pure_eq_ok_iff] at h
    obtain ⟨⟨opPreds, args'⟩, -, _, rfl, digest, -, rfl⟩ := h
    rfl

omit [Interp] in
theorem mem_zip_flatMap {hits : List Bool} {sets : List (List Str)} {f : Str} :
    f ∈ (hits.zip sets).flatMap (fun h => if h.1 then h.2 else []) ↔
      ∃ (i : Nat) (set : List Str), hits[i]? = some true ∧ sets[i]? = some set ∧ f ∈ set := by
  rw [List.mem_flatMap]
  constructor
  · intro h
    obtain ⟨⟨hit, set⟩, hmem, hf⟩ := h
    obtain ⟨i, hi⟩ := List.mem_iff_getElem?.mp hmem
    rw [List.getElem?_zip_eq_some] at hi
    cases hit with
    | false => simp at hf
    | true => exact ⟨i, set, hi.1, hi.2, by simpa using hf⟩
  · intro h
    obtain ⟨i, set, hhit, hset, hf⟩ := h
    refine ⟨(true, set), List.mem_iff_getElem?.mpr ⟨i, ?_⟩, by simpa using hf⟩
    rw [List.getElem?_zip_eq_some]
    exact ⟨hhit, hset⟩

theorem mem_fields_of_plan {r : Resource} {segs : List Segment} {op principal : Str} {at_ : Instant}
    {alias_ : Str} {base : Nat} {plan : Plan}
    (h : compilePlan r segs op principal at_ alias_ base = .ok plan)
    (hits : List Bool) (f : Str) :
    f ∈ plan.fields hits ↔ r.outputs f = true ∧ ReadByHits segs op at_ hits f := by
  rw [Plan.fields, mem_sortedSet, mem_zip_flatMap, compilePlan_sets h]
  unfold ReadByHits
  constructor
  · intro hf
    obtain ⟨i, set, hhit, hset, hf⟩ := hf
    rw [List.getElem?_map, Option.map_eq_some_iff] at hset
    obtain ⟨s, hs, rfl⟩ := hset
    rw [List.mem_filter] at hf
    exact ⟨hf.2, i, s, hhit, hs, hf.1⟩
  · intro hf
    obtain ⟨hout, i, s, hhit, hs, hread⟩ := hf
    refine ⟨i, s.readFields.filter r.outputs, hhit, ?_, List.mem_filter.mpr ⟨hread, hout⟩⟩
    rw [List.getElem?_map, hs]
    rfl

end

/-! ## Masking -/

/-- The declared keys of an output that the caller may not read. -/
def Resource.hidden (r : Resource) (readable : List Str) (out : Dict Str Json) : List Str :=
  out.keys.filter fun k => r.outputs k && decide (k ∉ readable)

/-- What masking makes of a value of an output. -/
def Resource.shown (r : Resource) (readable : List Str) (k : Str) (v : Json) : Option Json :=
  if r.outputs k = true then some (if k ∈ readable then v else .null) else none

theorem maskGo_names (r : Resource) (readable : List Str) (l : List (Str × Json))
    (shaped : Dict Str Json) (names : List Str) : (maskGo r readable l shaped names).2 =
      names ++ (l.map Prod.fst).filter fun k => r.outputs k && decide (k ∉ readable) := by
  induction l generalizing shaped names with
  | nil => simp [maskGo]
  | cons p l ih =>
    obtain ⟨k, v⟩ := p
    rw [maskGo]
    by_cases hout : r.outputs k = true
    · by_cases hk : k ∈ readable <;> simp [hout, hk, ih]
    · simp [hout, ih]

theorem maskGo_get? (r : Resource) (readable : List Str) (l : List (Str × Json))
    (hl : (l.map Prod.fst).Nodup) (shaped : Dict Str Json) (names : List Str) (k : Str) :
    (maskGo r readable l shaped names).1.get? k =
      ((lookup k l).bind (r.shown readable k)).or (shaped.get? k) := by
  induction l generalizing shaped names with
  | nil => simp [maskGo, lookup]
  | cons p l ih =>
    obtain ⟨j, v⟩ := p
    rw [List.map_cons, List.nodup_cons] at hl
    rw [maskGo, lookup]
    by_cases hkj : j = k
    · subst hkj
      have hnone : lookup j l = none := lookup_eq_none_iff.mpr hl.1
      by_cases hout : r.outputs j = true
      · by_cases hj : j ∈ readable <;> simp [hout, hj, ih hl.2, hnone, Resource.shown]
      · simp [hout, ih hl.2, hnone, Resource.shown]
    · have hset : ∀ w : Json, (shaped.set j w).get? k = shaped.get? k := fun w =>
        Dict.get?_set_of_ne _ _ (Ne.symm hkj)
      by_cases hout : r.outputs j = true
      · by_cases hj : j ∈ readable <;> simp [hout, hj, ih hl.2, hkj, hset]
      · simp [hout, ih hl.2, hkj]

/-- Masking in one equation for each key. -/
theorem get?_mask (r : Resource) (out : Dict Str Json) (readable : List Str) (k : Str) :
    (mask r out readable).get? k =
      if k = masked ∧ r.hidden readable out ≠ [] then
        some (.list (((r.hidden readable out).insertionSort (· ≤ ·)).map .str))
      else (out.get? k).bind (r.shown readable k) := by
  have hnames := maskGo_names r readable out.entries Dict.empty []
  have hget := maskGo_get? r readable out.entries out.nodup Dict.empty []
  rw [List.nil_append] at hnames
  unfold mask
  simp only
  rw [hnames]
  by_cases hhidden : r.hidden readable out = []
  · have hempty : ((out.entries.map Prod.fst).filter fun k => r.outputs k &&
      decide (k ∉ readable)).isEmpty = true :=
      List.isEmpty_iff.mpr hhidden
    rw [if_pos hempty, if_neg (by simp [hhidden]), hget, Dict.get?_empty, Option.or_none]
    rfl
  · have hnonempty : ((out.entries.map Prod.fst).filter fun k => r.outputs k &&
      decide (k ∉ readable)).isEmpty ≠ true :=
      fun h => hhidden (List.isEmpty_iff.mp h)
    rw [if_neg hnonempty, Dict.get?_set]
    by_cases hk : k = masked
    · rw [if_pos hk, if_pos ⟨hk, hhidden⟩]
      rfl
    · rw [if_neg hk, if_neg (fun h => hk h.1), hget, Dict.get?_empty, Option.or_none]
      rfl

/-! ## Secrecy and derivation -/

/-- What readable fields owe the resource: they are declared and not secret, and a
derived one comes with everything it is derived from. -/
structure Resource.Respects (r : Resource) (fields : List Str) : Prop where
  outputs : ∀ f ∈ fields, r.outputs f = true
  derived : ∀ f ∈ fields, ∀ fd, r.fields.get? f = some fd → ∀ g ∈ fd.derivedFrom, g ∈ fields

/-- What a shaped output owes them: no key is secret or undeclared, a value is that of a
readable key, and the hidden declared keys stand, sorted, under `_masked`. -/
structure Resource.Conceals (r : Resource) (fields : List Str) (out shaped : Dict Str Json) :
    Prop where
  declared : ∀ k v, shaped.get? k = some v → k ≠ masked → r.outputs k = true
  values : ∀ k v, shaped.get? k = some v → k ≠ masked → v ≠ .null → k ∈ fields ∧ out.get? k = some v
  names : shaped.get? masked = if r.hidden fields out = [] then none
    else some (.list (((r.hidden fields out).insertionSort (· ≤ ·)).map .str))

/-- Every declared field that is not secret and is read comes with what it is derived
from, which is read and not secret. -/
def Resource.Derives (r : Resource) (reads : Str → Prop) : Prop :=
  ∀ f fd, r.fields.get? f = some fd → fd.cls ≠ .secret → reads f → ∀ g ∈ fd.derivedFrom,
    r.outputs g = true ∧ reads g

/-- The output has a key `_masked` that is a declared field and not secret, and all its
keys of this kind are read: its value stands where the names would. -/
def Resource.MaskedShown (r : Resource) (reads : Str → Prop) (out : Dict Str Json) : Prop :=
  masked ∈ out.keys ∧ r.outputs masked = true ∧ ∀ k ∈ out.keys, r.outputs k = true → reads k

theorem Resource.outputs_iff {r : Resource} {f : Str} :
    r.outputs f = true ↔ ∃ fd, r.fields.get? f = some fd ∧ fd.cls ≠ .secret := by
  unfold Resource.outputs
  cases r.fields.get? f with
  | none => simp
  | some fd => simp

section
variable {r : Resource} {fields : List Str} {reads : Str → Prop}

theorem respects_iff (hfields : ∀ f, f ∈ fields ↔ r.outputs f = true ∧ reads f) :
    r.Respects fields ↔ r.Derives reads := by
  constructor
  · intro h f fd hfd hcls hf g hg
    have hmem : f ∈ fields := (hfields f).mpr ⟨Resource.outputs_iff.mpr ⟨fd, hfd, hcls⟩, hf⟩
    exact (hfields g).mp (h.derived f hmem fd hfd g hg)
  · intro h
    refine ⟨fun f hf => ((hfields f).mp hf).1, ?_⟩
    intro f hf fd hfd g hg
    obtain ⟨hout, hread⟩ := (hfields f).mp hf
    obtain ⟨fd', hfd', hcls⟩ := Resource.outputs_iff.mp hout
    obtain rfl := Option.some.inj (hfd.symm.trans hfd')
    exact (hfields g).mpr (h f fd hfd hcls hread g hg)

/-- The readable keys of an output pass as they are, the hidden ones as null. -/
theorem shown_eq_some_iff {k : Str} {v w : Json} :
    r.shown fields k v = some w ↔ r.outputs k = true ∧ w = if k ∈ fields then v else .null := by
  unfold Resource.shown
  split
  · next hout => simp [hout, eq_comm]
  · next hout => simp [hout]

theorem hidden_eq_nil_iff {out : Dict Str Json} (hfields : ∀ f, f ∈ fields ↔
    r.outputs f = true ∧ reads f) : r.hidden fields out = [] ↔
    ∀ k ∈ out.keys, r.outputs k = true → reads k := by
  rw [Resource.hidden, List.filter_eq_nil_iff]
  constructor
  · intro h k hk hout
    have hread : k ∈ fields := by simpa [hout] using h k hk
    exact ((hfields k).mp hread).2
  · intro h k hk
    by_cases hout : r.outputs k = true
    · simpa [hout] using (hfields k).mpr ⟨hout, h k hk hout⟩
    · simp [hout]

theorem conceals_iff {out : Dict Str Json} (hfields : ∀ f, f ∈ fields ↔
    r.outputs f = true ∧ reads f) : r.Conceals fields out (mask r out fields) ↔
    ¬ r.MaskedShown reads out := by
  have hget : ∀ k w, (mask r out fields).get? k = some w → k ≠ masked →
      ∃ v, out.get? k = some v ∧ r.outputs k = true ∧ w = if k ∈ fields then v else .null := by
    intro k w hw hk
    rw [get?_mask, if_neg (fun h => hk h.1), Option.bind_eq_some_iff] at hw
    obtain ⟨v, hv, hw⟩ := hw
    exact ⟨v, hv, shown_eq_some_iff.mp hw⟩
  have hdeclared : ∀ k w, (mask r out fields).get? k = some w → k ≠ masked →
    r.outputs k = true := by
    intro k w hw hk
    obtain ⟨v, -, hout, -⟩ := hget k w hw hk
    exact hout
  have hvalues : ∀ k w, (mask r out fields).get? k = some w → k ≠ masked → w ≠ .null →
      k ∈ fields ∧ out.get? k = some w := by
    intro k w hw hk hnull
    obtain ⟨v, hv, -, rfl⟩ := hget k w hw hk
    by_cases hread : k ∈ fields
    · rw [if_pos hread]
      exact ⟨hread, hv⟩
    · simp [hread] at hnull
  have hnames : (mask r out fields).get? masked = (if r.hidden fields out = [] then none
      else some (.list (((r.hidden fields out).insertionSort (· ≤ ·)).map .str))) ↔
      ¬ r.MaskedShown reads out := by
    rw [get?_mask]
    by_cases hhidden : r.hidden fields out = []
    · have hall := (hidden_eq_nil_iff hfields).mp hhidden
      rw [if_neg (by simp [hhidden]), if_pos hhidden]
      constructor
      · intro hnone hshown
        obtain ⟨hmem, hout, -⟩ := hshown
        obtain ⟨v, hv⟩ : ∃ v, out.get? masked = some v := by
          by_contra hno
          rw [← Option.isSome_iff_exists, Option.not_isSome_iff_eq_none] at hno
          exact (lookup_eq_none_iff.mp hno) hmem
        rw [hv, Option.bind_some, Resource.shown, if_pos hout] at hnone
        cases hnone
      · intro hshown
        cases hv : out.get? masked with
        | none => rfl
        | some v =>
          rw [Option.bind_some, Resource.shown]
          refine if_neg fun hout => hshown ⟨?_, hout, hall⟩
          exact List.mem_map.mpr ⟨_, Dict.get?_eq_some_iff.mp hv, rfl⟩
    · rw [if_pos ⟨rfl, hhidden⟩, if_neg hhidden]
      refine iff_of_true rfl ?_
      intro hshown
      exact hhidden ((hidden_eq_nil_iff hfields).mpr hshown.2.2)
  constructor
  · intro h
    exact hnames.mp h.names
  · intro h
    exact ⟨hdeclared, hvalues, hnames.mpr h⟩

end

/-- **Readable fields respect secrecy and derivation**, exactly where the granting
segments read what the fields they read are derived from, and no field shown under
`_masked` stands where the hidden names would: the fields of a decision and those of
any hit bitmap of a plan, and what masking with them shows of any output. -/
theorem fields_respected [Interp] (r : Resource) (segs : List Segment) (op principal : Str)
    (at_ : Instant) (out : Dict Str Json) :
    (∀ facts d, evaluate r segs op facts principal at_ = .ok d →
      (r.Respects d.fields ∧ r.Conceals d.fields out (mask r out d.fields) ↔
        r.Derives (ReadByDecision r segs op facts principal at_) ∧
          ¬ r.MaskedShown (ReadByDecision r segs op facts principal at_) out)) ∧
    ∀ alias_ base plan hits, compilePlan r segs op principal at_ alias_ base = .ok plan →
      (r.Respects (plan.fields hits) ∧
        r.Conceals (plan.fields hits) out (mask r out (plan.fields hits)) ↔
        r.Derives (ReadByHits segs op at_ hits) ∧ ¬ r.MaskedShown
        (ReadByHits segs op at_ hits) out) := by
  constructor
  · intro facts d hd
    have hfields := mem_fields_of_evaluate hd
    exact and_congr (respects_iff hfields) (conceals_iff hfields)
  · intro alias_ base plan hits hplan
    have hfields := mem_fields_of_plan hplan hits
    exact and_congr (respects_iff hfields) (conceals_iff hfields)

/-! ## Margins -/

/-- A product whose margin is derived from its cost. -/
def productResource : Resource where
  type := str "product"
  viewOperation := str "product.view"
  dimensions := some Dict.empty
  fields := ⟨[(str "cost", { cls := .ordinary }),
    (str "margin", { cls := .ordinary, derivedFrom := [str "cost"] })],
    by decide⟩

def productDefinitions : Definitions where
  component := str "test/shop"
  resources := [productResource]
  operations := [{ key := str "product.view", resourceType := str "product", purpose := str "read",
                   riskClass := str "low" }]

/-- Viewing every product, with these fields. -/
def productSegment (fields : List String) : Segment where
  operation := str "product.view"
  atoms := Dict.empty
  readFields := fields.map str
  validFrom := str "2026-01-01T00:00:00Z"

/-- A moment of 2026. -/
def productTime : Instant := 70000000000000000

/-- A product as it would be output, with a key that is not declared. -/
def productOutput : Dict Str Json :=
  ⟨[(str "margin", .int 2), (str "cost", .int 8), (str "note", .null)], by decide⟩

theorem fields_respected_product : productResource.Respects [str "cost", str "margin"] ∧
    productResource.Conceals [str "cost", str "margin"] productOutput
      (mask productResource productOutput [str "cost", str "margin"]) := by
  have hd : @evaluate Interp.ascii productResource [productSegment ["cost", "margin"]]
    (str "product.view") Dict.empty
      (str "p") productTime = .ok ⟨.true, .true, [str "cost", str "margin"]⟩ := rfl
  have htrue : @Segment.eval Interp.ascii (productSegment ["cost", "margin"]) Dict.empty
    (str "p") productTime =
      .ok .true := rfl
  refine ((@fields_respected Interp.ascii productResource [productSegment ["cost", "margin"]]
    (str "product.view") (str "p") productTime productOutput).1 Dict.empty _ hd).mpr ⟨?_, ?_⟩
  · intro f fd hfd _ _ g hg
    have hmem : (f, fd) ∈ productResource.fields.entries := mem_of_lookup hfd
    simp only [productResource, List.mem_cons, Prod.mk.injEq, List.not_mem_nil, or_false] at hmem
    rcases hmem with ⟨-, rfl⟩ | ⟨-, rfl⟩
    · simp at hg
    · obtain rfl := List.mem_singleton.mp hg
      exact ⟨rfl, ⟨_, List.mem_singleton_self _, rfl, htrue⟩, _, List.mem_singleton_self _,
        rfl, htrue, by decide⟩
  · intro hshown
    exact absurd hshown.1 (by decide)

/-- **A derived field without its source**: the segment reads the margin only, and
neither its check nor the decision misses the cost. -/
theorem margin_without_cost : ∃ i d, productDefinitions.validate = .ok i ∧
    i.resource (str "product") = some productResource ∧
    (productSegment ["margin"]).check productResource = .ok () ∧
    @evaluate Interp.ascii productResource [productSegment ["margin"]] (str "product.view")
    Dict.empty (str "p")
      productTime = .ok d ∧ d.fields = [str "margin"] ∧ ¬ productResource.Respects d.fields := by
  refine ⟨_, ⟨.true, .true, [str "margin"]⟩, rfl, rfl, rfl, rfl, rfl, ?_⟩
  intro h
  have hcost := h.derived (str "margin") (by simp)
    { cls := .ordinary, derivedFrom := [str "cost"] } rfl (str "cost") (by simp)
  exact absurd hcost (by decide)

end BeSdk
