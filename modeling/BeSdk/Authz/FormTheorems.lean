/-
BeSdk.Authz.FormTheorems — what a segment's canonical form says of the segment.

`Json.same` compares forms as dictionaries: equal forms have equal values under every key
(`sameAt_of_same`), and equal sets the same elements (`mem_iff_of_same_texts`,
`mem_iff_of_same_items`). `Segment.Form` and `Atom.Form` say
which parts of a segment stand under which keys; nothing behind them unfolds `canonical`.

The definition is left out of the comparison (`SameForm`): nothing that evaluates or
compiles a segment reads it.
-/
import BeSdk.Authz.Segment
import BeSdk.CanonInstant
import BeSdk.CanonSets
import BeSdk.RecordSchemas

namespace BeSdk

/-! ## Equal forms -/

/-- Equal values under a key, or none. -/
def SameAt (k : Str) (ms ns : List (Str × Json)) : Prop :=
  Option.Rel (fun v w => v.same w = true) (lookup k ms) (lookup k ns)

/-- Equal dictionaries have equal values under every key. -/
theorem sameAt_of_same {ms ns : List (Str × Json)} (hm : (ms.map Prod.fst).Nodup)
    (h : (Json.obj ms).same (.obj ns) = true) (k : Str) : SameAt k ms ns := by
  have hperm := keys_of_same hm h
  rw [Json.same, Bool.and_eq_true, sameMembers_iff_lookup] at h
  unfold SameAt
  cases hv : lookup k ms with
  | none =>
    have hnone : lookup k ns = none := by
      rw [lookup_eq_none_iff, ← hperm.mem_iff, ← lookup_eq_none_iff, hv]
    rw [hnone]
    exact .none
  | some v =>
    obtain ⟨w, hw, hsame⟩ := h.2 (k, v) (mem_of_lookup hv)
    rw [hw]
    exact .some hsame

/-- Canonical forms that are equal but for the definition, which nothing else reads. -/
def SameForm : Json → Json → Prop
  | .obj ms, .obj ns => ∀ k, k ≠ str "definition" → SameAt k ms ns
  | _, _ => False

/-- Equal texts are one text. -/
theorem eq_of_same_str {s t : Str} (h : (Json.str s).same (.str t) = true) : s = t := by
  simpa [Json.same] using h

/-- Equal records of items are one record. -/
theorem eq_of_same_record {i j : TreeItem} (h : i.record.same j.record = true) :
    i.record = j.record := by
  have hpath := sameAt_of_same (by simp [str_inj]) h (str "path")
  have hmode := sameAt_of_same (by simp [str_inj]) h (str "mode")
  simp only [SameAt, lookup, str_inj, if_true, String.reduceEq, if_false, Option.rel_some_some]
    at hpath hmode
  rw [TreeItem.record, TreeItem.record, eq_of_same_str hpath, eq_of_same_str hmode]

/-- Sets with equal lists have the same elements. -/
theorem mem_iff_of_same {items items' out out' : List Json}
    (heq : ∀ v ∈ items, ∀ w ∈ items', v.same w = true → v = w)
    (hapart : Canon.ToldApart items) (hapart' : Canon.ToldApart items')
    (h : Canon.sortedSet items = .ok out) (h' : Canon.sortedSet items' = .ok out')
    (hsame : (Json.list out).same (.list out') = true) (v : Json) : v ∈ items ↔ v ∈ items' := by
  have hlist : ∀ {xs ys : List Json}, (∀ x ∈ xs, x ∈ items) → (∀ y ∈ ys, y ∈ items') →
      sameElems xs ys = true → xs = ys := by
    intro xs
    induction xs with
    | nil =>
      intro ys _ _ hs
      cases ys with
      | nil => rfl
      | cons y ys => cases hs
    | cons x xs ih =>
      intro ys hxs hys hs
      cases ys with
      | nil => cases hs
      | cons y ys =>
        rw [sameElems, Bool.and_eq_true] at hs
        rw [List.forall_mem_cons] at hxs hys
        rw [heq x hxs.1 y hys.1 hs.1, ih hxs.2 hys.2 hs.2]
  have hout : out = out' := by
    refine hlist (fun x hx => (Canon.mem_sortedSet hapart h x).mp hx)
      (fun y hy => (Canon.mem_sortedSet hapart' h' y).mp hy) ?_
    simpa [Json.same] using hsame
  rw [← Canon.mem_sortedSet hapart h, hout, Canon.mem_sortedSet hapart' h']

/-- Sets of texts with equal lists, -/
theorem mem_iff_of_same_texts {ss ts : List Str} {out out' : List Json}
    (h : Canon.sortedSet (ss.map Json.str) = .ok out)
    (h' : Canon.sortedSet (ts.map Json.str) = .ok out')
    (hsame : (Json.list out).same (.list out') = true) (s : Str) : s ∈ ss ↔ s ∈ ts := by
  have hinj : Function.Injective Json.str := fun _ _ h => Json.str.inj h
  have hiff := mem_iff_of_same (fun v hv w hw hvw => by
    obtain ⟨s, -, rfl⟩ := List.mem_map.mp hv
    obtain ⟨t, -, rfl⟩ := List.mem_map.mp hw
    rw [eq_of_same_str hvw]) (Canon.toldApart_texts ss) (Canon.toldApart_texts ts) h h' hsame
    (.str s)
  rwa [List.mem_map_of_injective hinj, List.mem_map_of_injective hinj] at hiff

/-- Items are told apart by their encoding. -/
theorem toldApart_items (is : List TreeItem) : Canon.ToldApart (is.map TreeItem.record) := by
  intro v hv w hw raw h h'
  obtain ⟨i, -, rfl⟩ := List.mem_map.mp hv
  obtain ⟨j, -, rfl⟩ := List.mem_map.mp hw
  have hdistinct : ∀ i : TreeItem, i.record.Distinct := by
    intro i
    simp [TreeItem.record, Json.Distinct, DistinctMembers, str_inj]
  have hsorted : ∀ i : TreeItem, Canon.sorted i.record =
      .obj [(str "mode", .str i.mode.text), (str "path", .str i.path)] := fun i => rfl
  have heq := Canon.sorted_eq_of_encode_eq (hdistinct i) (hdistinct j) h h'
  rw [hsorted, hsorted] at heq
  simp only [Json.obj.injEq, List.cons.injEq, Prod.mk.injEq, Json.str.injEq, true_and,
    and_true] at heq
  rw [TreeItem.record, TreeItem.record, heq.1, heq.2]

theorem TreeMode.text_injective : Function.Injective TreeMode.text := by
  intro m m' h
  cases m with
  | other t ht =>
    cases m' with
    | other t' ht' =>
      obtain rfl : t = t' := h
      rfl
    | exact => exact absurd h ht.1
    | subtree => exact absurd h ht.2
  | exact =>
    cases m' with
    | other t' ht' => exact absurd h.symm ht'.1
    | exact => rfl
    | subtree => simp [TreeMode.text, str_inj] at h
  | subtree =>
    cases m' with
    | other t' ht' => exact absurd h.symm ht'.2
    | exact => simp [TreeMode.text, str_inj] at h
    | subtree => rfl

theorem TreeItem.record_injective : Function.Injective TreeItem.record := by
  intro i j h
  simp only [TreeItem.record, Json.obj.injEq, List.cons.injEq, Prod.mk.injEq, Json.str.injEq,
    true_and, and_true] at h
  obtain ⟨path, mode⟩ := i
  obtain ⟨path', mode'⟩ := j
  obtain ⟨rfl, hmode⟩ := h
  obtain rfl := TreeMode.text_injective hmode
  rfl

/-- and sets of items. -/
theorem mem_iff_of_same_items {is js : List TreeItem} {out out' : List Json}
    (h : Canon.sortedSet (is.map TreeItem.record) = .ok out)
    (h' : Canon.sortedSet (js.map TreeItem.record) = .ok out')
    (hsame : (Json.list out).same (.list out') = true) (i : TreeItem) : i ∈ is ↔ i ∈ js := by
  have hiff := mem_iff_of_same (fun v hv w hw hvw => by
    obtain ⟨i, -, rfl⟩ := List.mem_map.mp hv
    obtain ⟨j, -, rfl⟩ := List.mem_map.mp hw
    exact eq_of_same_record hvw) (toldApart_items is) (toldApart_items js) h h' hsame i.record
  rwa [List.mem_map_of_injective TreeItem.record_injective,
    List.mem_map_of_injective TreeItem.record_injective] at hiff

/-! ## Validity -/

/-- A text that RFC 3339 reads has the canonical form of its instant. -/
theorem instant_of_rfc3339 {v : Str} {i : Instant} (h : rfc3339 v = some i) :
    Canon.instant v = Canon.time i := by
  unfold rfc3339 at h
  split at h
  · cases h
  next t ht =>
  split at h
  · next hmark => rw [Canon.instant, Canon.readInstant_of_aware ht h hmark]
  · cases h

/-- RFC 3339 reads both texts, or neither. -/
def ReadTogether (v v' : Str) : Prop := (rfc3339 v).isSome = (rfc3339 v').isSome

/-- Two such texts with one canonical form are read as one instant. -/
theorem ReadTogether.rfc3339_eq {v v' a : Str} (h : ReadTogether v v')
    (ha : Canon.instant v = .ok a) (ha' : Canon.instant v' = .ok a) : rfc3339 v = rfc3339 v' := by
  unfold ReadTogether at h
  cases hi : rfc3339 v with
  | none =>
    rw [hi] at h
    exact (Option.isSome_eq_false_iff.mp h.symm |> Option.isNone_iff_eq_none.mp).symm
  | some i =>
    rw [hi] at h
    obtain ⟨i', hi'⟩ := Option.isSome_iff_exists.mp h.symm
    rw [instant_of_rfc3339 hi] at ha
    rw [instant_of_rfc3339 hi'] at ha'
    rw [hi', Canon.time_inj ha ha']

/-- What the validity's canonical form is made of. -/
theorem Segment.canonicalValid_spec {s : Segment} {v : Json} (h : s.canonicalValid = .ok v) :
    ∃ ms start, v = .obj ms ∧ (ms.map Prod.fst).Nodup ∧ Canon.instant s.validFrom = .ok start ∧
      lookup (str "from") ms = some (.str start) ∧
      ((s.validUntil = [] ∧ lookup (str "until") ms = none) ∨
        ∃ stop, s.validUntil ≠ [] ∧ Canon.instant s.validUntil = .ok stop ∧
          lookup (str "until") ms = some (.str stop)) := by
  unfold Segment.canonicalValid at h
  obtain ⟨start, hstart, h⟩ := bind_eq_ok_iff.mp h
  split at h
  · next hnone =>
    obtain rfl := pure_eq_ok_iff.mp h
    exact ⟨_, start, rfl, by simp, hstart, by simp [lookup],
      .inl ⟨hnone, by simp [lookup, str_inj]⟩⟩
  · next hsome =>
    obtain ⟨stop, hstop, h⟩ := bind_eq_ok_iff.mp h
    obtain rfl := pure_eq_ok_iff.mp h
    exact ⟨_, start, rfl, by simp [str_inj], hstart, by simp [lookup],
      .inr ⟨stop, hsome, hstop, by simp [lookup, str_inj]⟩⟩

/-- Segments whose validity has one canonical form are valid at the same instants. -/
theorem Segment.activeAt_congr {s s' : Segment} {v v' : Json} (h : s.canonicalValid = .ok v)
    (h' : s'.canonicalValid = .ok v') (hsame : v.same v' = true)
    (hstart : ReadTogether s.validFrom s'.validFrom)
    (hstop : ReadTogether s.validUntil s'.validUntil) (t : Instant) :
    s.activeAt t = s'.activeAt t := by
  obtain ⟨ms, start, rfl, hnd, hfrom, hfromAt, huntil⟩ := Segment.canonicalValid_spec h
  obtain ⟨ms', start', rfl, -, hfrom', hfromAt', huntil'⟩ := Segment.canonicalValid_spec h'
  have hstartAt := sameAt_of_same hnd hsame (str "from")
  have hstopAt := sameAt_of_same hnd hsame (str "until")
  rw [SameAt, hfromAt, hfromAt', Option.rel_some_some] at hstartAt
  obtain rfl := eq_of_same_str hstartAt
  have hread := hstart.rfc3339_eq hfrom hfrom'
  unfold Segment.activeAt
  rw [hread]
  rcases huntil with ⟨hnone, hat⟩ | ⟨stop, hsome, hstop', hat⟩
  · rcases huntil' with ⟨hnone', -⟩ | ⟨stop', -, -, hat'⟩
    · rw [hnone, hnone']
    · rw [SameAt, hat, hat'] at hstopAt
      cases hstopAt
  · rcases huntil' with ⟨-, hat'⟩ | ⟨stop', hsome', hstop'', hat'⟩
    · rw [SameAt, hat, hat'] at hstopAt
      cases hstopAt
    · rw [SameAt, hat, hat', Option.rel_some_some] at hstopAt
      obtain rfl := eq_of_same_str hstopAt
      rw [hstop.rfc3339_eq hstop' hstop'']
      simp only [hsome, hsome', if_false]

section
variable [Interp]

/-! ## The parts of a form -/

/-- What a segment's canonical form is made of. -/
structure Segment.Form (s : Segment) (ms atoms : List (Str × Json)) (reads : List Json)
    (valid : Json) : Prop where
  nodup : (ms.map Prod.fst).Nodup
  atoms_spec : List.Forall₂ (fun p q => p.1 = q.1 ∧ p.2.canonical = .ok q.2) s.atoms.entries atoms
  valid_spec : s.canonicalValid = .ok valid
  reads_spec : Canon.sortedSet (s.readFields.map Json.str) = .ok reads
  operation_at : lookup (str "operation") ms = some (.str s.operation)
  atoms_at : lookup (str "atoms") ms = some (.obj atoms)
  reads_at : lookup (str "read_fields") ms = some (.list reads)
  valid_at : lookup (str "valid") ms = some valid

theorem canonicalEntry_eq_ok_iff {p : Str × Atom} {q : Str × Json} :
    (do return (p.1, ← p.2.canonical) : Except Exc (Str × Json)) = .ok q ↔
      p.1 = q.1 ∧ p.2.canonical = .ok q.2 := by
  rw [bind_eq_ok_iff]
  constructor
  · rintro ⟨v, hv, hq⟩
    obtain rfl := pure_eq_ok_iff.mp hq
    exact ⟨rfl, hv⟩
  · rintro ⟨hk, hv⟩
    exact ⟨q.2, hv, pure_eq_ok_iff.mpr (Prod.ext hk rfl)⟩

omit [Interp] in
/-- The definition adds one key, or none. -/
theorem canonicalDefinition_keys {d : Option (List (Str × Json))} {out : List (Str × Json)}
    (h : canonicalDefinition d = .ok out) :
    out.map Prod.fst = [] ∨ out.map Prod.fst = [str "definition"] := by
  unfold canonicalDefinition at h
  split at h
  · exact .inl (by rw [← Except.ok.inj h]; rfl)
  · exact .inl (by rw [← Except.ok.inj h]; rfl)
  · split at h
    · cases h
    · exact .inr (by rw [← Except.ok.inj h]; rfl)

/-- A segment that has a canonical form has it of these parts. -/
theorem Segment.canonical_form {s : Segment} {type : Str} {c : Json}
    (h : s.canonical type = .ok c) :
    ∃ ms atoms reads valid, c = .obj ms ∧ s.Form ms atoms reads valid := by
  unfold Segment.canonical at h
  obtain ⟨atoms, hatoms, h⟩ := bind_eq_ok_iff.mp h
  obtain ⟨valid, hvalid, h⟩ := bind_eq_ok_iff.mp h
  obtain ⟨reads, hreads, h⟩ := bind_eq_ok_iff.mp h
  obtain ⟨writes, -, h⟩ := bind_eq_ok_iff.mp h
  obtain ⟨definition, hdefinition, h⟩ := bind_eq_ok_iff.mp h
  obtain rfl := pure_eq_ok_iff.mp h
  have hentries := (mapM_eq_ok_iff.mp hatoms).imp fun p q hq => canonicalEntry_eq_ok_iff.mp hq
  refine ⟨_, atoms, reads, valid, rfl, ?_, hentries, hvalid, hreads, ?_, ?_, ?_, ?_⟩
  · rcases canonicalDefinition_keys hdefinition with hkeys | hkeys <;>
      simp only [optionalText, List.map_append, hkeys] <;> split_ifs <;> simp [str_inj]
  all_goals simp [lookup, str_inj]

/-- Equal canonical forms are equal but for the definition. -/
theorem Segment.sameForm_of_same {s : Segment} {type : Str} {c c' : Json}
    (hc : s.canonical type = .ok c) (hsame : c.same c' = true) : SameForm c c' := by
  obtain ⟨ms, atoms, reads, valid, rfl, hform⟩ := Segment.canonical_form hc
  cases c' with
  | obj ns => exact fun k _ => sameAt_of_same hform.nodup hsame k
  | _ => cases hsame

/-- Whether a bound is closed, in canonical form. -/
def closedForm : Option Bool → Json
  | none => .null
  | some b => .bool b

/-- One bound of an interval's canonical form, when it is there. -/
def BoundAt (ms : List (Str × Json)) (name : String) (bound : Option Str)
    (closed : Option Bool) : Prop :=
  match bound with
  | none => lookup (str name) ms = none
  | some v => ∃ amount, Canon.decimal v = .ok amount ∧ lookup (str name) ms = some (.str amount) ∧
      lookup (str (name ++ "_closed")) ms = some (closedForm closed)

/-- What a bound adds to the form. -/
theorem canonicalBound_spec {name : String} {bound : Option Str} {closed : Option Bool}
    {out : List (Str × Json)} (h : canonicalBound name bound closed = .ok out) :
    (bound = none ∧ out = []) ∨ ∃ v amount, bound = some v ∧ Canon.decimal v = .ok amount ∧
      out = [(str name, .str amount), (str (name ++ "_closed"), closedForm closed)] := by
  unfold canonicalBound at h
  cases bound with
  | none => exact .inl ⟨rfl, (Except.ok.inj h).symm⟩
  | some v =>
    obtain ⟨amount, hamount, h⟩ := bind_eq_ok_iff.mp h
    refine .inr ⟨v, amount, rfl, hamount, ?_⟩
    cases closed <;> exact (pure_eq_ok_iff.mp h).symm

/-- What an atom's canonical form is made of. -/
structure Atom.Form (a : Atom) (ms : List (Str × Json)) : Prop where
  nodup : (ms.map Prod.fst).Nodup
  kind_at : lookup (str "kind") ms = some (.str a.kind.text)
  values_at : a.kind = .in_ →
    ∃ out, Canon.sortedSet ((a.values.map Canon.text).map Json.str) = .ok out ∧
      lookup (str "values") ms = some (.list out)
  items_at : a.kind = .tree → ∃ out, Canon.sortedSet (a.items.map TreeItem.record) = .ok out ∧
    lookup (str "items") ms = some (.list out)
  currency_at : a.kind = .interval → lookup (str "currency") ms = some (.str a.currency)
  lo_at : a.kind = .interval → BoundAt ms "lo" a.lo a.loClosed
  hi_at : a.kind = .interval → BoundAt ms "hi" a.hi a.hiClosed

theorem Atom.canonical_form {a : Atom} {v : Json} (h : a.canonical = .ok v) :
    ∃ ms, v = .obj ms ∧ a.Form ms := by
  unfold Atom.canonical at h
  dsimp only at h
  cases hk : a.kind with
  | in_ =>
    simp only [hk] at h
    obtain ⟨out, hout, h⟩ := bind_eq_ok_iff.mp h
    obtain rfl := pure_eq_ok_iff.mp h
    refine ⟨_, rfl, ?_⟩
    constructor <;> simp [lookup, str_inj, hk]
    exact hout
  | tree =>
    simp only [hk] at h
    obtain ⟨out, hout, h⟩ := bind_eq_ok_iff.mp h
    obtain rfl := pure_eq_ok_iff.mp h
    refine ⟨_, rfl, ?_⟩
    constructor <;> simp [lookup, str_inj, hk]
    exact hout
  | interval =>
    simp only [hk] at h
    obtain ⟨lo, hlo, h⟩ := bind_eq_ok_iff.mp h
    obtain ⟨hi, hhi, h⟩ := bind_eq_ok_iff.mp h
    obtain rfl := pure_eq_ok_iff.mp h
    refine ⟨_, rfl, ?_⟩
    rcases canonicalBound_spec hlo with ⟨hnone, rfl⟩ | ⟨v, amount, hv, hamount, rfl⟩ <;>
      rcases canonicalBound_spec hhi with ⟨hnone', rfl⟩ | ⟨v', amount', hv', hamount', rfl⟩ <;>
      constructor <;> simp [lookup, str_inj, BoundAt, *]
  | all =>
    simp only [hk] at h
    obtain rfl := pure_eq_ok_iff.mp h
    refine ⟨_, rfl, ?_⟩
    constructor <;> simp [lookup, hk]
  | self_ =>
    simp only [hk] at h
    obtain rfl := pure_eq_ok_iff.mp h
    refine ⟨_, rfl, ?_⟩
    constructor <;> simp [lookup, hk]
  | other text =>
    simp only [hk] at h
    obtain rfl := pure_eq_ok_iff.mp h
    refine ⟨_, rfl, ?_⟩
    constructor <;> simp [lookup, hk]

end

end BeSdk
