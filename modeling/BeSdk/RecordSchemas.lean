/-
BeSdk.RecordSchemas — the forms of JSON Schema the record types are described with: texts
with a pattern, closed lists, arrays of distinct texts, dictionaries by their keys, and
objects with named members.

Each form is a `Records.Schema`: beside what it accepts stands the proof that it does not
look at the order of members. Arrays are only ever arrays of texts, so that
`uniqueItems` compares texts. No float comes out of the parser, so `integer` is
about integers alone.
-/
import BeSdk.RecordsTheorems

namespace BeSdk

/-! ## Equal dictionaries -/

/-- Members are the same where each has its counterpart. -/
theorem sameMembers_iff_lookup : ∀ {ms ns : List (Str × Json)},
    sameMembers ms ns = true ↔ ∀ m ∈ ms, ∃ w, lookup m.1 ns = some w ∧ m.2.same w = true
  | [], ns => by simp [sameMembers]
  | (k, v) :: ms, ns => by
      rw [sameMembers, Bool.and_eq_true, sameMembers_iff_lookup, List.forall_mem_cons]
      refine and_congr_left fun _ => ?_
      cases lookup k ns <;> simp

/-- Equal dictionaries have the same keys. -/
theorem keys_of_same {ms ns : List (Str × Json)} (hm : (ms.map Prod.fst).Nodup)
    (h : (Json.obj ms).same (.obj ns) = true) : (ms.map Prod.fst).Perm (ns.map Prod.fst) := by
  rw [Json.same, Bool.and_eq_true, beq_iff_eq, sameMembers_iff_lookup] at h
  obtain ⟨hlength, hmembers⟩ := h
  have hsubset : ms.map Prod.fst ⊆ ns.map Prod.fst := by
    intro k hk
    obtain ⟨m, hm, rfl⟩ := List.mem_map.mp hk
    obtain ⟨w, hw, -⟩ := hmembers m hm
    exact List.mem_map.mpr ⟨_, mem_of_lookup hw, rfl⟩
  exact (List.subperm_of_subset hm hsubset).perm_of_length_le (by simp [hlength])

/-- Every member of one has its equal in the other, and the other way round. -/
theorem members_of_same {ms ns : List (Str × Json)} (hm : (ms.map Prod.fst).Nodup)
    (hn : (ns.map Prod.fst).Nodup) (h : (Json.obj ms).same (.obj ns) = true) :
    (∀ m ∈ ms, ∃ w, (m.1, w) ∈ ns ∧ m.2.same w = true) ∧ ∀ n ∈ ns, ∃ v, (n.1, v) ∈ ms ∧
    v.same n.2 = true := by
  have hperm := keys_of_same hm h
  rw [Json.same, Bool.and_eq_true, sameMembers_iff_lookup] at h
  have hforth : ∀ m ∈ ms, ∃ w, (m.1, w) ∈ ns ∧ m.2.same w = true := by
    intro m hmem
    obtain ⟨w, hw, hsame⟩ := h.2 m hmem
    exact ⟨w, mem_of_lookup hw, hsame⟩
  refine ⟨hforth, fun n hmem => ?_⟩
  obtain ⟨m, hmm, hkey⟩ := List.mem_map.mp (hperm.mem_iff.mpr (List.mem_map_of_mem hmem))
  obtain ⟨w, hw, hsame⟩ := hforth m hmm
  have hvalue : w = n.2 := by
    have hlookup := lookup_of_mem hn hw
    rw [hkey, lookup_of_mem hn hmem] at hlookup
    exact (Option.some.inj hlookup).symm
  exact ⟨m.2, hkey ▸ hmm, hvalue ▸ hsame⟩

namespace Records

/-! ## The forms -/

def textIs (p : Str → Bool) : Json → Bool
  | .str s => p s
  | _ => false

def asText : Json → Option Str
  | .str s => some s
  | _ => none

/-- An array of distinct texts. -/
def textsAre (p : Str → Bool) : Json → Bool
  | .list xs =>
      match xs.mapM asText with
      | some ss => ss.all p && decide ss.Nodup
      | none => false
  | _ => false

/-- Every member is what its key asks for. -/
def membersAre (q : Str → Json → Bool) : Json → Bool
  | .obj ms => ms.all fun m => q m.1 m.2
  | _ => false

/-- `required` -/
def hasMembers (names : List Str) : Json → Bool
  | .obj ms => names.all fun k => decide (k ∈ ms.map Prod.fst)
  | _ => false

/-- A member by its key: its own schema, or none (`additionalProperties: false`). -/
def propertyIs (properties : List (Str × Schema)) (k : Str) (v : Json) : Bool :=
  match lookup k properties with
  | some s => s.accepts v
  | none => false

theorem textIs_same {p : Str → Bool} {v w : Json} (h : v.same w = true) :
    textIs p v = textIs p w := by
  cases v <;> cases w <;> simp_all [Json.same, textIs]

theorem asText_same {v w : Json} (h : v.same w = true) : asText v = asText w := by
  cases v <;> cases w <;> simp_all [Json.same, asText]

/-- Lists that are the same have the same texts. -/
theorem mapM_asText_same : ∀ {xs ys : List Json}, sameElems xs ys = true →
    xs.mapM asText = ys.mapM asText
  | [], [], _ => rfl
  | x :: xs, y :: ys, h => by
      rw [sameElems, Bool.and_eq_true] at h
      rw [List.mapM_cons, List.mapM_cons, asText_same h.1, mapM_asText_same h.2]
  | [], _ :: _, h => by cases h
  | _ :: _, [], h => by cases h

theorem textsAre_same {p : Str → Bool} {v w : Json} (h : v.same w = true) :
    textsAre p v = textsAre p w := by
  cases v with
  | list xs =>
      cases w with
      | list ys => rw [textsAre, textsAre, mapM_asText_same h]
      | _ => cases h
  | null | bool | int | float | str | obj => cases w <;> first | rfl | cases h

/-- A condition on each member does not look at their order. -/
theorem membersAre_same {q : Str → Json → Bool}
    (hq : ∀ k v w, v.Distinct → w.Distinct → v.same w = true → q k v = q k w) {v w : Json}
    (hv : v.Distinct) (hw : w.Distinct) (h : v.same w = true) :
    membersAre q v = membersAre q w := by
  cases v with
  | obj ms =>
      cases w with
      | obj ns =>
          obtain ⟨hforth, hback⟩ := members_of_same hv.1 hw.1 h
          have hms := distinctMembers_iff.mp hv.2
          have hns := distinctMembers_iff.mp hw.2
          rw [membersAre, membersAre, Bool.eq_iff_iff, List.all_eq_true, List.all_eq_true]
          constructor
          · intro hall n hn
            obtain ⟨x, hx, hsame⟩ := hback n hn
            rw [← hq n.1 x n.2 (hms _ hx) (hns _ hn) hsame]
            exact hall _ hx
          · intro hall m hm
            obtain ⟨y, hy, hsame⟩ := hforth m hm
            rw [hq m.1 m.2 y (hms _ hm) (hns _ hy) hsame]
            exact hall _ hy
      | _ => cases h
  | null | bool | int | float | str | list => cases w <;> first | rfl | cases h

/-- Objects that are the same have the same members. -/
theorem hasMembers_same {names : List Str} {v w : Json} (hv : v.Distinct) (h : v.same w = true) :
    hasMembers names v = hasMembers names w := by
  cases v with
  | obj ms =>
      cases w with
      | obj ns =>
          rw [hasMembers, hasMembers]
          simp only [(keys_of_same hv.1 h).mem_iff]
      | _ => cases h
  | null | bool | int | float | str | list => cases w <;> first | rfl | cases h

/-! ## Schemas -/

/-- `{}` -/
def Schema.any : Schema := ⟨fun _ => true, fun _ _ _ _ _ => rfl⟩

/-- A string with a pattern. -/
def Schema.text (p : Str → Bool) : Schema := ⟨textIs p, fun _ _ _ _ => textIs_same⟩

/-- A closed list of strings. -/
def Schema.oneOf (values : List Str) : Schema := Schema.text fun s => decide (s ∈ values)

def Schema.boolean : Schema where
  accepts
    | .bool _ => true
    | _ => false
  unordered v w _ _ h := by cases v <;> cases w <;> first | rfl | cases h

/-- An integer between the bounds. -/
def Schema.integer (lo hi : Int) : Schema where
  accepts
    | .int n => decide (lo ≤ n ∧ n ≤ hi)
    | _ => false
  unordered v w _ _ h := by cases v <;> cases w <;> simp_all [Json.same]

/-- An array of distinct strings. -/
def Schema.texts (p : Str → Bool) : Schema := ⟨textsAre p, fun _ _ _ _ => textsAre_same⟩

/-- A dictionary by its keys, every value of one schema. -/
def Schema.map (keys : Str → Bool) (values : Schema) : Schema where
  accepts := membersAre fun k v => keys k && values.accepts v
  unordered _ _ hv hw h :=
    membersAre_same (fun k v w hv hw h => by rw [values.unordered v w hv hw h]) hv hw h

/-- An object with these members and no other, the required ones among them. -/
def Schema.object (properties : List (Str × Schema)) (required : List Str) : Schema where
  accepts v := membersAre (propertyIs properties) v && hasMembers required v
  unordered _ _ hv hw h := by
    rw [hasMembers_same hv h, membersAre_same (fun k v w hv hw h => ?_) hv hw h]
    unfold propertyIs
    split
    · next s _ => exact s.unordered v w hv hw h
    · rfl

/-! ## What they accept -/

/-- An object is accepted where its members are and the required ones are there. -/
theorem Schema.object_accepts {properties : List (Str × Schema)} {required : List Str}
    {ms : List (Str × Json)} : (Schema.object properties required).accepts (.obj ms) = true ↔
      (∀ m ∈ ms, propertyIs properties m.1 m.2 = true) ∧ ∀ k ∈ required, k ∈ ms.map Prod.fst := by
  simp [Schema.object, membersAre, hasMembers]

theorem Schema.map_accepts {keys : Str → Bool} {values : Schema} {ms : List (Str × Json)} :
    (Schema.map keys values).accepts (.obj ms) = true ↔
      ∀ m ∈ ms, keys m.1 = true ∧ values.accepts m.2 = true := by
  simp [Schema.map, membersAre]

theorem mapM_asText_map : ∀ ss : List Str, (ss.map Json.str).mapM asText = some ss
  | [] => rfl
  | s :: ss => by
      rw [List.map_cons, List.mapM_cons, mapM_asText_map ss]
      rfl

/-- A set of texts is accepted where each is, and none is repeated. -/
theorem Schema.texts_accepts {p : Str → Bool} {ss : List Str} :
    (Schema.texts p).accepts (.list (ss.map Json.str)) = true ↔
    (∀ s ∈ ss, p s = true) ∧ ss.Nodup := by
  show textsAre p (.list (ss.map Json.str)) = true ↔ _
  rw [textsAre, mapM_asText_map, Bool.and_eq_true, List.all_eq_true, decide_eq_true_eq]

/-! ## Schemas of ASCII values -/

open Canon (Bounded)

/-- What the schema accepts is made of ASCII texts, Booleans and small integers. -/
def Schema.AsciiOnly (s : Schema) : Prop := ∀ v, s.accepts v = true → v.Plain Ascii Ascii Bounded

theorem Schema.asciiOnly_text {p : Str → Bool} (hp : ∀ s, p s = true → Ascii s) :
    (Schema.text p).AsciiOnly := by
  intro v h
  cases v with
  | str s => exact hp s h
  | _ => cases h

theorem Schema.asciiOnly_oneOf {values : List Str}
    (h : values.all (fun s => s.all fun c => decide (c.val < 0x80)) = true) :
    (Schema.oneOf values).AsciiOnly :=
  Schema.asciiOnly_text fun s hs => ascii_of_all (List.all_eq_true.mp h s (of_decide_eq_true hs))

theorem Schema.asciiOnly_boolean : Schema.boolean.AsciiOnly := by
  intro v h
  cases v with
  | bool b => trivial
  | _ => cases h

/-- Texts of a kind make a plain list. -/
theorem plain_of_mapM_asText {P : Str → Prop} :
    ∀ {xs : List Json} {ss : List Str}, xs.mapM asText = some ss →
    (∀ s ∈ ss, P s) → PlainElems P P Bounded xs
  | [], _, _, _ => trivial
  | x :: xs, ss, h, hss => by
      obtain ⟨s, hs, t, ht, heq⟩ : ∃ s, asText x = some s ∧ ∃ t, xs.mapM asText = some t ∧
        s :: t = ss := by
        simpa [List.mapM_cons, Option.bind_eq_some_iff] using h
      rw [← heq, List.forall_mem_cons] at hss
      refine ⟨?_, plain_of_mapM_asText ht hss.2⟩
      cases x with
      | str y => exact Option.some.inj hs ▸ hss.1
      | _ => cases hs

theorem Schema.asciiOnly_texts {p : Str → Bool} (hp : ∀ s, p s = true → Ascii s) :
    (Schema.texts p).AsciiOnly := by
  intro v h
  cases v with
  | list xs =>
      simp only [Schema.texts, textsAre] at h
      split at h
      · next ss hss =>
        rw [Bool.and_eq_true, List.all_eq_true] at h
        exact plain_of_mapM_asText hss fun s hs => hp s (h.1 s hs)
      · cases h
  | _ => cases h

theorem Schema.asciiOnly_map {keys : Str → Bool} {values : Schema}
    (hkeys : ∀ k, keys k = true → Ascii k) (hvalues : values.AsciiOnly) :
    (Schema.map keys values).AsciiOnly := by
  intro v h
  cases v with
  | obj ms =>
      rw [Schema.map_accepts] at h
      exact plainMembers_iff.mpr fun m hm => ⟨hkeys _ (h m hm).1, hvalues _ (h m hm).2⟩
  | _ => cases h

/-- A member an ASCII property accepts. -/
theorem plain_of_propertyIs {properties : List (Str × Schema)}
    (h : ∀ p ∈ properties, Ascii p.1 ∧ p.2.AsciiOnly)
    {m : Str × Json} (hm : propertyIs properties m.1 m.2 = true) :
    Ascii m.1 ∧ m.2.Plain Ascii Ascii Bounded := by
  unfold propertyIs at hm
  split at hm
  · next s hs =>
    have hmem := h _ (mem_of_lookup hs)
    exact ⟨hmem.1, hmem.2 _ hm⟩
  · cases hm

/-- An object schema of ASCII properties accepts ASCII only. -/
theorem Schema.asciiOnly_object {properties : List (Str × Schema)} {required : List Str}
    (h : ∀ p ∈ properties, Ascii p.1 ∧ p.2.AsciiOnly) :
    (Schema.object properties required).AsciiOnly := by
  intro v hv
  cases v with
  | obj ms =>
      rw [Schema.object_accepts] at hv
      exact plainMembers_iff.mpr fun m hm => plain_of_propertyIs h (hv.1 m hm)
  | _ => cases hv

end Records

end BeSdk
