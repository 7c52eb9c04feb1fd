/-
BeSdk.Audit.RecordTheorems — what is sealed can be opened, and where not.

The body of an audit record is a dictionary whatever its parts are (`body_distinct`),
and requires no feature; its texts are those of the record, besides keys, an ID and a
time in ASCII (`body_normalized_iff`). So a stored record opens at the receiver exactly
where those texts are in NFC; `_insert` checks the schema, and nothing checks that.

* `sealed_opens`: a sealed and valid record opens as it was exactly where its texts and
  keys are in NFC, and so does a stored audit record.
-/
import BeSdk.Audit.Record
import BeSdk.RecordsTheorems

namespace BeSdk

/-! ## Dictionaries -/

mutual

/-- A value that keeps the last of equal keys repeats none. -/
theorem distinct_dedupe : ∀ v : Json, v.dedupe.Distinct
  | .null => trivial
  | .bool _ => trivial
  | .int _ => trivial
  | .float _ => trivial
  | .str _ => trivial
  | .list xs => distinctElems_dedupe xs
  | .obj ms => ⟨(Dict.ofPairs (dedupeMembers ms)).nodup, distinctMembers_iff.mpr fun m hm =>
      distinctMembers_iff.mp (distinctMembers_dedupe ms) m (Dict.mem_pairs_of_mem_ofPairs hm)⟩

theorem distinctElems_dedupe : ∀ xs : List Json, DistinctElems (dedupeList xs)
  | [] => trivial
  | x :: xs => ⟨distinct_dedupe x, distinctElems_dedupe xs⟩

theorem distinctMembers_dedupe : ∀ ms : List (Str × Json), DistinctMembers (dedupeMembers ms)
  | [] => trivial
  | (_, v) :: ms => ⟨distinct_dedupe v, distinctMembers_dedupe ms⟩

end

namespace Audit

open Canon

/-- Dropping nulls leaves the other keys in their order. -/
theorem keys_dropNulls :
    ∀ ms : List (Str × Json), ((dropNullsMembers ms).map Prod.fst).Sublist (ms.map Prod.fst)
  | [] => .slnil
  | (k, v) :: ms => by
      cases v with
      | null => exact (keys_dropNulls ms).cons k
      | bool | int | float | str | list | obj => exact (keys_dropNulls ms).cons_cons k

mutual

/-- Dropping nulls repeats no key. -/
theorem distinct_dropNulls : ∀ v : Json, v.Distinct → (dropNulls v).Distinct
  | .null, _ => trivial
  | .bool _, _ => trivial
  | .int _, _ => trivial
  | .float _, _ => trivial
  | .str _, _ => trivial
  | .list xs, h => distinctElems_dropNulls xs h
  | .obj ms, h => ⟨(keys_dropNulls ms).nodup h.1, distinctMembers_dropNulls ms h.2⟩

theorem distinctElems_dropNulls :
    ∀ xs : List Json, DistinctElems xs → DistinctElems (dropNullsElems xs)
  | [], _ => trivial
  | x :: xs, h => ⟨distinct_dropNulls x h.1, distinctElems_dropNulls xs h.2⟩

theorem distinctMembers_dropNulls :
    ∀ ms : List (Str × Json), DistinctMembers ms → DistinctMembers (dropNullsMembers ms)
  | [], _ => trivial
  | (_, .null) :: ms, h => distinctMembers_dropNulls ms h.2
  | (_, .bool _) :: ms, h => ⟨trivial, distinctMembers_dropNulls ms h.2⟩
  | (_, .int _) :: ms, h => ⟨trivial, distinctMembers_dropNulls ms h.2⟩
  | (_, .float _) :: ms, h => ⟨trivial, distinctMembers_dropNulls ms h.2⟩
  | (_, .str _) :: ms, h => ⟨trivial, distinctMembers_dropNulls ms h.2⟩
  | (_, .list xs) :: ms, h => ⟨distinct_dropNulls (.list xs) h.1, distinctMembers_dropNulls ms h.2⟩
  | (_, .obj fs) :: ms, h => ⟨distinct_dropNulls (.obj fs) h.1, distinctMembers_dropNulls ms h.2⟩

end

/-- A part is a dictionary again. -/
theorem canonMap_distinct {m v : Json} (h : canonMap m = .ok v) : v.Distinct := by
  unfold canonMap at h
  split at h
  · cases h
  · next w _ =>
    cases h
    exact distinct_dropNulls _ (distinct_dedupe w)

/-! ## The body -/

/-- A map adds its member in normal form, or none. -/
theorem mapMember_spec {k : String} {m : Option Json} {l : List (Str × Json)}
    (h : mapMember k m = .ok l) : (m = none ∧ l = []) ∨ ∃ p v, m = some p ∧
    canonMap p = .ok v ∧ l = [(str k, v)] := by
  cases m with
  | none =>
      cases h
      exact .inl ⟨rfl, rfl⟩
  | some p =>
      obtain ⟨v, hv, rfl⟩ := map_eq_ok_iff.mp h
      exact .inr ⟨p, v, rfl, hv, rfl⟩

/-- The keys a body can have. -/
def bodyKeys : List Str :=
  [str "id", str "occurred_at", str "category", str "operation", str "outcome"] ++
    [str "reason"] ++ [str "actor"] ++ [str "represented"] ++ [str "target"] ++
    [str "changes"] ++ [str "request"]

/-- A text adds one member at most. -/
theorem textMember_spec (k : String) (v : Str) :
    ((textMember k v).map Prod.fst).Sublist [str k] ∧ DistinctMembers (textMember k v) := by
  unfold textMember
  split
  · exact ⟨List.nil_sublist _, trivial⟩
  · exact ⟨List.Sublist.refl _, trivial, trivial⟩

/-- A map adds one member at most. -/
theorem mapMember_distinct {k : String} {m : Option Json} {l : List (Str × Json)}
    (h : mapMember k m = .ok l) : (l.map Prod.fst).Sublist [str k] ∧ DistinctMembers l := by
  rcases mapMember_spec h with ⟨-, rfl⟩ | ⟨p, v, -, hv, rfl⟩
  · exact ⟨List.nil_sublist _, trivial⟩
  · exact ⟨List.Sublist.refl _, canonMap_distinct hv, trivial⟩

/-- What a body is made of. -/
theorem body_spec {r : Record} {rid : Str} {at_ : Instant} {ms : List (Str × Json)}
    (h : body r rid at_ = .ok ms) : ∃ t target changes request, time at_ = .ok t ∧
    mapMember "target" r.target = .ok target ∧
      mapMember "changes" r.changes = .ok changes ∧ mapMember "request" r.request = .ok request ∧
      ms = [(str "id", .str rid), (str "occurred_at", .str t), (str "category", .str r.category),
          (str "operation", .str r.operation), (str "outcome", .str r.outcome)] ++
        textMember "reason" r.reason ++ textMember "actor" r.actor ++ textMember "represented"
        r.represented ++ target ++ changes ++ request := by
  simp only [body, bind_eq_ok_iff, pure_eq_ok_iff] at h
  obtain ⟨t, ht, target, htarget, changes, hchanges, request, hrequest, rfl⟩ := h
  exact ⟨t, target, changes, request, ht, htarget, hchanges, hrequest, rfl⟩

/-- A body is a dictionary. -/
theorem body_distinct {r : Record} {rid : Str} {at_ : Instant} {ms : List (Str × Json)}
    (h : body r rid at_ = .ok ms) : (ms.map Prod.fst).Sublist bodyKeys ∧
    (Json.obj ms).Distinct := by
  obtain ⟨t, target, changes, request, -, htarget, hchanges, hrequest, rfl⟩ := body_spec h
  obtain ⟨hreason, hreason'⟩ := textMember_spec "reason" r.reason
  obtain ⟨hactor, hactor'⟩ := textMember_spec "actor" r.actor
  obtain ⟨hrepresented, hrepresented'⟩ := textMember_spec "represented" r.represented
  obtain ⟨htarget, htarget'⟩ := mapMember_distinct htarget
  obtain ⟨hchanges, hchanges'⟩ := mapMember_distinct hchanges
  obtain ⟨hrequest, hrequest'⟩ := mapMember_distinct hrequest
  have hfixed : DistinctMembers [(str "id", .str rid), (str "occurred_at", .str t),
    (str "category", .str r.category),
      (str "operation", .str r.operation), (str "outcome", .str r.outcome)] :=
    ⟨trivial, trivial, trivial, trivial, trivial, trivial⟩
  have hkeys : ∀ ns : List (Str × Json), ns = [(str "id", .str rid), (str "occurred_at", .str t),
      (str "category", .str r.category), (str "operation", .str r.operation),
      (str "outcome", .str r.outcome)] ++
        textMember "reason" r.reason ++ textMember "actor" r.actor ++ textMember "represented"
        r.represented ++ target ++ changes ++ request → (ns.map Prod.fst).Sublist bodyKeys := by
    rintro ns rfl
    simp only [List.map_append]
    exact (((((List.Sublist.refl _).append hreason).append hactor).append hrepresented).append
      htarget |>.append hchanges).append hrequest
  refine ⟨hkeys _ rfl, (hkeys _ rfl).nodup (by decide), ?_⟩
  exact distinctMembers_append (distinctMembers_append
    (distinctMembers_append (distinctMembers_append
      (distinctMembers_append (distinctMembers_append hfixed hreason') hactor') hrepresented')
      htarget') hchanges') hrequest'

/-- An audit record requires no feature. -/
theorem body_features {r : Record} {rid : Str} {at_ : Instant} {ms : List (Str × Json)}
    (h : body r rid at_ = .ok ms) : Records.checkFeatures recordType ms = .ok () := by
  have hnone : lookup (str "required_features") ms = none :=
    lookup_eq_none_iff.mpr fun hmem => absurd ((body_distinct h).1.subset hmem) (by decide)
  unfold Records.checkFeatures
  rw [hnone]

/-! ## Its texts -/

/-- A padded number is ASCII. -/
theorem ascii_padded (width n : Nat) : Ascii (padded width n) := by
  refine Ascii.append (fun c hc => ?_) fun c hc => ?_
  · rw [List.eq_of_mem_replicate hc]
    decide
  · have hrange := digit_range (isDigit_of_mem_natText hc)
    omega

/-- So is a time. -/
theorem ascii_time {i : Instant} {t : Str} (h : time i = .ok t) : Ascii t := by
  unfold time at h
  split at h
  · cases h
  · next d u _ =>
    cases h
    exact (ascii_padded _ _).append <| .cons (by decide) <| (ascii_padded _ _).append <|
      .cons (by decide) <| (ascii_padded _ _).append <| .cons (by decide) <|
      (ascii_padded _ _).append <| .cons (by decide) <| (ascii_padded _ _).append <|
      .cons (by decide) <| (ascii_padded _ _).append <| .cons (by decide) <|
      (ascii_padded _ _).append <| .cons (by decide) fun c hc => by cases hc

/-- So is a UUID. -/
theorem ascii_uuidText (n : Nat) : Ascii (uuidText n) := by
  have hhex : ∀ c ∈ (List.range 32).map fun i => hexDigit (n / 16 ^ (31 - i)), c.val < 0x80 := by
    intro c hc
    obtain ⟨i, -, rfl⟩ := List.mem_map.mp hc
    unfold hexDigit
    split
    · exact Nat.lt_of_lt_of_le (Nat.add_lt_add_left (by assumption) _) (by decide)
    · have hlt := Nat.mod_lt (n / 16 ^ (31 - i)) (show 16 > 0 by decide)
      exact Nat.lt_of_lt_of_le (Nat.add_lt_add_left hlt _) (by decide)
  refine (forall_mem_join (P := fun c => c.val < 0x80) (ascii_of_all (by decide)) _).mpr
    fun part hpart => ?_
  have hmem : ∀ c ∈ part, c ∈ (List.range 32).map fun i => hexDigit (n / 16 ^ (31 - i)) := by
    intro c hc
    simp only [List.mem_cons, List.not_mem_nil, or_false] at hpart
    rcases hpart with rfl | rfl | rfl | rfl | rfl
    · exact List.mem_of_mem_take hc
    · exact List.mem_of_mem_drop (List.mem_of_mem_take hc)
    · exact List.mem_of_mem_drop (List.mem_of_mem_take hc)
    · exact List.mem_of_mem_drop (List.mem_of_mem_take hc)
    · exact List.mem_of_mem_drop hc
  exact fun c hc => hhex c (hmem c hc)

section
variable [Interp]

/-- The texts and keys of a part, as it is written, are in NFC. -/
def PartNormalized (m : Option Json) : Prop := ∀ p v, m = some p → canonMap p = .ok v → v.Normalized

/-- The texts of a record are in NFC. -/
structure Record.Normalized (r : Record) : Prop where
  category : text r.category = r.category
  operation : text r.operation = r.operation
  outcome : text r.outcome = r.outcome
  reason : text r.reason = r.reason
  actor : text r.actor = r.actor
  represented : text r.represented = r.represented
  target : PartNormalized r.target
  changes : PartNormalized r.changes
  request : PartNormalized r.request

/-- A text's member is in normal form where the text is. -/
theorem normalized_textMember (hnf : NormalForm) {k : String} (hk : Ascii (str k)) (v : Str) :
    (∀ m ∈ textMember k v, text m.1 = m.1 ∧ m.2.Normalized) ↔ text v = v := by
  unfold textMember
  split
  · next hempty =>
    obtain rfl := List.isEmpty_iff.mp hempty
    exact ⟨fun _ => hnf.ascii [] (by simp), fun _ => by simp⟩
  · rw [List.forall_mem_singleton]
    exact ⟨fun h => h.2, fun h => ⟨hnf.ascii _ hk, h⟩⟩

/-- A map's member is in normal form where the map is. -/
theorem normalized_mapMember (hnf : NormalForm) {k : String} (hk : Ascii (str k)) {m : Option Json}
    {l : List (Str × Json)} (h : mapMember k m = .ok l) :
    (∀ x ∈ l, text x.1 = x.1 ∧ x.2.Normalized) ↔ PartNormalized m := by
  rcases mapMember_spec h with ⟨rfl, rfl⟩ | ⟨p, v, rfl, hv, rfl⟩
  · exact ⟨fun _ p v hp => (by cases hp), fun _ => by simp⟩
  · rw [List.forall_mem_singleton]
    constructor
    · rintro ⟨-, hn⟩ p' v' hp hv'
      obtain rfl := Option.some.inj hp
      obtain rfl := Except.ok.inj (hv.symm.trans hv')
      exact hn
    · exact fun hn => ⟨hnf.ascii _ hk, hn p v rfl hv⟩

/-- The body's texts and keys are in NFC where the record's are. -/
theorem body_normalized_iff (hnf : NormalForm) {r : Record} {rid : Nat} {at_ : Instant}
    {ms : List (Str × Json)} (h : body r (uuidText rid) at_ = .ok ms) :
    (Json.obj ms).Normalized ↔ r.Normalized := by
  obtain ⟨t, target, changes, request, ht, htarget, hchanges, hrequest, rfl⟩ := body_spec h
  have hid := hnf.ascii _ (ascii_uuidText rid)
  have htime := hnf.ascii _ (ascii_time ht)
  have hfixed :
    (∀ m ∈ [(str "id", Json.str (uuidText rid)), (str "occurred_at", .str t),
      (str "category", .str r.category), (str "operation", .str r.operation),
      (str "outcome", .str r.outcome)], text m.1 = m.1 ∧ m.2.Normalized) ↔
      text r.category = r.category ∧ text r.operation = r.operation ∧
      text r.outcome = r.outcome := by
    simp only [List.forall_mem_cons, List.not_mem_nil, false_implies, implies_true, and_true]
    have hkey : ∀ k : String, Ascii (str k) → text (str k) = str k := fun k hk => hnf.ascii _ hk
    rw [and_iff_right ⟨hkey "id" (ascii_of_all (by decide)), hid⟩,
      and_iff_right ⟨hkey "occurred_at" (ascii_of_all (by decide)), htime⟩,
      and_iff_right (hkey "category" (ascii_of_all (by decide))),
      and_iff_right (hkey "operation" (ascii_of_all (by decide))),
      and_iff_right (hkey "outcome" (ascii_of_all (by decide)))]
    exact Iff.rfl
  rw [Json.Normalized, Json.Strings, stringsMembers_iff]
  simp only [List.forall_mem_append]
  have hreason := normalized_textMember hnf (k := "reason") (ascii_of_all (by decide)) r.reason
  have hactor := normalized_textMember hnf (k := "actor") (ascii_of_all (by decide)) r.actor
  have hrepresented := normalized_textMember hnf (k := "represented")
    (ascii_of_all (by decide)) r.represented
  have htarget := normalized_mapMember hnf (ascii_of_all (by decide)) htarget
  have hchanges := normalized_mapMember hnf (ascii_of_all (by decide)) hchanges
  have hrequest := normalized_mapMember hnf (ascii_of_all (by decide)) hrequest
  unfold Json.Normalized at hfixed hreason hactor hrepresented htarget hchanges hrequest
  rw [hfixed, hreason, hactor, hrepresented, htarget, hchanges, hrequest]
  constructor
  · rintro ⟨⟨⟨⟨⟨⟨⟨hc, ho, hu⟩, hre⟩, ha⟩, hrep⟩, hta⟩, hch⟩, hreq⟩
    exact ⟨hc, ho, hu, hre, ha, hrep, hta, hch, hreq⟩
  · intro hr
    exact ⟨⟨⟨⟨⟨⟨⟨hr.category, hr.operation, hr.outcome⟩, hr.reason⟩, hr.actor⟩,
      hr.represented⟩, hr.target⟩, hr.changes⟩, hr.request⟩

/-! ## The law -/

omit [Interp] in
/-- What is inserted is the sealed body. -/
theorem insert_spec {schemas : Str → Option Records.Schema} {r : Record} {rid : Nat}
    {at_ : Instant} {raw : Bytes} {digest : Str}
    (h : insert schemas r rid at_ = .ok (raw, digest)) :
    ∃ ms, body r (uuidText rid) at_ = .ok ms ∧ Records.seal_ recordType (.obj ms) =
    .ok (raw, digest) ∧
      Records.validate schemas recordType (.obj ms) = .ok () := by
  unfold insert at h
  split at h
  · cases h
  · next ms raw' digest' hsealed =>
    simp only [bind_eq_ok_iff, pure_eq_ok_iff] at h
    obtain ⟨⟨⟩, hvalid, heq⟩ := h
    cases heq
    obtain ⟨ms', hbody, hmap⟩ := bind_eq_ok_iff.mp hsealed
    obtain ⟨p, hseal, heq⟩ := map_eq_ok_iff.mp hmap
    cases heq
    exact ⟨ms, hbody, hseal, hvalid⟩

/-- **What is sealed can be opened**, exactly where it is in NFC. A record that `seal`
and `validate` accept, with no feature required, opens as it was if and only if its
texts and keys are in NFC; and a stored audit record opens at the receiver if and only
if the texts it was written with are. -/
theorem sealed_opens (hnf : NormalForm) (schemas : Str → Option Records.Schema) :
    (∀ recordType ms raw digest, (Json.obj ms).Distinct → Records.seal_ recordType (.obj ms) =
      .ok (raw, digest) → Records.validate schemas recordType (.obj ms) = .ok () →
      Records.checkFeatures recordType ms = .ok () →
      ((∃ w, Records.open_ schemas recordType raw digest = .ok w ∧ w.same (.obj ms) = true) ↔
        (Json.obj ms).Normalized)) ∧
    ∀ r rid at_ raw digest, insert schemas r rid at_ = .ok (raw, digest) →
      ((∃ ms w, body r (uuidText rid) at_ = .ok ms ∧ Records.open_ schemas recordType raw
        digest = .ok w ∧ w.same (.obj ms) = true) ↔ r.Normalized) := by
  refine ⟨fun _ _ _ _ hd hseal hvalid hfeatures => Records.opens_iff hnf hd hseal hvalid hfeatures,
    fun r rid at_ raw digest h => ?_⟩
  obtain ⟨ms, hbody, hseal, hvalid⟩ := insert_spec h
  have hiff := Records.opens_iff hnf (body_distinct hbody).2 hseal hvalid (body_features hbody)
  rw [← body_normalized_iff hnf hbody, ← hiff]
  constructor
  · rintro ⟨ms', w, hbody', hopen, hsame⟩
    obtain rfl := Except.ok.inj (hbody.symm.trans hbody')
    exact ⟨w, hopen, hsame⟩
  · rintro ⟨w, hopen, hsame⟩
    exact ⟨ms, w, hbody, hopen, hsame⟩

end

/-- A schema that takes every value. -/
def anything : Records.Schema := ⟨fun _ => true, fun _ _ _ _ _ => rfl⟩

/-- A change of an order's note. -/
def noted (note : Str) : Record :=
  { category := str "business_change", operation := str "demo.order.note",
    outcome := str "succeeded", actor := str "0190f3a1-0000-7000-8000-000000000001",
    changes := some (.obj [(str "note", .str note), (str "old", .null)]) }

theorem sealed_opens_noted :
    (∃ raw digest w, Records.seal_ recordType sampleRecord = .ok (raw, digest) ∧
      @Records.open_ (fun _ => some anything) Interp.ascii recordType raw digest = .ok w ∧
      w.same sampleRecord = true) ∧
    ∃ raw digest ms w, insert (fun _ => some anything)
    (noted (str "cafe")) 1 0 = .ok (raw, digest) ∧
      body (noted (str "cafe")) (uuidText 1) 0 = .ok ms ∧
      @Records.open_ (fun _ => some anything) Interp.ascii recordType raw digest = .ok w ∧
      w.same (.obj ms) = true := by
  have hnf : @NormalForm Interp.ascii := @NormalForm.mk Interp.ascii (fun _ => rfl) fun _ _ => rfl
  have hlaw := @sealed_opens Interp.ascii hnf fun _ => some anything
  constructor
  · obtain ⟨⟨raw, digest⟩, hseal⟩ := exists_ok_of_isSome
      (x := Records.seal_ recordType sampleRecord) (by decide +kernel)
    have hd : sampleRecord.Distinct := ⟨by decide, ⟨trivial, trivial, trivial⟩, trivial, trivial⟩
    obtain ⟨w, hopen, hsame⟩ := (hlaw.1 recordType _ raw digest hd hseal rfl rfl).mpr
      (strings_of_forall (fun _ => rfl) _)
    exact ⟨raw, digest, w, hseal, hopen, hsame⟩
  · obtain ⟨⟨raw, digest⟩, h⟩ := exists_ok_of_isSome
      (x := insert (fun _ => some anything) (noted (str "cafe")) 1 0) (by decide +kernel)
    have hpart : ∀ m, @PartNormalized Interp.ascii m := fun _ _ _ _ _ => strings_of_forall
      (fun _ => rfl) _
    have hrecord : @Record.Normalized Interp.ascii (noted (str "cafe")) :=
      @Record.Normalized.mk Interp.ascii _ rfl rfl rfl rfl rfl rfl (hpart _) (hpart _) (hpart _)
    obtain ⟨ms, w, hbody, hopen, hsame⟩ := (hlaw.2 _ _ _ raw digest h).mpr hrecord
    exact ⟨raw, digest, ms, w, h, hbody, hopen, hsame⟩

/-- Composes `e` and the combining acute accent. -/
def composeAcute : Str → Str
  | a :: b :: rest => if a = chr 'e' ∧ b.val = 0x301 then 0xE9 :: composeAcute rest
      else a :: composeAcute (b :: rest)
  | s => s

/-- The tables on text in ASCII and that accent. -/
abbrev acute : Interp := ⟨composeAcute, fun _ => none, 1000, three_le_thousand⟩

/-- A note with a combining accent is stored, and is refused at the receiver. -/
theorem stored_unopened :
    ¬ ∀ (schemas : Str → Option Records.Schema) r rid at_ raw digest, insert schemas r rid
    at_ = .ok (raw, digest) →
      ∃ ms w, body r (uuidText rid) at_ = .ok ms ∧ @Records.open_ schemas acute recordType raw
      digest = .ok w ∧
        w.same (.obj ms) = true := by
  intro hall
  obtain ⟨⟨raw, digest⟩, h⟩ := exists_ok_of_isSome
    (x := insert (fun _ => some anything) (noted (str "cafe" ++ [0x301])) 1 0) (by decide +kernel)
  obtain ⟨-, w, -, hopen, -⟩ := hall _ _ _ _ raw digest h
  have hparse : (insert (fun _ => some anything) (noted (str "cafe" ++ [0x301])) 1 0).toOption.map
      (fun p => (@parse acute p.1).toOption.isSome) = some false := by decide +kernel
  rw [h] at hparse
  unfold Records.open_ Records.openWith at hopen
  split at hopen
  · cases hopen
  · cases hopen
  · next v hv =>
    rw [Except.toOption, Option.map_some, hv] at hparse
    cases hparse

end Audit

end BeSdk
