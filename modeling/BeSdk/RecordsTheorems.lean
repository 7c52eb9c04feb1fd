/-
BeSdk.RecordsTheorems — what is sealed can be opened, where its text is in NFC.

The sealer writes the texts and keys of a record as they are; the reader refuses bytes
that are not those of the normalized value. `nfc_of_opens` and `opens_of_nfc` say that
nothing else comes between them: the digest is of the same bytes, the schema judges
the same value, and the parser undoes the encoder.
-/
import BeSdk.Records

namespace BeSdk

/-! ## Normal forms -/

/-- What NFC does by its definition: normalized text stays as it is, and ASCII text is
normalized. -/
structure NormalForm [Interp] : Prop where
  idempotent : ∀ s, Canon.text (Canon.text s) = Canon.text s
  ascii : ∀ s : Str, (∀ c ∈ s, c.val < 0x80) → Canon.text s = s

/-- Every text and key is its own NFC. -/
def Json.Normalized [Interp] (v : Json) : Prop := v.Strings fun s => Canon.text s = s

theorem stringsMembers_iff {P : Str → Prop} {ms : List (Str × Json)} :
    StringsMembers P ms ↔ ∀ m ∈ ms, P m.1 ∧ m.2.Strings P := by
  induction ms with
  | nil => simp [StringsMembers]
  | cons m ms ih => rw [StringsMembers, ih, List.forall_mem_cons, and_assoc]

mutual

/-- What holds of every text holds of a value's texts. -/
theorem strings_of_forall {P : Str → Prop} (h : ∀ s, P s) : ∀ v : Json, v.Strings P
  | .null => trivial
  | .bool _ => trivial
  | .int _ => trivial
  | .float _ => trivial
  | .str s => h s
  | .list xs => stringsElems_of_forall h xs
  | .obj ms => stringsMembers_of_forall h ms

theorem stringsElems_of_forall {P : Str → Prop} (h : ∀ s, P s) : ∀ xs : List Json, StringsElems P xs
  | [] => trivial
  | x :: xs => ⟨strings_of_forall h x, stringsElems_of_forall h xs⟩

theorem stringsMembers_of_forall {P : Str → Prop} (h : ∀ s, P s) :
    ∀ ms : List (Str × Json), StringsMembers P ms
  | [] => trivial
  | (k, v) :: ms => ⟨h k, strings_of_forall h v, stringsMembers_of_forall h ms⟩

end

/-- Members in two lists repeat no key inside where neither does. -/
theorem distinctMembers_append {ms ns : List (Str × Json)} (hm : DistinctMembers ms)
    (hn : DistinctMembers ns) : DistinctMembers (ms ++ ns) :=
  distinctMembers_iff.mpr fun m hmem =>
    (List.mem_append.mp hmem).elim (distinctMembers_iff.mp hm m) (distinctMembers_iff.mp hn m)

/-! ## ASCII -/

/-- Characters of ASCII. -/
def Ascii (s : Str) : Prop := ∀ c ∈ s, c.val < 0x80

theorem ascii_of_all {s : Str} (h : (s.all fun c => decide (c.val < 0x80)) = true) : Ascii s :=
  fun c hc => of_decide_eq_true (List.all_eq_true.mp h c hc)

theorem Ascii.append {s t : Str} (hs : Ascii s) (ht : Ascii t) : Ascii (s ++ t) :=
  fun c hc => (List.mem_append.mp hc).elim (hs c) (ht c)

theorem Ascii.cons {c : CodePoint} {s : Str} (hc : c.val < 0x80) (hs : Ascii s) : Ascii (c :: s) :=
  List.forall_mem_cons.mpr ⟨hc, hs⟩

namespace Canon

theorem clean_of_ascii {s : Str} (h : Ascii s) : Clean s :=
  hasSurrogate_eq_false.mpr fun c hc => by
    simpa [isSurrogate] using fun hlo => by have := h c hc; omega

mutual

/-- A sorted value has the texts of the value. -/
theorem strings_sorted {P : Str → Prop} : ∀ v : Json, (sorted v).Strings P ↔ v.Strings P
  | .null => Iff.rfl
  | .bool _ => Iff.rfl
  | .int _ => Iff.rfl
  | .float _ => Iff.rfl
  | .str _ => Iff.rfl
  | .list xs => stringsElems_sorted xs
  | .obj ms => by
      rw [sorted, Json.Strings, Json.Strings, ← stringsMembers_sorted ms, stringsMembers_iff,
        stringsMembers_iff]
      simp only [mem_sortMembers]

theorem stringsElems_sorted {P : Str → Prop} : ∀ xs : List Json,
    StringsElems P (sortedElems xs) ↔ StringsElems P xs
  | [] => Iff.rfl
  | x :: xs => and_congr (strings_sorted x) (stringsElems_sorted xs)

theorem stringsMembers_sorted {P : Str → Prop} : ∀ ms : List (Str × Json),
    StringsMembers P (sortedMembers ms) ↔ StringsMembers P ms
  | [] => Iff.rfl
  | (_, v) :: ms => and_congr Iff.rfl (and_congr (strings_sorted v) (stringsMembers_sorted ms))

end

section
variable [Interp]

mutual

/-- Normalizing leaves normalized texts and keys. -/
theorem normalized_nfc (hnf : NormalForm) : ∀ v : Json, (nfc v).Normalized
  | .null => trivial
  | .bool _ => trivial
  | .int _ => trivial
  | .float _ => trivial
  | .str s => hnf.idempotent s
  | .list xs => normalizedElems_nfc hnf xs
  | .obj ms => stringsMembers_iff.mpr fun m hm =>
      stringsMembers_iff.mp (normalizedMembers_nfc hnf ms) m (Dict.mem_pairs_of_mem_ofPairs hm)

theorem normalizedElems_nfc (hnf : NormalForm) :
    ∀ xs : List Json, StringsElems (fun s => text s = s) (nfcElems xs)
  | [] => trivial
  | x :: xs => ⟨normalized_nfc hnf x, normalizedElems_nfc hnf xs⟩

theorem normalizedMembers_nfc (hnf : NormalForm) : ∀ ms : List (Str × Json),
    StringsMembers (fun s => text s = s) (nfcMembers ms)
  | [] => trivial
  | (k, v) :: ms => ⟨hnf.idempotent k, normalized_nfc hnf v, normalizedMembers_nfc hnf ms⟩

end

/-- What the parser accepts is normalized. -/
theorem normalized_of_parse (hnf : NormalForm)
    {v : Json} {raw : Bytes} (h : parse raw = .ok v) : v.Normalized := by
  rw [sorted_nfc_of_parse h]
  exact (strings_sorted _).mpr (normalized_nfc hnf v)

mutual

/-- What the encoder takes, with its texts and keys normalized. -/
theorem plain_normalized {I : Int → Prop} : ∀ v : Json, v.Plain Clean Clean I → v.Normalized →
    v.Plain (fun s => text s = s ∧ Clean s) (fun s => text s = s ∧ Clean s) I
  | .null, h, _ => h.elim
  | .bool _, _, _ => trivial
  | .int _, h, _ => h
  | .float _, h, _ => h.elim
  | .str _, h, hs => ⟨hs, h⟩
  | .list xs, h, hs => plainElems_normalized xs h hs
  | .obj ms, h, hs => plainMembers_normalized ms h hs

theorem plainElems_normalized {I : Int → Prop} : ∀ xs : List Json, PlainElems Clean Clean I xs →
    StringsElems (fun s => text s = s) xs → PlainElems (fun s => text s = s ∧ Clean s)
    (fun s => text s = s ∧ Clean s) I xs
  | [], _, _ => trivial
  | x :: xs, h, hs => ⟨plain_normalized x h.1 hs.1, plainElems_normalized xs h.2 hs.2⟩

theorem plainMembers_normalized {I : Int → Prop} :
    ∀ ms : List (Str × Json), PlainMembers Clean Clean I ms →
    StringsMembers (fun s => text s = s) ms →
    PlainMembers (fun s => text s = s ∧ Clean s) (fun s => text s = s ∧ Clean s) I ms
  | [], _, _ => trivial
  | (_, v) :: ms, h, hs =>
      ⟨⟨hs.1, h.1⟩, plain_normalized v h.2.1 hs.2.1, plainMembers_normalized ms h.2.2 hs.2.2⟩

end

end

end Canon

namespace Records

open Canon

/-! ## Required features -/

theorem checkFeature_ne_ok (recordType : Str) (f : Json) : checkFeature recordType f ≠ .ok () := by
  cases f <;> simp [checkFeature, knownFeatures]

/-- Only an empty list of features is accepted. -/
theorem forM_checkFeature {α : Type} (recordType : Str) (g : α → Json) : ∀ fs : List α,
    fs.forM (fun f => checkFeature recordType (g f)) = .ok () ↔ fs.isEmpty = true
  | [] => by simp [pure, Except.pure]
  | f :: fs => by
      rw [List.forM, bind_eq_ok_iff]
      constructor
      · rintro ⟨⟨⟩, h, -⟩
        exact absurd h (checkFeature_ne_ok recordType (g f))
      · intro h
        cases h

/-- No feature is known, so a record may require none. -/
theorem checkFeatures_eq_ok_iff {recordType : Str} {ms : List (Str × Json)} :
    checkFeatures recordType ms = .ok () ↔ ∀ v, lookup (str "required_features") ms = some v →
    truthy v = false := by
  unfold checkFeatures
  split
  · next hnone => simp [hnone]
  · next v hv =>
    rw [hv]
    constructor
    · intro h w hw
      cases hw
      by_contra htruthy
      rw [Bool.not_eq_false] at htruthy
      rw [if_pos htruthy] at h
      cases v with
      | list fs =>
          have hempty := (forM_checkFeature recordType id fs).mp h
          rw [truthy, hempty] at htruthy
          cases htruthy
      | str s =>
          have hempty := (forM_checkFeature recordType (fun c => Json.str [c]) s).mp h
          rw [truthy, hempty] at htruthy
          cases htruthy
      | obj fs =>
          have hempty := (forM_checkFeature recordType (fun f => Json.str f.1) fs).mp h
          rw [truthy, hempty] at htruthy
          cases htruthy
      | null | bool | int | float => cases h
    · intro h
      rw [h v rfl]
      rfl

theorem isEmpty_sortMembers (ms : List (Str × Json)) :
    (sortMembers (sortedMembers ms)).isEmpty = ms.isEmpty := by
  have hlength : (sortMembers (sortedMembers ms)).length = ms.length := by
    rw [(perm_sortMembers _).length_eq, sortedMembers_eq_map, List.length_map]
  cases ms with
  | nil => rw [List.isEmpty_iff_length_eq_zero.mpr hlength]; rfl
  | cons m ms =>
      rw [List.length_cons] at hlength
      cases hsorted : sortMembers (sortedMembers (m :: ms)) with
      | nil =>
          rw [hsorted] at hlength
          cases hlength
      | cons => rfl

theorem truthy_sorted (v : Json) : truthy (sorted v) = truthy v := by
  cases v with
  | list xs => cases xs <;> rfl
  | obj ms => rw [sorted, truthy, truthy, isEmpty_sortMembers]
  | null | bool | int | float | str => rfl

/-- The order of the members does not matter. -/
theorem checkFeatures_sorted {recordType : Str} {ms : List (Str × Json)}
    (hd : (ms.map Prod.fst).Nodup) (h : checkFeatures recordType ms = .ok ()) :
    checkFeatures recordType (sortMembers (sortedMembers ms)) = .ok () := by
  rw [checkFeatures_eq_ok_iff] at h ⊢
  intro w hw
  have hmem := mem_sortMembers.mp (mem_of_lookup hw)
  rw [sortedMembers_eq_map] at hmem
  obtain ⟨⟨k, v⟩, hv, heq⟩ := List.mem_map.mp hmem
  cases heq
  rw [truthy_sorted]
  exact h v (lookup_of_mem hd hv)

/-! ## Opening what was sealed -/

section
variable {schemas : Str → Option Schema} [Interp] {recordType : Str} {ms : List (Str × Json)}
    {raw : Bytes} {digest : Str}

omit [Interp] in
/-- A sealed record is the encoding with its digest. -/
theorem seal_spec {v : Json} (h : seal_ recordType v = .ok (raw, digest)) :
    encode v = .ok raw ∧ digestBytes recordType major raw = .ok digest := by
  simp only [seal_, bind_eq_ok_iff, pure_eq_ok_iff] at h
  obtain ⟨raw', hraw, digest', hdigest, heq⟩ := h
  cases heq
  exact ⟨hraw, hdigest⟩

/-- A record whose texts and keys are normalized opens as it was. -/
theorem opens_of_nfc (hd : (Json.obj ms).Distinct)
    (hseal : seal_ recordType (.obj ms) = .ok (raw, digest))
    (hvalid : validate schemas recordType (.obj ms) = .ok ())
    (hfeatures : checkFeatures recordType ms = .ok ()) (hnfc : (Json.obj ms).Normalized) :
    open_ schemas recordType raw digest = .ok (sorted (.obj ms)) ∧
    (sorted (.obj ms)).same (.obj ms) = true := by
  obtain ⟨hraw, hdigest⟩ := seal_spec hseal
  have hrecord : Record (.obj ms) := ⟨plain_normalized _ (encode_eq_ok_iff.mp hraw).1 hnfc, hd⟩
  have hsame : (sorted (.obj ms)).same (.obj ms) = true :=
    (same_iff _ _ hrecord.sorted.clean hrecord.clean hrecord.sorted.distinct
      hrecord.distinct).mpr (sorted_sorted _)
  have hvalid' : validate schemas recordType (sorted (.obj ms)) = .ok () := by
    unfold validate at hvalid ⊢
    split at hvalid
    · cases hvalid
    · next s _ =>
      rwa [s.unordered _ _ hrecord.sorted.distinct hd hsame]
  refine ⟨?_, hsame⟩
  simp only [open_, openWith, parse_encode hrecord hraw, hdigest, ne_eq, not_true_eq_false,
    if_false, hvalid']
  rw [sorted]
  simp only [checkFeatures_sorted hd.1 hfeatures]
  rfl

/-- A record that opens has normalized texts and keys. -/
theorem nfc_of_opens (hnf : NormalForm) (hd : (Json.obj ms).Distinct)
    (hseal : seal_ recordType (.obj ms) = .ok (raw, digest))
    {w : Json} (hopen : open_ schemas recordType raw digest = .ok w) :
    (Json.obj ms).Normalized := by
  obtain ⟨hplain, hbytes⟩ := encode_eq_ok_iff.mp (seal_spec hseal).1
  have hdecode : decode raw = some (sorted (.obj ms)) :=
    decode_of_utf8Encode ((plain_sorted _).mpr hplain) ((distinct_sorted _).mpr hd) hbytes
  unfold open_ openWith at hopen
  split at hopen
  · cases hopen
  · cases hopen
  · next v hparse =>
    obtain rfl := Option.some.inj (hdecode.symm.trans (of_parse hparse).1)
    exact (strings_sorted _).mp (normalized_of_parse hnf hparse)

/-- A sealed and valid record opens exactly where its texts and keys are normalized. -/
theorem opens_iff (hnf : NormalForm) (hd : (Json.obj ms).Distinct)
    (hseal : seal_ recordType (.obj ms) = .ok (raw, digest))
    (hvalid : validate schemas recordType (.obj ms) = .ok ())
    (hfeatures : checkFeatures recordType ms = .ok ()) :
    (∃ w, open_ schemas recordType raw digest = .ok w ∧ w.same (.obj ms) = true) ↔
    (Json.obj ms).Normalized :=
  ⟨fun ⟨_, hopen, _⟩ => nfc_of_opens hnf hd hseal hopen,
    fun h => ⟨_, opens_of_nfc hd hseal hvalid hfeatures h⟩⟩

/-- What opens has passed its schema. -/
theorem valid_of_opens (hd : (Json.obj ms).Distinct)
    (hseal : seal_ recordType (.obj ms) = .ok (raw, digest)) {w : Json}
    (hopen : open_ schemas recordType raw digest = .ok w) :
    validate schemas recordType (.obj ms) = .ok () := by
  obtain ⟨hraw, hdigest⟩ := seal_spec hseal
  obtain ⟨hplain, hbytes⟩ := encode_eq_ok_iff.mp hraw
  have hds : (sorted (.obj ms)).Distinct := (distinct_sorted _).mpr hd
  have hdecode : decode raw = some (sorted (.obj ms)) :=
    decode_of_utf8Encode ((plain_sorted _).mpr hplain) hds hbytes
  have hsame : (sorted (.obj ms)).same (.obj ms) = true :=
    (same_iff _ _ ((plain_sorted _).mpr hplain) hplain hds hd).mpr (sorted_sorted _)
  unfold open_ openWith at hopen
  split at hopen
  · cases hopen
  · cases hopen
  · next v hparse =>
    obtain rfl := Option.some.inj (hdecode.symm.trans (of_parse hparse).1)
    simp only [hdigest, ne_eq, not_true_eq_false, if_false, bind_eq_ok_iff] at hopen
    obtain ⟨⟨⟩, hvalid, -⟩ := hopen
    unfold validate at hvalid ⊢
    split at hvalid
    · cases hvalid
    · next s _ =>
      rwa [← s.unordered _ _ hds hd hsame]

/-- A record of ASCII texts is sealed, and it opens as it was exactly where its schema
accepts it. -/
theorem sealed_opens_iff (hnf : NormalForm) (htype : Ascii recordType) (hd : (Json.obj ms).Distinct)
    (hfeatures : checkFeatures recordType ms = .ok ())
    (hascii : validate schemas recordType (.obj ms) = .ok () →
      (Json.obj ms).Plain Ascii Ascii Bounded) :
    (∃ raw digest w, seal_ recordType (.obj ms) = .ok (raw, digest) ∧
      open_ schemas recordType raw digest = .ok w ∧ w.same (.obj ms) = true) ↔
      validate schemas recordType (.obj ms) = .ok () := by
  constructor
  · rintro ⟨raw, digest, w, hseal, hopen, -⟩
    exact valid_of_opens hd hseal hopen
  · intro hvalid
    have hplain := hascii hvalid
    obtain ⟨raw, hraw⟩ := exists_encode (hplain.mono (fun _ => clean_of_ascii)
      (fun _ => clean_of_ascii) fun _ h => h)
    have hhead : Ascii (recordType ++ str ".v" ++ natText major ++ [0x0A]) :=
      ((htype.append (ascii_of_all rfl)).append (ascii_of_all rfl)).append (ascii_of_all rfl)
    obtain ⟨head, hhead⟩ := utf8Encode_isSome (hasSurrogate_eq_false.mp (clean_of_ascii hhead))
    have hseal : seal_ recordType (.obj ms) =
      .ok (raw, str "sha256:" ++ sha256Hex (head ++ raw)) := by
      simp only [seal_, hraw, digestBytes, utf8_eq_ok_iff.mpr hhead]
      rfl
    have hnfc : (Json.obj ms).Normalized :=
      (hplain.mono (fun s hs => hnf.ascii s hs) (fun s hs => hnf.ascii s hs)
      fun _ h => h).strings
    obtain ⟨hopen, hsame⟩ := opens_of_nfc hd hseal hvalid hfeatures hnfc
    exact ⟨raw, _, _, hseal, hopen, hsame⟩

end

end Records

end BeSdk
