/-
BeSdk.OpenTheorems — opening a record fails by refusal, and what else it raises.

The bytes come from another member. Decoding them is total, and so are the checks
that follow; what raises is the encoder between them, which is outside the parser's
`try`: a key or a text with an unpaired surrogate has no bytes. `SurrogateFirst` says
where the encoder meets such a key before anything it refuses, `Unencodable` adds the
texts. The other three are the record type's own text, the lookup of its schema's
file, and a `required_features` that is no list of names.
-/
import BeSdk.RecordsTheorems

namespace BeSdk

namespace Canon

/-! ## What the encoder raises -/

/-- A value whose text the encoder builds; the strings in it may be any. -/
abbrev HasText (v : Json) : Prop := CleanKeys (fun _ => True) Bounded v

/-- The encoder meets an object with a surrogate in a key, and before it nothing that it
refuses: elements in their order, members in the order of their keys. -/
inductive SurrogateFirst : Json → Prop
  | here {ms : List (Str × Json)} : (∃ m ∈ ms, hasSurrogate m.1 = true) → SurrogateFirst (.obj ms)
  | elem {pre post : List Json} {x : Json} : (∀ y ∈ pre, HasText y) → SurrogateFirst x →
      SurrogateFirst (.list (pre ++ x :: post))
  | member {ms pre post : List (Str × Json)} {m : Str × Json} :
      (∀ n ∈ ms, hasSurrogate n.1 = false) → sortMembers ms = pre ++ m :: post →
      (∀ n ∈ pre, HasText n.2) → SurrogateFirst m.2 → SurrogateFirst (.obj ms)

/-- A value that has no bytes though nothing in it is refused first. -/
def Unencodable (v : Json) : Prop := SurrogateFirst v ∨ (HasText v ∧ ¬ v.Plain Clean Clean Bounded)

theorem encodeElems_eq_mapM (xs : List Json) : encodeElems xs = xs.mapM encodeText := by
  induction xs with
  | nil => rfl
  | cons x xs ih => rw [encodeElems, ih, List.mapM_cons]

theorem exists_text_iff (v : Json) : (∃ s, encodeText v = .ok s) ↔ HasText v :=
  ⟨plain_of_encodeText v, fun h => ⟨_, encodeText_of_plain v h⟩⟩

/-- The text of a member. -/
def memberText (m : Str × Json) : Except Exc Str :=
  (encodeText m.2).map fun t => quoted escape m.1 ++ chr ':' :: t

theorem exists_memberText_iff (m : Str × Json) : (∃ s, memberText m = .ok s) ↔ HasText m.2 := by
  rw [← exists_text_iff]
  unfold memberText
  cases encodeText m.2 <;> simp [Except.map]

theorem memberText_error {m : Str × Json} {e : Exc} :
    memberText m = .error e ↔ encodeText m.2 = .error e := by
  unfold memberText
  cases encodeText m.2 <;> simp [Except.map]

/-- An object's text: its keys are looked at first, then its members in order. -/
theorem encodeText_obj_eq (ms : List (Str × Json)) : encodeText (.obj ms) =
    if ∃ m ∈ ms, hasSurrogate m.1 = true then .error .unicodeEncodeError
    else (sortMembers ms).mapM memberText >>= fun parts =>
      .ok (chr '{' :: (Str.join (str ",") parts ++ [chr '}'])) := by
  have hany : (((encodeMembers ms).any fun m => hasSurrogate m.1) = true) ↔
    ∃ m ∈ ms, hasSurrogate m.1 = true := by
    rw [encodeMembers_eq_map, List.any_map, List.any_eq_true]
    rfl
  have hsorted : (sortMembers (encodeMembers ms)).mapM (fun m => m.2) = (sortMembers ms).mapM
    memberText := by
    rw [encodeMembers_eq_map, sortMembers_map (fun m => (encodeText m.2).map fun t => quoted
      escape m.1 ++ chr ':' :: t), List.mapM_map]
    rfl
  rw [encodeText, hsorted]
  by_cases hkeys : ∃ m ∈ ms, hasSurrogate m.1 = true
  · rw [if_pos hkeys, if_pos (hany.mpr hkeys)]
  · rw [if_neg hkeys, if_neg (fun h => hkeys (hany.mp h))]
    rfl

/-- A surrogate in a key that is met first raises. -/
theorem encodeText_of_surrogateFirst {v : Json} (h : SurrogateFirst v) :
    encodeText v = .error .unicodeEncodeError := by
  induction h with
  | here hkey => rw [encodeText_obj_eq, if_pos hkey]
  | @elem pre post x hpre _ ih =>
    have hfirst := mapM_append_error post (fun y hy => (exists_text_iff y).mpr (hpre y hy)) ih
    rw [encodeText, encodeElems_eq_mapM, hfirst]
    rfl
  | @member ms pre post m hkeys hsorted hpre _ ih =>
    have hfirst := mapM_append_error post (fun n hn => (exists_memberText_iff n).mpr (hpre n hn))
      (memberText_error.mpr ih)
    rw [encodeText_obj_eq, if_neg (by simpa using hkeys), hsorted, hfirst]
    rfl

/-- What building a text comes to. -/
inductive Built (v : Json) : Prop
  | text (s : Str) : encodeText v = .ok s → Built v
  | refused (r : Refused) : encodeText v = .error (.refused r) → Built v
  | surrogate : SurrogateFirst v → Built v

mutual

theorem built : ∀ v : Json, Built v
  | .null => .refused .null rfl
  | .float _ => .refused .float rfl
  | .bool b => .text (if b then str "true" else str "false") rfl
  | .int n => by
      by_cases hn : maxInt ≤ n.natAbs
      · exact .refused (.integer n) (by rw [encodeText, if_pos hn])
      · exact .text _ (by rw [encodeText, if_neg hn])
  | .str s => .text _ rfl
  | .list xs => by
      rcases forall_ok_or_first_error encodeText xs with hall | ⟨pre, x, post, e, rfl, hpre, hx⟩
      · obtain ⟨parts, hparts⟩ := exists_mapM hall
        exact .text _ (by rw [encodeText, encodeElems_eq_mapM, hparts]; rfl)
      · cases built_elems (pre ++ x :: post) x (by simp) with
        | text s hs => rw [hs] at hx; cases hx
        | refused r hr =>
          have hfirst := mapM_append_error post hpre hr
          exact .refused r (by rw [encodeText, encodeElems_eq_mapM, hfirst]; rfl)
        | surrogate hsur =>
            exact .surrogate (.elem (fun y hy => (exists_text_iff y).mp (hpre y hy)) hsur)
  | .obj ms => by
      by_cases hkeys : ∃ m ∈ ms, hasSurrogate m.1 = true
      · exact .surrogate (.here hkeys)
      rcases forall_ok_or_first_error memberText (sortMembers ms) with hall | ⟨pre, m, post,
        e, hsorted, hpre, hm⟩
      · obtain ⟨parts, hparts⟩ := exists_mapM hall
        exact .text _ (by rw [encodeText_obj_eq, if_neg hkeys, hparts]; rfl)
      · have hmem : m ∈ ms := mem_sortMembers.mp (by rw [hsorted]; simp)
        cases built_members ms m hmem with
        | text s hs => rw [memberText_error, hs] at hm; cases hm
        | refused r hr =>
          have hfirst := mapM_append_error post hpre (memberText_error.mpr hr)
          exact .refused r (by rw [encodeText_obj_eq, if_neg hkeys, hsorted, hfirst]; rfl)
        | surrogate hsur =>
          refine .surrogate (.member (by simpa using hkeys) hsorted ?_ hsur)
          exact fun n hn => (exists_memberText_iff n).mp (hpre n hn)

theorem built_elems : ∀ (xs : List Json), ∀ x ∈ xs, Built x
  | [], _, h => absurd h List.not_mem_nil
  | y :: ys, x, h => by
      rcases List.mem_cons.mp h with heq | hmem
      · exact heq ▸ built y
      · exact built_elems ys x hmem

theorem built_members : ∀ (ms : List (Str × Json)), ∀ m ∈ ms, Built m.2
  | [], _, h => absurd h List.not_mem_nil
  | (k, v) :: ms, m, h => by
      rcases List.mem_cons.mp h with heq | hmem
      · rw [heq]; exact built v
      · exact built_members ms m hmem

end

/-- A text without surrogates has bytes, another raises. -/
theorem utf8_cases (s : Str) : (hasSurrogate s = false ∧ ∃ b, utf8 s = .ok b) ∨
    (hasSurrogate s = true ∧ utf8 s = .error .unicodeEncodeError) := by
  unfold utf8
  cases hs : hasSurrogate s with
  | false =>
    obtain ⟨b, hb⟩ := utf8Encode_isSome (hasSurrogate_eq_false.mp hs)
    exact .inl ⟨rfl, b, by rw [hb]⟩
  | true =>
    refine .inr ⟨rfl, ?_⟩
    cases hb : utf8Encode s with
    | none => rfl
    | some b =>
      rw [hasSurrogate_eq_false.mpr (isSurrogate_of_utf8Encode hb)] at hs
      cases hs

/-- The encoder returns or refuses, unless the value is unencodable. -/
theorem encode_cases (v : Json) :
    (¬ Unencodable v ∧ ((∃ b, encode v = .ok b) ∨ ∃ r, encode v = .error (.refused r))) ∨
    (Unencodable v ∧ encode v = .error .unicodeEncodeError) := by
  cases built v with
  | refused r hr =>
    have hencode : encode v = .error (.refused r) := by rw [encode, hr]; rfl
    refine .inl ⟨?_, .inr ⟨r, hencode⟩⟩
    intro h
    rcases h with hsur | ⟨htext, -⟩
    · rw [encodeText_of_surrogateFirst hsur] at hr
      cases hr
    · rw [encodeText_of_plain v htext] at hr
      cases hr
  | surrogate hsur =>
    exact .inr ⟨.inl hsur, by rw [encode, encodeText_of_surrogateFirst hsur]; rfl⟩
  | text s hs =>
    have htext : HasText v := (exists_text_iff v).mp ⟨s, hs⟩
    by_cases hplain : v.Plain Clean Clean Bounded
    · refine .inl ⟨?_, .inl (exists_encode hplain)⟩
      intro h
      rcases h with hsur | ⟨-, hno⟩
      · rw [encodeText_of_surrogateFirst hsur] at hs
        cases hs
      · exact hno hplain
    · refine .inr ⟨.inr ⟨htext, hplain⟩, ?_⟩
      have hencode : encode v = utf8 s := by rw [encode, hs]; rfl
      rcases utf8_cases s with ⟨-, b, hb⟩ | ⟨-, hraised⟩
      · exact absurd (encode_eq_ok_iff.mp (hencode.trans hb)).1 hplain
      · rw [hencode, hraised]

end Canon

namespace Records

open Canon

/-! ## Required features -/

/-- A `required_features` the loop can go through: a list whose first element has a hash,
a text, a dictionary, or nothing. -/
def featuresReadable : Json → Bool
  | .list (.list _ :: _) => false
  | .list (.obj _ :: _) => false
  | .list _ => true
  | .str _ => true
  | .obj _ => true
  | v => !truthy v

theorem checkFeature_invalid {recordType : Str} {f : Json} (h : ∀ xs, f ≠ .list xs)
    (h' : ∀ ms, f ≠ .obj ms) :
    checkFeature recordType f = .error (.invalid (.feature recordType f)) := by
  cases f with
  | list xs => exact absurd rfl (h xs)
  | obj ms => exact absurd rfl (h' ms)
  | null | bool | int | float | str => simp [checkFeature, knownFeatures]

/-- The loop stops at its first element, none being known. -/
theorem forM_checkFeature_cons {α : Type} (recordType : Str) (g : α → Json) (f : α)
    (fs : List α) {e : Raised} (h : checkFeature recordType (g f) = .error e) :
    (f :: fs).forM (fun x => checkFeature recordType (g x)) = .error e := by
  rw [List.forM, h]
  rfl

theorem checkFeatures_of_readable (recordType : Str) {ms : List (Str × Json)}
    (h : ∀ v, lookup (str "required_features") ms = some v → featuresReadable v = true) :
    checkFeatures recordType ms = .ok () ∨ ∃ i, checkFeatures recordType ms =
    .error (.invalid i) := by
  unfold checkFeatures
  cases hv : lookup (str "required_features") ms with
  | none => exact .inl rfl
  | some v =>
    have hread := h v hv
    dsimp only
    cases htruthy : truthy v with
    | false => exact .inl rfl
    | true =>
      rw [if_pos rfl]
      cases v with
      | null | bool | int | float => simp [featuresReadable, htruthy] at hread
      | str s =>
        cases s with
        | nil => exact .inl rfl
        | cons c s =>
          have hfirst : checkFeature recordType (.str [c]) =
            .error (.invalid (.feature recordType (.str [c]))) :=
            checkFeature_invalid (by simp) (by simp)
          exact .inr ⟨_, forM_checkFeature_cons recordType (fun c => Json.str [c]) c s hfirst⟩
      | obj fs =>
        cases fs with
        | nil => exact .inl rfl
        | cons f fs =>
          have hfirst : checkFeature recordType (.str f.1) =
            .error (.invalid (.feature recordType (.str f.1))) :=
            checkFeature_invalid (by simp) (by simp)
          exact .inr ⟨_, forM_checkFeature_cons recordType
            (fun f : Str × Json => Json.str f.1) f fs hfirst⟩
      | list fs =>
        cases fs with
        | nil => exact .inl rfl
        | cons f fs =>
          have hfirst : checkFeature recordType f = .error (.invalid (.feature recordType f)) := by
            refine checkFeature_invalid ?_ ?_
            · rintro xs rfl
              cases hread
            · rintro ms rfl
              cases hread
          exact .inr ⟨_, forM_checkFeature_cons recordType id f fs hfirst⟩

theorem checkFeatures_of_unreadable {recordType : Str} {ms : List (Str × Json)} {v : Json}
    (hv : lookup (str "required_features") ms = some v) (h : featuresReadable v = false) :
    checkFeatures recordType ms = .error (.exc .typeError) := by
  unfold checkFeatures
  rw [hv]
  dsimp only
  cases v with
  | null => simp [featuresReadable, truthy] at h
  | bool b =>
    have htruthy : truthy (.bool b) = true := by simpa [featuresReadable] using h
    rw [if_pos htruthy]
  | int n =>
    have htruthy : truthy (.int n) = true := by simpa [featuresReadable] using h
    rw [if_pos htruthy]
  | float t => rfl
  | str s => simp [featuresReadable] at h
  | obj ms => simp [featuresReadable] at h
  | list fs =>
    cases fs with
    | nil => simp [featuresReadable] at h
    | cons f fs =>
      cases f with
      | list xs => exact forM_checkFeature_cons recordType id (.list xs) fs rfl
      | obj ns => exact forM_checkFeature_cons recordType id (.obj ns) fs rfl
      | null | bool | int | float | str => simp [featuresReadable] at h

/-! ## Opening -/

/-- What opening a record owes: an object whose canonical bytes and digest are the given
ones, which passes its schema and requires no feature, or a refusal. -/
def Opens (find : Lookup) (recordType : Str) (raw : Bytes) (digest : Str) :
    Except Raised Json → Prop
  | .ok v => encode v = .ok raw ∧ digestBytes recordType major raw = .ok digest ∧
      (∃ s, find recordType = .ok (some s) ∧ s.accepts v = true) ∧
      ∃ ms, v = .obj ms ∧ ∀ w, lookup (str "required_features") ms = some w → truthy w = false
  | .error (.invalid _) => True
  | .error (.exc _) => False

/-- What must hold of the schema found and of an object it accepts. -/
def Checkable (find : Lookup) (recordType : Str) (v : Json) : Prop :=
  (∀ e, find recordType ≠ .error e) ∧ ∀ s ms, find recordType = .ok (some s) →
    s.accepts v = true → v = .obj ms → ∀ w, lookup (str "required_features") ms = some w →
    featuresReadable w = true

/-- The inputs on which opening does not raise: what the bytes decode to is not
unencodable; where they are its canonical bytes, the record type has bytes itself; and
where the digest is theirs, too, the schema's file can be looked up, and an object it
accepts has features that can be gone through. -/
def Openable [Interp] (find : Lookup) (recordType : Str) (raw : Bytes) (digest : Str) : Prop :=
  ∀ v, decode raw = some v → ¬ Unencodable (nfc v) ∧ (encode (nfc v) = .ok raw →
    hasSurrogate recordType = false ∧ (digestBytes recordType major raw = .ok digest →
      Checkable find recordType v))

section
variable [Interp] {find : Lookup} {recordType : Str} {raw : Bytes} {digest : Str} {v : Json}

/-- Bytes that are parsed are canonical. -/
theorem encode_of_parse (h : parse raw = .ok v) : encode v = .ok raw := by
  rw [sorted_nfc_of_parse h]
  exact encode_sorted (of_parse h).2

omit [Interp] in
theorem hasSurrogate_append_ascii {s t : Str} (ht : Ascii t) :
    hasSurrogate (s ++ t) = hasSurrogate s := by
  have hclean : hasSurrogate t = false := clean_of_ascii ht
  unfold hasSurrogate at hclean ⊢
  rw [List.any_append, hclean, Bool.or_false]

omit [Interp] in
theorem digestBytes_cases (recordType : Str) (raw : Bytes) :
    (hasSurrogate recordType = false ∧ ∃ own, digestBytes recordType major raw = .ok own) ∨
      (hasSurrogate recordType = true ∧ digestBytes recordType major raw =
        .error .unicodeEncodeError) := by
  have htail : Ascii (str ".v" ++ natText major ++ [0x0A]) := ascii_of_all (by decide)
  have hhead : hasSurrogate (recordType ++ str ".v" ++ natText major ++ [0x0A]) =
    hasSurrogate recordType := by
    rw [List.append_assoc, List.append_assoc, ← List.append_assoc (str ".v")]
    exact hasSurrogate_append_ascii htail
  unfold digestBytes
  rcases utf8_cases (recordType ++ str ".v" ++ natText major ++ [0x0A]) with ⟨hs, b,
    hb⟩ | ⟨hs, hraised⟩
  · exact .inl ⟨hhead ▸ hs, _, by rw [hb]; rfl⟩
  · exact .inr ⟨hhead ▸ hs, by rw [hraised]; rfl⟩

/-- Past the parser and the digest: the schema and the features. -/
theorem opens_checked (hparse : parse raw = .ok v)
    (hdigest : digestBytes recordType major raw = .ok digest) :
    Opens find recordType raw digest (openFile find recordType raw digest) ↔
    Checkable find recordType v := by
  rw [openFile, openWith, hparse]
  dsimp only
  rw [hdigest]
  dsimp only
  rw [if_neg (not_not.mpr rfl)]
  unfold Checkable
  cases hfind : find recordType with
  | error e =>
    simp only [validateFile, hfind]
    exact iff_of_false id fun h => h.1 e rfl
  | ok found =>
  cases found with
  | none =>
    simp only [validateFile, hfind]
    exact iff_of_true trivial ⟨by simp, by simp⟩
  | some s =>
  cases hacc : s.accepts v with
  | false =>
    simp only [validateFile, hfind, hacc]
    refine iff_of_true trivial ⟨by simp, ?_⟩
    intro s' ms hs
    obtain rfl := Option.some.inj (Except.ok.inj hs)
    simp [hacc]
  | true =>
  have hvalid : validateFile find recordType v = .ok () := by simp [validateFile, hfind, hacc]
  rw [hvalid]
  cases v with
  | null | bool | int | float | str | list => exact iff_of_true trivial ⟨by simp, by simp⟩
  | obj ms =>
    by_cases hread : ∀ w, lookup (str "required_features") ms = some w → featuresReadable w = true
    · have hcheckable : (∀ e, Except.ok (some s) ≠ (.error e : Except Exc (Option Schema))) ∧
          ∀ s' ns, (Except.ok (some s) : Except Exc (Option Schema)) = .ok (some s') →
          s'.accepts (.obj ms) = true →
            Json.obj ms = .obj ns → ∀ w, lookup (str "required_features") ns = some w →
            featuresReadable w = true := by
        refine ⟨by simp, ?_⟩
        intro s' ns _ _ hns
        cases hns
        exact hread
      rcases checkFeatures_of_readable recordType hread with hok | ⟨i, hinvalid⟩
      · have hnone := checkFeatures_eq_ok_iff.mp hok
        refine iff_of_true ?_ hcheckable
        simp only [bind, Except.bind, hok, pure, Except.pure]
        exact ⟨encode_of_parse hparse, hdigest, ⟨s, hfind, hacc⟩, ms, rfl, hnone⟩
      · refine iff_of_true ?_ hcheckable
        simp only [bind, Except.bind, hinvalid]
        trivial
    · simp only [not_forall, Bool.not_eq_true] at hread
      obtain ⟨w, hw, hunread⟩ := hread
      refine iff_of_false ?_ ?_
      · simp only [bind, Except.bind, checkFeatures_of_unreadable hw hunread]
        exact id
      · intro h
        rw [h.2 s ms rfl hacc rfl w hw] at hunread
        cases hunread

/-- Where every lookup finds a schema or no file, this is `open_`. -/
theorem openFile_found (schemas : Str → Option Schema) :
    openFile (fun t => .ok (schemas t)) recordType raw digest = open_ schemas recordType raw
    digest := by
  have hvalidate : validateFile (fun t => .ok (schemas t)) recordType = validate schemas
    recordType := by
    funext w
    unfold validateFile validate
    cases hfound : schemas recordType <;> simp [hfound]
  rw [openFile, open_, hvalidate]

/-- **Opening fails by refusal**, exactly on the openable inputs: there it returns an
object with these canonical bytes and this digest that passes its schema and requires
no feature, or raises `Invalid`. -/
theorem opens_or_refuses (find : Lookup) (recordType : Str) (raw : Bytes) (digest : Str) :
    Opens find recordType raw digest (openFile find recordType raw digest) ↔
    Openable find recordType raw digest := by
  unfold Openable
  cases hdec : decode raw with
  | none =>
    have hparse : parse raw = .error (.refused .unreadable) := by rw [parse, hdec]
    rw [openFile, openWith, hparse]
    exact iff_of_true trivial (by simp)
  | some v =>
  have hall : (∀ w, some v = some w → ¬ Unencodable (nfc w) ∧ (encode (nfc w) = .ok raw →
      hasSurrogate recordType = false ∧ (digestBytes recordType major raw = .ok digest →
        Checkable find recordType w))) ↔
      ¬ Unencodable (nfc v) ∧ (encode (nfc v) = .ok raw →
        hasSurrogate recordType = false ∧ (digestBytes recordType major raw = .ok digest →
          Checkable find recordType v)) := by
    simp
  rw [hall]
  have hparse : parse raw = encode (nfc v) >>= fun b => if b = raw then pure v
    else throw (.refused .notCanonical) := by
    rw [parse, hdec]
  rcases encode_cases (nfc v) with ⟨hno, ⟨b, hb⟩ | ⟨r, hr⟩⟩ | ⟨hun, hraised⟩
  · by_cases hraw : b = raw
    · have hok : parse raw = .ok v := by
        rw [hparse, hb]
        exact if_pos hraw
      subst hraw
      rcases digestBytes_cases recordType b with ⟨hclean, own, hown⟩ | ⟨hsur, hraised⟩
      · by_cases hdigest : own = digest
        · subst hdigest
          rw [opens_checked hok hown]
          simp [hno, hb, hclean, hown]
        · rw [openFile, openWith, hok]
          dsimp only
          rw [hown]
          simp only [ne_eq, hdigest, not_false_eq_true, if_true]
          exact iff_of_true trivial ⟨hno,
            fun _ => ⟨hclean, fun h => absurd (Except.ok.inj h) hdigest⟩⟩
      · rw [openFile, openWith, hok]
        dsimp only
        rw [hraised]
        refine iff_of_false id ?_
        intro h
        rw [(h.2 hb).1] at hsur
        cases hsur
    · have hrefused : parse raw = .error (.refused .notCanonical) := by
        rw [hparse, hb]
        exact if_neg hraw
      rw [openFile, openWith, hrefused]
      refine iff_of_true trivial ⟨hno, fun h => ?_⟩
      rw [hb] at h
      exact absurd (Except.ok.inj h) hraw
  · have hrefused : parse raw = .error (.refused r) := by rw [hparse, hr]; rfl
    rw [openFile, openWith, hrefused]
    refine iff_of_true trivial ⟨hno, fun h => ?_⟩
    rw [hr] at h
    cases h
  · have hexc : parse raw = .error .unicodeEncodeError := by rw [hparse, hraised]; rfl
    rw [openFile, openWith, hexc]
    exact iff_of_false id fun h => h.1 hun

end

/-- The ASCII bytes of an object whose one value is the escape of an unpaired surrogate. -/
def surrogateRecord : Bytes := (str "\x7b\"a\":\"\\ud800\"\x7d").map fun c => UInt8.ofNat c.val

/-- **A record that is not refused**: its text cannot be encoded again. -/
theorem surrogate_escapes :
    @open_ (fun _ => none) Interp.ascii (str "be.audit.record") surrogateRecord (str "sha256:0") =
      .error (.exc .unicodeEncodeError) ∧
    ¬ Opens (fun _ => .ok none) (str "be.audit.record") surrogateRecord (str "sha256:0")
      (@openFile Interp.ascii (fun _ => .ok none) (str "be.audit.record") surrogateRecord
        (str "sha256:0")) := by
  have hparse : @parse Interp.ascii surrogateRecord = .error .unicodeEncodeError := by
    have hraised : (match @parse Interp.ascii surrogateRecord with
        | .error e => decide (e = .unicodeEncodeError)
        | .ok _ => false) = true := by decide +kernel
    cases h : @parse Interp.ascii surrogateRecord with
    | ok v => rw [h] at hraised; cases hraised
    | error e =>
      rw [h] at hraised
      rw [of_decide_eq_true hraised]
  have hopen : @open_ (fun _ => none) Interp.ascii (str "be.audit.record") surrogateRecord
    (str "sha256:0") =
      .error (.exc .unicodeEncodeError) := by
    unfold open_ openWith
    rw [hparse]
  refine ⟨hopen, ?_⟩
  rw [@openFile_found Interp.ascii, hopen]
  exact id

end Records

end BeSdk
