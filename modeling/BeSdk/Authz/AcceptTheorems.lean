/-
BeSdk.Authz.AcceptTheorems — which validated declarations the reader of their records
accepts.

`validate` and the schemas state the same closed lists, and `validate` leaves the rest
to the schemas: that the names of dimensions and fields, columns, keys and roles are
registry keys, that no key is longer than 128 characters, and that the component's ID
makes a registry key of the revision domain. `Submittable` is those conditions, and
`validated_accepted` says that nothing else comes between a validation and its reader.
-/
import BeSdk.Authz.DefinitionSchemas
import BeSdk.Authz.DefinitionTheorems

namespace BeSdk

open Records (Schema propertyIs)

/-! ## Patterns -/

theorem ascii_of_isDigit {c : CodePoint} (h : isDigit c = true) : c.val < 0x80 := by
  have hrange := digit_range h
  omega

theorem ascii_of_isLowerLetter {c : CodePoint} (h : isLowerLetter c = true) : c.val < 0x80 := by
  simp only [isLowerLetter, Bool.and_eq_true, decide_eq_true_eq] at h
  omega

theorem ascii_of_isKeyChar {c : CodePoint} (h : isKeyChar c = true) : c.val < 0x80 := by
  simp only [isKeyChar, Bool.or_eq_true, decide_eq_true_eq] at h
  rcases h with (h | h) | rfl
  · exact ascii_of_isLowerLetter h
  · exact ascii_of_isDigit h
  · decide

/-- What the scan of a key passes is ASCII. -/
theorem ascii_of_keyGo : ∀ {start : Bool} {s : Str}, keyGo start s = true → Ascii s
  | _, [], _ => fun c hc => by cases hc
  | true, c :: rest, h => by
      rw [keyGo, Bool.and_eq_true] at h
      exact (ascii_of_keyGo h.2).cons (ascii_of_isLowerLetter h.1)
  | false, c :: rest, h => by
      rw [keyGo] at h
      split at h
      · next hdot => exact (ascii_of_keyGo h).cons (hdot ▸ by decide)
      · rw [Bool.and_eq_true] at h
        exact (ascii_of_keyGo h.2).cons (ascii_of_isKeyChar h.1)

theorem ascii_of_isSchemaKey {s : Str} (h : isSchemaKey s = true) : Ascii s := by
  rw [isSchemaKey, Bool.and_eq_true] at h
  exact ascii_of_keyGo h.1

theorem ascii_of_isHexChar {c : CodePoint} (h : isHexChar c = true) : c.val < 0x80 := by
  simp only [isHexChar, Bool.or_eq_true, Bool.and_eq_true, decide_eq_true_eq] at h
  rcases h with h | h
  · exact ascii_of_isDigit h
  · omega

/-- A text of ASCII classes is ASCII. -/
theorem ascii_of_matchesClasses : ∀ {ps : List (CodePoint → Bool)} {s : Str},
    (∀ p ∈ ps, ∀ c, p c = true → c.val < 0x80) → matchesClasses ps s = true → Ascii s
  | [], [], _, _ => fun c hc => by cases hc
  | p :: ps, c :: s, hps, h => by
      rw [matchesClasses, Bool.and_eq_true] at h
      rw [List.forall_mem_cons] at hps
      exact (ascii_of_matchesClasses hps.2 h.2).cons (hps.1 c h.1)
  | [], _ :: _, _, h => by cases h
  | _ :: _, [], _, h => by cases h

/-- A UUID's text is ASCII. -/
theorem ascii_of_isId {s : Str} (h : isId s = true) : Ascii s := by
  have hdash : ∀ c, isChar (chr '-') c = true → c.val < 0x80 :=
    fun c hc => of_decide_eq_true hc ▸ by decide
  have hseven : ∀ c, isChar (chr '7') c = true → c.val < 0x80 :=
    fun c hc => of_decide_eq_true hc ▸ by decide
  have hvariant : ∀ c, decide (c ∈ str "89ab") = true → c.val < 0x80 :=
    fun c hc => ascii_of_all (s := str "89ab") rfl c (of_decide_eq_true hc)
  refine ascii_of_matchesClasses (fun p hp => ?_) h
  simp only [idClasses, List.mem_append, List.mem_replicate, List.mem_singleton] at hp
  rcases hp
    with (((((((((⟨-, rfl⟩ | rfl) | ⟨-, rfl⟩) | rfl) | rfl) | ⟨-, rfl⟩) | rfl) | rfl) | ⟨-,
      rfl⟩) | rfl) | ⟨-, rfl⟩
  all_goals first
    | exact fun c hc => ascii_of_isHexChar hc
    | assumption

/-- A component ID is its vendor and its name around the slash. -/
theorem namesOf_spec {s vendor name : Str} (h : namesOf s = some (vendor, name)) :
    s = vendor ++ str "/" ++ name := by
  unfold namesOf at h
  split at h
  · next c rest hdrop =>
    cases h
    have hslash : isChar (chr '/') c = true := by
      have hhead := List.head?_dropWhile_not (fun c => !isChar (chr '/') c) s
      rw [hdrop] at hhead
      simpa using hhead
    have hsplit := List.takeWhile_append_dropWhile (p := fun c => !isChar (chr '/') c) (l := s)
    rw [hdrop, of_decide_eq_true hslash] at hsplit
    rw [List.append_assoc]
    exact hsplit.symm
  · cases h

theorem ascii_of_isName {s : Str} (h : isName s = true) : Ascii s := by
  intro c hc
  simp only [isName, Bool.and_eq_true, List.all_eq_true, Bool.or_eq_true] at h
  rcases h.2 c hc with hname | hdash
  · simp only [isNameChar, Bool.or_eq_true] at hname
    exact hname.elim ascii_of_isLowerLetter ascii_of_isDigit
  · exact of_decide_eq_true hdash ▸ by decide

/-- A component ID is two names. -/
theorem isComponentId_spec {s : Str} (h : isComponentId s = true) :
    ∃ vendor name, s = vendor ++ str "/" ++ name ∧ isName vendor = true ∧ isName name = true := by
  unfold isComponentId at h
  split at h
  · next vendor name hnames =>
    rw [Bool.and_eq_true] at h
    exact ⟨vendor, name, namesOf_spec hnames, h⟩
  · cases h

theorem ascii_of_isComponentId {s : Str} (h : isComponentId s = true) : Ascii s := by
  obtain ⟨vendor, name, rfl, hvendor, hname⟩ := isComponentId_spec h
  exact ((ascii_of_isName hvendor).append (ascii_of_all rfl)).append (ascii_of_isName hname)

/-! ## Stable identities -/

theorem length_bigEndian : ∀ k n : Nat, (bigEndian k n).length = k
  | 0, _ => rfl
  | k + 1, n => by rw [bigEndian, List.length_cons, length_bigEndian k n]

theorem length_sha256Round {state : List UInt32} (kw : UInt32 × UInt32) (h : state.length = 8) :
    (sha256Round state kw).length = 8 := by
  unfold sha256Round
  split
  · rfl
  · exact h

theorem length_foldl_round :
    ∀ (kws : List (UInt32 × UInt32)) {state : List UInt32}, state.length = 8 →
    (kws.foldl sha256Round state).length = 8
  | [], _, h => h
  | kw :: kws, _, h => length_foldl_round kws (length_sha256Round kw h)

/-- The blocks of a message keep the eight words too. -/
theorem length_sha256Blocks : ∀ (fuel : Nat) {state : List UInt32} (b : Bytes), state.length = 8 →
    (sha256Blocks fuel state b).length = 8
  | 0, _, _, h => h
  | fuel + 1, state, b, h => by
      rw [sha256Blocks]
      split
      · exact h
      · refine length_sha256Blocks fuel _ ?_
        rw [sha256Block, List.length_zipWith, length_foldl_round _ h, h]
        rfl

/-- A digest is 32 bytes. -/
theorem length_sha256 (b : Bytes) : (sha256 b).length = 32 := by
  rw [sha256, List.length_flatMap, List.map_congr_left fun w _ => length_bigEndian 4 w.toNat,
    List.map_const', List.sum_replicate, length_sha256Blocks _ _ rfl]
  rfl

theorem isHexChar_hexDigit (n : Nat) : isHexChar (hexDigit n) = true := by
  have hall : ∀ k : Fin 16, isHexChar (hexDigit k.val) = true := by decide
  have hmod : hexDigit n = hexDigit (n % 16) := by
    unfold hexDigit
    simp only [Nat.mod_mod]
  rw [hmod]
  exact hall ⟨n % 16, Nat.mod_lt n (by decide)⟩

theorem forall_byte {P : UInt8 → Prop} (h : ∀ k : Fin 256, P (UInt8.ofFin k)) (x : UInt8) :
    P x := h x.toFin

/-- The high digit of the version byte. -/
theorem hexDigit_version : ∀ x : UInt8, hexDigit ((x &&& 0x0F ||| 0x70).toNat / 16) = chr '7' :=
  forall_byte (by decide +kernel)

/-- The high digit of the variant byte. -/
theorem hexDigit_variant :
    ∀ x : UInt8, decide (hexDigit ((x &&& 0x3F ||| 0x80).toNat / 16) ∈ str "89ab") = true :=
  forall_byte (by decide +kernel)

theorem isChar_self (x : CodePoint) : isChar x x = true := decide_eq_true rfl

/-- Sixteen bytes with the version and variant bits set are an ID. -/
theorem isId_uuid {digest : Bytes} (h : 16 ≤ digest.length) :
    isId (uuidOfBytes (uuidBytes digest)) = true := by
  obtain ⟨b, hb, hlength⟩ : ∃ b, digest.take 16 = b ∧ b.length = 16 :=
    ⟨_, rfl, by rw [List.length_take]; omega⟩
  have hdash : str "-" = [chr '-'] := rfl
  match b, hlength with
  | [b0, b1, b2, b3, b4, b5, b6, b7, b8, b9, b10, b11, b12, b13, b14, b15], _ =>
    rw [uuidBytes, hb]
    simp only [isId, idClasses, uuidOfBytes, hexText, List.modify, List.modifyTailIdx,
      List.modifyTailIdx.go, List.modifyHead, List.flatMap_cons, List.flatMap_nil,
      List.cons_append, List.nil_append, List.take_succ_cons,
      List.take_zero, List.drop_succ_cons, List.drop_zero, List.replicate_succ,
      List.replicate_zero, hdash, matchesClasses, isHexChar_hexDigit, hexDigit_version,
      hexDigit_variant, isChar_self, Bool.and_self]

/-! ## The revision domain -/

/-- `s.replace(c, x)` of two characters. -/
theorem Str.replace_eq_map (s : Str) (c x : CodePoint) :
    Str.replace s c [x] = s.map fun y => if y = c then x else y := by
  rw [Str.replace, List.map_eq_flatMap]
  refine List.flatMap_congr fun y _ => ?_
  split <;> rfl

/-- How a character of a component ID stands in the revision domain. -/
def domainChar (c : CodePoint) : CodePoint :=
  if (if c = chr '/' then chr '.' else c) = chr '-' then chr '_'
    else if c = chr '/' then chr '.' else c

/-- The revision domain is the component ID with each character replaced on its own. -/
theorem revisionDomain_eq (component : Str) :
    revisionDomain component = component.map domainChar ++ str ".definition" := by
  have hdot : str "." = [chr '.'] := rfl
  have hunderscore : str "_" = [chr '_'] := rfl
  rw [revisionDomain, hdot, hunderscore, Str.replace_eq_map, Str.replace_eq_map, List.map_map]
  rfl

/-- What the replacement makes of a component ID's character may stand in a key. -/
theorem isKeyChar_domainChar {c : CodePoint} (h : isNameChar c = true ∨ isChar (chr '-') c = true) :
    isKeyChar (domainChar c) = true := by
  rcases h with h | h
  · have hslash : c ≠ chr '/' := fun heq => by rw [heq] at h; exact absurd h (by decide)
    have hdash : c ≠ chr '-' := fun heq => by rw [heq] at h; exact absurd h (by decide)
    rw [domainChar, if_neg hslash, if_neg hdash, isKeyChar]
    rw [isNameChar] at h
    rw [h, Bool.true_or]
  · rw [of_decide_eq_true h]
    decide

/-- Inside a part of a key its characters are passed over. -/
theorem keyGo_part : ∀ {t : Str} (rest : Str), (∀ c ∈ t, isKeyChar c = true) →
    keyGo false (t ++ rest) = keyGo false rest
  | [], _, _ => rfl
  | c :: t, rest, h => by
      rw [List.forall_mem_cons] at h
      have hdot : c ≠ chr '.' := fun heq => by rw [heq] at h; exact absurd h.1 (by decide)
      rw [List.cons_append, keyGo, if_neg hdot, h.1, Bool.true_and, keyGo_part rest h.2]

/-- A name at the start of a part must begin with a letter. -/
theorem keyGo_name {s : Str} (rest : Str) (h : isName s = true) :
    keyGo true (s.map domainChar ++ rest) = (s.head?.any isLowerLetter && keyGo false rest) := by
  cases s with
  | nil => cases h
  | cons c t =>
      simp only [isName, Bool.and_eq_true, List.all_eq_true, Bool.or_eq_true, List.head?_cons,
        Option.any_some] at h
      obtain ⟨⟨hfirst, -⟩, hchars⟩ := h
      have hslash : c ≠ chr '/' := fun heq => by rw [heq] at hfirst; exact absurd hfirst (by decide)
      have hdash : c ≠ chr '-' := fun heq => by rw [heq] at hfirst; exact absurd hfirst (by decide)
      have hself : domainChar c = c := by rw [domainChar, if_neg hslash, if_neg hdash]
      have hrest : ∀ x ∈ t.map domainChar, isKeyChar x = true := by
        intro x hx
        obtain ⟨y, hy, rfl⟩ := List.mem_map.mp hx
        exact isKeyChar_domainChar (hchars y (List.mem_cons_of_mem _ hy))
      rw [List.map_cons, List.cons_append, keyGo, keyGo_part rest hrest, hself,
        List.head?_cons, Option.any_some]

/-- Both names of the component ID begin with a letter. -/
def lettersFirst (component : Str) : Bool :=
  match namesOf component with
  | some (vendor, name) => vendor.head?.any isLowerLetter && name.head?.any isLowerLetter
  | none => false

/-- The revision domain of a component ID as a registry key. -/
theorem isSchemaKey_revisionDomain {component : Str} (h : isComponentId component = true) :
    isSchemaKey (revisionDomain component) =
    (lettersFirst component && decide (component.length ≤ 117)) := by
  unfold isComponentId at h
  split at h
  · next vendor name hnames =>
    rw [Bool.and_eq_true] at h
    have hslash : (str "/").map domainChar = str "." := by decide
    have hlength : (revisionDomain component).length = component.length + 11 := by
      rw [revisionDomain_eq, List.length_append, List.length_map]
      rfl
    have hkey : isKey (revisionDomain component) = lettersFirst component := by
      have hend : keyGo false (str ".definition") = true := by decide
      have hdot : ∀ rest, keyGo false (str "." ++ rest) = keyGo true rest := fun _ => rfl
      rw [isKey, revisionDomain_eq, lettersFirst, hnames, namesOf_spec hnames,
        List.map_append, List.map_append, hslash, List.append_assoc, List.append_assoc,
        keyGo_name _ h.1, hdot, keyGo_name _ h.2, hend, Bool.and_true]
    rw [isSchemaKey, hkey, hlength, decide_eq_decide.mpr (by omega : component.length + 11 ≤
      128 ↔ component.length ≤ 117)]
  · cases h

/-! ## Bodies -/

/-- A key, or nothing said. -/
def OptionalKey (s : Str) : Prop := s = [] ∨ isSchemaKey s = true

theorem forall_optionalText {P : Str × Json → Prop} {key value : Str} :
    (∀ m ∈ optionalText key value, P m) ↔ value = [] ∨ P (key, .str value) := by
  unfold optionalText
  split
  · next h => simp [h]
  · next h => simp [h]

/-- The required members come first. -/
theorem required_of_fixed {required : List Str} {fixed rest : List (Str × Json)}
    (h : fixed.map Prod.fst = required) : ∀ k ∈ required, k ∈ (fixed ++ rest).map Prod.fst := by
  intro k hk
  rw [List.map_append, h]
  exact List.mem_append_left _ hk

theorem nodup_sortedSet (xs : List Str) : (sortedSet (· ≤ ·) xs).Nodup :=
  (List.perm_insertionSort _ _).nodup_iff.mpr (List.nodup_dedup xs)

theorem textSet_accepted {p : Str → Bool} {xs : List Str} :
    (Schema.texts p).accepts (textSet xs) = true ↔ ∀ x ∈ xs, p x = true := by
  rw [textSet, Schema.texts_accepts, and_iff_left (nodup_sortedSet xs)]
  simp only [mem_sortedSet]

/-- A list that is left out when it is empty. -/
theorem forall_optionalTexts {P : Str × Json → Prop} {key : Str} {xs : List Str} :
    (∀ m ∈ (if xs = [] then [] else [(key, textSet xs)]), P m) ↔ xs = [] ∨ P (key, textSet xs) := by
  split
  · next h => simp [h]
  · next h => simp [h]

/-- What a dimension's schema asks for beyond `validate`. -/
structure Dimension.Submittable (d : Dimension) : Prop where
  column : isSchemaKey d.column = true
  principalRole : OptionalKey d.principalRole
  currencyColumn : OptionalKey d.currencyColumn
  projectionWatermark : OptionalKey d.projectionWatermark

/-- What a field's schema asks for beyond `validate`. -/
structure Field.Submittable (f : Field) : Prop where
  readKey : OptionalKey f.readKey
  writeKey : OptionalKey f.writeKey
  derivedFrom : ∀ x ∈ f.derivedFrom, isSchemaKey x = true

/-- A dimension without a problem has a pushdown mode of the list. -/
theorem Dimension.pushdown_of_problem {type name : Str} {d : Dimension}
    (h : d.problem type name = none) (t : Str) : d.pushdown ≠ .other t := by
  intro hpushdown
  unfold Dimension.problem at h
  rw [hpushdown] at h
  split at h
  · cases h
  · split at h
    · cases h
    · split at h
      · cases h
      · cases h

/-- The schema accepts a checked dimension exactly where it is submittable. -/
theorem Dimension.accepted_iff {type name : Str} {d : Dimension} (h : d.problem type name = none) :
    dimensionSchema.accepts d.record = true ↔ d.Submittable := by
  have hkind : propertyIs dimensionProperties (str "kind") (.str d.kind.text) = true := by
    have hvalid := (Dimension.valid_of_problem h).kind
    cases hd : d.kind with
    | other t => exact absurd hd (hvalid t)
    | _ => rfl
  have hpushdown : propertyIs dimensionProperties (str "pushdown") (.str d.pushdown.text) =
    true := by
    have hvalid := Dimension.pushdown_of_problem h
    cases hd : d.pushdown with
    | other t => exact absurd hd (hvalid t)
    | _ => rfl
  have hcolumn : propertyIs dimensionProperties (str "column") (.str d.column) =
    isSchemaKey d.column := rfl
  have hrole : ∀ s, propertyIs dimensionProperties (str "principal_role") (.str s) =
    isSchemaKey s := fun _ => rfl
  have hcurrency : ∀ s, propertyIs dimensionProperties (str "currency_column") (.str s) =
    isSchemaKey s := fun _ => rfl
  have hwatermark : ∀ s, propertyIs dimensionProperties (str "projection_watermark")
    (.str s) = isSchemaKey s :=
    fun _ => rfl
  rw [Dimension.record, List.append_assoc, List.append_assoc, dimensionSchema,
    Schema.object_accepts]
  refine (and_iff_left (required_of_fixed (by rfl))).trans ?_
  simp only [List.forall_mem_append, List.forall_mem_cons, forall_optionalText, hkind,
    hpushdown, hcolumn, hrole, hcurrency, hwatermark, true_and, List.not_mem_nil,
    false_implies, implies_true, and_true]
  exact ⟨fun h => ⟨h.1, h.2.1, h.2.2.1, h.2.2.2⟩, fun h => ⟨h.1, h.2, h.3, h.4⟩⟩

theorem Field.class_of_problems {type name : Str} {f : Field} (h : f.problems type name = [])
    (t : Str) : f.cls ≠ .other t := by
  intro hcls
  rw [Field.problems, hcls] at h
  cases h

/-- A field without a problem is queryable in known ways only. -/
theorem Field.queryable_of_problems {type name : Str} {f : Field} (h : f.problems type name = []) :
    ∀ q ∈ f.queryable, q ∈ queryUses := by
  simp only [Field.problems, List.append_eq_nil_iff, List.map_eq_nil_iff, List.filter_eq_nil_iff,
    decide_eq_true_eq, not_not] at h
  exact h.2

/-- The schema accepts a checked field exactly where it is submittable. -/
theorem Field.accepted_iff {type name : Str} {f : Field} (h : f.problems type name = []) :
    fieldSchema.accepts f.record = true ↔ f.Submittable := by
  have hclass : propertyIs fieldProperties (str "class") (.str f.cls.text) = true := by
    have hvalid := Field.class_of_problems h
    cases hf : f.cls with
    | other t => exact absurd hf (hvalid t)
    | _ => rfl
  have hread : ∀ s, propertyIs fieldProperties (str "read_key") (.str s) = isSchemaKey s :=
    fun _ => rfl
  have hwrite : ∀ s, propertyIs fieldProperties (str "write_key") (.str s) = isSchemaKey s :=
    fun _ => rfl
  have hderived : propertyIs fieldProperties (str "derived_from") (textSet f.derivedFrom) = true ↔
      ∀ x ∈ f.derivedFrom, isSchemaKey x = true := textSet_accepted
  have hqueryable : propertyIs fieldProperties (str "queryable") (textSet f.queryable) = true :=
    textSet_accepted.mpr fun q hq => decide_eq_true (Field.queryable_of_problems h q hq)
  have hnone : f.derivedFrom = [] → ∀ x ∈ f.derivedFrom, isSchemaKey x = true := by
    intro hnil x hx
    rw [hnil] at hx
    cases hx
  rw [Field.record, List.append_assoc, List.append_assoc, List.append_assoc, fieldSchema,
    Schema.object_accepts]
  refine (and_iff_left (required_of_fixed (by rfl))).trans ?_
  simp only [List.forall_mem_append, List.forall_mem_cons, forall_optionalText,
    forall_optionalTexts, hclass, hread, hwrite, hderived, hqueryable, true_and,
    List.not_mem_nil, false_implies, implies_true, or_true, and_true,
    or_iff_right_of_imp hnone]
  exact ⟨fun h => ⟨h.1, h.2.1, h.2.2⟩, fun h => ⟨h.1, h.2, h.3⟩⟩

/-- What a resource's schema asks for beyond `validate`. -/
structure Resource.Submittable (r : Resource) : Prop where
  type : isSchemaKey r.type = true
  viewOperation : isSchemaKey r.viewOperation = true
  dimensions : ∀ m ∈ r.dims.entries, isSchemaKey m.1 = true ∧ m.2.Submittable
  fields : ∀ m ∈ r.fields.entries, isSchemaKey m.1 = true ∧ m.2.Submittable

/-- What an operation's schema asks for beyond `validate`. -/
structure Operation.Submittable (o : Operation) : Prop where
  key : isSchemaKey o.key = true
  resourceType : isSchemaKey o.resourceType = true
  outputReadOperation : OptionalKey o.outputReadOperation
  selfReviewRule : OptionalKey o.selfReviewRule

/-- The members of a checked resource are accepted exactly where it is submittable. -/
theorem Resource.members_accepted_iff {r : Resource} (h : r.problems = []) :
    (∀ m ∈ r.record.members, propertyIs resourceProperties m.1 m.2 = true) ↔ r.Submittable := by
  simp only [Resource.problems, List.append_eq_nil_iff, List.filterMap_eq_nil_iff,
    List.flatMap_eq_nil_iff] at h
  obtain ⟨⟨-, hdims⟩, hfields⟩ := h
  have htype : propertyIs resourceProperties (str "type") (.str r.type) =
      isSchemaKey r.type := rfl
  have hview : propertyIs resourceProperties (str "view_operation") (.str r.viewOperation) =
      isSchemaKey r.viewOperation := rfl
  have hdimensions : propertyIs resourceProperties (str "dimensions")
      (.obj (r.dims.map Dimension.record).entries) = true ↔
        ∀ m ∈ r.dims.entries, isSchemaKey m.1 = true ∧ m.2.Submittable := by
    refine Schema.map_accepts.trans ?_
    simp only [Dict.map, List.forall_mem_map]
    exact forall₂_congr fun m hm => and_congr_right fun _ => Dimension.accepted_iff (hdims m hm)
  have hfields : propertyIs resourceProperties (str "fields")
      (.obj (r.fields.map Field.record).entries) = true ↔
        ∀ m ∈ r.fields.entries, isSchemaKey m.1 = true ∧ m.2.Submittable := by
    refine Schema.map_accepts.trans ?_
    simp only [Dict.map, List.forall_mem_map]
    exact forall₂_congr fun m hm => and_congr_right fun _ => Field.accepted_iff (hfields m hm)
  simp only [Resource.record, Json.members, List.forall_mem_cons, htype, hview, hdimensions,
    hfields, List.not_mem_nil, false_implies, implies_true, and_true]
  exact ⟨fun h => ⟨h.1, h.2.1, h.2.2.1, h.2.2.2⟩, fun h => ⟨h.1, h.2, h.3, h.4⟩⟩

/-- The closed lists of an operation without problems. -/
structure Operation.Listed (o : Operation) : Prop where
  purpose : o.purpose ∈ purposes
  riskClass : o.riskClass = str "low" ∨ o.riskClass = str "high"
  minimumPath : o.minimumPath = [] ∨ o.minimumPath ∈ paths
  sideEffects : ∀ e ∈ o.sideEffects, e ∈ sideEffectKinds

/-- What an operation without a problem says is on the lists of the schema. -/
theorem Operation.listed_of_problems {o : Operation} {resources : Dict Str Resource}
    {seen : Dict Str Operation} (h : o.problems resources seen = []) : o.Listed := by
  simp only [Operation.problems, List.append_eq_nil_iff, ite_eq_left_iff, List.cons_ne_nil,
    imp_false, not_not, List.map_eq_nil_iff, List.filter_eq_nil_iff, decide_eq_true_eq] at h
  obtain ⟨⟨⟨⟨⟨⟨⟨⟨-, -⟩, hrisk⟩, -⟩, hpurpose⟩, hpath⟩, heffects⟩, -⟩, -⟩ := h
  exact ⟨hpurpose, hrisk, hpath, heffects⟩

/-- The members of a listed operation are accepted exactly where it is submittable. -/
theorem Operation.members_accepted_iff {o : Operation} (h : o.Listed) :
    (∀ m ∈ o.record.members, propertyIs operationProperties m.1 m.2 = true) ↔ o.Submittable := by
  have hkey : propertyIs operationProperties (str "key") (.str o.key) = isSchemaKey o.key := rfl
  have htype : propertyIs operationProperties (str "resource_type") (.str o.resourceType) =
      isSchemaKey o.resourceType := rfl
  have hpurpose : propertyIs operationProperties (str "purpose") (.str o.purpose) = true :=
    decide_eq_true h.purpose
  have hrisk : propertyIs operationProperties (str "risk_class") (.str o.riskClass) = true :=
    decide_eq_true (List.mem_pair.mpr h.riskClass)
  have hpath : propertyIs operationProperties (str "minimum_path")
      (.str (if o.minimumPath = [] then str "default" else o.minimumPath)) = true := by
    rcases h.minimumPath with hnil | hmem
    · rw [if_pos hnil]
      rfl
    · rw [if_neg (fun hnil => absurd (hnil ▸ hmem) (by decide))]
      exact decide_eq_true hmem
  have heffects : propertyIs operationProperties (str "side_effects")
      (textSet o.sideEffects) = true := textSet_accepted.mpr fun e he =>
      decide_eq_true (h.sideEffects e he)
  have haudit : propertyIs operationProperties (str "audit")
      (.str (if o.audit then str "required" else str "none")) = true := by
    cases o.audit <;> rfl
  have hflag :
    ∀ k ∈ [str "requires_appointment", str "delegable", str "impersonation_allowed",
      str "tightening_only"], ∀ b, propertyIs operationProperties k (.bool b) = true := by
    intro k hk b
    simp only [List.mem_cons, List.not_mem_nil, or_false] at hk
    rcases hk with rfl | rfl | rfl | rfl <;> rfl
  have hread : ∀ s, propertyIs operationProperties (str "output_read_operation") (.str s) =
      isSchemaKey s := fun _ => rfl
  have hrule : ∀ s, propertyIs operationProperties (str "self_review_rule") (.str s) =
      isSchemaKey s := fun _ => rfl
  have htightening : ∀ m ∈ (if o.tighteningOnly then [(str "tightening_only", Json.bool true)]
    else []),
      propertyIs operationProperties m.1 m.2 = true := by
    intro m hm
    split at hm
    · rw [List.mem_singleton.mp hm]
      rfl
    · cases hm
  simp only [Operation.record, Json.members, List.forall_mem_append, List.forall_mem_cons,
    forall_optionalText, hkey, htype, hpurpose, hrisk, hpath, heffects, haudit, hread, hrule,
    true_and, List.not_mem_nil, false_implies, implies_true, and_true]
  constructor
  · rintro ⟨⟨⟨⟨hkey, htype, -⟩, -⟩, hread⟩, hrule⟩
    exact ⟨hkey, htype, hread, hrule⟩
  · intro h
    exact ⟨⟨⟨⟨h.key, h.resourceType, rfl, rfl, rfl⟩, htightening⟩, h.outputReadOperation⟩,
      h.selfReviewRule⟩

/-! ## Bodies as dictionaries of ASCII texts -/

theorem keys_optionalText (key value : Str) :
    ((optionalText key value).map Prod.fst).Sublist [key] := by
  unfold optionalText
  split
  · exact List.nil_sublist _
  · exact List.Sublist.refl _

theorem distinct_optionalText (key value : Str) : DistinctMembers (optionalText key value) :=
  distinctMembers_iff.mpr (forall_optionalText.mpr (.inr trivial))

theorem distinct_textSet (xs : List Str) : (textSet xs).Distinct := by
  refine distinctElems_iff.mpr fun x hx => ?_
  obtain ⟨s, -, rfl⟩ := List.mem_map.mp hx
  trivial

/-- The record of a dimension repeats no member. -/
theorem Dimension.record_distinct (d : Dimension) : d.record.Distinct := by
  have hkeys : ((([(str "kind", Json.str d.kind.text), (str "column", .str d.column),
      (str "pushdown", .str d.pushdown.text)] ++ optionalText (str "principal_role")
      d.principalRole ++ optionalText (str "currency_column") d.currencyColumn ++
      optionalText (str "projection_watermark") d.projectionWatermark)).map Prod.fst).Sublist
        [str "kind", str "column", str "pushdown", str "principal_role", str "currency_column",
          str "projection_watermark"] := by
    simp only [List.map_append]
    exact (((List.Sublist.refl _).append (keys_optionalText _ _)).append
      (keys_optionalText _ _)).append (keys_optionalText _ _)
  refine ⟨hkeys.nodup (by decide), ?_⟩
  exact distinctMembers_append (distinctMembers_append
    (distinctMembers_append ⟨trivial, trivial, trivial, trivial⟩
    (distinct_optionalText _ _)) (distinct_optionalText _ _)) (distinct_optionalText _ _)

/-- The record of a field repeats no member. -/
theorem Field.record_distinct (f : Field) : f.record.Distinct := by
  have htexts : ∀ (key : Str) (xs : List Str),
      ((if xs = [] then [] else [(key, textSet xs)]).map Prod.fst).Sublist [key] ∧
        DistinctMembers (if xs = [] then [] else [(key, textSet xs)]) := by
    intro key xs
    split
    · exact ⟨List.nil_sublist _, trivial⟩
    · exact ⟨List.Sublist.refl _, distinct_textSet xs, trivial⟩
  have hkeys : (([(str "class", Json.str f.cls.text)] ++ optionalText (str "read_key") f.readKey ++
      optionalText (str "write_key") f.writeKey ++
      (if f.derivedFrom = [] then [] else [(str "derived_from", textSet f.derivedFrom)]) ++
      (if f.queryable = [] then [] else [(str "queryable", textSet f.queryable)])).map
      Prod.fst).Sublist
        [str "class", str "read_key", str "write_key", str "derived_from", str "queryable"] := by
    simp only [List.map_append]
    exact ((((List.Sublist.refl _).append (keys_optionalText _ _)).append
      (keys_optionalText _ _)).append (htexts _ _).1).append (htexts _ _).1
  refine ⟨hkeys.nodup (by decide), ?_⟩
  exact distinctMembers_append (distinctMembers_append
    (distinctMembers_append (distinctMembers_append ⟨trivial, trivial⟩
      (distinct_optionalText _ _)) (distinct_optionalText _ _)) (htexts _ _).2) (htexts _ _).2

theorem asciiOnly_key : keySchema.AsciiOnly := Schema.asciiOnly_text fun _ => ascii_of_isSchemaKey

theorem asciiOnly_keys : (Schema.texts isSchemaKey).AsciiOnly :=
    Schema.asciiOnly_texts fun _ => ascii_of_isSchemaKey

/-- A closed list, as the schemas of arrays say it. -/
theorem asciiOnly_listed {values : List Str}
    (h : values.all (fun s => s.all fun c => decide (c.val < 0x80)) = true) :
    (Schema.texts fun s => decide (s ∈ values)).AsciiOnly :=
  Schema.asciiOnly_texts fun s hs => ascii_of_all (List.all_eq_true.mp h s (of_decide_eq_true hs))

theorem asciiOnly_dimension : dimensionSchema.AsciiOnly := by
  refine Schema.asciiOnly_object ?_
  simp only [dimensionProperties, List.forall_mem_cons]
  exact ⟨⟨ascii_of_all rfl, Schema.asciiOnly_oneOf (by decide)⟩, ⟨ascii_of_all rfl, asciiOnly_key⟩,
    ⟨ascii_of_all rfl, asciiOnly_key⟩, ⟨ascii_of_all rfl, asciiOnly_key⟩,
    ⟨ascii_of_all rfl, asciiOnly_key⟩, ⟨ascii_of_all rfl, Schema.asciiOnly_oneOf (by decide)⟩,
    ⟨ascii_of_all rfl, asciiOnly_key⟩, by simp⟩

theorem asciiOnly_field : fieldSchema.AsciiOnly := by
  refine Schema.asciiOnly_object ?_
  simp only [fieldProperties, List.forall_mem_cons]
  exact ⟨⟨ascii_of_all rfl, Schema.asciiOnly_oneOf (by decide)⟩, ⟨ascii_of_all rfl, asciiOnly_key⟩,
    ⟨ascii_of_all rfl, asciiOnly_key⟩, ⟨ascii_of_all rfl, asciiOnly_keys⟩,
    ⟨ascii_of_all rfl, asciiOnly_listed (by decide)⟩, by simp⟩

theorem asciiOnly_operation : ∀ p ∈ operationProperties, Ascii p.1 ∧ p.2.AsciiOnly := by
  simp only [operationProperties, List.forall_mem_cons]
  exact ⟨⟨ascii_of_all rfl, asciiOnly_key⟩, ⟨ascii_of_all rfl, asciiOnly_key⟩,
    ⟨ascii_of_all rfl, Schema.asciiOnly_oneOf (by decide)⟩,
    ⟨ascii_of_all rfl, Schema.asciiOnly_oneOf (by decide)⟩,
    ⟨ascii_of_all rfl, Schema.asciiOnly_boolean⟩,
    ⟨ascii_of_all rfl, Schema.asciiOnly_oneOf (by decide)⟩,
    ⟨ascii_of_all rfl, asciiOnly_listed (by decide)⟩, ⟨ascii_of_all rfl, asciiOnly_key⟩,
    ⟨ascii_of_all rfl, Schema.asciiOnly_boolean⟩, ⟨ascii_of_all rfl, asciiOnly_key⟩,
    ⟨ascii_of_all rfl, Schema.asciiOnly_boolean⟩, ⟨ascii_of_all rfl, Schema.asciiOnly_boolean⟩,
    ⟨ascii_of_all rfl, Schema.asciiOnly_oneOf (by decide)⟩, by simp⟩

/-! ## Records -/

section
variable {recordType deployment component id version : Str}

/-- The envelope of a component's record asks for a revision domain that is a key. -/
theorem envelope_accepted_iff (own : List (Str × Schema)) (htype : isSchemaKey recordType = true)
    (hdeployment : isId deployment = true) (hcomponent : isComponentId component = true)
    (hid : isId id = true) : (∀ m ∈ envelope recordType deployment component id version,
      propertyIs (envelopeProperties ++ own) m.1 m.2 = true) ↔
      isSchemaKey (revisionDomain component) = true := by
  have hrevision : propertyIs (envelopeProperties ++ own) (str "revision")
      (.obj [(str "domain", .str (revisionDomain component)), (str "value", .str version)]) =
        isSchemaKey (revisionDomain component) := by
    show ((isSchemaKey (revisionDomain component) && (true && true)) && true) =
      isSchemaKey (revisionDomain component)
    simp only [Bool.and_true]
  have htype' : propertyIs (envelopeProperties ++ own) (str "record_type") (.str recordType) =
    true := htype
  have hschema : propertyIs (envelopeProperties ++ own) (str "schema") (.str (str "1.0")) =
    true := rfl
  have hdeployment' : propertyIs (envelopeProperties ++ own) (str "deployment")
    (.str deployment) = true := hdeployment
  have hauthority : propertyIs (envelopeProperties ++ own) (str "authority")
    (.str component) = true := hcomponent
  have hid' : propertyIs (envelopeProperties ++ own) (str "id") (.str id) = true := hid
  simp only [envelope, List.forall_mem_cons, htype', hschema, hdeployment', hauthority, hid',
    hrevision, true_and, List.not_mem_nil, false_implies, implies_true, and_true]

/-- The envelope of ASCII parts is plain. -/
theorem envelope_plain (htype : Ascii recordType) (hdeployment : Ascii deployment)
    (hcomponent : Ascii component) (hid : Ascii id) (hversion : Ascii version)
    (hdomain : Ascii (revisionDomain component)) : PlainMembers Ascii Ascii Canon.Bounded
    (envelope recordType deployment component id version) :=
  ⟨ascii_of_all rfl, htype, ascii_of_all rfl, ascii_of_all rfl, ascii_of_all rfl, hdeployment,
    ascii_of_all rfl, hcomponent, ascii_of_all rfl, hid, ascii_of_all rfl,
    ⟨ascii_of_all rfl, hdomain, ascii_of_all rfl, hversion, trivial⟩, trivial⟩

end

/-- The keys of the envelope and of its optional members. -/
def envelopeKeys : List Str := envelopeProperties.map Prod.fst

/-- A key that the first list does not have is looked up in the second. -/
theorem lookup_append_of_not_mem {κ α : Type} [DecidableEq κ] {k : κ} :
    ∀ {l : List (κ × α)} (m : List (κ × α)), k ∉ l.map Prod.fst → lookup k (l ++ m) = lookup k m
  | [], _, _ => rfl
  | (k', v) :: l, m, h => by
      rw [List.map_cons, List.mem_cons, not_or] at h
      rw [List.cons_append, lookup, if_neg (Ne.symm h.1), lookup_append_of_not_mem m h.2]

/-- A declaration whose body is a dictionary beside the envelope, under a schema with
these members. -/
structure Declaration.Under (c : Declaration) (own : List (Str × Schema))
    (required : List Str) : Prop where
  schema : definitionSchemas c.recordType =
    some (.object (envelopeProperties ++ own) (envelopeRequired ++ required))
  recordType : isSchemaKey c.recordType = true
  identity : Ascii c.kind ∧ Ascii c.key
  keys : (c.body.map Prod.fst).Nodup
  apart : ∀ k ∈ c.body.map Prod.fst, k ∉ envelopeKeys
  required : ∀ k ∈ required, k ∈ c.body.map Prod.fst
  distinct : DistinctMembers c.body
  ascii : (∀ m ∈ c.body, propertyIs own m.1 m.2 = true) →
    PlainMembers Ascii Ascii Canon.Bounded c.body

section
variable {c : Declaration} {own : List (Str × Schema)} {required : List Str}
    {deployment component version : Str}

/-- The record of a declaration repeats no member. -/
theorem Declaration.Under.distinct_record (h : c.Under own required) (id : Str) :
    (c.record deployment component id version).Distinct := by
  have hkeys : (envelope c.recordType deployment component id version).map Prod.fst =
    envelopeRequired := rfl
  have hrevision : [str "domain", str "value"].Nodup := by decide
  refine ⟨?_, distinctMembers_append ⟨trivial, trivial, trivial, trivial, trivial,
    ⟨hrevision, trivial, trivial, trivial⟩, trivial⟩ h.distinct⟩
  rw [List.map_append, hkeys, List.nodup_append]
  refine ⟨by decide, h.keys, fun k hk k' hk' heq => ?_⟩
  have hsubset : ∀ k ∈ envelopeRequired, k ∈ envelopeKeys := by decide
  exact h.apart k' hk' (heq ▸ hsubset k hk)

/-- The record of a declaration asks for no feature. -/
theorem Declaration.Under.features (h : c.Under own required) (id : Str) :
    Records.checkFeatures c.recordType
    (envelope c.recordType deployment component id version ++ c.body) = .ok () := by
  have hbody : str "required_features" ∉ c.body.map Prod.fst :=
    fun hmem => h.apart _ hmem (by decide)
  have henvelope : str "required_features" ∉ (envelope c.recordType deployment component id
    version).map Prod.fst := by
    show str "required_features" ∉ envelopeRequired
    decide
  rw [Records.checkFeatures_eq_ok_iff, lookup_append_of_not_mem _ henvelope,
    lookup_eq_none_iff.mpr hbody]
  intro v hv
  cases hv

/-- The schema accepts the record where the revision domain is a key and every member
of the body is accepted. -/
theorem Declaration.Under.valid_iff (h : c.Under own required)
    (hdeployment : isId deployment = true) (hcomponent : isComponentId component = true)
    {id : Str} (hid : isId id = true) : Records.validate definitionSchemas c.recordType
    (c.record deployment component id version) = .ok () ↔
      isSchemaKey (revisionDomain component) = true ∧ ∀ m ∈ c.body, propertyIs own m.1 m.2 =
      true := by
  have hbody : ∀ m ∈ c.body, propertyIs (envelopeProperties ++ own) m.1 m.2 =
    propertyIs own m.1 m.2 := by
    intro m hm
    rw [propertyIs, lookup_append_of_not_mem own (h.apart _ (List.mem_map_of_mem hm)), propertyIs]
  have hrequired : ∀ k ∈ envelopeRequired ++ required,
      k ∈ (envelope c.recordType deployment component id version ++ c.body).map Prod.fst := by
    intro k hk
    rw [List.map_append]
    exact List.mem_append.mpr ((List.mem_append.mp hk).imp (fun h => h) (h.required k))
  rw [Records.validate, h.schema, Declaration.record]
  simp only
  rw [ite_eq_left_iff]
  simp only [reduceCtorEq, imp_false, Bool.not_eq_true, Bool.not_eq_false]
  rw [Schema.object_accepts, and_iff_left hrequired, List.forall_mem_append,
    envelope_accepted_iff own h.recordType hdeployment hcomponent hid]
  exact and_congr_right fun _ => forall₂_congr fun m hm => by rw [hbody m hm]

/-- An ASCII identity has a stable ID, and it is a UUID. -/
theorem exists_stableId {parts : List Str} (h : Ascii (identityText parts)) :
    ∃ id, stableId parts = .ok id ∧ isId id = true := by
  obtain ⟨b, hb⟩ := utf8Encode_isSome (Canon.hasSurrogate_eq_false.mp (Canon.clean_of_ascii h))
  refine ⟨uuidOfBytes (uuidBytes (sha256 b)), ?_, isId_uuid (by rw [length_sha256]; decide)⟩
  rw [stableId, Canon.utf8_eq_ok_iff.mpr hb]
  rfl

end

/-! ## Declarations -/

section
variable {c : Declaration} {own : List (Str × Schema)} {required : List Str}
    {deployment component version : Str}
variable [Interp]

/-- A declaration is sealed, and its reader opens the record as it was. -/
def Declaration.Accepted (c : Declaration) (deployment component version : Str) (s : Sealed) :
    Prop :=
  ∃ id w, stableId (c.identity component) = .ok id ∧
    Records.open_ definitionSchemas s.recordType s.raw s.digest = .ok w ∧
    w.same (c.record deployment component id version) = true

/-- A declaration is sealed and accepted exactly where the revision domain is a key and
its members are accepted. -/
theorem Declaration.Under.accepted_iff (hnf : NormalForm) (h : c.Under own required)
    (hdeployment : isId deployment = true) (hcomponent : isComponentId component = true)
    (hversion : Ascii version) : (∃ s, c.seal_ deployment component version = .ok s ∧
      c.Accepted deployment component version s) ↔ isSchemaKey (revisionDomain component) =
      true ∧ ∀ m ∈ c.body, propertyIs own m.1 m.2 = true := by
  have hidentity : Ascii (identityText (c.identity component)) := by
    simp only [identityText, Declaration.identity, Str.join]
    exact ((ascii_of_all rfl).append (ascii_of_all rfl)).append
      (((ascii_of_isComponentId hcomponent).append (ascii_of_all rfl)).append
        ((h.identity.1.append (ascii_of_all rfl)).append h.identity.2))
  obtain ⟨id, hid, hisId⟩ := exists_stableId hidentity
  have hvalid := @Declaration.Under.valid_iff c own required deployment component version h
    hdeployment hcomponent _ hisId
  rw [← hvalid, Declaration.record,
    ← Records.sealed_opens_iff hnf (ascii_of_isSchemaKey h.recordType) (h.distinct_record id)
    (h.features id)
      (fun hvalid => ?_)]
  · constructor
    · rintro ⟨s, hseal, id', w, hid', hopen, hsame⟩
      obtain rfl := Except.ok.inj (hid.symm.trans hid')
      simp only [Declaration.seal_, bind_eq_ok_iff, pure_eq_ok_iff] at hseal
      obtain ⟨id', hid', ⟨raw, digest⟩, hseal, rfl⟩ := hseal
      obtain rfl := Except.ok.inj (hid.symm.trans hid')
      exact ⟨raw, digest, w, hseal, hopen, hsame⟩
    · rintro ⟨raw, digest, w, hseal, hopen, hsame⟩
      refine ⟨⟨c.recordType, c.key, raw, digest⟩, ?_, id, w, hid, hopen, hsame⟩
      simp only [Declaration.seal_, bind_eq_ok_iff, pure_eq_ok_iff]
      exact ⟨id, hid, (raw, digest), hseal, rfl⟩
  · have hparts := (h.valid_iff hdeployment hcomponent hisId).mp hvalid
    exact plainMembers_iff.mpr (List.forall_mem_append.mpr
      ⟨plainMembers_iff.mp (envelope_plain (ascii_of_isSchemaKey h.recordType)
        (ascii_of_isId hdeployment) (ascii_of_isComponentId hcomponent) (ascii_of_isId hisId)
        hversion (ascii_of_isSchemaKey hparts.1)), plainMembers_iff.mp (h.ascii hparts.2)⟩)

end

/-- A checked resource is a declaration under the resource schema. -/
theorem Resource.under {r : Resource} (h : r.problems = []) : r.declaration.Under resourceProperties
    [str "type", str "view_operation", str "dimensions", str "fields"] := by
  have hkey : Ascii r.type := by
    simp only [Resource.problems, List.append_eq_nil_iff, ite_eq_left_iff, List.cons_ne_nil,
      imp_false, not_not] at h
    exact ascii_of_keyGo h.1.1.1
  have hdistinct : ∀ {α : Type} (f : α → Json), (∀ a, (f a).Distinct) → ∀ d : Dict Str α,
      (Json.obj (d.map f).entries).Distinct := by
    intro α f hf d
    refine ⟨(d.map f).nodup, distinctMembers_iff.mpr fun m hm => ?_⟩
    obtain ⟨x, -, rfl⟩ := List.mem_map.mp hm
    exact hf x.2
  refine ⟨rfl, rfl, ⟨ascii_of_all rfl, hkey⟩, ?_, ?_, ?_, ?_, ?_⟩
  · show [str "type", str "view_operation", str "dimensions", str "fields"].Nodup
    decide
  · show ∀ k ∈ [str "type", str "view_operation", str "dimensions", str "fields"], k ∉ envelopeKeys
    decide
  · exact fun k hk => hk
  · exact ⟨trivial, trivial, hdistinct _ Dimension.record_distinct _,
      hdistinct _ Field.record_distinct _, trivial⟩
  · intro haccepted
    have hmap : ∀ {values : Schema}, values.AsciiOnly → (Schema.map isSchemaKey values).AsciiOnly :=
      Schema.asciiOnly_map fun _ => ascii_of_isSchemaKey
    simp only [Resource.declaration, Resource.record, Json.members,
      List.forall_mem_cons] at haccepted
    obtain ⟨htype, hview, hdims, hfields, -⟩ := haccepted
    exact ⟨ascii_of_all rfl, asciiOnly_key _ htype, ascii_of_all rfl, asciiOnly_key _ hview,
      ascii_of_all rfl, hmap asciiOnly_dimension _ hdims, ascii_of_all rfl,
      hmap asciiOnly_field _ hfields, trivial⟩

theorem Operation.keys_record (o : Operation) : (o.record.members.map Prod.fst).Sublist
    [str "key", str "resource_type", str "purpose", str "risk_class", str "minimum_path",
      str "side_effects", str "requires_appointment", str "delegable",
      str "impersonation_allowed", str "audit", str "tightening_only",
      str "output_read_operation", str "self_review_rule"] := by
  have htightening : ((if o.tighteningOnly then [(str "tightening_only", Json.bool true)]
    else []).map Prod.fst).Sublist
      [str "tightening_only"] := by
    split
    · exact List.Sublist.refl _
    · exact List.nil_sublist _
  simp only [Operation.record, Json.members, List.map_append]
  exact (((List.Sublist.refl _).append htightening).append (keys_optionalText _ _)).append
    (keys_optionalText _ _)

/-- An operation with a key is a declaration under the operation schema. -/
theorem Operation.under {o : Operation} (hkey : isKey o.key = true) :
    o.declaration.Under operationProperties [str "key", str "resource_type", str "purpose",
      str "risk_class", str "minimum_path", str "side_effects",
      str "requires_appointment", str "delegable", str "impersonation_allowed", str "audit"] := by
  have hkeys := o.keys_record
  refine ⟨rfl, rfl, ⟨ascii_of_all rfl, ascii_of_keyGo hkey⟩, hkeys.nodup (by decide),
    ?_, ?_, ?_, ?_⟩
  · have hapart : ∀ k ∈ [str "key", str "resource_type", str "purpose", str "risk_class",
      str "minimum_path",
        str "side_effects", str "requires_appointment", str "delegable",
        str "impersonation_allowed", str "audit", str "tightening_only",
        str "output_read_operation", str "self_review_rule"], k ∉ envelopeKeys := by decide
    exact fun k hk => hapart k (hkeys.subset hk)
  · intro k hk
    simp only [Operation.declaration, Operation.record, Json.members, List.append_assoc,
      List.map_append]
    exact List.mem_append_left _ hk
  · have htightening : DistinctMembers
      (if o.tighteningOnly then [(str "tightening_only", Json.bool true)] else []) := by
      split
      · exact ⟨trivial, trivial⟩
      · trivial
    exact distinctMembers_append (distinctMembers_append
      (distinctMembers_append ⟨trivial, trivial, trivial, trivial,
      trivial, distinct_textSet _, trivial, trivial, trivial, trivial, trivial⟩ htightening)
      (distinct_optionalText _ _)) (distinct_optionalText _ _)
  · exact fun haccepted => plainMembers_iff.mpr fun m hm =>
      Records.plain_of_propertyIs asciiOnly_operation (haccepted m hm)

/-- An operation without a problem has a key. -/
theorem Operation.isKey_of_problems {o : Operation} {resources : Dict Str Resource}
    {seen : Dict Str Operation} (h : o.problems resources seen = []) : isKey o.key = true := by
  simp only [Operation.problems, List.append_eq_nil_iff, ite_eq_left_iff, List.cons_ne_nil,
    imp_false, not_not] at h
  exact h.1.1.1.1.1.1.1.1

/-! ## Validated declarations -/

/-- What the schemas ask for beyond `validate`. -/
structure Definitions.Submittable (d : Definitions) : Prop where
  component : d.resources ≠ [] → lettersFirst d.component = true ∧ d.component.length ≤ 117
  resources : ∀ r ∈ d.resources, r.Submittable
  operations : ∀ o ∈ d.operations, o.Submittable

section
variable [Interp] {d : Definitions} {i : Index} {deployment version : Str}

/-- The declarations are sealed, and the reader opens every record as it was. -/
def Definitions.Accepted (d : Definitions) (deployment version : Str) : Prop :=
  ∃ sealed, d.records deployment version = .ok sealed ∧
    List.Forall₂ (fun c s => Declaration.Accepted c deployment d.component version s)
    d.declarations sealed

variable (hnf : NormalForm) (hcomponent : isComponentId d.component = true)
    (hdeployment : isId deployment = true)
  (hversion : Ascii version)
include hnf hcomponent hdeployment hversion

/-- A checked resource is accepted exactly where the component's ID fits and it is
submittable. -/
theorem Resource.accepted_iff {r : Resource} (h : r.problems = []) :
    (∃ s, r.declaration.seal_ deployment d.component version = .ok s ∧
      r.declaration.Accepted deployment d.component version s) ↔
        (lettersFirst d.component = true ∧ d.component.length ≤ 117) ∧ r.Submittable := by
  rw [(Resource.under h).accepted_iff hnf hdeployment hcomponent hversion,
    isSchemaKey_revisionDomain hcomponent, Bool.and_eq_true, decide_eq_true_eq]
  exact and_congr_right fun _ => Resource.members_accepted_iff h

/-- A checked operation is accepted exactly where the component's ID fits and it is
submittable. -/
theorem Operation.accepted_iff {o : Operation} {resources : Dict Str Resource}
    {seen : Dict Str Operation} (h : o.problems resources seen = []) :
    (∃ s, o.declaration.seal_ deployment d.component version = .ok s ∧
      o.declaration.Accepted deployment d.component version s) ↔
        (lettersFirst d.component = true ∧ d.component.length ≤ 117) ∧ o.Submittable := by
  rw [(Operation.under (Operation.isKey_of_problems h)).accepted_iff hnf hdeployment
    hcomponent hversion, isSchemaKey_revisionDomain hcomponent, Bool.and_eq_true, decide_eq_true_eq]
  exact and_congr_right fun _ => Operation.members_accepted_iff (Operation.listed_of_problems h)

/-- **Which validated declarations are accepted by their reader**: exactly those whose
names, columns and keys are registry keys of at most 128 characters, of a component
whose ID makes one. -/
theorem validated_accepted (h : d.validate = .ok i) :
    d.Accepted deployment version ↔ d.Submittable := by
  have hchecked := Definitions.checked h
  have hresource := fun r hr => Resource.accepted_iff hnf hcomponent hdeployment hversion
    (hchecked.resource r hr)
  have hoperation : ∀ o ∈ d.operations, _ := fun o ho =>
    (hchecked.operation o ho).elim fun _ => Operation.accepted_iff hnf hcomponent
      hdeployment hversion
  rw [Definitions.Accepted, Definitions.records, exists_mapM_iff, Definitions.declarations,
    List.forall_mem_append, List.forall_mem_map, List.forall_mem_map, forall₂_congr hresource,
    forall₂_congr hoperation]
  constructor
  · rintro ⟨hr, ho⟩
    refine ⟨fun hne => ?_, fun r hmem => (hr r hmem).2, fun o hmem => (ho o hmem).2⟩
    obtain ⟨r, hmem⟩ := List.exists_mem_of_ne_nil _ hne
    exact (hr r hmem).1
  · intro hsubmittable
    refine ⟨fun r hr => ⟨hsubmittable.component (List.ne_nil_of_mem hr),
      hsubmittable.resources r hr⟩, fun o ho => ?_⟩
    obtain ⟨r, hr, -⟩ := List.mem_map.mp (hchecked.type_mem ho)
    exact ⟨hsubmittable.component (List.ne_nil_of_mem hr), hsubmittable.operations o ho⟩

end

/-! ## A submission that is accepted, and one that is not -/

def bookDeployment : Str := str "0190f3a1-0000-7000-8000-00000000e001"

theorem book_submittable : bookDefinitions.Submittable where
  component := fun _ => by decide
  resources := by
    refine List.forall_mem_singleton.mpr ⟨by decide, by decide, fun m hm => (by cases hm), ?_⟩
    exact List.forall_mem_singleton.mpr ⟨by decide, .inr (by decide), .inl rfl,
      fun x hx => (by cases hx)⟩
  operations := List.forall_mem_singleton.mpr ⟨by decide, by decide, .inl rfl, .inl rfl⟩

theorem normalForm_ascii : @NormalForm Interp.ascii := @NormalForm.mk Interp.ascii
    (fun _ => rfl) fun _ _ => rfl

theorem validated_accepted_book :
    @Definitions.Accepted Interp.ascii bookDefinitions bookDeployment (str "3.2.17") :=
  (@validated_accepted Interp.ascii bookDefinitions _ bookDeployment (str "3.2.17")
    normalForm_ascii (by decide) (by decide) (ascii_of_all rfl) bookDefinitions_validate).mpr
    book_submittable

/-- A field whose name is no registry key. -/
def shelfResource : Resource where
  type := str "lib.book"
  viewOperation := str "lib.read"
  dimensions := some Dict.empty
  fields := ⟨[(str "unitPrice", ⟨.ordinary, [], [], [], []⟩)], by simp⟩

def shelfDefinitions : Definitions := ⟨str "test/lib", [shelfResource], [bookOperation]⟩

theorem validated_refused : (∃ i, shelfDefinitions.validate = .ok i) ∧
    isComponentId shelfDefinitions.component = true ∧ isId bookDeployment = true ∧
    ¬ @Definitions.Accepted Interp.ascii shelfDefinitions bookDeployment (str "3.2.17") := by
  refine ⟨⟨⟨⟨[(str "lib.book", shelfResource)], by simp⟩,
    ⟨[(str "lib.read", bookOperation)], by simp⟩⟩, rfl⟩,
    by decide, by decide, ?_⟩
  rintro ⟨sealed, hrecords, hall⟩
  obtain ⟨s, hs⟩ := exists_mapM_iff.mp ⟨sealed, hrecords, hall⟩ shelfResource.declaration
    (List.mem_cons_self ..)
  have hsubmittable :=
    ((@Resource.accepted_iff Interp.ascii shelfDefinitions bookDeployment (str "3.2.17")
    normalForm_ascii (by decide) (by decide) (ascii_of_all rfl) shelfResource rfl).mp ⟨s, hs⟩).2
  exact absurd (hsubmittable.fields _ (List.mem_cons_self ..)).1 (by decide)

end BeSdk
