/-
BeSdk.Events.EnvelopeTheorems — an event arrives as it was emitted, where its subjects
have no surrogates.

Everything in the envelope is text, so the round trip is one lemma for each way of
writing: `num` reads what `str` wrote of an integer, `json.loads` what `go_json` wrote of
the subjects and what `json.dumps` wrote of a claim reference. The keys of the envelope
are distinct, the trace's included, so a header is the entry that was set
(`get?_headers`).

* `arrives_iff`: for an accepted event the whole round trip holds if and only if no
  emitted subject has a surrogate; the column joins a pair of them into its character.
-/
import BeSdk.Events.Envelope
import BeSdk.Py.JsonTheorems

namespace BeSdk.Events

open Audit (uuidText)
open Consumer (maxHops header received Received num decimalVal resolveClaim)

/-! ## Strings in `go_json` -/

/-- The three characters that are escaped after all others. -/
def htmlEscape (c : CodePoint) : Str :=
  if c = chr '<' then str "\\u003c"
  else if c = chr '>' then str "\\u003e"
  else if c = chr '&' then str "\\u0026"
  else [c]

/-- The publisher's text is the compact one with three characters escaped on top. -/
theorem goJson_eq (v : Json) : goJson v = (compact plainEscape v).flatMap htmlEscape := by
  have hchar : ∀ c : CodePoint, ((if c = chr '<' then str "\\u003c" else [c]).flatMap fun x =>
      (if x = chr '>' then str "\\u003e" else [x]).flatMap fun x =>
        if x = chr '&' then str "\\u0026" else [x]) = htmlEscape c := by
    intro c
    by_cases hl : c = chr '<'
    · subst hl
      decide
    · by_cases hg : c = chr '>'
      · subst hg
        decide
      · by_cases ha : c = chr '&'
        · subst ha
          decide
        · simp [htmlEscape, hl, hg, ha]
  rw [goJson, Str.replace, Str.replace, Str.replace, List.flatMap_assoc, List.flatMap_assoc]
  exact congrArg (List.flatMap · _) (funext hchar)

/-- How `go_json` writes a code point of a string. -/
def goEscape (c : CodePoint) : Str := (plainEscape c).flatMap htmlEscape

/-- Every other character is left as it is. -/
theorem htmlEscape_of_ne {c : CodePoint} (h : c ≠ chr '<' ∧ c ≠ chr '>' ∧ c ≠ chr '&') :
    htmlEscape c = [c] := by
  simp [htmlEscape, h]

theorem flatMap_htmlEscape {s : Str} (h : ∀ c ∈ s, c ≠ chr '<' ∧ c ≠ chr '>' ∧ c ≠ chr '&') :
    s.flatMap htmlEscape = s := by
  induction s with
  | nil => rfl
  | cons c s ih =>
      rw [List.forall_mem_cons] at h
      rw [List.flatMap_cons, htmlEscape_of_ne h.1, ih h.2]
      rfl

/-- A quoted text under the second escape is the publisher's quoted text. -/
theorem flatMap_quoted (s : Str) :
    (quoted plainEscape s).flatMap htmlEscape = quoted goEscape s := by
  have hquote : htmlEscape (chr '"') = [chr '"'] := by decide
  rw [quoted, List.flatMap_cons, List.flatMap_append, List.flatMap_assoc, hquote, quoted]
  rfl

/-- A map over joined texts joins the mapped ones. -/
theorem flatMap_join {f : CodePoint → Str} {sep : Str} (hsep : sep.flatMap f = sep) :
    ∀ xs : List Str, (Str.join sep xs).flatMap f = Str.join sep (xs.map (List.flatMap f))
  | [] => rfl
  | [x] => rfl
  | x :: y :: xs => by
      have h := flatMap_join hsep (y :: xs)
      simp only [Str.join, List.flatMap_append, List.map_cons, hsep] at h ⊢
      rw [h]

/-- A list of strings in `go_json`: the strings with their escapes. -/
theorem goJson_strings (l : List Str) :
    goJson (.list (l.map Json.str)) = compact goEscape (.list (l.map Json.str)) := by
  have hopen : htmlEscape (chr '[') = [chr '['] := by decide
  have hclose : [chr ']'].flatMap htmlEscape = [chr ']'] := by decide
  have hcomma : (str ",").flatMap htmlEscape = str "," := by decide
  have helems : (compactElems plainEscape (l.map Json.str)).map (List.flatMap htmlEscape)
      = compactElems goEscape (l.map Json.str) := by
    rw [compactElems_eq_map, compactElems_eq_map, List.map_map, List.map_map, List.map_map]
    exact List.map_congr_left fun s _ => flatMap_quoted s
  rw [goJson_eq, compact, compact, List.flatMap_cons, List.flatMap_append,
    flatMap_join hcomma, hopen, hclose, helems]
  rfl

theorem hexDigit_ne (d : Nat) : hexDigit d ≠ chr '<' ∧ hexDigit d ≠ chr '>' ∧
    hexDigit d ≠ chr '&' := by
  have h : hexDigit d = hexDigit (d % 16) := by simp [hexDigit]
  rw [h]
  have hall : ∀ n < 16, hexDigit n ≠ chr '<' ∧ hexDigit n ≠ chr '>' ∧
    hexDigit n ≠ chr '&' := by decide
  exact hall _ (Nat.mod_lt _ (by decide))

/-- The escape of a code unit needs no second escape. -/
theorem flatMap_unitEscape (u : Nat) : (unitEscape u).flatMap htmlEscape = unitEscape u := by
  refine flatMap_htmlEscape fun c hc => ?_
  simp only [unitEscape, List.mem_cons, List.not_mem_nil, or_false] at hc
  rcases hc with rfl | rfl | rfl | rfl | rfl | rfl
  · decide
  · decide
  all_goals exact hexDigit_ne _

/-- Nor does the escape of one letter. -/
theorem flatMap_letterEscape {c : CodePoint} {e : Str} (h : letterEscape c = some e) :
    e.flatMap htmlEscape = e := by
  unfold letterEscape at h
  repeat' split at h
  all_goals first
    | (obtain rfl := Option.some.inj h; decide)
    | simp at h

/-- What `go_json` writes for a code point is read back, a surrogate too. -/
theorem reads_goEscape (c : CodePoint) : Reads goEscape c := by
  intro tail
  rw [goEscape, plainEscape]
  cases he : letterEscape c with
  | some e =>
      simp only
      rw [flatMap_letterEscape he]
      exact scanString_letterEscape he tail
  | none =>
      have hq : c ≠ chr '"' := by rintro rfl; revert he; decide
      have hb : c ≠ chr '\\' := by rintro rfl; revert he; decide
      simp only
      split
      · next hlt =>
        rw [flatMap_unitEscape, scanString_unitEscape (by omega) (by simp [isHighSurrogate]; omega)]
        rfl
      · next hge =>
        rw [List.flatMap_singleton, htmlEscape]
        split
        · next h =>
          subst h
          exact scanString_unitEscape (u := 0x3c) (by decide) (by decide) tail
        · split
          · next h =>
            subst h
            exact scanString_unitEscape (u := 0x3e) (by decide) (by decide) tail
          · split
            · next h =>
              subst h
              exact scanString_unitEscape (u := 0x26) (by decide) (by decide) tail
            · exact scanString_cons hq hb (Nat.not_lt.mp hge) tail

/-- **Strings survive `go_json`.** -/
theorem loadsText_goJson [Interp] (l : List Str) :
    loadsText (goJson (.list (l.map Json.str))) = .ok (.list (l.map Json.str)) := by
  have hreads : (Json.list (l.map Json.str)).ReadsBack goEscape := by
    show PlainElems _ _ _ _
    rw [plainElems_iff]
    intro x hx
    obtain ⟨s, -, rfl⟩ := List.mem_map.mp hx
    exact readsText_of_reads fun c _ => reads_goEscape c
  have hdistinct : (Json.list (l.map Json.str)).Distinct := by
    show DistinctElems _
    rw [distinctElems_iff]
    intro x hx
    obtain ⟨s, -, rfl⟩ := List.mem_map.mp hx
    trivial
  have hroom : (Json.list (l.map Json.str)).depth ≤ Interp.nesting := by
    refine le_trans (Nat.succ_le_succ (depthElems_le_iff.mpr ?_))
      (le_trans (by decide : 1 ≤ 3) Interp.room)
    exact List.forall_mem_map.mpr fun _ _ => Nat.le_refl 0
  rw [goJson_strings]
  exact loadsText_of_scanJson (scanJson_compact hreads) hdistinct hroom

/-! ## The columns -/

theorem storable_iff {s : Str} : storable s = true ↔ ∀ c ∈ s, c.val ≠ 0 ∧
    isSurrogate c = false := by
  simp [storable]

/-- A text without surrogates is what `jsonb` keeps of it. -/
theorem jsonbText_of_paired {s t : Str} (hs : Paired s) (h : jsonbText s = some t) : t = s := by
  have hread := scanString_quoted asciiEscape [] s fun c hc => reads_asciiEscape (hs c hc)
  rw [jsonbText, hread] at h
  simp only at h
  split at h
  · exact (Option.some.inj h).symm
  · cases h

/-- What `jsonb` keeps has no surrogates. -/
theorem paired_of_jsonbText {s t : Str} (h : jsonbText s = some t) : Paired t := by
  rw [jsonbText] at h
  split at h
  · split at h
    · next hstorable =>
      obtain rfl := Option.some.inj h
      exact fun c hc => (storable_iff.mp hstorable c hc).2
    · cases h
  · cases h

/-- A list of subjects is kept as it is exactly where it has no surrogates. -/
theorem jsonbTexts_eq_iff : ∀ {l l' : List Str}, l.mapM jsonbText = some l' →
    (l' = l ↔ ∀ s ∈ l, Paired s)
  | [], l', h => by
      obtain rfl : [] = l' := Option.some.inj h
      simp
  | s :: l, l', h => by
      rw [List.mapM_cons, Option.bind_eq_bind, Option.bind_eq_some_iff] at h
      obtain ⟨t, ht, hrest⟩ := h
      rw [Option.bind_eq_bind, Option.bind_eq_some_iff] at hrest
      obtain ⟨ts, hts, heq⟩ := hrest
      obtain rfl : t :: ts = l' := Option.some.inj heq
      have hs : t = s ↔ Paired s :=
        ⟨fun heq => heq ▸ paired_of_jsonbText ht, fun hpaired => jsonbText_of_paired hpaired ht⟩
      rw [List.cons.injEq, List.forall_mem_cons, hs, jsonbTexts_eq_iff hts]

/-- The subjects come back as they were where their surrogates are paired. -/
theorem stored_eq_iff {emitted stored : Option (List Str)}
    (h : emitted.mapM (List.mapM jsonbText) = some stored) :
    stored = emitted ↔ ∀ l ∈ emitted, ∀ s ∈ l, Paired s := by
  cases emitted with
  | none =>
      obtain rfl : none = stored := Option.some.inj h
      simp
  | some l =>
      obtain ⟨l', hl', heq⟩ := Option.map_eq_some_iff.mp h
      obtain rfl : some l' = stored := heq
      rw [Option.some.injEq, jsonbTexts_eq_iff hl']
      simp

/-! ## Headers -/

/-- The keys of the envelope proper, by the entries it has only sometimes. -/
def ownKeys (causation legalEntity subjects claim : Bool) : List Str :=
  ["ce-specversion", "ce-id", "ce-source", "ce-type", "ce-time", "ce-subject",
    "ce-datacontenttype", "ce-bestream", "ce-bepartition", "ce-beimpl", "ce-beepoch",
    "ce-beseq", "ce-beversion", "ce-beprojection", "ce-bedigest",
    "ce-behops"].map str ++
  (if causation then [str "ce-becausation"] else []) ++
    (if legalEntity then [str "ce-belegalentity"] else []) ++
  (if subjects then [str "ce-besubjects"] else []) ++ (if claim then [str "ce-beclaim"] else [])

theorem ownKeys_sublist (a b c d : Bool) :
    (ownKeys a b c d).Sublist (ownKeys true true true true) := by
  have hentry : ∀ (x : Bool) (k : Str), (if x then [k] else []).Sublist [k] :=
    fun x k => by cases x <;> simp
  exact (((List.Sublist.refl _).append (hentry a _)).append (hentry b _)).append (hentry c _)
    |>.append (hentry d _)

theorem ownKeys_nodup (a b c d : Bool) : (ownKeys a b c d).Nodup := by
  have hall : (ownKeys true true true true).Nodup := by simp [ownKeys, str_inj]
  exact hall.sublist (ownKeys_sublist a b c d)

/-- The trace's keys are none of them. -/
theorem trace_key_not_own (a b c d : Bool) :
    str "ce-traceparent" ∉ ownKeys a b c d ∧ str "ce-tracestate" ∉ ownKeys a b c d := by
  have hall : str "ce-traceparent" ∉ ownKeys true true true true ∧
    str "ce-tracestate" ∉ ownKeys true true true true := by
    simp [ownKeys, str_inj]
  have hsubset := (ownKeys_sublist a b c d).subset
  exact ⟨fun h => hall.1 (hsubset h), fun h => hall.2 (hsubset h)⟩

theorem claim_key (a b c : Bool) :
    str "ce-beclaim" ∉ ownKeys a b c false := by simp [ownKeys, str_inj]

theorem subjects_key (a b d : Bool) :
    str "ce-besubjects" ∉ ownKeys a b false d := by simp [ownKeys, str_inj]

section
variable {r : Row} {place : Position} {claim : Bool} {source impl : Str}

/-- Which headers the publisher sets of its own. -/
theorem own_keys : (r.own place claim source impl).map Prod.fst
    = ownKeys r.causation.isSome (decide (r.legalEntity ≠ [])) r.subjects.isSome claim := by
  have hcausation : (r.causation.toList.map fun id => (str "ce-becausation", uuidText id)).map
    Prod.fst
      = if r.causation.isSome then [str "ce-becausation"] else [] := by
    cases r.causation <;> rfl
  have hentity : (if r.legalEntity = [] then []
    else [(str "ce-belegalentity", r.legalEntity)]).map Prod.fst
      = if decide (r.legalEntity ≠ []) then [str "ce-belegalentity"] else [] := by
    by_cases h : r.legalEntity = [] <;> simp [h]
  have hsubjects : (r.subjects.toList.map fun l => (str "ce-besubjects",
    goJson (.list (l.map .str)))).map Prod.fst
      = if r.subjects.isSome then [str "ce-besubjects"] else [] := by
    cases r.subjects <;> rfl
  have hclaim : (if claim then [(str "ce-beclaim", str "true")] else []).map Prod.fst
      = if claim then [str "ce-beclaim"] else [] := by
    cases claim <;> rfl
  rw [Row.own, List.map_append, List.map_append, List.map_append, List.map_append, hcausation,
    hentity, hsubjects, hclaim]
  rfl

/-- The trace adds two keys at most. -/
theorem trace_key {k : Str}
    (h : k ∈ (r.trace.entries.entries.map fun e => (str "ce-" ++ e.1, e.2)).map Prod.fst) :
    k = str "ce-traceparent" ∨ k = str "ce-tracestate" := by
  obtain ⟨x, hx, rfl⟩ := List.mem_map.mp h
  obtain ⟨e, he, rfl⟩ := List.mem_map.mp hx
  rcases r.trace.w3c e.1 (List.mem_map_of_mem he) with hk | hk
  · exact .inl (congrArg (str "ce-" ++ ·) hk)
  · exact .inr (congrArg (str "ce-" ++ ·) hk)

theorem trace_keys_nodup :
    ((r.trace.entries.entries.map fun e => (str "ce-" ++ e.1, e.2)).map Prod.fst).Nodup := by
  have hmap : (r.trace.entries.entries.map fun e => (str "ce-" ++ e.1, e.2)).map Prod.fst
      = (r.trace.entries.entries.map Prod.fst).map (str "ce-" ++ ·) := by
    rw [List.map_map, List.map_map]
    rfl
  rw [hmap]
  exact r.trace.entries.nodup.map fun a b h => List.append_cancel_left h

/-- The keys of an envelope are distinct. -/
theorem pairs_nodup : ((r.pairs place claim source impl).map Prod.fst).Nodup := by
  rw [Row.pairs, List.map_append, List.nodup_append]
  refine ⟨own_keys ▸ ownKeys_nodup _ _ _ _, trace_keys_nodup, fun a ha b hb heq => ?_⟩
  rw [own_keys] at ha
  rcases trace_key hb with rfl | rfl
  · exact (trace_key_not_own _ _ _ _).1 (heq ▸ ha)
  · exact (trace_key_not_own _ _ _ _).2 (heq ▸ ha)

theorem get?_headers {k v : Str} (h : (k, v) ∈ r.own place claim source impl) :
    (r.headers place claim source impl).get? k = some v :=
  Dict.get?_ofPairs pairs_nodup (List.mem_append_left _ h)

/-- A key that was not set is not there, and no key of the trace. -/
theorem get?_headers_eq_none {k : Str} (hown : k ∉ (r.own place claim source impl).map Prod.fst)
    (htrace : k ≠ str "ce-traceparent" ∧ k ≠ str "ce-tracestate") :
    (r.headers place claim source impl).get? k = none := by
  rw [← Option.not_isSome_iff_eq_none, Row.headers, Dict.isSome_get?_ofPairs, Row.pairs,
    List.map_append, List.mem_append, not_or]
  exact ⟨hown, fun h => (trace_key h).elim htrace.1 htrace.2⟩

theorem header_headers {k : String} {v : Str} (h : (str k, v) ∈ r.own place claim source impl) :
    header (r.headers place claim source impl) k = v := by
  rw [header, get?_headers h]
  rfl

/-- The claim mark is there where the payload was put into the claim store. -/
theorem claim_header : header (r.headers place claim source impl) "ce-beclaim" = str "true" ↔
    claim = true := by
  cases claim with
  | true =>
      have h : (str "ce-beclaim", str "true") ∈ r.own place true source impl := by simp [Row.own]
      simp [header_headers h]
  | false =>
      have h : (r.headers place false source impl).get? (str "ce-beclaim") = none :=
        get?_headers_eq_none (by rw [own_keys]; exact claim_key _ _ _) (by decide)
      rw [header, h]
      decide

/-- The subjects header holds the stored subjects, and is missing without any. -/
theorem subjects_header : (r.headers place claim source impl).get? (str "ce-besubjects")
    = r.subjects.map fun l => goJson (.list (l.map .str)) := by
  cases hl : r.subjects with
  | some l => exact get?_headers (by simp [Row.own, hl])
  | none => exact get?_headers_eq_none (by rw [own_keys, hl]; exact subjects_key _ _ _) (by decide)

end

/-! ## Numbers -/

theorem dropWhile_natText (n : Nat) : ((natText n).dropWhile fun c => c = chr '-') = natText n := by
  obtain ⟨c, rest, hn, hdigit⟩ := natText_head n
  rw [hn, List.dropWhile_cons_of_neg]
  exact fun h => ne_of_isDigit hdigit (by decide) (of_decide_eq_true h)

theorem length_uuidText (n : Nat) : (uuidText n).length = 36 := by
  simp [uuidText, Str.join, str]

/-- An epoch is read off its text. -/
theorem epochText_inj {a b : Outbox.Epoch} (h : epochText a = epochText b) : a = b := by
  have hdot : ∀ n, chr '.' ∉ natText n := fun n hmem => absurd (isDigit_of_mem_natText hmem)
    (by decide)
  obtain ⟨hgeneration, htimeline⟩ := Str.append_cons_inj (hdot _) (hdot _) h
  have hnat : ∀ {m n : Nat}, natText m = natText n → m = n := fun {m n} heq => by
    rw [← digitsVal_natText m, heq, digitsVal_natText]
  exact Prod.ext (hnat hgeneration) (hnat htimeline)

/-- A `bigint` has at most as many digits as `int` reads. -/
theorem natAbs_lt_of_isBig {n : Int} (h : isBig n = true) :
    n.natAbs < 10 ^ Consumer.maxStrDigits := by
  have hn := of_decide_eq_true h
  exact Nat.lt_of_le_of_lt (by omega : n.natAbs ≤ 10 ^ 19)
    (Nat.pow_lt_pow_right (by decide) (by decide))

theorem lt_pow_of_big {n : Nat} (h : n < 2 ^ 63) : n < 10 ^ Consumer.maxStrDigits :=
  Nat.lt_of_lt_of_le h (Nat.le_trans (by norm_num : 2 ^ 63 ≤ 10 ^ 19)
    (Nat.pow_le_pow_right (by decide) (by decide)))

section
variable [Interp]

/-- ASCII digits are read as their number. -/
theorem mapM_digits : ∀ {s : Str}, (∀ c ∈ s, isDigit c = true) → ∃ ds, s.mapM decimalVal = some ds ∧
    ∀ m, ds.foldl (fun n d => 10 * n + d) m = s.foldl (fun n c => 10 * n + (digitVal c).getD 0) m
  | [], _ => ⟨[], rfl, fun _ => rfl⟩
  | c :: s, h => by
      rw [List.forall_mem_cons] at h
      obtain ⟨d, hd⟩ := Option.isSome_iff_exists.mp h.1
      obtain ⟨ds, hds, hfold⟩ := mapM_digits h.2
      have hval : decimalVal c = some d := by
        have hrange := digit_range h.1
        rw [decimalVal, if_pos (by omega), hd]
      refine ⟨d :: ds, by rw [List.mapM_cons, hval, hds]; rfl, fun m => ?_⟩
      rw [List.foldl_cons, List.foldl_cons, hfold, hd]
      rfl

/-- `int(str(n)) = n` -/
theorem mapM_natText (n : Nat) : ∃ ds, (natText n).mapM decimalVal = some ds ∧
    ds.foldl (fun n d => 10 * n + d) 0 = n := by
  obtain ⟨ds, hds, hfold⟩ := mapM_digits fun c hc => isDigit_of_mem_natText hc
  exact ⟨ds, hds, (hfold 0).trans (digitsVal_natText n)⟩

/-- `num` reads what `str` wrote of an integer. -/
theorem num_intText {h : Dict Str Str} {key : Str} {n : Int}
    (hn : n.natAbs < 10 ^ Consumer.maxStrDigits) (hget : h.get? key = some (intText n)) :
    num h key = .ok n := by
  obtain ⟨ds, hds, hfold⟩ := mapM_natText n.natAbs
  have hlength : (natText n.natAbs).length ≤ Consumer.maxStrDigits :=
    length_natText_le hn (by decide)
  have hne : (natText n.natAbs).isEmpty = false := by
    rw [List.isEmpty_eq_false_iff]
    exact natText_ne_nil _
  by_cases hneg : n < 0
  · have htext : intText n = chr '-' :: natText n.natAbs := by
      rw [intText, if_pos hneg]
      rfl
    have hdrop : ((intText n).dropWhile fun c => c = chr '-') = natText n.natAbs := by
      rw [htext, List.dropWhile_cons_of_pos (by decide), dropWhile_natText]
    have hsign : (intText n).length = (natText n.natAbs).length + 1 := by
      rw [htext, List.length_cons]
    rw [num, hget, Option.getD_some]
    simp only [hdrop, hne, hsign, hds, hfold]
    rw [if_neg (by simp; omega), if_pos (Nat.lt_succ_self _)]
    exact congrArg Except.ok (by omega)
  · have htext : intText n = natText n.natAbs := by rw [intText, if_neg hneg]
    rw [num, hget, Option.getD_some]
    simp only [htext, dropWhile_natText, hne, hds, hfold]
    rw [if_neg (by simp; omega), if_neg (Nat.lt_irrefl _)]
    exact congrArg Except.ok (by omega)

theorem num_natText {h : Dict Str Str} {key : Str} {n : Nat} (hn : n < 10 ^ Consumer.maxStrDigits)
    (hget : h.get? key = some (natText n)) : num h key = .ok (n : Int) :=
  num_intText hn (by rw [hget, intText, if_neg (by omega), Int.natAbs_natCast])

/-! ## What is accepted -/

/-- An accepted event and its row. -/
structure Accepted (cause : Option (Str × Int)) (d : Draws) (ev : Event) (r : Row) : Prop where
  type : ev.type ≠ []
  eventId : r.eventId = d.eventId
  typed : r.type = ev.type
  recordId : r.recordId = ev.recordId
  version : r.version = ev.version
  projection : r.projection = ev.projection
  legalEntity : r.legalEntity = ev.legalEntity
  trace : r.trace = d.trace
  occurredAt : r.occurredAt = d.now
  digest : r.digest = rowDigest d.eventId r.payload
  bigint : isBig ev.version = true
  partition : r.partition < 256
  hops : r.hops = (caused cause).1
  bounds : 0 ≤ r.hops ∧ r.hops ≤ maxHops
  causation : causationOf (caused cause).2 = .ok r.causation
  payload : payloadOf ev.data = some r.payload
  field : r.payload.length < maxField
  subjects : ev.subjects.mapM (List.mapM jsonbText) = some r.subjects
  count : (ev.subjects.map List.length).getD 0 ≤ maxSubjects

/-- A row that is emitted passed every check of the event. -/
theorem Producer.emit_ok {p : Producer} {cause : Option (Str × Int)} {d : Draws}
    {stream : Str} {ev : Event} {r : Row} (h : p.emit cause d stream ev = .ok r) :
    Accepted cause d ev r ∧
      (maxPayload < r.payload.length → p.claims.isSome = true) ∧ ∃ s, p.streams.get? stream =
      some s ∧ r.stream = s.name := by
  unfold Producer.emit at h
  split at h
  · cases h
  · next s hs =>
    dsimp only at h
    split at h
    · cases h
    next htype =>
    split at h
    · cases h
    next hprojection =>
    split at h
    · cases h
    next hcount =>
    split at h
    · cases h
    next payload hpayload =>
    split at h
    · cases h
    next hclaims =>
    split at h
    · cases h
    next hhops =>
    split at h
    · cases h
    next lower hlower =>
    obtain ⟨causation, hcausation, h⟩ := bind_eq_ok_iff.mp h
    split at h
    · cases h
    next subjects hsubjects =>
    split at h
    · next hcolumns =>
      obtain rfl := Except.ok.inj h
      rw [not_or] at htype
      refine ⟨⟨htype.1, rfl, rfl, rfl, rfl, rfl, rfl, rfl, rfl, rfl, hcolumns.2.2.2.1, ?_,
        rfl, ⟨hcolumns.2.2.2.2.1, ?_⟩, hcausation, hpayload, hcolumns.2.2.2.2.2, hsubjects,
        Nat.not_lt.mp hcount⟩, fun hlarge => ?_, s, hs, rfl⟩
      · exact Nat.lt_of_lt_of_le (Nat.mod_lt _ s.counted.1) s.counted.2
      · exact Int.not_lt.mp hhops
      · by_contra hnone
        exact hclaims ⟨hlarge, by simpa using hnone⟩
    · cases h

/-! ## Received -/

/-- A row as its handler sees it. -/
def Row.seen (r : Row) (place : Position) (source impl : Str) (m : Message) : Received :=
  { id := uuidText r.eventId, type := r.type, source := str "urn:be:" ++ source,
    recordId := r.recordId, version := r.version, projection := r.projection,
    stream := r.stream, partition := r.partition, seq := place.seq,
    epoch := epochText place.epoch, impl := impl, hops := r.hops, data := m.data,
      headers := m.headers }

/-- `received` reads the row off its envelope. -/
theorem received_headers {cause : Option (Str × Int)} {d : Draws} {ev : Event} {r : Row}
    (hr : Accepted cause d ev r) (place : Position) (claim : Bool) (source impl : Str)
    {m : Delivery} (hm : m.headers = r.headers place claim source impl) :
    received m = .ok (r.seen place source impl m.toMessage) := by
  have hget : ∀ {k : String} {v : Str}, (str k, v) ∈ r.own place claim source impl →
    header m.headers k = v :=
    fun h => hm ▸ header_headers h
  have hid : m.id = uuidText r.eventId := hget (k := "ce-id") (by simp [Row.own])
  have hversion : num m.headers (str "ce-beversion") = .ok r.version :=
    num_intText (natAbs_lt_of_isBig (hr.version ▸ hr.bigint))
      (hm ▸ get?_headers (by simp [Row.own]))
  have hpartition : num m.headers (str "ce-bepartition") = .ok (r.partition : Int) :=
    num_natText (lt_pow_of_big (Nat.lt_trans hr.partition (by norm_num)))
      (hm ▸ get?_headers (by simp [Row.own]))
  have hseq : num m.headers (str "ce-beseq") = .ok (place.seq : Int) :=
    num_natText (lt_pow_of_big place.bigint) (hm ▸ get?_headers (by simp [Row.own]))
  have hhops : num m.headers (str "ce-behops") = .ok r.hops := by
    have hbig : isBig r.hops = true := by
      have hbounds := hr.bounds
      rw [isBig, decide_eq_true_iff]
      simp only [maxHops] at hbounds
      omega
    exact num_intText (natAbs_lt_of_isBig hbig) (hm ▸ get?_headers (by simp [Row.own]))
  have htype : header m.headers "ce-type" = r.type := hget (by simp [Row.own])
  have hnonempty : ¬ (m.id.isEmpty = true ∨ (header m.headers "ce-type").isEmpty = true) := by
    rw [not_or, htype, hid, List.isEmpty_iff, List.isEmpty_iff]
    refine ⟨fun hnil => ?_, hr.typed ▸ hr.type⟩
    have hlength := length_uuidText r.eventId
    rw [hnil] at hlength
    cases hlength
  have hsource : header m.headers "ce-source" = str "urn:be:" ++ source := hget (by simp [Row.own])
  have hrecord : header m.headers "ce-subject" = r.recordId := hget (by simp [Row.own])
  have hprojection : header m.headers "ce-beprojection" = r.projection := hget (by simp [Row.own])
  have hstream : header m.headers "ce-bestream" = r.stream := hget (by simp [Row.own])
  have hepoch : header m.headers "ce-beepoch" = epochText place.epoch := hget (by simp [Row.own])
  have himpl : header m.headers "ce-beimpl" = impl := hget (by simp [Row.own])
  rw [received, if_neg hnonempty, hversion, hpartition, hseq, hhops, hid, htype, hsource,
    hrecord, hprojection, hstream, hepoch, himpl]
  rfl

/-- A message within the limits is prepared with its data. -/
theorem prepare_ok {m : Delivery} {x : Received} {fetched : Except Exc Bytes} {data : Bytes}
    (hx : received m = .ok x) (hhops : x.hops ≤ maxHops)
    (hdata : resolveClaim m.toMessage fetched = .ok data) :
    Consumer.prepare m fetched = .ok { x with data } := by
  rw [Consumer.prepare, hx, hdata]
  show (if maxHops < x.hops then _ else _) = _
  rw [if_neg (Int.not_lt.mpr hhops)]
  rfl

/-! ## Claims -/

omit [Interp] in
theorem paired_of_all {s : Str} (h : s.all (fun c => !isSurrogate c) = true) : Paired s := by
  intro c hc
  simpa using List.all_eq_true.mp h c hc

/-- A reference is read back from its text. -/
theorem loads_claimReference {uri : Str} {payload : Bytes} (huri : Paired uri)
    (hlength : payload.length < maxField)
    {data : Bytes} (hdata : utf8Encode (dumps (claimReference uri payload)) = some data) :
    loads data = .ok (claimReference uri payload) := by
  have hplain : (claimReference uri payload).Plain Paired Paired fun n => n.natAbs <
    10 ^ maxStrDigits := by
    have hsize : (payload.length : Int).natAbs < 10 ^ maxStrDigits := by
      have hbig : payload.length < 2 ^ 63 :=
        Nat.lt_trans hlength (Nat.pow_lt_pow_right (by decide) (by decide))
      rw [Int.natAbs_natCast, show maxStrDigits = Consumer.maxStrDigits from rfl]
      exact lt_pow_of_big hbig
    refine ⟨paired_of_all rfl, ⟨paired_of_all rfl, huri, paired_of_all rfl, hsize,
      paired_of_all rfl, ?_, trivial⟩, trivial⟩
    exact isSurrogate_sha256Hex payload
  have hdistinct : (claimReference uri payload).Distinct := by
    have hkeys : [str "uri", str "size", str "sha256"].Nodup := by decide
    exact ⟨by simp, ⟨hkeys, trivial, trivial, trivial, trivial⟩, trivial⟩
  have hroom : (claimReference uri payload).depth ≤ Interp.nesting :=
    le_trans (by decide : 2 ≤ 3) Interp.room
  obtain ⟨b, hb, hloads⟩ := loads_dumps hplain hdistinct hroom
  obtain rfl := Option.some.inj (hb.symm.trans hdata)
  exact hloads

/-- What a reference to a payload says. -/
theorem referenceOf_claimReference (ofFloat : Str → Except Exc Int)
    {uri : Str} {payload data : Bytes} (h : loads data = .ok (claimReference uri payload)) :
    referenceOf ofFloat data = .ok ⟨.str uri, payload.length, .str (sha256Hex payload)⟩ := by
  rw [referenceOf, h]
  rfl

/-- The payload is fetched as it was put. -/
theorem fetchClaim_claimReference (ofFloat : Str → Except Exc Int) {reader : Get} {uri : Str}
    {payload data : Bytes} (h : loads data = .ok (claimReference uri payload))
    (hget : reader uri = .ok payload) : fetchClaim ofFloat (some reader) data = .ok payload := by
  have hfits : Reference.fits ⟨.str uri, payload.length, .str (sha256Hex payload)⟩ payload =
    true := by
    simp [Reference.fits]
  rw [fetchClaim, referenceOf_claimReference ofFloat h]
  simp only [Reference.fetch, hget]
  rw [if_pos hfits]

/-- **A fetched payload that differs from its reference is never returned.** -/
theorem resolve_mismatch (ofFloat : Str → Except Exc Int) {reader : Get} {m : Message}
    {ref : Reference} {uri : Str} {fetched : Bytes}
    (hclaim : header m.headers "ce-beclaim" = str "true")
    (href : referenceOf ofFloat m.data = .ok ref) (huri : ref.uri = .str uri)
    (hget : reader uri = .ok fetched)
    (hdiffers : (fetched.length : Int) ≠ ref.size ∨ ref.sha256 ≠ .str (sha256Hex fetched)) :
    resolve ofFloat (some reader) m = .error .valueError := by
  have hfits : ref.fits fetched = false := by
    rw [Reference.fits, Bool.and_eq_false_iff]
    rcases hdiffers with hsize | hdigest
    · exact .inl (decide_eq_false hsize)
    · right
      split
      · next digest hd => exact decide_eq_false fun heq => hdigest (heq ▸ hd)
      · rfl
  rw [resolve, resolveClaim, if_pos hclaim, fetchClaim, href]
  simp only [Reference.fetch, huri, hget, hfits]
  rfl

/-! ## The round trip -/

/-- What the claim store promises of a payload: it is fetched as it was put, under an
address that is plain text. -/
structure Returns (put : Put) (reader : Get) (id : Str) (payload : Bytes) : Prop where
  fetched : reader (put id payload) = .ok payload
  address : Paired (put id payload)

/-- The message of a row, as a subscriber has it. -/
structure Arrives (ofFloat : Str → Except Exc Int) (reader : Get) (r : Row) (place : Position)
    (emitted : Option (List Str)) (m : Message) : Prop where
  received : ∀ attempt : Int, ∃ x, Consumer.prepare ⟨m, attempt⟩
    (fetchClaim ofFloat (some reader) m.data) = .ok x ∧ x.id = uuidText r.eventId ∧
    x.type = r.type ∧ x.recordId = r.recordId ∧ x.version = r.version ∧
    x.projection = r.projection ∧ x.stream = r.stream ∧ x.partition = r.partition ∧
    x.seq = place.seq ∧ (∀ e, epochText e = x.epoch ↔ e = place.epoch) ∧ x.hops = r.hops ∧
    x.data = r.payload
  subjects : (m.headers.get? (str "ce-besubjects")).map loadsText = emitted.map fun l =>
    .ok (.list (l.map .str))

omit [Interp] in
/-- A small payload travels in the message. -/
theorem Row.message_inline {r : Row} (put : Option Put) (place : Position) (source impl : Str)
    (h : r.payload.length ≤ maxPayload) : r.message put place source impl
      = some ⟨subject r.stream r.partition r.type, r.headers place false source impl,
        r.payload⟩ := by
  rw [Row.message, if_pos h]

omit [Interp] in
/-- The forwarded message and what it carries. -/
theorem Row.message_cases {r : Row} {put : Option Put} {place : Position} {source impl : Str}
    {m : Message} (h : r.message put place source impl = some m) :
    (r.payload.length ≤ maxPayload ∧ m.headers = r.headers place false source impl ∧
      m.data = r.payload) ∨
    ∃ store, put = some store ∧ maxPayload < r.payload.length ∧
    m.headers = r.headers place true source impl ∧
      utf8Encode (dumps (claimReference (store (uuidText r.eventId) r.payload) r.payload)) =
      some m.data := by
  by_cases hsmall : r.payload.length ≤ maxPayload
  · rw [Row.message_inline put place source impl hsmall, Option.some.injEq] at h
    subst h
    exact .inl ⟨hsmall, by dsimp only, rfl⟩
  · rw [Row.message, if_neg hsmall] at h
    obtain ⟨store, hstore, h⟩ := Option.bind_eq_some_iff.mp h
    obtain ⟨data, hdata, rfl⟩ := Option.map_eq_some_iff.mp h
    exact .inr ⟨store, hstore, Nat.not_le.mp hsmall, by dsimp only, hdata⟩

omit [Interp] in
/-- Every message of a row has the row's headers. -/
theorem Row.message_headers {r : Row} {put : Option Put} {place : Position}
    {source impl : Str} {m : Message} (h : r.message put place source impl = some m) :
    ∃ claim, m.headers = r.headers place claim source impl := by
  rcases Row.message_cases h with ⟨-, hheaders, -⟩ | ⟨_, -, -, hheaders, -⟩
  · exact ⟨false, hheaders⟩
  · exact ⟨true, hheaders⟩

/-- What was stored of the subjects is what their header says. -/
theorem subjects_arrive_iff {cause : Option (Str × Int)} {d : Draws} {ev : Event} {r : Row}
    (hr : Accepted cause d ev r) {put : Option Put} {place : Position} {source impl : Str}
    {m : Message} (hm : r.message put place source impl = some m) :
    (m.headers.get? (str "ce-besubjects")).map loadsText = ev.subjects.map
    (fun l => .ok (.list (l.map .str))) ↔
      ∀ l ∈ ev.subjects, ∀ s ∈ l, Paired s := by
  have hinj : Function.Injective fun l : List Str =>
    (.ok (.list (l.map .str)) : Except LoadsError Json) := by
    intro a b hab
    exact List.map_injective_iff.mpr (fun _ _ => Json.str.inj) (Json.list.inj (Except.ok.inj hab))
  obtain ⟨claim, hheaders⟩ := Row.message_headers hm
  have hheader : (m.headers.get? (str "ce-besubjects")).map loadsText
      = r.subjects.map fun l => .ok (.list (l.map .str)) := by
    rw [hheaders, subjects_header, Option.map_map]
    exact congrArg (Option.map · _) (funext loadsText_goJson)
  rw [hheader, (Option.map_injective hinj).eq_iff, stored_eq_iff hr.subjects]

/-- **An event arrives as it was emitted**, if and only if no emitted subject has a
surrogate; and a claimed payload that does not match its reference is refused. -/
theorem arrives_iff (ofFloat : Str → Except Exc Int)
    {p : Producer} {cause : Option (Str × Int)} {d : Draws}
    {stream : Str} {ev : Event} {r : Row} (hr : p.emit cause d stream ev = .ok r)
    (place : Position) (impl : Str) {m : Message}
    (hm : r.message p.claims place p.source impl = some m) {reader : Get}
    (hstore : ∀ put ∈ p.claims, Returns put reader (uuidText r.eventId) r.payload) :
    (Arrives ofFloat reader r place ev.subjects m ↔ ∀ l ∈ ev.subjects, ∀ s ∈ l, Paired s) ∧
    ∀ (m' : Message) (ref : Reference) (uri : Str) (fetched : Bytes), header m'.headers
    "ce-beclaim" = str "true" →
      referenceOf ofFloat m'.data = .ok ref → ref.uri = .str uri → reader uri = .ok fetched →
      ((fetched.length : Int) ≠ ref.size ∨ ref.sha256 ≠ .str (sha256Hex fetched)) →
      resolve ofFloat (some reader) m' = .error .valueError := by
  obtain ⟨hacc, -, -⟩ := Producer.emit_ok hr
  refine ⟨?_, fun m' ref uri fetched hclaim href huri hget => resolve_mismatch ofFloat hclaim
    href huri hget⟩
  rw [← subjects_arrive_iff hacc hm]
  refine ⟨fun h => h.subjects, fun h => ⟨fun attempt => ?_, h⟩⟩
  have hprepared : ∀ claim, m.headers = r.headers place claim p.source impl →
      resolveClaim m (fetchClaim ofFloat (some reader) m.data) = .ok r.payload →
      Consumer.prepare ⟨m, attempt⟩ (fetchClaim ofFloat (some reader) m.data)
        = .ok { r.seen place p.source impl m with data := r.payload } := by
    intro claim hheaders hresolve
    have hreceived := received_headers hacc place claim p.source impl (m := ⟨m, attempt⟩) hheaders
    exact prepare_ok hreceived hacc.bounds.2 hresolve
  have hepoch : ∀ e, epochText e = epochText place.epoch ↔ e = place.epoch :=
    fun e => ⟨epochText_inj, fun heq => heq ▸ rfl⟩
  suffices hok : Consumer.prepare ⟨m, attempt⟩ (fetchClaim ofFloat (some reader) m.data)
      = .ok { r.seen place p.source impl m with data := r.payload } from
    ⟨_, hok, rfl, rfl, rfl, rfl, rfl, rfl, rfl, rfl, hepoch, rfl, rfl⟩
  rcases Row.message_cases hm with ⟨hsmall, hheaders, hdata⟩ | ⟨put, hput, hlarge, hheaders, hdata⟩
  · refine hprepared false hheaders ?_
    rw [resolveClaim, if_neg, hdata]
    rw [hheaders, claim_header]
    exact Bool.false_ne_true
  · refine hprepared true hheaders ?_
    have hreturns := hstore put hput
    rw [resolveClaim, if_pos (by rw [hheaders, claim_header])]
    exact fetchClaim_claimReference ofFloat (loads_claimReference hreturns.address hacc.field
      hdata) hreturns.fetched

end

/-! ## A stock move -/

def stock : Stream where
  name := str "erp.stock"
  partitions := 4
  named := by decide
  counted := by decide

def shop : Producer where
  source := str "erp/inventory"
  streams := ⟨[(str "erp.stock", stock)], by simp⟩
  claims := some fun id _ => str "https://store.example/events/" ++ id

/-- A move that concerns some principals. -/
def moved (subjects : List Str) : Event where
  type := str "erp.stock.moved.v1"
  recordId := str "sku-1"
  version := 3
  projection := str "full"
  data := .obj [(str "n", .int (-2))]
  subjects := some subjects

def drawn : Draws where
  eventId := 0x0197F000000070008000000000000001
  uuid := by norm_num
  now := (⟨2026, 10, 6⟩, ⟨9, 30, 0, 125000⟩)
  trace :=
    ⟨⟨[(str "traceparent", str "00-0af7651916cd43dd8448eb211c80319c-b7ad6b7169203331-01")], by
      simp⟩, by
    intro k hk
    exact .inl (by simpa [Dict.keys] using hk)⟩
  lower := id

def seventh : Position := ⟨⟨Outbox.epoch 1 1, 7⟩, by norm_num⟩

/-- The store gives back the payload of the move. -/
def fetchMoved : Get := fun _ => .ok ((payloadOf (moved []).data).getD [])

/-- The accepted move and its message. -/
theorem moved_message {subjects : List Str}
    (hsome : (@Producer.emit Interp.ascii shop none drawn (str "erp.stock")
      (moved subjects)).toOption.isSome = true) :
    ∃ r m, @Producer.emit Interp.ascii shop none drawn (str "erp.stock") (moved subjects) = .ok r ∧
      r.message shop.claims seventh shop.source (str "py") = some m ∧
      payloadOf (moved subjects).data = some r.payload := by
  let _ := Interp.ascii
  obtain ⟨r, hr⟩ := exists_ok_of_isSome hsome
  have hpayload := (@Producer.emit_ok Interp.ascii shop none drawn _ _ r hr).1.payload
  have hsmall : r.payload.length ≤ maxPayload := by
    have hall : (payloadOf (moved subjects).data).all
      (fun b => decide (b.length ≤ maxPayload)) = true := by
      show (payloadOf (.obj [(str "n", .int (-2))])).all _ = true
      decide +kernel
    rw [hpayload] at hall
    exact of_decide_eq_true hall
  exact ⟨r, _, hr, Row.message_inline _ _ _ _ hsmall, hpayload⟩

theorem arrives_moved : ∃ r m, @Producer.emit Interp.ascii shop none drawn (str "erp.stock")
    (moved [str "u<1>"]) = .ok r ∧ r.message shop.claims seventh shop.source (str "py") = some m ∧
    @Arrives Interp.ascii (fun _ => .error .valueError) fetchMoved r seventh
    (some [str "u<1>"]) m := by
  let _ := Interp.ascii
  obtain ⟨r, m, hr, hm, hpayload⟩ := @moved_message [str "u<1>"] (by decide +kernel)
  have hstore : ∀ put ∈ shop.claims, Returns put fetchMoved (uuidText r.eventId) r.payload := by
    intro put hput
    obtain rfl := Option.some.inj hput
    refine ⟨congrArg (fun b : Option Bytes => (.ok (b.getD []) : Except Exc Bytes)) hpayload, ?_⟩
    have hid : r.eventId = drawn.eventId :=
      (@Producer.emit_ok Interp.ascii shop none drawn _ _ r hr).1.eventId
    rw [hid]
    exact paired_of_all (by decide +kernel)
  refine ⟨r, m, hr, hm, (@arrives_iff Interp.ascii _ shop none drawn _ _ r hr seventh _ m hm
    fetchMoved hstore).1.mpr ?_⟩
  intro l hl s hs
  obtain rfl := Option.some.inj hl
  obtain rfl := List.mem_singleton.mp hs
  exact paired_of_all (by decide)

/-- **A subject that changes**: two surrogates come back as the character they are the
pair of. -/
theorem pair_joined : ∃ r m, @Producer.emit Interp.ascii shop none drawn (str "erp.stock")
    (moved [[0xD83D, 0xDE00]]) = .ok r ∧ r.message shop.claims seventh shop.source
    (str "py") = some m ∧ ¬ @Arrives Interp.ascii (fun _ => .error .valueError) fetchMoved r
    seventh (some [[0xD83D, 0xDE00]]) m := by
  obtain ⟨r, m, hr, hm, -⟩ := @moved_message [[0xD83D, 0xDE00]] (by decide +kernel)
  refine ⟨r, m, hr, hm, fun h => ?_⟩
  let _ := Interp.ascii
  have hacc := (@Producer.emit_ok Interp.ascii shop none drawn _ _ r hr).1
  have hpaired := (subjects_arrive_iff hacc hm).mp h.subjects _ rfl _
    (List.mem_singleton_self _) 0xD83D (by decide)
  exact absurd hpaired (by decide)

end BeSdk.Events
