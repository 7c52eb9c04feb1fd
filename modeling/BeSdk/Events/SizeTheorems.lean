/-
BeSdk.Events.SizeTheorems — the size of the message of an accepted event, and which
events the queue does not take.

`emit` bounds the payload and the number of the subjects, `publish` the whole message.
`Row.weight` is that whole in what the row holds, and `Event.weight` in what the event
does: nothing bounds its type, its record ID, its legal entity, the texts of its
subjects and the trace state.

* `published_iff`: the queue takes the message of an accepted event if and only if the
  weight of the event is at most the limit.
-/
import BeSdk.Events.EnvelopeTheorems

namespace BeSdk.Events

open Audit (uuidText)

/-! ## Weights -/

/-- The length of the list of subjects in `go_json`. -/
def subjectsLength : List Str → Nat
  | [] => 2
  | l => 1 + (l.map fun s => (quoted goEscape s).length + 1).sum

/-- The length of a claim reference. -/
def referenceLength (uri : Str) (payload : Bytes) : Nat :=
  36 + (quoted asciiEscape uri).length + (natText payload.length).length +
    (quoted asciiEscape (sha256Hex payload)).length

/-- The length of what travels as data, with the header that marks a claim. -/
def Row.dataLength (r : Row) (put : Option Put) : Nat :=
  if r.payload.length ≤ maxPayload then r.payload.length
  else (put.map fun put => 14 + referenceLength (put (uuidText r.eventId) r.payload)
    r.payload).getD 0

/-- The length of the headers that an event has only sometimes. -/
def Row.extraLength (r : Row) : Nat :=
  (if r.causation.isSome then 50 else 0) + (if r.legalEntity = [] then 0
    else 16 + r.legalEntity.length) + (r.subjects.map fun l => 13 + subjectsLength l).getD 0 +
    (r.trace.entries.entries.map fun e => 3 + e.1.length + e.2.length).sum

/-- The size of a row's message. -/
def Row.weight (r : Row) (put : Option Put) (place : Position) (source impl : Str) : Nat :=
  236 + r.dataLength put + 2 * r.type.length + r.recordId.length + r.extraLength + 2 *
    r.stream.length + 2 * (natText r.partition).length + (natText place.seq).length +
    (epochText place.epoch).length + (intText r.version).length + (intText r.hops).length +
    r.projection.length + r.digest.length + (ceTime r.occurredAt).length + source.length +
    impl.length

/-! ## Lengths -/

theorem length_join_comma : ∀ xs : List Str, xs ≠ [] →
    (Str.join (str ",") xs).length + 1 = (xs.map fun x => x.length + 1).sum
  | [x], _ => by simp [Str.join]
  | x :: y :: xs, _ => by
      have h := length_join_comma (y :: xs) (List.cons_ne_nil _ _)
      rw [Str.join, List.length_append, List.length_append, List.map_cons, List.sum_cons, ← h]
      · have hcomma : (str ",").length = 1 := rfl
        omega
      · exact fun hnil => by cases hnil

theorem length_goJson_strings (l : List Str) :
    (goJson (.list (l.map Json.str))).length = subjectsLength l := by
  rw [goJson_strings, compact, List.length_cons, List.length_append, List.length_singleton,
    compactElems_eq_map, List.map_map]
  cases l with
  | nil => rfl
  | cons s l =>
      have h := length_join_comma ((s :: l).map (compact goEscape ∘ Json.str)) (by simp)
      rw [List.map_map] at h
      rw [subjectsLength]
      · have hsum : ((s :: l).map ((fun x => x.length + 1) ∘ (compact goEscape ∘ Json.str))).sum
            = ((s :: l).map fun s => (quoted goEscape s).length + 1).sum := rfl
        omega
      · exact fun hnil => by cases hnil

theorem length_utf8Encode_dumps {K P : Str → Prop} {I : Int → Prop} {v : Json}
    (hv : v.Plain K P I) {b : Bytes} (hb : utf8Encode (dumps v) = some b) :
    b.length = (dumps v).length := by
  rw [utf8Encode_ascii hb fun c hc => (printable_dumps hv c hc).2, List.length_map]

theorem length_claimReference (uri : Str) (payload : Bytes) :
    (dumps (claimReference uri payload)).length = referenceLength uri payload := by
  have hclaim : (quoted asciiEscape (str "claim")).length = 7 := rfl
  have huri : (quoted asciiEscape (str "uri")).length = 5 := rfl
  have hsize : (quoted asciiEscape (str "size")).length = 6 := rfl
  have hsha : (quoted asciiEscape (str "sha256")).length = 8 := rfl
  have hcomma : (str ",").length = 1 := rfl
  have hint : intText payload.length = natText payload.length := by
    rw [intText, if_neg (by omega), Int.natAbs_natCast]
  simp only [dumps, claimReference, compact, compactMembers, Str.join, List.length_cons,
    List.length_append, List.length_nil, hclaim, huri, hsize, hsha, hcomma, hint, referenceLength]
  omega

theorem plain_claimReference (uri : Str) (payload : Bytes) :
    (claimReference uri payload).Plain (fun _ => True) (fun _ => True) fun _ => True :=
  ⟨trivial, ⟨trivial, trivial, trivial, trivial, trivial, trivial, trivial⟩, trivial⟩

theorem length_subject (stream type : Str) (partition : Nat) :
    (subject stream partition type).length = 5 + stream.length + (natText partition).length +
    type.length := by
  have hbe : (str "be.").length = 3 := rfl
  have hdot : (str ".").length = 1 := rfl
  simp only [subject, List.length_append, hbe, hdot]
  omega

/-! ## The whole message -/

/-- The length of the entries that are always there. -/
theorem sum_own (r : Row) (place : Position) (claim : Bool) (source impl : Str) :
    ((r.own place claim source impl).map fun e => e.1.length + e.2.length).sum =
      231 + r.type.length + r.recordId.length + r.stream.length + (natText r.partition).length +
      (natText place.seq).length + (epochText place.epoch).length + (intText r.version).length +
      (intText r.hops).length + r.projection.length + r.digest.length +
      (ceTime r.occurredAt).length + source.length + impl.length +
      (if r.causation.isSome then 50 else 0) +
      (if r.legalEntity = [] then 0 else 16 + r.legalEntity.length) +
      (r.subjects.map fun l => 13 + subjectsLength l).getD 0 + (if claim then 14 else 0) := by
  have hcausation : ((r.causation.toList.map fun id => (str "ce-becausation", uuidText id)).map
      fun e => e.1.length + e.2.length).sum = if r.causation.isSome then 50 else 0 := by
    cases r.causation with
    | none => rfl
    | some id =>
        have hkey : (str "ce-becausation").length = 14 := rfl
        simp [length_uuidText, hkey]
  have hentity : ((if r.legalEntity = [] then [] else [(str "ce-belegalentity", r.legalEntity)]).map
      fun e => e.1.length + e.2.length).sum = if r.legalEntity = [] then 0
      else 16 + r.legalEntity.length := by
    have hkey : (str "ce-belegalentity").length = 16 := rfl
    split <;> simp [hkey]
  have hsubjects :
    ((r.subjects.toList.map fun l => (str "ce-besubjects", goJson (.list (l.map .str)))).map
      fun e => e.1.length + e.2.length).sum =
      (r.subjects.map fun l => 13 + subjectsLength l).getD 0 := by
    have hkey : (str "ce-besubjects").length = 13 := rfl
    cases r.subjects with
    | none => rfl
    | some l => simp [length_goJson_strings, hkey]
  have hclaim : ((if claim then [(str "ce-beclaim", str "true")] else []).map
      fun e => e.1.length + e.2.length).sum = if claim then 14 else 0 := by
    cases claim <;> rfl
  rw [Row.own, List.map_append, List.map_append, List.map_append, List.map_append,
    List.sum_append, List.sum_append, List.sum_append, List.sum_append, hcausation, hentity,
    hsubjects, hclaim]
  simp only [List.map_cons, List.map_nil, List.sum_cons, List.sum_nil, length_uuidText,
    List.length_append,
    show (str "ce-specversion").length = 14 from rfl, show (str "1.0").length = 3 from rfl,
    show (str "ce-id").length = 5 from rfl, show (str "ce-source").length = 9 from rfl,
    show (str "urn:be:").length = 7 from rfl, show (str "ce-type").length = 7 from rfl,
    show (str "ce-time").length = 7 from rfl, show (str "ce-subject").length = 10 from rfl,
    show (str "ce-datacontenttype").length = 18 from rfl,
    show (str "application/json").length = 16 from rfl,
    show (str "ce-bestream").length = 11 from rfl, show (str "ce-bepartition").length = 14 from rfl,
    show (str "ce-beimpl").length = 9 from rfl, show (str "ce-beepoch").length = 10 from rfl,
    show (str "ce-beseq").length = 8 from rfl, show (str "ce-beversion").length = 12 from rfl,
    show (str "ce-beprojection").length = 15 from rfl, show (str "ce-bedigest").length =
    11 from rfl,
    show (str "ce-behops").length = 9 from rfl]
  omega

/-- **The size of a message is the weight of its row.** -/
theorem size_eq {r : Row} {put : Option Put} {place : Position} {source impl : Str} {m : Message}
    (hm : r.message put place source impl = some m) : m.size = r.weight put place source impl := by
  have hentries :
    ∀ claim, (((r.headers place claim source impl).entries.map fun e => e.1.length +
      e.2.length).sum) = ((r.own place claim source impl).map fun e => e.1.length +
      e.2.length).sum +
        (r.trace.entries.entries.map fun e => 3 + e.1.length + e.2.length).sum := by
    intro claim
    have htrace : (r.trace.entries.entries.map fun e => (str "ce-" ++ e.1, e.2)).map
      (fun e => e.1.length + e.2.length)
        = r.trace.entries.entries.map fun e => 3 + e.1.length + e.2.length := by
      rw [List.map_map]
      refine List.map_congr_left fun e _ => ?_
      show (str "ce-" ++ e.1).length + e.2.length = _
      rw [List.length_append]
      rfl
    rw [Row.headers, Dict.entries_ofPairs pairs_nodup, Row.pairs, List.map_append,
      List.sum_append, htrace]
  by_cases hsmall : r.payload.length ≤ maxPayload
  · rw [Row.message_inline put place source impl hsmall] at hm
    obtain rfl := Option.some.inj hm
    rw [Message.size, hentries, sum_own, length_subject, Row.weight, Row.dataLength,
      if_pos hsmall, Row.extraLength]
    simp only [Bool.false_eq_true, if_false]
    omega
  · rw [Row.message, if_neg hsmall] at hm
    obtain ⟨store, rfl, hm⟩ := Option.bind_eq_some_iff.mp hm
    obtain ⟨data, hdata, rfl⟩ := Option.map_eq_some_iff.mp hm
    have hlength := length_utf8Encode_dumps (plain_claimReference _ _) hdata
    rw [length_claimReference] at hlength
    rw [Message.size, hentries, sum_own, length_subject, Row.weight, Row.dataLength,
      if_neg hsmall, Row.extraLength, Option.map_some, Option.getD_some, hlength]
    simp only [if_true]
    omega

/-! ## Events -/

/-- The size of the message of an event, once it has a stream, a partition and a
position. -/
def Event.weight (ev : Event) (put : Option Put) (cause : Option (Str × Int)) (d : Draws)
    (stream : Str) (partition : Nat) (place : Position) (source impl : Str) : Nat :=
  let payload := (payloadOf ev.data).getD []
  236 + (if payload.length ≤ maxPayload then payload.length
    else (put.map fun put => 14 + referenceLength (put (uuidText d.eventId) payload)
      payload).getD 0) +
    2 * ev.type.length + ev.recordId.length +
    ((if (caused cause).2 = [] then 0 else 50) + (if ev.legalEntity = [] then 0
      else 16 + ev.legalEntity.length) +
      ((ev.subjects.bind (List.mapM jsonbText)).map fun l => 13 + subjectsLength l).getD 0 +
      (d.trace.entries.entries.map fun e => 3 + e.1.length + e.2.length).sum) +
    2 * stream.length + 2 * (natText partition).length + (natText place.seq).length +
      (epochText place.epoch).length +
    (intText ev.version).length + (intText (caused cause).1).length + ev.projection.length +
    (rowDigest d.eventId payload).length + (ceTime d.now).length + source.length + impl.length

section
variable [Interp]

theorem isSome_causationOf {id : Str} {n : Option Nat} (h : causationOf id = .ok n) :
    (if n.isSome then 50 else 0) = if id = [] then 0 else 50 := by
  rw [causationOf] at h
  split at h
  · next hid =>
    obtain rfl := Except.ok.inj h
    simp [hid]
  · next hid =>
    split at h
    · obtain rfl := Except.ok.inj h
      simp [hid]
    · cases h

omit [Interp] in
theorem stored_subjects {emitted stored : Option (List Str)}
    (h : emitted.mapM (List.mapM jsonbText) = some stored) :
    emitted.bind (List.mapM jsonbText) = stored := by
  cases emitted with
  | none => exact Option.some.inj h
  | some l =>
      obtain ⟨l', hl', rfl⟩ := Option.map_eq_some_iff.mp h
      exact hl'

theorem weight_eq {cause : Option (Str × Int)} {d : Draws} {ev : Event} {r : Row}
    (hr : Accepted cause d ev r) (put : Option Put) (place : Position) (source impl : Str) :
    r.weight put place source impl = ev.weight put cause d r.stream r.partition place
    source impl := by
  rw [Row.weight, Row.dataLength, Row.extraLength, Event.weight, hr.payload, Option.getD_some,
    hr.eventId, hr.typed, hr.recordId, hr.legalEntity, hr.trace, hr.version, hr.hops,
    hr.projection, hr.digest, hr.occurredAt, isSome_causationOf hr.causation,
    stored_subjects hr.subjects]

/-- **The queue takes the message of an accepted event** if and only if the weight of
the event is at most the limit. -/
theorem published_iff {p : Producer} {cause : Option (Str × Int)} {d : Draws} {stream : Str}
    {ev : Event} {r : Row} (hr : p.emit cause d stream ev = .ok r) (place : Position)
    (impl : Str) {m : Message} (hm : r.message p.claims place p.source impl = some m) :
    m.tooLarge = false ↔ ev.weight p.claims cause d r.stream r.partition place p.source impl ≤
    maxMessage := by
  rw [Message.tooLarge, decide_eq_false_iff_not, size_eq hm, Nat.not_lt,
    weight_eq (Producer.emit_ok hr).1]

/-- What is accepted is accepted for any legal entity that the column takes. -/
theorem Producer.emit_legalEntity {p : Producer} {cause : Option (Str × Int)} {d : Draws}
    {stream : Str} {ev : Event} {r : Row} (hr : p.emit cause d stream ev = .ok r)
    {legalEntity : Str} (h : storable legalEntity = true) :
    p.emit cause d stream { ev with legalEntity } = .ok { r with legalEntity } := by
  unfold Producer.emit at hr ⊢
  split at hr
  · cases hr
  next s hs =>
  dsimp only at hr ⊢
  split at hr
  · cases hr
  next hnamed =>
  rw [if_neg hnamed]
  split at hr
  · cases hr
  next hprojection =>
  rw [if_neg hprojection]
  split at hr
  · cases hr
  next hcount =>
  rw [if_neg hcount]
  split at hr
  · cases hr
  next payload hpayload =>
  split at hr
  · cases hr
  next hclaims =>
  rw [if_neg hclaims]
  split at hr
  · cases hr
  next hhops =>
  rw [if_neg hhops]
  split at hr
  · cases hr
  next lower hlower =>
  obtain ⟨causation, hcausation, hr⟩ := bind_eq_ok_iff.mp hr
  refine bind_eq_ok_iff.mpr ⟨causation, hcausation, ?_⟩
  split at hr
  · cases hr
  next subjects hsubjects =>
  split at hr
  · next hcolumns =>
    obtain rfl := Except.ok.inj hr
    rw [if_pos ⟨hcolumns.1, hcolumns.2.1, h, hcolumns.2.2.2⟩]
  · cases hr

end

/-! ## Moves of one stock -/

theorem published_moved : ∃ r m, @Producer.emit Interp.ascii shop none drawn (str "erp.stock")
    (moved [str "u"]) = .ok r ∧ r.message shop.claims seventh shop.source (str "py") = some m ∧
    (m.tooLarge = false ↔ (moved [str "u"]).weight shop.claims none drawn r.stream r.partition
      seventh shop.source (str "py") ≤ maxMessage) := by
  obtain ⟨r, m, hr, hm, -⟩ := @moved_message [str "u"] (by decide +kernel)
  exact ⟨r, m, hr, hm, @published_iff Interp.ascii shop none drawn _ _ r hr seventh _ m hm⟩

/-- **An event that blocks its partition**: its legal entity is a name of a million
letters. -/
theorem moved_too_large : ∃ legalEntity r m,
    @Producer.emit Interp.ascii shop none drawn (str "erp.stock")
    { moved [] with legalEntity } = .ok r ∧ r.message shop.claims seventh shop.source
    (str "py") = some m ∧ m.tooLarge = true := by
  let _ := Interp.ascii
  obtain ⟨r, m, hr, hm, hpayload⟩ := @moved_message [] (by decide +kernel)
  let name : Str := List.replicate maxMessage (chr 'a')
  have hstorable : storable name = true := by
    rw [storable_iff]
    intro c hc
    rw [List.eq_of_mem_replicate hc]
    decide
  have hnamed := Producer.emit_legalEntity hr hstorable
  have hsmall : r.payload.length ≤ maxPayload := by
    rcases Row.message_cases hm with ⟨hsmall, -⟩ | ⟨put, -, hlarge, -⟩
    · exact hsmall
    · have hall : (payloadOf (moved []).data).all (fun b => decide (b.length ≤ maxPayload)) =
        true := by decide +kernel
      rw [hpayload] at hall
      exact of_decide_eq_true hall
  have hm' := Row.message_inline (r := { r with legalEntity := name }) shop.claims seventh
    shop.source (str "py") hsmall
  refine ⟨name, _, _, hnamed, hm', ?_⟩
  have hlength : name.length = maxMessage := List.length_replicate
  have hne : name ≠ [] := fun hnil => by
    rw [hnil] at hlength
    cases hlength
  rw [Message.tooLarge, decide_eq_true_iff, size_eq hm', Row.weight, Row.extraLength]
  simp only [if_neg hne, hlength]
  omega

end BeSdk.Events
