/-
BeSdk.Events.SubscriptionTheorems — which messages a subscription takes.

A subject is `be`, the parts of the stream, the partition and the parts of the type, all
joined by dots, and nothing in it says where the stream ends. A pattern fixes the parts
before its wildcard (`tokensMatch_tail`) and after it (`tokensMatch_one`), so a message
of a subscribed stream and type is always taken. But a pattern of another stream may
read the same parts as its own (`Misread`): a stream that is a prefix of this one, or of
this one with the partition, or, with types, one whose parts, any token and a subscribed
type are these parts in the same order.

* `subscription_exact_iff`: a message is taken exactly when it should be, if and only if
  it should be or no other subscribed stream misreads its subject.
* `subscription_overtakes`: the stream `a` takes a message of the stream `a.b`.
* `not_misread_of_length`: among names of one number of parts there is no misreading.
-/
import BeSdk.Events.Subscription
import BeSdk.Py.JsonTheorems

namespace BeSdk.Events

/-! ## Parts -/

theorem splitOn_eq (c : CodePoint) : ∀ s : Str, splitOn c s = s.splitOn c
  | [] => rfl
  | x :: rest => by
      rw [splitOn, splitOn_eq c rest, List.splitOn_cons_eq_if_modifyHead]
      by_cases hx : x = c
      · simp [hx]
      · rw [if_neg hx, if_neg (by simpa using hx)]
        obtain ⟨word, words, h⟩ := List.exists_cons_of_ne_nil (List.splitOn_ne_nil c rest)
        rw [h]
        rfl

/-- The parts of a dotted name. -/
abbrev parts (s : Str) : List Str := splitOn (chr '.') s

theorem parts_dot (s t : Str) : parts (s ++ chr '.' :: t) = parts s ++ parts t := by
  simp only [parts, splitOn_eq, List.splitOn_append_cons_self]

theorem parts_of_not_mem {s : Str} (h : chr '.' ∉ s) : parts s = [s] := by
  rw [parts, splitOn_eq, List.splitOn_eq_singleton h]

theorem parts_natText (n : Nat) : parts (natText n) = [natText n] :=
  parts_of_not_mem fun h => absurd (isDigit_of_mem_natText h) (by decide)

/-- A name is made of its parts. -/
theorem parts_inj {s t : Str} : parts s = parts t ↔ s = t := by
  refine ⟨fun h => ?_, congrArg _⟩
  rw [parts, parts, splitOn_eq, splitOn_eq] at h
  calc s = [chr '.'].intercalate (s.splitOn (chr '.')) := (List.intercalate_splitOn _).symm
    _ = t := by rw [h, List.intercalate_splitOn]

theorem parts_subject (stream : Str) (p : Nat) (type : Str) :
    parts (subject stream p type) = str "be" :: (parts stream ++ natText p :: parts type) := by
  have hsubject : subject stream p type = str "be" ++ chr '.' ::
    (stream ++ chr '.' :: (natText p ++ chr '.' :: type)) := by
    simp [subject, str]
  rw [hsubject, parts_dot, parts_dot, parts_dot, parts_natText,
    parts_of_not_mem (by decide : chr '.' ∉ str "be")]
  rfl

/-- A name whose parts are no wildcards. -/
def Plain (ps : List Str) : Prop := ∀ part ∈ ps, part ≠ str ">" ∧ part ≠ str "*"

theorem plain_of_isStreamName {s : Str} (h : isStreamName s = true) : Plain (parts s) := by
  intro part hpart
  have hchars := (Bool.and_eq_true _ _ ▸ List.all_eq_true.mp h part hpart).2
  constructor <;> rintro rfl <;> exact absurd hchars (by decide)

/-! ## Patterns -/

theorem tokensMatch_nil (subj : List Str) :
    tokensMatch [] subj = subj.isEmpty := by rw [tokensMatch.eq_def]

theorem tokensMatch_rest (pattern subj : List Str) :
    tokensMatch (str ">" :: pattern) subj = !subj.isEmpty := by
  rw [tokensMatch.eq_def]
  exact if_pos rfl

theorem tokensMatch_cons {tok : Str} (htok : tok ≠ str ">") (pattern subj : List Str) (t : Str) :
    tokensMatch (tok :: pattern) [] = false ∧
      tokensMatch (tok :: pattern) (t :: subj) =
      ((decide (tok = str "*") || decide (tok = t)) && tokensMatch pattern subj) := by
  constructor <;> rw [tokensMatch.eq_def] <;> exact if_neg htok

theorem tokensMatch_plain {pre : List Str} (hpre : Plain pre) (pattern subj : List Str) :
    tokensMatch (pre ++ pattern) subj = true ↔ ∃ rest, subj = pre ++ rest ∧
    tokensMatch pattern rest = true := by
  induction pre generalizing subj with
  | nil => simp
  | cons tok pre ih =>
      obtain ⟨htok, hpre⟩ := List.forall_mem_cons.mp hpre
      cases subj with
      | nil => simp [(tokensMatch_cons htok.1 (pre ++ pattern) [] []).1]
      | cons t subj =>
          rw [List.cons_append, (tokensMatch_cons htok.1 (pre ++ pattern) subj t).2]
          simp only [htok.2, decide_false, Bool.false_or, Bool.and_eq_true, decide_eq_true_eq,
            ih hpre, List.cons_append, List.cons.injEq]
          exact ⟨fun ⟨heq, rest, hrest⟩ => ⟨rest, ⟨heq.symm, hrest.1⟩, hrest.2⟩,
            fun ⟨rest, ⟨heq, hrest⟩, hmatch⟩ => ⟨heq.symm, rest, hrest, hmatch⟩⟩

/-- What a pattern that ends in `>` matches. -/
theorem tokensMatch_tail {pre : List Str} (hpre : Plain pre) (subj : List Str) :
    tokensMatch (pre ++ [str ">"]) subj = true ↔ ∃ rest, rest ≠ [] ∧ subj = pre ++ rest := by
  rw [tokensMatch_plain hpre]
  refine exists_congr fun rest => ?_
  rw [tokensMatch_rest, and_comm]
  cases rest <;> simp

/-- What a pattern with one `*` matches. -/
theorem tokensMatch_one {pre post : List Str} (hpre : Plain pre) (hpost : Plain post)
    (subj : List Str) : tokensMatch (pre ++ str "*" :: post) subj = true ↔
    ∃ x, subj = pre ++ x :: post := by
  have hrest : ∀ rest : List Str, tokensMatch post rest = true ↔ rest = post := by
    intro rest
    have h := tokensMatch_plain hpost [] rest
    rw [List.append_nil] at h
    rw [h]
    constructor
    · rintro ⟨more, rfl, hmore⟩
      rw [tokensMatch_nil, List.isEmpty_iff] at hmore
      rw [hmore, List.append_nil]
    · rintro rfl
      exact ⟨[], by simp, rfl⟩
  rw [tokensMatch_plain hpre]
  constructor
  · rintro ⟨rest, rfl, hmatch⟩
    cases rest with
    | nil =>
        rw [(tokensMatch_cons (by decide) post [] []).1] at hmatch
        cases hmatch
    | cons x rest =>
        rw [(tokensMatch_cons (by decide) post rest x).2] at hmatch
        simp only [decide_true, Bool.true_or, Bool.true_and, hrest] at hmatch
        exact ⟨x, by rw [hmatch]⟩
  · rintro ⟨x, rfl⟩
    refine ⟨x :: post, rfl, ?_⟩
    rw [(tokensMatch_cons (by decide) post post x).2]
    simp [hrest]

/-! ## Subscriptions -/

/-- The parts of a subject after `be`. -/
def address (stream : Str) (p : Nat) (type : Str) : List Str :=
  parts stream ++ natText p :: parts type

theorem stream_matches {st : Str} (hst : isStreamName st = true) (stream : Str) (p : Nat)
    (type : Str) : subjectMatches (str "be." ++ st ++ str ".>") (subject stream p type) = true ↔
      ∃ rest, rest ≠ [] ∧ address stream p type = parts st ++ rest := by
  have hpattern : parts (str "be." ++ st ++ str ".>") = str "be" :: parts st ++ [str ">"] := by
    have htext : str "be." ++ st ++ str ".>" = str "be" ++ chr '.' ::
      (st ++ chr '.' :: str ">") := by
      simp [str]
    rw [htext, parts_dot, parts_dot, parts_of_not_mem (by decide : chr '.' ∉ str "be"),
      parts_of_not_mem (by decide : chr '.' ∉ str ">")]
    rfl
  have hplain : Plain (str "be" :: parts st) :=
    List.forall_mem_cons.mpr ⟨by decide, plain_of_isStreamName hst⟩
  rw [subjectMatches, ← parts, ← parts, parts_subject, hpattern, tokensMatch_tail hplain]
  simp only [List.cons_append, List.cons.injEq, true_and, address]

theorem filter_matches {st t : Str} (hst : isStreamName st = true)
    (ht : isStreamName t = true) (stream : Str) (p : Nat)
    (type : Str) :
    subjectMatches (str "be." ++ st ++ str ".*." ++ t) (subject stream p type) = true ↔
      ∃ x, address stream p type = parts st ++ x :: parts t := by
  have hpattern : parts (str "be." ++ st ++ str ".*." ++ t) = str "be" :: parts st ++
    str "*" :: parts t := by
    have htext : str "be." ++ st ++ str ".*." ++ t = str "be" ++ chr '.' ::
      (st ++ chr '.' :: (str "*" ++ chr '.' :: t)) := by
      simp [str]
    rw [htext, parts_dot, parts_dot, parts_dot, parts_of_not_mem (by decide : chr '.' ∉ str "be"),
      parts_of_not_mem (by decide : chr '.' ∉ str "*")]
    rfl
  have hplain : Plain (str "be" :: parts st) :=
    List.forall_mem_cons.mpr ⟨by decide, plain_of_isStreamName hst⟩
  rw [subjectMatches, ← parts, ← parts, parts_subject, hpattern,
    tokensMatch_one hplain (plain_of_isStreamName ht)]
  simp only [List.cons_append, List.cons.injEq, true_and, address]

/-- The message is one of the streams and types subscribed to. -/
def Sub.Wants (sub : Sub) (stream type : Str) : Prop :=
  stream ∈ sub.streams ∧ (sub.types = [] ∨ type ∈ sub.types)

/-- A pattern of another stream reads the subject as its own. -/
def Misread (types : List Str) (st stream : Str) (p : Nat) (type : Str) : Prop :=
  st ≠ stream ∧
    ((types = [] ∧ ∃ rest, rest ≠ [] ∧ address stream p type = parts st ++ rest) ∨
      ∃ t ∈ types, ∃ x, address stream p type = parts st ++ x :: parts t)

/-- Names of one number of parts are not misread. -/
theorem not_misread_of_length {types : List Str} {st stream : Str}
    (h : (parts st).length = (parts stream).length) (p : Nat)
    (type : Str) : ¬ Misread types st stream p type := by
  rintro ⟨hne, hread⟩
  have hstart : ∃ rest, parts stream ++ natText p :: parts type = parts st ++ rest := by
    rcases hread with ⟨-, rest, -, hrest⟩ | ⟨t, -, x, hx⟩
    · exact ⟨rest, hrest⟩
    · exact ⟨_, hx⟩
  obtain ⟨rest, hrest⟩ := hstart
  exact hne (parts_inj.mp (List.append_inj_left hrest h.symm).symm)

/-- Its own stream's patterns take a message of a subscribed type only. -/
theorem wants_of_own {sub : Sub} {stream : Str} {p : Nat} {type : Str}
    (hstream : stream ∈ sub.streams)
    (h : (sub.types = [] ∧ ∃ rest, rest ≠ [] ∧ address stream p type = parts stream ++ rest) ∨
      ∃ t ∈ sub.types, ∃ x, address stream p type = parts stream ++ x :: parts t) : sub.Wants
      stream type := by
  refine ⟨hstream, ?_⟩
  rcases h with ⟨hempty, -⟩ | ⟨t, ht, x, hx⟩
  · exact .inl hempty
  · have htype : parts type = parts t := (List.cons.inj (List.append_cancel_left hx)).2
    exact .inr (parts_inj.mp htype ▸ ht)

section
variable {sub : Sub} (hstreams : ∀ st ∈ sub.streams, isStreamName st = true)
    (htypes : ∀ t ∈ sub.types, isStreamName t = true)
include hstreams htypes

/-- What the durable selects. -/
theorem spec_selects (member : Str) (configured : Int) (stream : Str) (p : Nat) (type : Str) :
    (sub.spec member configured).selects (subject stream p type) = true ↔
      ∃ st ∈ sub.streams, (sub.types = [] ∧ ∃ rest, rest ≠ [] ∧ address stream p type =
        parts st ++ rest) ∨ ∃ t ∈ sub.types, ∃ x, address stream p type = parts st ++ x ::
        parts t := by
  simp only [SubscriptionSpec.selects, Sub.spec, SubscriptionSpec.defaults, Bool.and_eq_true,
    Bool.or_eq_true, List.any_eq_true, List.isEmpty_iff, List.mem_flatMap, List.mem_map,
    List.flatMap_eq_nil_iff, List.map_eq_nil_iff]
  constructor
  · rintro ⟨⟨st, hst, hmatch⟩, hempty | ⟨_, ⟨st', hst', t, ht, rfl⟩, hfilter⟩⟩
    · exact ⟨st, hst, .inl ⟨hempty st hst, (stream_matches (hstreams st hst) ..).mp hmatch⟩⟩
    · exact ⟨st', hst', .inr ⟨t, ht, (filter_matches (hstreams st' hst') (htypes t ht) ..).mp
        hfilter⟩⟩
  · rintro ⟨st, hst, ⟨hempty, hrest⟩ | ⟨t, ht, x, hx⟩⟩
    · exact ⟨⟨st, hst, (stream_matches (hstreams st hst) ..).mpr hrest⟩, .inl fun _ _ => hempty⟩
    · exact ⟨⟨st, hst, (stream_matches (hstreams st hst) ..).mpr ⟨x :: parts t, by simp, hx⟩⟩,
        .inr ⟨_, ⟨st, hst, t, ht, rfl⟩,
          (filter_matches (hstreams st hst) (htypes t ht) ..).mpr ⟨x, hx⟩⟩⟩

/-- A message that is wanted is taken. -/
theorem selects_of_wants (member : Str) (configured : Int) {stream : Str} (p : Nat)
    {type : Str} (h : sub.Wants stream type) :
    (sub.spec member configured).selects (subject stream p type) = true := by
  rw [spec_selects hstreams htypes]
  refine ⟨stream, h.1, ?_⟩
  rcases h.2 with hempty | htype
  · exact .inl ⟨hempty, natText p :: parts type, by simp, rfl⟩
  · exact .inr ⟨type, htype, natText p, rfl⟩

/-- **When a subscription receives exactly its streams and types.** For every
subscription, stream, partition and type: the durable takes a message exactly when its
stream and its type are subscribed to, if and only if they are, or no other subscribed
stream misreads the subject. -/
theorem subscription_exact_iff (member : Str) (configured : Int) (stream : Str) (p : Nat)
    (type : Str) : ((sub.spec member configured).selects (subject stream p type) = true ↔
      sub.Wants stream type) ↔ sub.Wants stream type ∨ ∀ st ∈ sub.streams, ¬ Misread sub.types
      st stream p type := by
  have hselects := spec_selects hstreams htypes member configured stream p type
  constructor
  · intro hexact
    by_cases hwants : sub.Wants stream type
    · exact .inl hwants
    · refine .inr fun st hst hmisread => hwants (hexact.mp (hselects.mpr ⟨st, hst, hmisread.2⟩))
  · rintro (hwants | hnone)
    · exact ⟨fun _ => hwants, selects_of_wants hstreams htypes member configured p⟩
    · refine ⟨fun h => ?_, selects_of_wants hstreams htypes member configured p⟩
      obtain ⟨st, hst, hread⟩ := hselects.mp h
      by_cases heq : st = stream
      · exact wants_of_own (heq ▸ hst) (heq ▸ hread)
      · exact absurd ⟨heq, hread⟩ (hnone st hst)

end

/-- A subscription to every type of `a`. -/
def whole : Sub := { name := str "orders", streams := [str "a"] }

/-- A subscription to `a` takes what is published to `a.b`. -/
theorem subscription_overtakes :
    isStreamName (str "a") = true ∧ isStreamName (str "a.b") = true ∧
    isStreamName (str "x.v1") = true ∧
      ¬ ((whole.spec (str "m") 0).selects (subject (str "a.b") 0 (str "x.v1")) = true ↔
        whole.Wants (str "a.b") (str "x.v1")) := by
  have hselects : (whole.spec (str "m") 0).selects (subject (str "a.b") 0 (str "x.v1")) =
    true := by decide +kernel
  have hwants : ¬ whole.Wants (str "a.b") (str "x.v1") := fun h => absurd h.1 (by decide)
  exact ⟨by decide, by decide, by decide, fun hexact => hwants (hexact.mp hselects)⟩

/-- A subscription to two types of two streams. -/
def paired : Sub :=
  { name := str "orders", streams := [str "a", str "c"], types := [str "x.v1", str "y.v1"] }

/-- It is exact on a stream beside its own. -/
theorem subscription_exact_iff_beside :
    (paired.spec (str "m") 0).selects (subject (str "b") 0 (str "x.v1")) = true ↔
      paired.Wants (str "b") (str "x.v1") := by
  have hlength : ∀ st ∈ paired.streams, (parts st).length = (parts (str "b")).length := by decide
  have hmisread : ∀ st ∈ paired.streams, ¬ Misread paired.types st (str "b") 0 (str "x.v1") :=
    fun st hst => not_misread_of_length (hlength st hst) _ _
  exact (subscription_exact_iff (by decide) (by decide) (str "m") 0 (str "b") 0 (str "x.v1")).mpr
    (.inr hmisread)

end BeSdk.Events
