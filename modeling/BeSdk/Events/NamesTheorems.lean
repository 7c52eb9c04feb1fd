/-
BeSdk.Events.NamesTheorems — which subscriptions and streams have a name of their own at
the broker.

`durable_name` joins a component id and a subscription with an underscore and writes
every slash, dot and hyphen as an underscore too; `jetstream_name` does so with the dots
of a stream. So a name keeps the words and forgets what stood between them
(`durableName_eq_iff`, `jetstreamName_eq_iff`), and what shares a name shares what the
broker keeps under it: the row of the first subscription, the consumer of the first call.

* `names_distinct_iff`: two subscriptions, or two streams, have names of their own
  exactly when their words differ.
* `names_shared`: valid ones that have not.
* `rows_apart_iff`: two subscriptions find their own row, whoever comes first, exactly
  when their words differ.
* `stream_own`, `consumer_own`: in every run of calls, where all words differ, a stream
  stores its own subjects and a consumer is configured for its own stream by its own
  subscription.
-/
import BeSdk.Authz.DefinitionSchemas
import BeSdk.Events.Envelope
import BeSdk.Events.Jetstream
import BeSdk.Events.SubscriptionTheorems
import BeSdk.Lib.History
import BeSdk.Lib.Words

namespace BeSdk.Events

/-! ## Words -/

/-- What `durable_name` writes as an underscore, and the underscore. -/
def isSeparator (c : CodePoint) : Bool := c = chr '/' || c = chr '.' || c = chr '-' || c = chr '_'

/-- The words of a component id or a subscription name. -/
def words (s : Str) : List Str := s.splitOnP isSeparator

/-- What `jetstream_name` writes as an underscore, and the underscore. -/
def isStreamSeparator (c : CodePoint) : Bool := c = chr '.' || c = chr '_'

/-- The words of a stream name. -/
def streamWords (s : Str) : List Str := s.splitOnP isStreamSeparator

/-- Replacing a character by one changes the text character by character. -/
theorem replace_eq_map (s : Str) (c t : CodePoint) :
    Str.replace s c [t] = s.map fun x => if x = c then t else x := by
  induction s with
  | nil => rfl
  | cons x rest ih =>
      rw [List.map_cons, ← ih, Str.replace, List.flatMap_cons, ← Str.replace]
      split <;> rfl

theorem durableName_eq (component subscription : Str) :
    durableName component subscription = unite isSeparator (chr '_')
    (component ++ chr '_' :: subscription) := by
  have hjoin : component ++ str "_" ++ subscription = component ++ chr '_' :: subscription := by
    rw [List.append_assoc]
    rfl
  have hone : str "_" = [chr '_'] := rfl
  simp only [durableName, List.foldl_cons, List.foldl_nil, hjoin]
  rw [hone, replace_eq_map, replace_eq_map, replace_eq_map, List.map_map, List.map_map, unite]
  refine List.map_congr_left fun x _ => ?_
  -- The underscore that an earlier replacement wrote is not replaced again.
  have hdot : chr '_' ≠ chr '.' := by decide
  have hhyphen : chr '_' ≠ chr '-' := by decide
  simp only [Function.comp_apply, isSeparator, Bool.or_eq_true, decide_eq_true_eq]
  by_cases hslash : x = chr '/'
  · simp [hslash, hdot, hhyphen]
  · rw [if_neg hslash]
    by_cases hx : x = chr '.'
    · simp [hx, hhyphen]
    · rw [if_neg hx]
      by_cases hz : x = chr '_' <;> simp [hslash, hx, hz, or_comm]

/-- Two subscriptions have one durable name exactly when they have the same words. -/
theorem durableName_eq_iff {c s c' s' : Str} :
    durableName c s = durableName c' s' ↔ words c ++ words s = words c' ++ words s' := by
  have hsep : isSeparator (chr '_') = true := by decide
  rw [durableName_eq, durableName_eq, unite_eq_iff hsep, List.splitOnP_append_cons _ _ hsep,
    List.splitOnP_append_cons _ _ hsep]
  rfl

/-! ## Stream names -/

/-- The characters of a valid stream name. -/
def isStreamChar (c : CodePoint) : Bool := (chr 'a' ≤ c && c ≤ chr 'z') || isDigit c || c = chr '_'

theorem isStreamChar_of_mem {name : Str} (h : isStreamName name = true)
    {c : CodePoint} (hc : c ∈ name) : isStreamChar c = true ∨ c = chr '.' := by
  by_cases hdot : c = chr '.'
  · exact .inr hdot
  · refine .inl ?_
    obtain ⟨part, hpart, hcpart⟩ := exists_mem_splitOn hdot hc
    rw [isStreamName, splitOn_eq] at h
    have hchars := (Bool.and_eq_true _ _ ▸ List.all_eq_true.mp h part hpart).2
    exact List.all_eq_true.mp hchars c hcpart

theorem upperChar_val (c : CodePoint) :
    (upperChar c).val = if 97 ≤ c.val ∧ c.val ≤ 122 then c.val - 32 else c.val := by
  unfold upperChar
  split
  · next h =>
      have hlow : 97 ≤ c.val := h.1
      have hhigh : c.val ≤ 122 := h.2
      have hle : (32 : CodePoint) ≤ c := Fin.le_def.mpr (le_trans (by decide) hlow)
      rw [if_pos ⟨hlow, hhigh⟩, Fin.sub_val_of_le hle]
      rfl
  · next h => exact (if_neg h).symm

/-- No stream name has an upper-case letter. -/
theorem not_upper {c : CodePoint} (h : isStreamChar c = true) : c.val < 65 ∨ 90 < c.val := by
  simp only [isStreamChar, Bool.or_eq_true, Bool.and_eq_true, decide_eq_true_eq] at h
  rcases h with (⟨hlow, -⟩ | hdigit) | rfl
  · have hlow : 97 ≤ c.val := hlow
    omega
  · have := digit_range hdigit
    omega
  · decide

/-- Upper case keeps apart the characters of stream names. -/
theorem upperChar_inj {c c' : CodePoint} (hc : isStreamChar c = true) (hc' : isStreamChar c' = true)
    (h : upperChar c = upperChar c') : c = c' := by
  have hval := congrArg Fin.val h
  rw [upperChar_val, upperChar_val] at hval
  have hnot := not_upper hc
  have hnot' := not_upper hc'
  refine Fin.ext ?_
  split at hval <;> split at hval <;> omega

theorem jetstreamName_eq (stream : Str) :
    jetstreamName stream = str "BE_" ++ (unite isStreamSeparator (chr '_') stream).map
    upperChar := by
  have hone : str "_" = [chr '_'] := rfl
  rw [jetstreamName, hone, replace_eq_map]
  congr 2
  refine List.map_congr_left fun x _ => ?_
  by_cases hx : x = chr '.'
  · simp [hx, isStreamSeparator]
  · by_cases hz : x = chr '_' <;> simp [isStreamSeparator, hx, hz]

theorem isStreamChar_of_mem_unite {name : Str} (h : isStreamName name = true) :
    ∀ c ∈ unite isStreamSeparator (chr '_') name, isStreamChar c = true := by
  intro c hc
  obtain ⟨x, hx, rfl⟩ := List.mem_map.mp hc
  split
  · decide
  · next hsep =>
      rcases isStreamChar_of_mem h hx with hchar | hdot
      · exact hchar
      · exact absurd (by rw [hdot]; decide) hsep

/-- Two valid streams have one name at the broker exactly when they have the same words. -/
theorem jetstreamName_eq_iff {t t' : Str} (ht : isStreamName t = true)
    (ht' : isStreamName t' = true) :
    jetstreamName t = jetstreamName t' ↔ streamWords t = streamWords t' := by
  have hsep : isStreamSeparator (chr '_') = true := by decide
  rw [jetstreamName_eq, jetstreamName_eq, List.append_cancel_left_eq, streamWords,
    streamWords, ← unite_eq_iff hsep]
  constructor
  · exact eq_of_map_eq (fun _ _ => upperChar_inj) (isStreamChar_of_mem_unite ht)
      (isStreamChar_of_mem_unite ht')
  · exact congrArg _

/-! ## Names of their own -/

/-- **Which subscriptions and streams have a name of their own.** For all component ids
and subscription names: equal durable names come from equal pairs only, if and only if
the pairs are equal or have different words; and so for all valid streams with their
names at the broker. -/
theorem names_distinct_iff (c s c' s' : Str) (t t' : Stream) :
    ((durableName c s = durableName c' s' → c = c' ∧ s = s') ↔
        (c = c' ∧ s = s') ∨ words c ++ words s ≠ words c' ++ words s') ∧
      ((jetstreamName t.name = jetstreamName t'.name → t.name = t'.name) ↔
        t.name = t'.name ∨ streamWords t.name ≠ streamWords t'.name) := by
  rw [durableName_eq_iff, jetstreamName_eq_iff t.named t'.named]
  exact ⟨imp_iff_or_not, imp_iff_or_not⟩

/-- The same subscription name with a hyphen and an underscore, two components of one
vendor, and two streams: all valid, each pair with one name. -/
theorem names_shared :
    isComponentId (str "erp/stock") = true ∧ isComponentId (str "erp/a") = true ∧
    isComponentId (str "erp/a-b") = true ∧
      (durableName (str "erp/stock") (str "a-b") = durableName (str "erp/stock") (str "a_b") ∧
        str "a-b" ≠ str "a_b") ∧
      (durableName (str "erp/a") (str "b-c") = durableName (str "erp/a-b") (str "c") ∧
        str "erp/a" ≠ str "erp/a-b") ∧
      isStreamName (str "a.b") = true ∧ isStreamName (str "a_b") = true ∧
      jetstreamName (str "a.b") = jetstreamName (str "a_b") ∧ str "a.b" ≠ str "a_b" := by
  decide +kernel

/-! ## Names that are safe -/

theorem not_separator {x : CodePoint} (h : isNameChar x = true) : isSeparator x = false := by
  by_contra hsep
  simp only [isSeparator, Bool.or_eq_false_iff, decide_eq_false_iff_not, not_and_or,
    not_not] at hsep
  rcases hsep with ((rfl | rfl) | rfl) | rfl <;> exact absurd h (by decide)

/-- A component id without a hyphen has two words, its names. -/
theorem words_of_isComponentId {c : Str} (h : isComponentId c = true) (hplain : chr '-' ∉ c) :
    ∃ vendor name, c = vendor ++ chr '/' :: name ∧ words c = [vendor, name] := by
  unfold isComponentId namesOf at h
  cases hdrop : c.dropWhile fun x => !isChar (chr '/') x with
  | nil => simp [hdrop] at h
  | cons slash name =>
      simp only [hdrop, Bool.and_eq_true] at h
      obtain ⟨hvendor, hname⟩ := h
      have hslash : slash = chr '/' := by
        have hhead := List.head?_dropWhile_not (fun x => !isChar (chr '/') x) c
        rw [hdrop] at hhead
        simpa [isChar] using hhead
      have hsplit : c = c.takeWhile (fun x => !isChar (chr '/') x) ++ chr '/' :: name := by
        conv_lhs => rw [← List.takeWhile_append_dropWhile (p := fun x => !isChar (chr '/') x)
          (l := c), hdrop, hslash]
      generalize c.takeWhile (fun x => !isChar (chr '/') x) = vendor at hvendor hsplit
      have hchars : ∀ {s : Str}, isName s = true → chr '-' ∉ s →
        ∀ x ∈ s, isSeparator x = false := by
        intro s hs hno x hx
        simp only [isName, Bool.and_eq_true, List.all_eq_true] at hs
        have hx' := hs.2 x hx
        rcases Bool.or_eq_true _ _ ▸ hx' with hchar | hhyphen
        · exact not_separator hchar
        · exact absurd (of_decide_eq_true hhyphen ▸ hx) hno
      refine ⟨vendor, name, hsplit, ?_⟩
      rw [hsplit] at hplain
      simp only [List.mem_append, List.mem_cons, not_or] at hplain
      rw [words, hsplit, List.splitOnP_append_cons _ _ (by decide : isSeparator (chr '/') = true),
        List.splitOnP_eq_singleton (hchars hvendor hplain.1),
        List.splitOnP_eq_singleton (hchars hname hplain.2.2)]
      rfl

/-- Component ids without a hyphen and subscription names with underscores only. -/
theorem durableName_inj {c s c' s' : Str} (hc : isComponentId c = true)
    (hc' : isComponentId c' = true) (hplain : chr '-' ∉ c)
    (hplain' : chr '-' ∉ c') (hs : ∀ x ∈ s, isSeparator x = true → x = chr '_')
    (hs' : ∀ x ∈ s', isSeparator x = true → x = chr '_')
    (h : durableName c s = durableName c' s') : c = c' ∧ s = s' := by
  obtain ⟨vendor, name, rfl, hwords⟩ := words_of_isComponentId hc hplain
  obtain ⟨vendor', name', rfl, hwords'⟩ := words_of_isComponentId hc' hplain'
  rw [durableName_eq_iff, hwords, hwords'] at h
  simp only [List.cons_append, List.nil_append, List.cons.injEq] at h
  obtain ⟨rfl, rfl, hrest⟩ := h
  refine ⟨rfl, ?_⟩
  calc s = unite isSeparator (chr '_') s := (unite_eq_self hs).symm
    _ = unite isSeparator (chr '_') s' := (unite_eq_iff (by decide)).mpr hrest
    _ = s' := unite_eq_self hs'

/-! ## Rows of subscriptions -/

/-- The rows of `be_bus_subscription` after some subscriptions, oldest first. -/
def rows (declared : List SubscriptionSpec) : Dict Str Stored :=
  registered id Dict.empty (declared.map fun s => (s.durable, s.defaults.stored))

/-- One more subscription finds, or makes, the row of its durable. -/
theorem rows_subscribe (declared : List SubscriptionSpec) (s : SubscriptionSpec) :
    (rows (declared ++ [s])).get? s.durable =
    some (subscribe ((rows declared).get? s.durable) s) := by
  have hlast : rows (declared ++ [s]) = (rows declared).setDefault s.durable s.defaults.stored := by
    simp only [rows, registered, List.map_append, List.map_cons, List.map_nil,
      List.foldl_append, List.foldl_cons, List.foldl_nil, id]
  rw [hlast, Dict.get?_setDefault, if_pos rfl]
  rfl

/-- **When two subscriptions have a row of their own.** Of two subscriptions that would
store different settings: each finds its own, whichever comes first, if and only if they
have different words. -/
theorem rows_apart_iff {m m' : Str} {sub sub' : Sub} {n n' : Int}
    (hne : (sub.spec m n).defaults.stored ≠ (sub'.spec m' n').defaults.stored) :
    ((rows [sub.spec m n, sub'.spec m' n']).get? (durableName m sub.name) =
      some (sub.spec m n).defaults.stored ∧ (rows [sub.spec m n, sub'.spec m' n']).get?
      (durableName m' sub'.name) = some (sub'.spec m' n').defaults.stored ∧
      (rows [sub'.spec m' n', sub.spec m n]).get? (durableName m sub.name) =
      some (sub.spec m n).defaults.stored ∧ (rows [sub'.spec m' n', sub.spec m n]).get?
      (durableName m' sub'.name) = some (sub'.spec m' n').defaults.stored) ↔
      words m ++ words sub.name ≠ words m' ++ words sub'.name := by
  rw [ne_eq, ← durableName_eq_iff]
  exact own_iff id hne

/-! ## Runs of the broker -/

/-- A call of an instance to the broker for one stream. -/
inductive Call where
  | ensure (stream : Stream)
  | bind (stream : Stream) (member : Str) (sub : Sub) (configured : Int)

/-- The broker after a call, with what it says to the creations; the event is the consumer
that the instance is bound to. -/
def callStep (b : Broker) (o : Call × (Bool × Bool)) : Broker × Option ConsumerConfig :=
  match o.1 with
  | .ensure stream => ((b.ensureStream stream.name o.2.1).2, none)
  | .bind stream member sub configured =>
      let r := b.subscribe stream.name (sub.spec member configured) o.2
      (r.2, r.1)

theorem ensureStream_consumers (b : Broker) (stream : Str) (accepted : Bool) :
    (b.ensureStream stream accepted).2.consumers = b.consumers := by
  unfold Broker.ensureStream
  split
  · rfl
  · split <;> rfl

/-- A consumer is found as it is, or made from the call. -/
theorem ensureConsumer_cases (b : Broker) (stream : Str) (spec : SubscriptionSpec)
    (accepted : Bool) : (b.ensureConsumer stream spec accepted).2 = b ∨
      b.consumers.get? (jetstreamName stream, spec.durable) = none ∧
        (b.ensureConsumer stream spec accepted).2.consumers =
          b.consumers.set (jetstreamName stream, spec.durable) (consumerConfig stream spec) := by
  unfold Broker.ensureConsumer
  split
  · exact .inl rfl
  · next hnone =>
      split
      · exact .inr ⟨hnone, rfl⟩
      · exact .inl rfl

/-- What one call does to the consumers. -/
theorem callStep_cases (b : Broker) (o : Call × (Bool × Bool)) :
    (callStep b o).1.consumers = b.consumers ∨
      ∃ stream member sub configured, o.1 = .bind stream member sub configured ∧
        b.consumers.get? (jetstreamName stream.name, durableName member sub.name) = none ∧
        (callStep b o).1.consumers = b.consumers.set (jetstreamName stream.name,
          durableName member sub.name) (consumerConfig stream.name
          (sub.spec member configured).defaults) := by
  obtain ⟨call, accepted⟩ := o
  cases call with
  | ensure stream => exact .inl (ensureStream_consumers b stream.name accepted.1)
  | bind stream member sub configured =>
      simp only [callStep, Broker.subscribe]
      have hkept := ensureStream_consumers b stream.name accepted.1
      split
      · next b' hensure => exact .inl (by rw [hensure] at hkept; exact hkept)
      · next b' hensure =>
          rw [hensure] at hkept
          rcases ensureConsumer_cases b' stream.name (sub.spec member configured).defaults
            accepted.2 with hsame | ⟨hnone, hset⟩
          · exact .inl (by rw [hsame, hkept])
          · rw [hkept] at hnone hset
            exact .inr ⟨stream, member, sub, configured, rfl, hnone, hset⟩

/-- The first creator's settings stay. -/
theorem consumer_stays {ok : Broker → Call × (Bool × Bool) → Prop} {b b' : Broker}
    {h : List (Option ConsumerConfig)} (hrun : Reach callStep ok b h b')
    {k : Str × Str} {cfg : ConsumerConfig} (hfound : b.consumers.get? k = some cfg) :
    b'.consumers.get? k = some cfg := by
  refine @Reach.invariant _ _ _ callStep ok b (fun _ s => s.consumers.get? k = some cfg)
    hfound (fun _ s o _ hs => ?_) h b' hrun
  rcases callStep_cases s o with hsame | ⟨_, _, _, _, _, hnone, hset⟩
  · rw [hsame]
    exact hs
  · have hne : k ≠ _ := fun heq => absurd (heq ▸ hs) (by rw [hnone]; simp)
    rw [hset, Dict.get?_set_of_ne _ _ hne]
    exact hs

/-- What a consumer at the broker was made from. -/
def Made (ok : Call → Prop) (consumers : Dict (Str × Str) ConsumerConfig) : Prop :=
  ∀ k cfg, consumers.get? k = some cfg →
    ∃ stream member sub configured, ok (.bind stream member sub configured) ∧
    k = (jetstreamName stream.name, durableName member sub.name) ∧
    cfg = consumerConfig stream.name (sub.spec member configured).defaults

theorem made_run {ok : Call → Prop} {b : Broker} {h : List (Option ConsumerConfig)}
    (hrun : Reach callStep (fun _ o => ok o.1) Broker.empty h b) : Made ok b.consumers := by
  have hempty : Made ok Broker.empty.consumers := fun k cfg hnone =>
    absurd hnone (by simp [Broker.empty, Dict.empty, Dict.get?, lookup])
  refine @Reach.invariant _ _ _ callStep _ Broker.empty (fun _ s => Made ok s.consumers)
    hempty (fun _ s o hok hs => ?_) h b hrun
  rcases callStep_cases s o with hsame | ⟨stream, member, sub, configured, hcall, -, hset⟩
  · rw [hsame]
    exact hs
  · intro k cfg hfound
    rw [hset, Dict.get?_set] at hfound
    split at hfound
    · next hk => exact ⟨stream, member, sub, configured, hcall ▸ hok, hk,
        (Option.some.inj hfound).symm⟩
    · exact hs k cfg hfound

/-- Whoever is allowed to call has words of its own. -/
structure Apart (ok : Call → Prop) : Prop where
  subscriptions : ∀ {stream stream' : Stream} {m m' : Str} {sub sub' : Sub} {n n' : Int},
    ok (.bind stream m sub n) → ok (.bind stream' m' sub' n') → words m ++ words sub.name =
    words m' ++ words sub'.name → m = m' ∧ sub.name = sub'.name
  streams : ∀ {stream stream' : Stream} {m m' : Str} {sub sub' : Sub} {n n' : Int},
    ok (.bind stream m sub n) → ok (.bind stream' m' sub' n') → streamWords stream.name =
    streamWords stream'.name → stream.name = stream'.name

/-- A stream is found as it is, or made from the call. -/
theorem ensureStream_cases (b : Broker) (stream : Str) (accepted : Bool) :
    (b.ensureStream stream accepted).2.streams = b.streams ∨
      (b.ensureStream stream accepted).2.streams = b.streams.set (jetstreamName stream)
      (streamConfig stream) := by
  unfold Broker.ensureStream
  split
  · exact .inl rfl
  · split
    · exact .inr rfl
    · exact .inl rfl

theorem ensureConsumer_streams (b : Broker) (stream : Str) (spec : SubscriptionSpec)
    (accepted : Bool) : (b.ensureConsumer stream spec accepted).2.streams = b.streams := by
  unfold Broker.ensureConsumer
  split
  · rfl
  · split <;> rfl

/-- The stream of a call. -/
def Call.stream : Call → Stream
  | .ensure stream => stream
  | .bind stream _ _ _ => stream

/-- What one call does to the streams is what ensuring its stream does. -/
theorem callStep_streams (b : Broker) (o : Call × (Bool × Bool)) :
    (callStep b o).1.streams = (b.ensureStream o.1.stream.name o.2.1).2.streams := by
  obtain ⟨call, accepted⟩ := o
  cases call with
  | ensure stream => rfl
  | bind stream member sub configured =>
      simp only [callStep, Broker.subscribe, Call.stream]
      split
      · next b' hensure => rw [hensure]
      · next b' hensure =>
          rw [hensure]
          exact ensureConsumer_streams b' stream.name _ accepted.2

/-- **Words of their own keep streams apart.** In every run of calls whose streams have
different words, the stream under a name stores the subjects of its own stream. -/
theorem stream_own {ok : Call → Prop}
    (hapart : ∀ {o o' : Call}, ok o → ok o' → streamWords o.stream.name =
      streamWords o'.stream.name → o.stream.name = o'.stream.name)
    {b : Broker} {h : List (Option ConsumerConfig)}
    (hrun : Reach callStep (fun _ o => ok o.1) Broker.empty h b)
    {o : Call} (hcaller : ok o) {cfg : StreamConfig}
    (hfound : b.streams.get? (jetstreamName o.stream.name) = some cfg) :
    cfg = streamConfig o.stream.name := by
  have hmade : ∀ k cfg, b.streams.get? k = some cfg → ∃ o', ok o' ∧
    k = jetstreamName o'.stream.name ∧
      cfg = streamConfig o'.stream.name := by
    refine @Reach.invariant _ _ _ callStep _ Broker.empty
      (fun _ s => ∀ k cfg, s.streams.get? k = some cfg → ∃ o', ok o' ∧
      k = jetstreamName o'.stream.name ∧ cfg = streamConfig o'.stream.name)
      (fun k cfg hnone => absurd hnone (by simp [Broker.empty, Dict.empty, Dict.get?,
        lookup])) (fun _ s o' hok hs => ?_) h b hrun
    intro k cfg hcfg
    rw [callStep_streams] at hcfg
    rcases ensureStream_cases s o'.1.stream.name o'.2.1 with hsame | hset
    · exact hs k cfg (hsame ▸ hcfg)
    · rw [hset, Dict.get?_set] at hcfg
      split at hcfg
      · next hk => exact ⟨o'.1, hok, hk, (Option.some.inj hcfg).symm⟩
      · exact hs k cfg hcfg
  obtain ⟨o', hmaker, hname, rfl⟩ := hmade _ _ hfound
  rw [hapart hcaller hmaker ((jetstreamName_eq_iff o.stream.named o'.stream.named).mp hname)]

/-- **Words of their own keep consumers apart.** In every run of calls, of any instances
in any order, where the subscriptions have different words and so have the streams: the
consumer under a subscription's names is configured for its own stream by a declaration
of the same component and subscription. -/
theorem consumer_own {ok : Call → Prop} (hapart : Apart ok)
    {b : Broker} {h : List (Option ConsumerConfig)}
    (hrun : Reach callStep (fun _ o => ok o.1) Broker.empty h b) {stream : Stream} {m : Str}
    {sub : Sub} {n : Int} (hcaller : ok (.bind stream m sub n)) {cfg : ConsumerConfig}
    (hfound : b.consumers.get? (jetstreamName stream.name, durableName m sub.name) = some cfg) :
    ∃ (sub' : Sub) (n' : Int), sub'.name = sub.name ∧ cfg = consumerConfig stream.name
    (sub'.spec m n').defaults := by
  obtain ⟨stream', m', sub', n', hmaker, hkey, hcfg⟩ := made_run hrun _ _ hfound
  obtain ⟨hstream, hdurable⟩ := Prod.mk.inj hkey
  have hsame := hapart.streams hcaller hmaker
    ((jetstreamName_eq_iff stream.named stream'.named).mp hstream)
  obtain ⟨rfl, hname⟩ := hapart.subscriptions hcaller hmaker (durableName_eq_iff.mp hdurable)
  exact ⟨sub', n', hname.symm, hsame ▸ hcfg⟩

end BeSdk.Events
