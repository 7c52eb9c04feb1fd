/-
BeSdk.Events.LeaseTheorems — leases and the delivery limit.

A delivery row counts its claims. While its message is in the table each claim is
handed out, so the row's count is the number of its handouts (`RowOk.exact`), and a
handout whose attempt is not the row's is superseded: its token is not the row's any
more. A due row has deliveries left, or none yet (`RowOk.ready`): the settlement deletes
it otherwise, and a claim of an expired lease and the give-up sweep divide the rest.

An ordered claim acts on what it saw: between its read and its update an unordered claim
may take the row, or its worker extend the lease that had run out. The limit then needs
that nothing claimed the row since (`unraced`), and the lease that it is still due
(`stillDue`). Durables whose instances all claim in one way are unraced.

* `leases_hold`: attempts 1, 2, 3, …, one worker holds the lease, and a late settlement
  changes nothing; in unraced runs at most max(1, max_deliver) handouts; and a claim of
  what is still due takes it from nobody.
-/
import BeSdk.Events.QueueTheorems

namespace BeSdk.Events.Queue

/-! ## Handouts -/

/-- The attempts of a delivery that were handed out. -/
def tries (handouts : List Handout) (seq : Nat) : List Int :=
  (handouts.filter fun h => decide (h.seq = seq)).map Handout.attempt

/-- What a row says of its handouts. -/
structure RowOk (s : State) (d : DeliveryRow) : Prop where
  claims : ((tries s.handouts d.seq).length : Int) ≤ d.attempts
  exact : d.seq ∈ s.messages.map Row.seq → ((tries s.handouts d.seq).length : Int) = d.attempts
  ready : d.inFlight = false → d.attempts = 0 ∨ d.attempts < s.spec.maxDeliver
  token : ∀ t ∈ d.leaseToken, t < s.nextToken
  held : ∀ h ∈ s.handouts, d.under h.token = true → h.seq = d.seq ∧ h.attempt = d.attempts

structure Leases (notes : List Note) (s : State) : Prop where
  tokens : (s.handouts.map Handout.token).Nodup
  drawn : ∀ h ∈ s.handouts, h.token < s.nextToken
  counted : ∀ q, tries s.handouts q = (List.range (tries s.handouts q).length).map
    fun i : Nat => (i : Int) + 1
  queued : ∀ h ∈ s.handouts, .queued h.seq ∈ notes
  rows : ∀ d ∈ s.deliveries, RowOk s d

theorem under_iff {d : DeliveryRow} {token : Nat} :
    d.under token = true ↔ d.inFlight = true ∧ d.leaseToken = some token := by
  rw [DeliveryRow.under, Bool.and_eq_true, decide_eq_true_iff]

/-! ## Steps without a claim -/

/-- A row goes on as it is, or is released with deliveries left, or is extended. -/
structure Keeps (spec : SubscriptionSpec) (d e : DeliveryRow) : Prop where
  seq : e.seq = d.seq
  attempts : e.attempts = d.attempts
  ready : e.inFlight = false → d.inFlight = false ∨ d.attempts < spec.maxDeliver
  flight : e.inFlight = true → d.inFlight = true
  token : ∀ t ∈ e.leaseToken, t ∈ d.leaseToken

theorem Keeps.refl (spec : SubscriptionSpec) (d : DeliveryRow) : Keeps spec d d :=
  ⟨rfl, rfl, .inl, id, fun _ h => h⟩

/-- Nothing is claimed. -/
structure Unclaimed (s s' : State) : Prop where
  spec : s'.spec = s.spec
  handouts : s'.handouts = s.handouts
  nextToken : s'.nextToken = s.nextToken

/-- Nothing is claimed and nothing is queued. -/
structure Settles (s s' : State) : Prop extends Unclaimed s s' where
  rows : ∀ e ∈ s'.deliveries, ∃ d ∈ s.deliveries, Keeps s.spec d e

/-- A step that leaves the deliveries settles nothing else. -/
theorem Settles.of_eq {s s' : State} (hspec : s'.spec = s.spec)
    (hhandouts : s'.handouts = s.handouts) (hnext : s'.nextToken = s.nextToken)
    (hdeliveries : s'.deliveries = s.deliveries) : Settles s s' :=
  ⟨⟨hspec, hhandouts, hnext⟩, by rw [hdeliveries]; exact fun d hd => ⟨d, hd, .refl _ d⟩⟩

/-- Publishing hands nothing out. -/
theorem publish_settles (s : State) (t : Nat) (go : Publisher → Publisher) :
    Settles s (s.publish t go) := by
  rcases publish_spec s t go with ⟨_, -, -, -, heq⟩ | ⟨heq, -⟩ <;> rw [heq] <;>
    exact .of_eq rfl rfl rfl rfl

/-- Nor does a deletion. -/
theorem deleteWhere_settles (s : State) (p : DeliveryRow → Bool) (why : Reason) :
    Settles s (s.deleteWhere p why).1 :=
  ⟨⟨rfl, rfl, rfl⟩, fun e he => ⟨e, (List.mem_filter.mp he).1, .refl _ e⟩⟩

/-- Nor does an update that keeps each delivery's lease or ends it. -/
theorem updateWhere_settles (s : State) {p : DeliveryRow → Bool} {f : DeliveryRow → DeliveryRow}
    (hf : ∀ d ∈ s.deliveries, p d = true → Keeps s.spec d (f d)) :
    Settles s { s with deliveries := updateWhere p f s.deliveries } := by
  refine ⟨⟨rfl, rfl, rfl⟩, fun e he => ?_⟩
  obtain ⟨d, hd, rfl⟩ := List.mem_map.mp he
  refine ⟨d, hd, ?_⟩
  split
  · next hp => exact hf d hd hp
  · exact .refl _ d

/-- Nor does a settlement. -/
theorem settle_settles {notes : List Note} {s : State} (hs : Leases notes s) (k : Nat)
    (out : Outcome) : Settles s (s.settle k out).1 := by
  unfold State.settle
  split
  · exact .of_eq rfl rfl rfl rfl
  · next h hk =>
    split
    · exact deleteWhere_settles ..
    · next hout =>
      refine updateWhere_settles s fun d hd hunder => ⟨rfl, rfl, fun _ => .inr ?_,
        fun hin => ?_, by simp [DeliveryRow.release]⟩
      · obtain ⟨-, hattempt⟩ := (hs.rows d hd).held h (List.mem_of_getElem? hk) hunder
        rw [← hattempt]
        cases out with
        | ack | term => simp at hout
        | nak => simpa using hout
      · cases hin

/-- Nor does an extension. -/
theorem inProgress_settles (s : State) (k : Nat) : Settles s (s.inProgress k) := by
  unfold State.inProgress
  split
  · exact .of_eq rfl rfl rfl rfl
  · exact updateWhere_settles s fun d _ _ => ⟨rfl, rfl, .inl, id, fun _ h => h⟩

/-- A delivery that keeps its lease stays accounted for. -/
theorem RowOk.keeps {s s' : State} (hs' : Unclaimed s s') {d e : DeliveryRow} (hd : RowOk s d)
    (hk : Keeps s.spec d e) (hmessages : d.seq ∈ s'.messages.map Row.seq →
      d.seq ∈ s.messages.map Row.seq) : RowOk s' e := by
  refine ⟨?_, fun hm => ?_, fun hin => ?_, fun t ht => ?_, fun h hh hunder => ?_⟩
  · rw [hs'.handouts, hk.seq, hk.attempts]
    exact hd.claims
  · rw [hs'.handouts, hk.seq, hk.attempts]
    rw [hk.seq] at hm
    exact hd.exact (hmessages hm)
  · rw [hk.attempts, hs'.spec]
    exact (hk.ready hin).elim hd.ready .inr
  · rw [hs'.nextToken]
    exact hd.token t (hk.token t ht)
  · rw [hs'.handouts] at hh
    rw [hk.seq, hk.attempts]
    obtain ⟨hin, htoken⟩ := under_iff.mp hunder
    exact hd.held h hh (under_iff.mpr ⟨hk.flight hin, hk.token _ htoken⟩)

/-- Handouts stay what they are when nothing is claimed. -/
theorem Leases.unclaimed {notes new : List Note} {s s' : State} (hs : Leases notes s)
    (hs' : Unclaimed s s') (hrows : ∀ d ∈ s'.deliveries, RowOk s' d) :
    Leases (new ++ notes) s' := by
  refine ⟨?_, ?_, ?_, ?_, hrows⟩
  · rw [hs'.handouts]
    exact hs.tokens
  · rw [hs'.handouts, hs'.nextToken]
    exact hs.drawn
  · rw [hs'.handouts]
    exact hs.counted
  · rw [hs'.handouts]
    exact fun h hh => List.mem_append_right _ (hs.queued h hh)

/-- A step that hands nothing out keeps the leases. -/
theorem Leases.settles {notes new : List Note} {s s' : State} (hs : Leases notes s)
    (hs' : Settles s s') (hmessages : ∀ d ∈ s.deliveries, d.seq ∈ s'.messages.map Row.seq →
      d.seq ∈ s.messages.map Row.seq) :
    Leases (new ++ notes) s' := by
  refine hs.unclaimed hs'.toUnclaimed fun e he => ?_
  obtain ⟨d, hd, hk⟩ := hs'.rows e he
  exact (hs.rows d hd).keeps hs'.toUnclaimed hk (hmessages d hd)

/-! ## Advances and claims -/

/-- A delivery that is queued was never handed out. -/
theorem Leases.advanced {spec : SubscriptionSpec} {h : List (List Note)} {s : State}
    (hsound : Sound spec h s) {new : List Note} (hs : Leases h.flatten s) :
    Leases (new ++ h.flatten) s.advanced.1 := by
  unfold State.advanced
  split
  · next xid began rows hadv =>
    split
    · exact hs.settles (.of_eq rfl rfl rfl rfl) fun _ _ => id
    · have hreads := hsound.horizon.advance _ hadv rows rfl
      refine hs.unclaimed ⟨rfl, rfl, rfl⟩ fun d hd => ?_
      rcases List.mem_append.mp hd with hd | hd
      · refine (hs.rows d hd).keeps ?_ (.refl _ d) fun hm => ?_
        · exact ⟨rfl, rfl, rfl⟩
        · exact hm
      · obtain ⟨m, hm, rfl⟩ := List.mem_map.mp hd
        have hrow := (List.mem_filter.mp (List.mem_filter.mp hm).1).1
        have hnone : tries s.handouts m.seq = [] := by
          rw [tries, List.map_eq_nil_iff, List.filter_eq_nil_iff]
          intro h' hh' heq
          rw [decide_eq_true_iff] at heq
          exact hsound.considered.fresh hsound.numbers hreads m hrow
            (heq ▸ hsound.considered.queued _ (hs.queued h' hh'))
        have hlength : (tries s.handouts (newDelivery began m).seq).length = 0 :=
          congrArg List.length hnone
        refine ⟨?_, fun _ => ?_, fun _ => .inl rfl, by simp [newDelivery], fun h' _ hunder => ?_⟩
        · exact le_of_eq (congrArg Int.ofNat hlength)
        · exact congrArg Int.ofNat hlength
        · cases hunder
  · exact hs.settles (.of_eq rfl rfl rfl rfl) fun _ _ => id

/-- A due delivery has deliveries left, or none yet, and no live lease. -/
theorem RowOk.due {s : State} {d : DeliveryRow} (hd : RowOk s d)
    (hdue : d.due s.spec s.clock = true) :
    d.attempts + 1 ≤ max 1 s.spec.maxDeliver ∧ d.leased s.clock = false := by
  rw [DeliveryRow.due, Bool.or_eq_true] at hdue
  rcases hdue with hready | hexpired
  · rw [DeliveryRow.ready, Bool.and_eq_true, Bool.not_eq_true'] at hready
    refine ⟨?_, by rw [DeliveryRow.leased, hready.1, Bool.false_and]⟩
    rcases hd.ready hready.1 with h | h
    · rw [h, zero_add]
      exact le_max_left ..
    · exact (Int.add_one_le_iff.mpr h).trans (le_max_right ..)
  · rw [Bool.and_eq_true, decide_eq_true_iff, DeliveryRow.expired, Bool.and_eq_true] at hexpired
    obtain ⟨⟨-, hlate⟩, hleft⟩ := hexpired
    refine ⟨(Int.add_one_le_iff.mpr hleft).trans (le_max_right ..), ?_⟩
    rw [DeliveryRow.leased, Bool.and_eq_false_iff]
    right
    cases hl : d.leaseUntil with
    | none => rfl
    | some t =>
        rw [hl, Option.any_some, decide_eq_true_iff] at hlate
        exact decide_eq_false (not_le.mpr hlate)

/-- A delivery is found by its number. -/
theorem find?_seq {l : List DeliveryRow} (hnodup : (l.map DeliveryRow.seq).Nodup)
    {d : DeliveryRow} (hd : d ∈ l) : l.find? (fun e => decide (e.seq = d.seq)) = some d := by
  obtain ⟨e, he⟩ := Option.isSome_iff_exists.mp
    (List.find?_isSome.mpr ⟨d, hd, decide_eq_true rfl⟩ : (l.find? fun e => decide
      (e.seq = d.seq)).isSome)
  have hseq : e.seq = d.seq := by simpa using List.find?_some he
  rw [he, List.inj_on_of_nodup_map hnodup (List.mem_of_find?_eq_some he) hd hseq]

/-- A row after a claim of another one or of itself. -/
theorem mem_lease {s : State} {q : Nat} {e : DeliveryRow} (he : e ∈ (s.lease q).deliveries) :
    ∃ d ∈ s.deliveries, (d.seq ≠ q ∧ e = d) ∨
      (d.seq = q ∧ e = d.claim s.nextToken (s.clock + s.spec.ackWait)) := by
  obtain ⟨d, hd, rfl⟩ := List.mem_map.mp he
  refine ⟨d, hd, ?_⟩
  by_cases hq : d.seq = q
  · exact .inr ⟨hq, by rw [if_pos (decide_eq_true hq)]⟩
  · exact .inl ⟨hq, by rw [if_neg (by simpa using hq)]⟩

/-- The handouts of a delivery after one more handout. -/
theorem tries_concat (l : List Handout) (h : Handout) (q : Nat) :
    tries (l ++ [h]) q = if h.seq = q then tries l q ++ [h.attempt] else tries l q := by
  simp only [tries, List.filter_append, List.map_append]
  split
  · next hq => simp [hq]
  · next hq => simp [hq]

/-- A row that is not under the next token says the same of one more handout with it. -/
theorem RowOk.other {s : State} {e : DeliveryRow} (he : RowOk s e) (l : List DeliveryRow)
    (h : Handout) (htoken : h.token = s.nextToken) (hseq : h.seq ≠ e.seq) :
    RowOk { s with deliveries := l, nextToken := s.nextToken + 1,
                   handouts := s.handouts ++ [h] } e := by
  have htries := tries_concat s.handouts h e.seq
  rw [if_neg hseq] at htries
  refine ⟨by rw [htries]; exact he.claims, fun hm => by rw [htries]; exact he.exact hm, he.ready,
    fun t ht => (he.token t ht).trans (Nat.lt_succ_self _), fun h' hh' hunder => ?_⟩
  rcases List.mem_append.mp hh' with hh' | hh'
  · exact he.held h' hh' hunder
  · rw [List.mem_singleton.mp hh', htoken] at hunder
    exact absurd (he.token _ (under_iff.mp hunder).2) (lt_irrefl _)

section
variable {notes new : List Note} {s : State}

/-- A delivery is handed out with its message. -/
theorem Leases.handOut (hs : Leases notes s)
    (hnodup : (s.deliveries.map DeliveryRow.seq).Nodup) {d : DeliveryRow}
    (hd : d ∈ s.deliveries) (hqueued : .queued d.seq ∈ notes) (hm : d.seq ∈ s.messages.map Row.seq)
    (delivery : Delivery) :
    Leases (new ++ notes)
      { s.lease d.seq with handouts :=
        s.handouts ++ [⟨d.seq, s.nextToken, d.attempts + 1, delivery⟩] } := by
  have hn := (hs.rows d hd).exact hm
  have htries := tries_concat s.handouts ⟨d.seq, s.nextToken, d.attempts + 1, delivery⟩
  have hself : ((tries (s.handouts ++ [⟨d.seq, s.nextToken, d.attempts + 1, delivery⟩])
    d.seq).length : Int) =
      d.attempts + 1 := by
    rw [htries, if_pos rfl, List.length_append, List.length_singleton, Nat.cast_add, hn]
    rfl
  refine ⟨?_, fun h' hh' => ?_, fun q => ?_, fun h' hh' => ?_, fun e he => ?_⟩
  · rw [List.map_append, List.nodup_append']
    refine ⟨hs.tokens, List.nodup_singleton _, fun t ht ht' => ?_⟩
    obtain ⟨h', hh', rfl⟩ := List.mem_map.mp ht
    exact (hs.drawn h' hh').ne (List.mem_singleton.mp ht')
  · rcases List.mem_append.mp hh' with hh' | hh'
    · exact (hs.drawn h' hh').trans (Nat.lt_succ_self _)
    · rw [List.mem_singleton.mp hh']
      exact Nat.lt_succ_self _
  · rw [htries q]
    split
    · next hq =>
      subst hq
      rw [List.length_append, List.length_singleton, List.range_succ, List.map_append,
        List.map_singleton, hn, ← hs.counted d.seq]
    · exact hs.counted q
  · refine List.mem_append_right _ ?_
    rcases List.mem_append.mp hh' with hh' | hh'
    · exact hs.queued h' hh'
    · rw [List.mem_singleton.mp hh']
      exact hqueued
  · obtain ⟨e', he', ⟨hne, rfl⟩ | ⟨heq, rfl⟩⟩ := mem_lease he
    · exact (hs.rows e he').other _ _ rfl hne.symm
    · obtain rfl := List.inj_on_of_nodup_map hnodup he' hd heq
      refine ⟨hself.le, fun _ => hself, fun hin => (by cases hin), fun t ht => ?_,
        fun h' hh' hunder => ?_⟩
      · cases ht
        exact Nat.lt_succ_self _
      · rcases List.mem_append.mp hh' with hh' | hh'
        · have htoken : s.nextToken = h'.token := Option.some.inj (under_iff.mp hunder).2
          exact absurd (hs.drawn h' hh') htoken.not_gt
        · rw [List.mem_singleton.mp hh']
          exact ⟨rfl, rfl⟩

/-- A delivery whose message is gone is claimed for nothing. -/
theorem Leases.lease (hs : Leases notes s) {q : Nat}
    (hgone : ∀ d ∈ s.deliveries, d.seq = q → d.seq ∉ s.messages.map Row.seq) :
    Leases (new ++ notes) (s.lease q) := by
  refine ⟨hs.tokens, fun h' hh' => (hs.drawn h' hh').trans (Nat.lt_succ_self _), hs.counted,
    fun h' hh' => List.mem_append_right _ (hs.queued h' hh'), fun e he => ?_⟩
  obtain ⟨e', he', ⟨hne, rfl⟩ | ⟨heq, rfl⟩⟩ := mem_lease he
  · have hrow := hs.rows e he'
    exact ⟨hrow.claims, hrow.exact, hrow.ready,
      fun t ht => (hrow.token t ht).trans (Nat.lt_succ_self _), hrow.held⟩
  · have hrow := hs.rows e' he'
    refine ⟨hrow.claims.trans (Int.le_add_one (le_refl _)),
      fun hmem => absurd hmem (hgone e' he' heq), fun hin => (by cases hin), fun t ht => ?_,
      fun h' hh' hunder => ?_⟩
    · cases ht
      exact Nat.lt_succ_self _
    · have htoken : s.nextToken = h'.token := Option.some.inj (under_iff.mp hunder).2
      exact absurd (hs.drawn h' hh') htoken.not_gt

/-- A claim. -/
theorem Leases.take (hs : Leases notes s) (hnodup : (s.deliveries.map DeliveryRow.seq).Nodup)
    (hqueued : ∀ d ∈ s.deliveries, .queued d.seq ∈ notes) (seq : Option Nat) :
    Leases (new ++ notes) (s.take seq).1 := by
  unfold State.take
  split
  · exact hs.settles (.of_eq rfl rfl rfl rfl) fun _ _ => id
  · next q =>
    split
    · next d m hfind hm =>
      have hd := List.mem_of_find?_eq_some hfind
      obtain rfl : d.seq = q := by simpa using List.find?_some hfind
      have hmem : d.seq ∈ s.messages.map Row.seq :=
        List.mem_map.mpr ⟨m, List.mem_of_find?_eq_some hm, by simpa using List.find?_some hm⟩
      exact hs.handOut hnodup hd (hqueued d hd) hmem _
    · next hnone =>
      refine hs.lease fun d hd hseq hmem => ?_
      subst hseq
      obtain ⟨m, hm, heq⟩ := List.mem_map.mp hmem
      obtain ⟨m', hm'⟩ := Option.isSome_iff_exists.mp
        (List.find?_isSome.mpr ⟨m, hm, decide_eq_true heq⟩ : (s.messages.find? fun m => decide
          (m.seq = d.seq)).isSome)
      exact hnone d m' (find?_seq hnodup hd) hm'

/-- An ordered claim, of what it has seen. -/
theorem Leases.claimOrdered (hs : Leases notes s)
    (hnodup : (s.deliveries.map DeliveryRow.seq).Nodup)
    (hqueued : ∀ d ∈ s.deliveries, .queued d.seq ∈ notes) :
    Leases (new ++ notes) s.claimOrdered.1 := by
  unfold State.claimOrdered
  split
  · next seen _ =>
    have hfree : Leases notes { s with holder := none } :=
      @Leases.settles notes [] _ _ hs (.of_eq rfl rfl rfl rfl) fun _ _ => id
    have htaken : Leases (new ++ notes) (State.take { s with holder := none } (some seen.seq)).1 :=
      hfree.take hnodup hqueued _
    dsimp only
    split
    · exact htaken
    · exact @Leases.settles _ [] _ _ htaken (deleteWhere_settles _ _ .gone) fun _ _ => id
  · exact hs.settles (.of_eq rfl rfl rfl rfl) fun _ _ => id

end

/-- The operation claims a delivery or queues some. -/
def Op.busy : Op → Bool
  | .claim _ => true
  | .claimOrdered => true
  | .advanced => true
  | _ => false

/-- Every step but a claim hands nothing out. -/
theorem step_settles {notes : List Note} {s : State} (hs : Leases notes s)
    {o : Op} (ho : o.busy = false) : Settles s (step s o).1 := by
  cases o with
  | claim | claimOrdered | advanced => cases ho
  | settle k out => exact settle_settles hs k out
  | inProgress k => exact inProgress_settles s k
  | dropGone token | giveUp => exact deleteWhere_settles ..
  | purge old => exact ⟨⟨rfl, rfl, rfl⟩, fun e he => ⟨e, (List.mem_filter.mp he).1, .refl _ e⟩⟩
  | draw t =>
      obtain ⟨⟨hspec, hhandouts, hnext⟩, hrows⟩ := publish_settles s t fun p =>
        { p with drawn := some s.nextSeq }
      exact ⟨⟨hspec, hhandouts, hnext⟩, hrows⟩
  | assign t =>
      obtain ⟨⟨hspec, hhandouts, hnext⟩, hrows⟩ :=
        publish_settles s t fun p => { p with xid := some (p.xid.getD s.nextXid) }
      exact ⟨⟨hspec, hhandouts, hnext⟩, hrows⟩
  | write t m => exact publish_settles ..
  | commit t =>
      obtain ⟨⟨hspec, hhandouts, hnext⟩, hrows⟩ := publish_settles s t fun p =>
        { p with stage := .committed }
      exact ⟨⟨hspec, hhandouts, hnext⟩, hrows⟩
  | abort t => exact publish_settles ..
  | lock | fetch =>
      simp only [step]
      split <;> exact .of_eq rfl rfl rfl rfl
  | look =>
      simp only [step, State.look]
      split <;> exact .of_eq rfl rfl rfl rfl
  | begin_ | rolledBack | tick now => exact .of_eq rfl rfl rfl rfl

/-- Every step keeps the leases. -/
theorem Leases.step {spec : SubscriptionSpec} {h : List (List Note)} {s : State}
    (hsound : Sound spec h s) (hs : Leases h.flatten s) (o : Op) :
    Leases ((step s o).2 :: h).flatten (step s o).1 := by
  rw [List.flatten_cons]
  have hnodup := hsound.considered.nodup
  have hqueued := hsound.considered.deliveries
  by_cases ho : o.busy = false
  · exact hs.settles (step_settles hs ho) fun d hd =>
      hsound.considered.gone (step_moves s o) hsound.numbers hsound.horizon (hqueued d hd)
  · cases o with
    | advanced => exact hs.advanced hsound
    | claim locked => exact hs.take hnodup hqueued _
    | claimOrdered => exact hs.claimOrdered hnodup hqueued
    | _ => exact absurd rfl ho

/-- The leases are kept in every run. -/
theorem leases_reach {ok : State → Op → Prop} {spec : SubscriptionSpec} {h : List (List Note)}
    {s : State} (hr : Reach step ok (created spec) h s) : Leases h.flatten s := by
  induction hr with
  | nil =>
      exact ⟨.nil, by simp [created], by simp [created, tries], by simp [created], by
        simp [created]⟩
  | snoc o _ hr ih => exact ih.step (sound_reach hr) o

/-! ## The limit -/

/-- Nothing has claimed the delivery that an ordered claim updates since it saw it. -/
def unraced (s : State) : Op → Bool
  | .claimOrdered =>
      s.seen.all fun d => s.deliveries.all fun e => !decide (e.seq = d.seq) ||
        decide (e.attempts = d.attempts)
  | _ => true

/-- The delivery that an ordered claim updates is still due. -/
def stillDue (s : State) : Op → Bool
  | .claimOrdered =>
      s.seen.all fun d => s.deliveries.all fun e => !decide (e.seq = d.seq) || e.due s.spec s.clock
  | _ => true

/-- All instances claim in one way. -/
def oneWay (ordered : Bool) (_ : State) : Op → Bool
  | .claim _ => !ordered
  | .look => ordered
  | .claimOrdered => ordered
  | _ => true

/-- A condition on the delivery that an ordered claim has seen, as it is now. -/
theorem seen_all {s : State} {p : DeliveryRow → DeliveryRow → Bool} :
    (s.seen.all fun d => s.deliveries.all fun e => !decide (e.seq = d.seq) || p d e) = true ↔
      ∀ d, s.seen = some d → ∀ e ∈ s.deliveries, e.seq = d.seq → p d e = true := by
  cases hseen : s.seen with
  | none => simp
  | some d => simp [or_iff_not_imp_left]

/-- What is claimed first is due. -/
theorem due_spec {s : State} {locked : List Nat} {q : Nat} (h : s.due locked = some q) :
    ∃ d ∈ s.deliveries, d.due s.spec s.clock = true ∧ d.seq = q := by
  obtain ⟨⟨d, hd, hdue, hseq⟩, -⟩ := first_eq_some h
  exact ⟨d, hd, (Bool.and_eq_true_iff.mp hdue).1, hseq⟩

/-- Handouts are only added: one of a delivery, with its next attempt and its message. -/
theorem handouts_step (s : State) (o : Op) : (step s o).1.handouts = s.handouts ∨
    ∃ d ∈ s.deliveries, ∃ m ∈ s.messages, m.seq = d.seq ∧ .handedOut d.seq (d.attempts + 1) ∈
    (step s o).2 ∧
      (step s o).1.handouts =
        s.handouts ++
        [⟨d.seq, s.nextToken, d.attempts + 1, { m with attempt := d.attempts + 1 }⟩] := by
  have htake : ∀ (s : State) seq, (s.take seq).1.handouts = s.handouts ∨
      ∃ d ∈ s.deliveries, ∃ m ∈ s.messages, m.seq = d.seq ∧
      .handedOut d.seq (d.attempts + 1) ∈ (s.take seq).2 ∧
        (s.take seq).1.handouts =
          s.handouts ++ [⟨d.seq, s.nextToken, d.attempts + 1,
            { m with attempt := d.attempts + 1 }⟩] := by
    intro s seq
    unfold State.take
    split
    · exact .inl rfl
    · next q =>
      split
      · next d m hd hm =>
        obtain rfl : d.seq = q := by simpa using List.find?_some hd
        have hseq : m.seq = d.seq := by simpa using List.find?_some hm
        exact .inr ⟨d, List.mem_of_find?_eq_some hd, m, List.mem_of_find?_eq_some hm, hseq,
          List.mem_singleton_self _, rfl⟩
      · exact .inl rfl
  have hpublish : ∀ t go, (s.publish t go).handouts = s.handouts := by
    intro t go
    rcases publish_spec s t go with ⟨_, -, -, -, heq⟩ | ⟨heq, -⟩ <;> rw [heq]
  cases o with
  | claim locked => exact htake s _
  | claimOrdered =>
      simp only [step, State.claimOrdered]
      split
      · next seen _ =>
        rcases htake { s with holder := none } (some seen.seq) with hsame | ⟨d, hd, m, hm,
          hseq, hnote, heq⟩
        · left
          split <;> exact hsame
        · right
          refine ⟨d, hd, m, hm, hseq, ?_, ?_⟩
          · split
            · exact hnote
            · exact List.mem_append_right _ hnote
          · split <;> exact heq
      · exact .inl rfl
  | draw t | assign t | write t m | commit t | abort t => exact .inl (hpublish _ _)
  | lock | fetch =>
      simp only [step]
      split <;> exact .inl rfl
  | look =>
      simp only [step, State.look]
      split <;> exact .inl rfl
  | advanced =>
      simp only [step, State.advanced]
      split
      · split <;> exact .inl rfl
      · exact .inl rfl
  | settle k out =>
      simp only [step, State.settle]
      split
      · exact .inl rfl
      · split <;> exact .inl rfl
  | inProgress k =>
      simp only [step, State.inProgress]
      split <;> exact .inl rfl
  | begin_ | rolledBack | dropGone token | giveUp | purge old | tick now => exact .inl rfl

/-- The limit is kept, and will be by the ordered claim that holds the subscription's
row. -/
structure Limited (s : State) : Prop where
  tried : ∀ q, ((tries s.handouts q).length : Int) ≤ max 1 s.spec.maxDeliver
  seen : ∀ d, s.seen = some d → d.attempts + 1 ≤ max 1 s.spec.maxDeliver

/-- Without a race every step keeps to the limit. -/
theorem Limited.step {spec : SubscriptionSpec} {h : List (List Note)} {s : State}
    (hsound : Sound spec h s) (hleases : Leases h.flatten s) (hs : Limited s)
    {o : Op} (hok : unraced s o = true) : Limited (step s o).1 := by
  have hspec : (Queue.step s o).1.spec = s.spec :=
    (hsound.step o).considered.settings.trans hsound.considered.settings.symm
  constructor <;> rw [hspec]
  · obtain hsame | ⟨d, hd, m, hm, hseq, hnote, heq⟩ := handouts_step s o
    · rw [hsame]
      exact hs.tried
    · have hlimit : d.attempts + 1 ≤ max 1 s.spec.maxDeliver := by
        obtain ⟨locked, rfl, hdue⟩ | ⟨rfl, seen, hseen, hseq', -⟩ := handedOut_spec hnote
        · obtain ⟨e, he, hdue', heseq⟩ := due_spec hdue
          obtain rfl := List.inj_on_of_nodup_map hsound.considered.nodup he hd heseq
          exact ((hleases.rows e he).due hdue').1
        · have hsame := seen_all.mp hok seen hseen d hd hseq'.symm
          rw [of_decide_eq_true hsame]
          exact hs.seen seen hseen
      have hexact := (hleases.rows d hd).exact (hseq ▸ List.mem_map_of_mem hm)
      intro q
      rw [heq, tries_concat]
      split
      · next hq =>
        subst hq
        rw [List.length_append, List.length_singleton, Nat.cast_add, hexact]
        exact hlimit
      · exact hs.tried q
  · intro d hd
    rcases seen_moves (step_moves s o) hd with ⟨hseen, -⟩ | ⟨hdue, -⟩
    · exact hs.seen d hseen
    · obtain ⟨hmem, hdue, -⟩ := dueFirst_spec hdue
      exact ((hleases.rows d hmem).due hdue).1

/-- So does every run without one. -/
theorem limited_reach {spec : SubscriptionSpec} {h : List (List Note)} {s : State}
    (hr : Reach step (fun s o => unraced s o = true) (created spec) h s) : Limited s := by
  induction hr with
  | nil => exact ⟨fun q => (by simp [created, tries]), fun d hd => by cases hd⟩
  | snoc o hok hr ih => exact ih.step (sound_reach hr) (leases_reach hr) hok

/-! ### Instances that claim in one way -/

/-- The delivery that an ordered claim has seen has not been claimed since. -/
def Stands (s : State) : Prop :=
  ∀ d, s.seen = some d → ∀ e ∈ s.deliveries, e.seq = d.seq → e.attempts = d.attempts

theorem take_holder (s : State) (seq : Option Nat) : (s.take seq).1.holder = s.holder := by
  unfold State.take
  split
  · rfl
  · split <;> rfl

/-- An ordered claim gives the subscription's row back. -/
theorem claimOrdered_seen (s : State) : s.claimOrdered.1.seen = none := by
  unfold State.claimOrdered
  split
  · next seen _ =>
    have hfree : (State.take { s with holder := none } (some seen.seq)).1.holder = none :=
      take_holder _ _
    dsimp only
    split
    · rw [State.seen, hfree]
    · rw [State.deleteWhere, State.seen, hfree]
  · next hno =>
    rw [State.seen]
    split
    · next d hd => exact absurd hd (hno d)
    · rfl

/-- While an ordered claim holds the subscription's row no advance ends. -/
theorem advanced_seen {s : State} {d : DeliveryRow} (h : s.advanced.1.seen = some d) :
    s.advanced.1 = s := by
  unfold State.advanced at h ⊢
  split at h
  · split at h <;> cases h
  · rfl

/-- While only one way of claiming is used, what an ordered claim read stands. -/
theorem Stands.step {spec : SubscriptionSpec} {h : List (List Note)} {s : State}
    (hsound : Sound spec h s) (hleases : Leases h.flatten s) (hs : Stands s)
    {o : Op} (ho : oneWay true s o = true) : Stands (step s o).1 := by
  intro d hd e he hseq
  by_cases hbusy : o.busy = false
  · obtain ⟨e', he', hkeeps⟩ := (step_settles hleases hbusy).rows e he
    rw [hkeeps.attempts]
    rw [hkeeps.seq] at hseq
    rcases seen_moves (step_moves s o) hd with ⟨hseen, -⟩ | ⟨hdue, -⟩
    · exact hs d hseen e' he' hseq
    · rw [List.inj_on_of_nodup_map hsound.considered.nodup he' (dueFirst_spec hdue).1 hseq]
  · cases o with
    | claim locked => cases ho
    | claimOrdered => cases (claimOrdered_seen s).symm.trans hd
    | advanced =>
        have hsame : (Queue.step s .advanced).1 = s := advanced_seen hd
        rw [hsame] at hd he
        exact hs d hd e he hseq
    | _ => exact absurd rfl hbusy

/-- Where all instances claim in one way, nothing claims between the halves of an
ordered claim. -/
theorem oneWay_unraced {ordered : Bool} {spec : SubscriptionSpec} {h : List (List Note)} {s : State}
    (hr : Reach step (fun s o => oneWay ordered s o = true) (created spec) h s) :
    Reach step (fun s o => unraced s o = true) (created spec) h s := by
  cases ordered with
  | false =>
      induction hr with
      | nil => exact .nil
      | snoc o hok _ ih =>
          refine ih.snoc o ?_
          cases o with
          | claimOrdered => cases hok
          | _ => rfl
  | true =>
      have hboth : Stands s ∧ Reach step (fun s o => unraced s o = true) (created spec) h s := by
        induction hr with
        | nil => exact ⟨fun d hd => (by cases hd), .nil⟩
        | snoc o hok hr ih =>
            refine ⟨ih.1.step (sound_reach hr) (leases_reach hr) hok, ih.2.snoc o ?_⟩
            cases o with
            | claimOrdered =>
                exact seen_all.mpr fun d hd e he hseq => decide_eq_true (ih.1 d hd e he hseq)
            | _ => rfl
      exact hboth.2

/-! ## The law -/

/-- A worker holds an unexpired lease. -/
def State.holds (s : State) (h : Handout) : Bool :=
  s.deliveries.any fun d => d.under h.token && d.leased s.clock

/-- The delivery of a handout was given to another claim since. -/
def State.superseded (s : State) (k : Nat) : Prop :=
  ∃ h, s.handouts[k]? = some h ∧
    ((∃ k' h', k < k' ∧ s.handouts[k']? = some h' ∧ h'.seq = h.seq) ∨
      ∃ d ∈ s.deliveries, d.seq = h.seq ∧ h.attempt < d.attempts)

/-- A handout that holds is of a delivery leased under its token. -/
theorem holds_spec {notes : List Note} {s : State} (hs : Leases notes s)
    {h : Handout} (hh : h ∈ s.handouts) (hholds : s.holds h = true) :
    ∃ d ∈ s.deliveries, d.seq = h.seq ∧ d.leaseToken = some h.token ∧ d.leased s.clock = true := by
  obtain ⟨d, hd, h'⟩ := List.any_eq_true.mp hholds
  rw [Bool.and_eq_true] at h'
  exact ⟨d, hd, ((hs.rows d hd).held h hh h'.1).1.symm, (under_iff.mp h'.1).2, h'.2⟩

/-- The attempts of a delivery were handed out in order. -/
theorem Leases.attempt_lt {notes : List Note} {s : State} (hs : Leases notes s)
    {k k' : Nat} {h h' : Handout} (hk : s.handouts[k]? = some h)
    (hk' : s.handouts[k']? = some h') (hlt : k < k') (hseq : h'.seq = h.seq) :
    h.attempt < h'.attempt ∧ h'.attempt ≤ (tries s.handouts h.seq).length := by
  have hsorted : (tries s.handouts h.seq).Pairwise (· < ·) := by
    rw [hs.counted, List.pairwise_map]
    exact List.pairwise_lt_range.imp fun {a b} hab => by omega
  have hsplit : s.handouts = s.handouts.take k' ++ s.handouts.drop k' :=
    (List.take_append_drop ..).symm
  have hin : h ∈ s.handouts.take k' := by
    rw [List.mem_iff_getElem?]
    exact ⟨k, by rwa [List.getElem?_take_of_lt hlt]⟩
  have hin' : h' ∈ s.handouts.drop k' := by
    rw [List.mem_iff_getElem?]
    exact ⟨0, by rwa [List.getElem?_drop, add_zero]⟩
  have hmem : h'.attempt ∈ tries s.handouts h.seq :=
    List.mem_map_of_mem (List.mem_filter.mpr ⟨List.mem_of_getElem? hk', decide_eq_true hseq⟩)
  constructor
  · rw [tries, hsplit, List.filter_append, List.map_append, List.pairwise_append] at hsorted
    exact hsorted.2.2 _ (List.mem_map_of_mem (List.mem_filter.mpr ⟨hin, decide_eq_true rfl⟩)) _
      (List.mem_map_of_mem (List.mem_filter.mpr ⟨hin', decide_eq_true hseq⟩))
  · rw [hs.counted] at hmem
    obtain ⟨i, hi, heq⟩ := List.mem_map.mp hmem
    rw [List.mem_range] at hi
    omega

/-- A superseded handout's token is on no row in flight. -/
theorem Leases.superseded {notes : List Note} {s : State} (hs : Leases notes s)
    (hnodup : (s.deliveries.map DeliveryRow.seq).Nodup)
    {k : Nat} {h : Handout} (hk : s.handouts[k]? = some h)
    (hsup : s.superseded k) : ∀ d ∈ s.deliveries, d.under h.token = false := by
  intro d hd
  rw [Bool.eq_false_iff]
  intro hunder
  obtain ⟨hseq, hattempt⟩ := (hs.rows d hd).held h (List.mem_of_getElem? hk) hunder
  obtain ⟨h₀, hk₀, hsup⟩ := hsup
  obtain rfl : h₀ = h := Option.some.inj (hk₀.symm.trans hk)
  rcases hsup with ⟨k', h', hlt, hk', hseq'⟩ | ⟨e, he, heseq, hlt⟩
  · obtain ⟨hlt', hle⟩ := hs.attempt_lt hk hk' hlt hseq'
    have hclaims := (hs.rows d hd).claims
    rw [← hseq] at hclaims
    omega
  · obtain rfl := List.inj_on_of_nodup_map hnodup he hd (heseq.trans hseq)
    omega

/-- Nothing changes where no row meets the condition. -/
theorem updateWhere_none {p : DeliveryRow → Bool} {f : DeliveryRow → DeliveryRow}
    {l : List DeliveryRow} (h : ∀ d ∈ l, p d = false) : updateWhere p f l = l := by
  have hid : updateWhere p f l = l.map id :=
    List.map_congr_left fun d hd => by rw [h d hd, if_neg Bool.false_ne_true, id]
  rw [hid, List.map_id]

/-- A deletion that finds nothing changes nothing. -/
theorem deleteWhere_none {s : State} {p : DeliveryRow → Bool} {why : Reason}
    (h : ∀ d ∈ s.deliveries, p d = false) : s.deleteWhere p why = (s, []) := by
  have hkeep : s.deliveries.filter (fun d => !p d) = s.deliveries :=
    List.filter_eq_self.mpr fun d hd => by rw [h d hd]; rfl
  have hdrop : s.deliveries.filter p = [] := List.filter_eq_nil_iff.mpr fun d hd => by
    rw [h d hd]; decide
  rw [State.deleteWhere, hkeep, hdrop]
  rfl

/-- A delivery that is due is in no worker's hands. -/
theorem handedOut_free {spec : SubscriptionSpec} {h : List (List Note)} {s : State}
    (hsound : Sound spec h s) (hs : Leases h.flatten s) {o : Op} (hok : stillDue s o = true)
    {q : Nat} {attempt : Int} (hout : .handedOut q attempt ∈ (step s o).2) :
    ∀ x ∈ s.handouts, x.seq = q → s.holds x = false := by
  have hdue : ∃ d ∈ s.deliveries, d.due s.spec s.clock = true ∧ d.seq = q := by
    obtain ⟨locked, -, hdue⟩ | ⟨rfl, seen, hseen, rfl, d, hd, hseq⟩ := handedOut_spec hout
    · exact due_spec hdue
    · exact ⟨d, hd, seen_all.mp hok seen hseen d hd hseq, hseq⟩
  obtain ⟨d, hd, hdue, rfl⟩ := hdue
  intro x hx hxq
  rw [Bool.eq_false_iff]
  intro hholds
  obtain ⟨e, he, heq, -, hleased⟩ := holds_spec hs hx hholds
  obtain rfl := List.inj_on_of_nodup_map hsound.considered.nodup he hd (heq.trans hxq)
  rw [((hs.rows e he).due hdue).2] at hleased
  cases hleased

/-- **Leases and the delivery limit hold.** In every run: the attempts of a delivery that
were handed out are 1, 2, 3, … without a gap or repeat; at most one worker holds an
unexpired lease on it; a settlement or an extension by a lease that was given to another
claim since changes nothing; and a delivery that is still due is handed out only when
nobody holds it. In every run in which nothing claims a delivery between the read and the
update of an ordered claim, so in every one whose instances all claim in one way, there
are at most max(1, max_deliver) handouts of it. -/
theorem leases_hold (spec : SubscriptionSpec) :
    (∀ h s, Reach step anyOp (created spec) h s →
      (∀ q, ∃ n : Nat, tries s.handouts q = (List.range n).map fun i : Nat => (i : Int) + 1) ∧
      (∀ (k k' : Nat) (x x' : Handout), s.handouts[k]? = some x → s.handouts[k']? = some x' →
        x.seq = x'.seq → s.holds x = true → s.holds x' = true → k = k') ∧
      (∀ k, s.superseded k → (∀ out, step s (.settle k out) = (s, [])) ∧
        step s (.inProgress k) = (s, [])) ∧
      ∀ o, stillDue s o = true → ∀ q attempt, .handedOut q attempt ∈ (step s o).2 →
        ∀ x ∈ s.handouts, x.seq = q → s.holds x = false) ∧
      (∀ h s, Reach step (fun s o => unraced s o = true) (created spec) h s →
        ∀ q, ((tries s.handouts q).length : Int) ≤ max 1 spec.maxDeliver) ∧
      ∀ ordered h s, Reach step (fun s o => oneWay ordered s o = true) (created spec) h s →
        ∀ q, ((tries s.handouts q).length : Int) ≤ max 1 spec.maxDeliver := by
  have hlimit : ∀ h s, Reach step (fun s o => unraced s o = true) (created spec) h s →
      ∀ q, ((tries s.handouts q).length : Int) ≤ max 1 spec.maxDeliver := by
    intro h s hr q
    rw [← (sound_reach hr).considered.settings]
    exact (limited_reach hr).tried q
  refine ⟨fun h s hr => ?_, hlimit, fun ordered h s hr => hlimit h s (oneWay_unraced hr)⟩
  have hsound := sound_reach hr
  have hs := leases_reach hr
  refine ⟨fun q => ⟨_, hs.counted q⟩, fun k k' x x' hk hk' hseq hx hx' => ?_, fun k hsup => ?_,
    fun o ho q attempt => handedOut_free hsound hs ho⟩
  · obtain ⟨d, hd, hdseq, htoken, -⟩ := holds_spec hs (List.mem_of_getElem? hk) hx
    obtain ⟨d', hd', hdseq', htoken', -⟩ := holds_spec hs (List.mem_of_getElem? hk') hx'
    obtain rfl := List.inj_on_of_nodup_map hsound.considered.nodup hd hd'
      (hdseq.trans (hseq.trans hdseq'.symm))
    have hlt : k < (s.handouts.map Handout.token).length := by
      rw [List.length_map]
      exact (List.getElem?_eq_some_iff.mp hk).1
    refine (List.getElem?_inj hlt hs.tokens).mp ?_
    rw [List.getElem?_map, List.getElem?_map, hk, hk', Option.map_some, Option.map_some,
      ← htoken, ← htoken']
  · obtain ⟨h₀, hk, -⟩ := id hsup
    have hnone := hs.superseded hsound.considered.nodup hk hsup
    simp only [step, State.settle, State.inProgress, hk, updateWhere_none hnone,
      deleteWhere_none hnone, ite_self, implies_true, and_self]

/-- A worker is too slow: its lease runs out, another one gets the message, and the late
acknowledgement of the first changes nothing. -/
def lateAck : List Op :=
  [.begin_, .draw 0, .assign 0, .write 0 (moved [1]), .commit 0] ++ round ++
    [.claim [], .tick 31, .claim []]

theorem leases_hold_late :
    let run := runOps step (created moves) lateAck
    ((tries run.2.handouts 1).length : Int) ≤ max 1 3 ∧ tries run.2.handouts 1 = [1, 2] ∧
      step run.2 (.settle 0 .ack) = (run.2, []) := by
  have hok : allAllowed step (fun s o => oneWay false s o = true) (created moves) lateAck =
    true := by decide +kernel
  have hlaw := (leases_hold moves).1 _ _ (reach_runOps step lateAck (created moves))
  have hlimit := (leases_hold moves).2.2 false _ _ (reach_of_allAllowed lateAck hok) 1
  have hlate : ((runOps step (created moves) lateAck).2.handouts.map fun h => (h.seq,
    h.attempt)) = [(1, 1), (1, 2)] := by
    decide +kernel
  refine ⟨hlimit, by decide +kernel, (hlaw.2.2.1 0 ?_).1 .ack⟩
  generalize (runOps step (created moves) lateAck).2 = s at hlate
  obtain ⟨h₀, rest, hl, heq₀, hrest⟩ := List.map_eq_cons_iff.mp hlate
  obtain ⟨h₁, _, rfl, heq₁, -⟩ := List.map_eq_cons_iff.mp hrest
  simp only [Prod.mk.injEq] at heq₀ heq₁
  exact ⟨h₀, by rw [hl]; rfl, .inl ⟨1, h₁, by decide, by rw [hl]; rfl, heq₁.1.trans heq₀.1.symm⟩⟩

/-- A durable whose declared limit is no limit. -/
def unlimited : SubscriptionSpec := { moves with maxDeliver := -1 }

/-- A durable of single deliveries. -/
def single : SubscriptionSpec := { moves with maxDeliver := 1 }

/-- An ordered instance sees a delivery, an unordered one claims it, and the ordered one
updates what it saw. -/
def racedClaims : List Op :=
  [.begin_, .draw 0, .assign 0, .write 0 (moved [1]), .commit 0] ++ round ++
    [.look, .claim [], .claimOrdered]

/-- A delivery of a durable stored with max_deliver = -1 is handed out once; one of a
durable stored with max_deliver = 1 is handed out twice by instances of both kinds. -/
theorem limit_exceeded :
    (¬ ∀ (declared : SubscriptionSpec) h s,
      Reach step anyOp (created ((subscribe none declared).spec declared)) h s →
      ∀ q, ((tries s.handouts q).length : Int) ≤ (subscribe none declared).maxDeliver) ∧
      ¬ ∀ h s, Reach step anyOp (created single) h s →
        ∀ q, ((tries s.handouts q).length : Int) ≤ max 1 single.maxDeliver := by
  constructor <;> intro hall
  · have hr := reach_runOps step lateAck (created ((subscribe none unlimited).spec unlimited))
    exact absurd (hall unlimited _ _ hr 1) (by decide +kernel)
  · have hr := reach_runOps step racedClaims (created single)
    exact absurd (hall _ _ hr 1) (by decide +kernel)

end BeSdk.Events.Queue
