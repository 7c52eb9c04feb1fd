/-
BeSdk.Events.PipelineTheorems — no event is lost between the outbox and its handler.

A row is marked, and may be purged, when its message was acknowledged (`Forward.Sound`),
and an acknowledgement is the commit of a transaction that wrote the message or found one
with its ID. What it found is the event's own message: IDs are drawn once, and whatever
pass wrote it had the position that the committed numbering gave (`Carries`). From there
on the queue reads it once, and what the workers delete is safe or was purged.

* `no_event_lost`: the law of every run.
-/
import BeSdk.Events.Pipeline
import BeSdk.Events.ForwardTheorems
import BeSdk.Events.WorkersTheorems
import BeSdk.Events.CausationTheorems

namespace BeSdk.Events

open Audit (uuidText)

/-! ## The queue -/

namespace Queue

/-- What a step makes of the publishers. -/
inductive Publishes (q : State) (o : Op) : List Publisher → Prop
  | stay : Publishes q o q.publishers
  | begins (before : List Nat) : Publishes q o
      (q.publishers ++ [({ before := before } : Publisher)])
  | goes (t : Nat) (p p' : Publisher) : q.publishers[t]? = some p → p.stage = .running →
      p'.rows = p.rows → Publishes q o (q.publishers.set t p')
  | writes (t : Nat) (p p' : Publisher) (m : Row) : q.publishers[t]? = some p → p.stage = .running →
      o = .write t m.toMessage → p'.rows = p.rows ++ [m] → Publishes q o (q.publishers.set t p')

/-- A step of the queue changes its publishers by the step's own rule. -/
theorem step_publishes (q : State) (o : Op) : Publishes q o (step q o).1.publishers := by
  have hgoes : ∀ t go, (∀ p, (go p).rows = p.rows) → Publishes q o (q.publish t go).publishers := by
    intro t go hgo
    rcases publish_spec q t go with ⟨p, hp, hrun, -, heq⟩ | ⟨heq, -⟩ <;> rw [heq]
    · exact .goes t p _ hp hrun (hgo p)
    · exact .stay
  have hsame : (step q o).1.publishers = q.publishers →
    Publishes q o (step q o).1.publishers := fun h => h ▸ .stay
  cases o with
  | begin_ => exact .begins _
  | draw t | assign t | commit t | abort t => exact hgoes t _ fun _ => rfl
  | write t m =>
      simp only [step, State.write]
      rcases publish_spec q t (Publisher.write m) with ⟨p, hp, hrun, -, heq⟩ | ⟨heq, -⟩ <;> rw [heq]
      · unfold Publisher.write
        split
        · exact .writes t p _ _ hp hrun rfl rfl
        · exact .goes t p _ hp hrun rfl
      · exact .stay
  | lock | fetch =>
      refine hsame ?_
      simp only [step]
      split <;> rfl
  | advanced =>
      refine hsame ?_
      simp only [step, State.advanced]
      split
      · split <;> rfl
      · rfl
  | claim locked => exact hsame (take_quiet q _).1.publishers
  | look =>
      refine hsame ?_
      simp only [step, State.look]
      split <;> rfl
  | claimOrdered => exact hsame (claimOrdered_quiet q).1.publishers
  | settle k out => exact hsame (settle_quiet q k out).1.publishers
  | inProgress k => exact hsame (inProgress_quiet q k).publishers
  | rolledBack | dropGone | giveUp | purge | tick => exact hsame rfl

/-- A row of a publisher was there, or is written. -/
theorem rows_step {q : State} {o : Op} {p' : Publisher} (hp' : p' ∈ (step q o).1.publishers)
    {m : Row} (hm : m ∈ p'.rows) :
    (∃ p ∈ q.publishers, m ∈ p.rows) ∨ ∃ t, o = .write t m.toMessage := by
  have hpub := step_publishes q o
  generalize (step q o).1.publishers = ps at hpub hp'
  cases hpub with
  | stay => exact .inl ⟨p', hp', hm⟩
  | begins before =>
      rcases List.mem_append.mp hp' with hp' | hp'
      · exact .inl ⟨p', hp', hm⟩
      · rw [List.mem_singleton.mp hp'] at hm
        cases hm
  | goes t p r hp _ hrows =>
      rcases List.mem_or_eq_of_mem_set hp' with hp' | rfl
      · exact .inl ⟨p', hp', hm⟩
      · exact .inl ⟨p, List.mem_of_getElem? hp, hrows ▸ hm⟩
  | writes t p r x hp _ ho hrows =>
      rcases List.mem_or_eq_of_mem_set hp' with hp' | rfl
      · exact .inl ⟨p', hp', hm⟩
      · rw [hrows] at hm
        rcases List.mem_append.mp hm with hm | hm
        · exact .inl ⟨p, List.mem_of_getElem? hp, hm⟩
        · rw [List.mem_singleton.mp hm]
          exact .inr ⟨t, ho⟩

/-- A publisher keeps its rows. -/
theorem publisher_step {q : State} (o : Op) {t : Nat} {p : Publisher}
    (hp : q.publishers[t]? = some p) :
    ∃ p', (step q o).1.publishers[t]? = some p' ∧ p.rows ⊆ p'.rows := by
  have hpub := step_publishes q o
  generalize (step q o).1.publishers = ps at hpub
  have hset : ∀ u r r', q.publishers[u]? = some r → r.rows ⊆ r'.rows →
      ∃ p', (q.publishers.set u r')[t]? = some p' ∧ p.rows ⊆ p'.rows := by
    intro u r r' hr hsub
    by_cases hut : u = t
    · subst hut
      obtain rfl := Option.some.inj (hp.symm.trans hr)
      exact ⟨r', List.getElem?_set_self (List.getElem?_eq_some_iff.mp hp).1, hsub⟩
    · exact ⟨p, by rw [List.getElem?_set_ne hut, hp], fun _ => id⟩
  cases hpub with
  | stay => exact ⟨p, hp, fun _ => id⟩
  | begins before => exact ⟨p, getElem?_join hp, fun _ => id⟩
  | goes u r r' hr _ hrows => exact hset u r r' hr (hrows ▸ fun _ => id)
  | writes u r r' x hr _ _ hrows => exact hset u r r' hr (hrows ▸ List.subset_append_left ..)

/-- A message that is in the table, or that an open transaction has written. -/
def State.live (q : State) (m : Row) : Prop :=
  m ∈ q.messages ∨ ∃ p ∈ q.publishers, p.stage = .running ∧ m ∈ p.rows

/-- A message is of a publisher that is live. -/
theorem live_messages {q : State} {o : Op} {m : Row} (hm : m ∈ (step q o).1.messages) :
    q.live m := by
  have hmoves := step_moves q o
  generalize (step q o).1 = q', (step q o).2 = notes at hmoves hm
  cases hmoves with
  | begins | locks | fetches | looks | advances => exact .inl hm
  | publishes t go =>
      rcases publish_spec q t go with ⟨_, -, -, -, heq⟩ | ⟨heq, -⟩ <;> rw [heq] at hm <;>
        exact .inl hm
  | commits t =>
      rw [State.commit] at hm
      rcases publish_spec q t fun p => { p with stage := .committed } with ⟨p, hp, hrun,
        hrows, heq⟩ | ⟨heq, hrows⟩ <;>
        rw [hrows] at hm <;> rcases List.mem_append.mp hm with hm | hm
      · exact .inl hm
      · exact .inr ⟨p, List.mem_of_getElem? hp, hrun, hm⟩
      · exact .inl hm
      · cases hm
  | quiet _ _ hq _ => exact .inl (hq.messages.subset hm)

/-- A message becomes live by being written. -/
theorem live_step (q : State) (o : Op) :
    ∃ x : Option Row, (∀ r, x = some r → ∃ t, o = .write t r.toMessage) ∧
    ∀ m, (step q o).1.live m → q.live m ∨ x = some m := by
  have hpub := step_publishes q o
  have hmessages : ∀ m ∈ (step q o).1.messages, q.live m := fun m => live_messages
  unfold State.live at *
  generalize (step q o).1.messages = ms, (step q o).1.publishers = ps at hpub hmessages
  cases hpub with
  | stay => exact ⟨none, nofun, fun m hm => .inl (hm.elim (hmessages m) .inr)⟩
  | begins before =>
      refine ⟨none, nofun, fun m hm => .inl (hm.elim (hmessages m) fun ⟨p, hp, hrun, hrow⟩ => ?_)⟩
      rcases List.mem_append.mp hp with hp | hp
      · exact .inr ⟨p, hp, hrun, hrow⟩
      · rw [List.mem_singleton.mp hp] at hrow
        cases hrow
  | goes t p p' hp hprun hrows =>
      refine ⟨none, nofun, fun m hm => .inl
        (hm.elim (hmessages m) fun ⟨r, hr, hrun, hrow⟩ => .inr ?_)⟩
      rcases List.mem_or_eq_of_mem_set hr with hr | rfl
      · exact ⟨r, hr, hrun, hrow⟩
      · exact ⟨p, List.mem_of_getElem? hp, hprun, hrows ▸ hrow⟩
  | writes t p p' x hp hprun ho hrows =>
      refine ⟨some x, fun r hr => ⟨t, Option.some.inj hr ▸ ho⟩, fun m hm => ?_⟩
      rcases hm with hm | ⟨r, hr, hrun, hrow⟩
      · exact .inl (hmessages m hm)
      · rcases List.mem_or_eq_of_mem_set hr with hr | rfl
        · exact .inl (.inr ⟨r, hr, hrun, hrow⟩)
        · rw [hrows] at hrow
          rcases List.mem_append.mp hrow with hrow | hrow
          · exact .inl (.inr ⟨p, List.mem_of_getElem? hp, hprun, hrow⟩)
          · exact .inr (congrArg some (List.mem_singleton.mp hrow).symm)

/-- A delivery row stays, or its deletion is noted. -/
theorem delivery_step {q : State} (o : Op) {d : DeliveryRow} (hd : d ∈ q.deliveries) :
    d.seq ∈ (step q o).1.deliveries.map DeliveryRow.seq ∨ ∃ why, .deleted d.seq why ∈
    (step q o).2 := by
  have hdelete : ∀ (q : State) p why, d.seq ∈ q.deliveries.map DeliveryRow.seq →
      d.seq ∈ (q.deleteWhere p why).1.deliveries.map DeliveryRow.seq ∨ .deleted d.seq why ∈
      (q.deleteWhere p why).2 := by
    intro q p why hmem
    obtain ⟨e, he, heq⟩ := List.mem_map.mp hmem
    cases hp : p e with
    | true => exact .inr (List.mem_map.mpr ⟨e, List.mem_filter.mpr ⟨he, hp⟩, by rw [heq]⟩)
    | false => exact .inl (List.mem_map.mpr ⟨e, List.mem_filter.mpr ⟨he, by rw [hp]; rfl⟩, heq⟩)
  have hmem : d.seq ∈ q.deliveries.map DeliveryRow.seq := List.mem_map_of_mem hd
  have hsame : (step q o).1.deliveries.map DeliveryRow.seq = q.deliveries.map DeliveryRow.seq →
      d.seq ∈ (step q o).1.deliveries.map DeliveryRow.seq ∨ ∃ why, .deleted d.seq why ∈
      (step q o).2 := fun h => .inl (h ▸ hmem)
  have htake : ∀ (q : State) seq,
      (q.take seq).1.deliveries.map DeliveryRow.seq = q.deliveries.map DeliveryRow.seq := by
    intro q seq
    cases seq with
    | none => rfl
    | some seq => rw [take_deliveries, lease_seqs]
  have hupdate : ∀ p f, (∀ x : DeliveryRow, (f x).seq = x.seq) →
    d.seq ∈ (updateWhere p f q.deliveries).map DeliveryRow.seq := by
    intro p f hf
    rw [updateWhere_seqs hf]
    exact hmem
  cases o with
  | draw t | assign t | write t m | commit t | abort t =>
      refine hsame (congrArg (List.map _) ?_)
      simp only [step, State.draw, State.assign, State.write, State.commit, State.abort]
      rcases publish_spec q t _ with ⟨_, -, -, -, heq⟩ | ⟨heq, -⟩ <;> rw [heq]
  | begin_ | rolledBack | tick => exact hsame rfl
  | lock | fetch =>
      refine hsame ?_
      simp only [step]
      split <;> rfl
  | advanced =>
      left
      simp only [step, State.advanced]
      split
      · split
        · exact hmem
        · rw [List.map_append]
          exact List.mem_append_left _ hmem
      · exact hmem
  | claim locked => exact hsame (htake _ _)
  | look =>
      refine hsame ?_
      simp only [step, State.look]
      split <;> rfl
  | claimOrdered =>
      simp only [step, State.claimOrdered]
      split
      · next seen _ =>
        have htaken := (htake { q with holder := none } (some seen.seq)).symm ▸ hmem
        split
        · exact .inl htaken
        · rcases hdelete _ (fun d => d.under q.nextToken) .gone htaken with h | h
          · exact .inl h
          · exact .inr ⟨_, List.mem_append_left _ h⟩
      · exact .inl hmem
  | settle k out =>
      simp only [step, State.settle]
      split
      · exact .inl hmem
      · split
        · exact (hdelete _ _ _ hmem).imp_right fun h => ⟨_, h⟩
        · exact .inl (hupdate _ _ fun _ => rfl)
  | inProgress k =>
      simp only [step, State.inProgress]
      split
      · exact .inl hmem
      · exact .inl (hupdate _ _ fun _ => rfl)
  | dropGone token => exact (hdelete _ _ _ hmem).imp_right fun h => ⟨_, h⟩
  | giveUp => exact (hdelete _ _ _ hmem).imp_right fun h => ⟨_, h⟩
  | purge old => exact (hdelete _ _ _ hmem).imp_right fun h => ⟨_, h⟩

/-- A message that was queued has a delivery row, or its deletion was noted. -/
theorem queued_reach {ok : State → Op → Prop} {spec : SubscriptionSpec} {h : List (List Note)}
    {q : State} (hr : Reach step ok (created spec) h q) {seq : Nat} (hq : .queued seq ∈ h.flatten) :
    seq ∈ q.deliveries.map DeliveryRow.seq ∨ ∃ why, .deleted seq why ∈ h.flatten := by
  induction hr with
  | nil => cases hq
  | @snoc h q o _ hr ih =>
      rw [List.flatten_cons] at hq ⊢
      rcases List.mem_append.mp hq with hq | hq
      · -- queued now
        have hmoves := step_moves q o
        generalize (step q o).1 = q', (step q o).2 = notes at hmoves hq
        cases hmoves with
        | begins | publishes | commits | locks | fetches | looks => cases hq
        | advances a rows last queued hadv hrows hlast hqueued =>
            rcases List.mem_append.mp hq with hq | hq
            · simp at hq
            · obtain ⟨m, hm, heq⟩ := List.mem_map.mp hq
              refine .inl ?_
              rw [List.map_append, List.mem_append]
              right
              simp only [List.map_map, List.mem_map]
              exact ⟨m, hm, Note.queued.inj heq⟩
        | quiet _ _ _ hquiet => exact absurd (hquiet _ hq) (by simp [Note.queueing])
      · rcases ih hq with hmem | ⟨why, hdel⟩
        · obtain ⟨d, hd, rfl⟩ := List.mem_map.mp hmem
          rcases delivery_step o hd with hd | ⟨why, hdel⟩
          · exact .inl hd
          · exact .inr ⟨why, List.mem_append_left _ hdel⟩
        · exact .inr ⟨why, List.mem_append_right _ hdel⟩

end Queue

/-! ## The workers -/

namespace Workers

variable [Interp]

/-- A step of the workers that is one of the queue. -/
inductive Acts (s : State) : Op → Queue.Op → Prop
  | queue (b : Queue.Op) : settles b = false → Acts s (.queue b) b
  | settle (i k : Nat) (r : Consumer.Run) (out : Outcome) : s.consumer.runs[i]? = some r →
      r.phase = .answered out → s.held[i]? = some k → Acts s (.settle i) (.settle k out)

omit [Interp] in
theorem Acts.write {s : State} {o : Op} {t : Nat} {m : Message} (h : Acts s o (.write t m)) :
    o = .queue (.write t m) := by
  cases h
  rfl

/-- A worker's step does one thing in the queue, or none. -/
theorem queue_step (s : State) (o : Op) : ((step s o).1.queue = s.queue ∧ (step s o).2 = []) ∨
    ∃ b, Acts s o b ∧ (step s o).1.queue = (Queue.step s.queue b).1 ∧
    (step s o).2 = (Queue.step s.queue b).2 := by
  cases o with
  | queue b =>
      simp only [step]
      split
      · exact .inl ⟨rfl, rfl⟩
      · next h => exact .inr ⟨b, .queue b (by simpa using h), rfl, rfl⟩
  | call o =>
      simp only [step]
      split <;> exact .inl ⟨rfl, rfl⟩
  | handle k limit =>
      simp only [step]
      split <;> exact .inl ⟨rfl, rfl⟩
  | settle i =>
      simp only [step]
      split
      · next d limit out k hr hk => exact .inr ⟨.settle k out, .settle i k _ out hr rfl hk,
          rfl, rfl⟩
      · exact .inl ⟨rfl, rfl⟩

/-- The inbox and the dead letters only grow. -/
theorem consumer_step (s : State) (o : Op) : s.consumer.inbox ⊆ (step s o).1.consumer.inbox ∧
    s.consumer.dead ⊆ (step s o).1.consumer.dead := by
  cases o with
  | queue b =>
      simp only [step]
      split <;> exact ⟨fun _ => id, fun _ => id⟩
  | call o =>
      simp only [step]
      split
      · exact ⟨fun _ => id, fun _ => id⟩
      · exact Consumer.tables_step s.consumer o
  | handle k limit =>
      simp only [step]
      split <;> exact ⟨fun _ => id, fun _ => id⟩
  | settle i =>
      simp only [step]
      split <;> exact ⟨fun _ => id, fun _ => id⟩

/-- The queue alone, with the notes of the run. -/
theorem queue_run {ok : State → Op → Prop} {spec : SubscriptionSpec}
    {h : List (List Queue.Note)} {s : State} (hr : Reach step ok (created spec) h s) :
    ∃ hq, Reach Queue.step anyOp (Queue.created spec) hq s.queue ∧ hq.flatten = h.flatten := by
  induction hr with
  | nil => exact ⟨[], .nil, rfl⟩
  | @snoc h s o _ _ ih =>
      obtain ⟨hq, hreach, hnotes⟩ := ih
      rcases queue_step s o with ⟨hqueue, hnone⟩ | ⟨b, -, hqueue, hstep⟩
      · exact ⟨hq, by rwa [hqueue], by rw [List.flatten_cons, hnone, hnotes, List.nil_append]⟩
      · refine ⟨(Queue.step s.queue b).2 :: hq, ?_, ?_⟩
        · rw [hqueue]
          exact hreach.snoc b trivial
        · rw [List.flatten_cons, List.flatten_cons, hstep, hnotes]

/-- What became of a message whose delivery row was deleted. -/
def Kept (s : State) (q : Nat) : Prop :=
  ∃ m ∈ s.queue.committed, m.seq = q ∧
    (safe s.consumer m.toMessage = true ∨ q ∉ s.queue.messages.map Queue.Row.seq)

/-- A prudent step deletes the rows of safe and of purged messages. -/
theorem kept_of_deleted {spec : SubscriptionSpec} {h : List (List Queue.Note)} {s : State}
    (hr : Reach step (fun s o => prudent s o = true) (created spec) h s)
    {o : Op} (hok : prudent s o = true) {q : Nat} {why : Queue.Reason}
    (hdel : .deleted q why ∈ (step s o).2) : Kept (step s o).1 q := by
  obtain ⟨hq, hreach⟩ := queue_reach hr
  have hsound := Queue.sound_reach hreach
  have hleases := Queue.leases_reach hreach
  rcases queue_step s o with ⟨-, hnone⟩ | ⟨b, hacts, hqueue, hnotes⟩
  · rw [hnone] at hdel
    cases hdel
  rw [hnotes] at hdel
  obtain ⟨d, hd, rfl, hwhy⟩ := Queue.deleted_spec hleases hdel
  obtain ⟨m, hm, hseq, -⟩ := hsound.considered.known d.seq
    (hsound.considered.queued d.seq (hsound.considered.deliveries d hd))
  have hcommitted : m ∈ (step s o).1.queue.committed := hqueue ▸ Queue.committed_step b hm
  by_cases hgone : d.seq ∈ (step s o).1.queue.messages.map Queue.Row.seq
  · -- the message is there, so the event is safe
    refine ⟨m, hcommitted, hseq, .inl ?_⟩
    obtain ⟨hinbox, hdead⟩ := consumer_step s o
    refine safe_mono hinbox hdead ?_
    rcases hwhy with ⟨k, out, x, rfl, hx, hunder, hlimit⟩ | ⟨rfl, hexpired, hlimit⟩ | hpurged
    · cases hacts with
      | queue _ hnot => cases hnot
      | settle i k r out hrun hphase hk =>
          obtain ⟨n, hn, hnseq, hcarries⟩ := Queue.carries_reach hreach x (List.mem_of_getElem? hx)
          have hsafe := settled_safe (callsSafe_reach hr) hrun hphase hk hx (by rw [hcarries])
            hlimit
          have hrow : x.seq = d.seq := ((hleases.rows d hd).held x (List.mem_of_getElem? hx)
            hunder).1
          rw [hcarries] at hsafe
          rwa [hsound.numbers.unique hm hn (hseq.trans (hrow.symm.trans hnseq.symm))]
    · cases hacts with
      | queue _ _ =>
          -- the sweep was prudent
          have hall := List.all_eq_true.mp hok d hd
          rw [hexpired, decide_eq_true hlimit, Bool.and_self, Bool.not_true, Bool.false_or,
            Bool.or_eq_true] at hall
          rcases hall with hanswered | hnone
          · obtain ⟨n, hn, hnseq, hsafe⟩ :=
              answered_safe (callsSafe_reach hr) hleases (Queue.carries_reach hreach) hd
                hlimit hanswered
            rwa [hsound.numbers.unique hm hn (hseq.trans hnseq.symm)]
          · obtain ⟨n, hn, hnseq⟩ := List.mem_map.mp (hqueue ▸ hgone)
            exact absurd hnseq (of_decide_eq_true (List.all_eq_true.mp hnone n hn))
    · exact absurd (hqueue ▸ hgone) hpurged
  · exact ⟨m, hcommitted, hseq, .inr hgone⟩

/-- In a prudent run, a message whose delivery row was ever deleted is safe or purged. -/
theorem deleted_reach {spec : SubscriptionSpec} {h : List (List Queue.Note)} {s : State}
    (hr : Reach step (fun s o => prudent s o = true) (created spec) h s)
    {q : Nat} {why : Queue.Reason} (hdel : .deleted q why ∈ h.flatten) : Kept s q := by
  have hqueued : ∀ {h : List (List Queue.Note)} {s : State}, Reach step
    (fun s o => prudent s o = true) (created spec) h s →
      .deleted q why ∈ h.flatten → .queued q ∈ h.flatten ∧ Kept s q := by
    intro h s hr
    induction hr with
    | nil => nofun
    | @snoc h s o hok hr ih =>
        intro hdel
        obtain ⟨hq, hreach, hflat⟩ := queue_run hr
        have hsound := Queue.sound_reach hreach
        rw [List.flatten_cons] at hdel ⊢
        rcases List.mem_append.mp hdel with hdel | hdel
        · refine ⟨List.mem_append_right _ ?_, kept_of_deleted hr hok hdel⟩
          rcases queue_step s o with ⟨-, hnone⟩ | ⟨b, -, -, hnotes⟩
          · rw [hnone] at hdel
            cases hdel
          · obtain ⟨d, hd, rfl, -⟩ := Queue.deleted_spec (Queue.leases_reach hreach) (hnotes ▸ hdel)
            exact hflat ▸ hsound.considered.deliveries d hd
        · obtain ⟨hin, m, hm, hseq, hkept⟩ := ih hdel
          refine ⟨List.mem_append_right _ hin, ?_⟩
          rcases queue_step s o with ⟨hqueue, -⟩ | ⟨b, -, hqueue, -⟩
          · refine ⟨m, hqueue ▸ hm, hseq, ?_⟩
            rw [hqueue]
            exact hkept.imp_left (safe_mono (consumer_step s o).1 (consumer_step s o).2)
          · refine ⟨m, hqueue ▸ Queue.committed_step b hm, hseq, ?_⟩
            rcases hkept with hsafe | hgone
            · exact .inl (safe_mono (consumer_step s o).1 (consumer_step s o).2 hsafe)
            · refine .inr fun hmem => hgone ?_
              rw [hqueue] at hmem
              exact hsound.considered.gone (Queue.step_moves s.queue b) hsound.numbers
                hsound.horizon (hflat ▸ hin) hmem
  exact (hqueued hr hdel).2

end Workers

/-! ## The passes -/

namespace Forward

open Outbox (Place Numbering Placed Work)

/-- A row that has its place keeps it. -/
theorem given_mono {notes : List Note} (new : List Note)
    {o : Nat} {p : Place} (h : Placed (given notes) o p) :
    Placed (given (new ++ notes)) o p := by
  obtain ⟨n, hn, hrow⟩ := h
  refine ⟨n, ?_, hrow⟩
  rw [given, boxNotes, List.filterMap_append, Outbox.numberings, List.filterMap_append]
  exact List.mem_append_right _ hn

/-- A numbering whose commit is noted is given. -/
theorem mem_given {notes : List Note} {n : Numbering} (h : .box (.numbering n) ∈ notes) :
    n ∈ given notes :=
  List.mem_filterMap.mpr ⟨.numbering n, List.mem_filterMap.mpr ⟨_, h, rfl⟩, rfl⟩

/-- A row that a numbering transaction read at a position: it has that position, or the
transaction will give it, or is aborted. -/
def Read (ns : List Numbering) (box : Outbox.State) (i o : Nat) (p : Place) : Prop :=
  Placed ns o p ∨ (∃ b w, box.numberers[i]? = some ⟨b, .counted w⟩ ∧ w.now = p.epoch ∧
    (o, p.seq) ∈ w.rows) ∨ ∃ b, box.numberers[i]? = some ⟨b, .aborted⟩

/-- Another numberer's place in the list, or the same one. -/
theorem Read.set {ns : List Numbering} {box box' : Outbox.State} {i o : Nat} {p : Place}
    (h : Read ns box i o p) {j : Nat} (n' : Outbox.Numberer)
    (hset : box'.numberers = box.numberers.set j n') (hsame : j = i → Read ns box' i o p) :
    Read ns box' i o p := by
  by_cases hji : j = i
  · exact hsame hji
  · refine h.imp_right fun h => ?_
    rwa [hset, List.getElem?_set_ne hji]

/-- What a forwarder read stays read. -/
theorem Read.step {notes : List Note} {s : State} {i o : Nat} {p : Place}
    (h : Read (given notes) s.box i o p) (op : Op) :
    Read (given ((Forward.step s op).2 ++ notes)) (Forward.step s op).1.box i o p := by
  rcases step_box s op with ⟨b, hbox, hnotes⟩ | ⟨hbox, -⟩
  · rw [hbox]
    have hgrown : Read (given ((Forward.step s op).2 ++ notes)) s.box i o p :=
      h.imp_left (given_mono _)
    generalize (Forward.step s op).2 = new at hnotes hgrown ⊢
    have hgoes := Outbox.step_goes s.box b
    generalize (Outbox.step s.box b).1 = box', (Outbox.step s.box b).2 = boxNew at hgoes hnotes ⊢
    cases hgoes with
    | stays | emits | commits | drops | publishes | purges | moves => exact hgrown
    | begins =>
        refine hgrown.imp_right fun h => ?_
        rcases h with ⟨b, w, hn, hw⟩ | ⟨b, hn⟩
        · exact .inl ⟨b, w, getElem?_join hn, hw⟩
        · exact .inr ⟨b, getElem?_join hn⟩
    | turns j n n' hj hturn =>
        refine hgrown.set n' rfl fun hji => ?_
        subst hji
        have hself : (s.box.to_ j n').numberers[j]? = some n' :=
          List.getElem?_set_self (List.getElem?_eq_some_iff.mp hj).1
        rcases hgrown with hplaced | ⟨b, w, hn, -⟩ | ⟨b, hn⟩
        · exact .inl hplaced
        all_goals
          obtain rfl := Option.some.inj (hj.symm.trans hn)
          cases hturn with
          | aborts _ => exact .inr (.inr ⟨b, hself⟩)
    | creates j hj =>
        refine hgrown.set _ rfl fun hji => ?_
        subst hji
        rcases hgrown with hplaced | ⟨b, w, hn, -⟩ | ⟨b, hn⟩
        · exact .inl hplaced
        · cases hj.symm.trans hn
        · cases hj.symm.trans hn
    | numbers j b w hj =>
        refine hgrown.set _ rfl fun hji => ?_
        subst hji
        rcases hgrown with hplaced | ⟨b', w', hn, hepoch, hrow⟩ | ⟨b', hn⟩
        · exact .inl hplaced
        · cases hj.symm.trans hn
          exact .inl
            ⟨_, mem_given (List.mem_append_left _ ((hnotes _).mpr List.mem_cons_self)),
              hepoch, hrow⟩
        · cases hj.symm.trans hn
  · rw [hbox]
    exact h.imp_left (given_mono _)

/-- What a committed transaction read is given. -/
theorem Read.placed {ns : List Numbering} {box : Outbox.State} {i o : Nat} {p : Place}
    (h : Read ns box i o p) (hcommitted : committed box i = true) : Placed ns o p := by
  unfold committed at hcommitted
  split at hcommitted
  · next b hn =>
    rcases h with hplaced | ⟨b', w, hn', -⟩ | ⟨b', hn'⟩
    · exact hplaced
    · cases hn.symm.trans hn'
    · cases hn.symm.trans hn'
  · cases hcommitted

/-- What a transaction reads. -/
theorem Read.counted {notes : List Note} {s : State} (hs : Sound notes s) {i : Nat} {w : Work}
    (hw : counted s.box i = some w) {r : Outbox.Row} (hr : r ∈ (s.box.apply w).rows)
    {p : Place} {o : Nat} (hwaiting : waiting r = some (p, o)) :
    Read (given notes) s.box i o p := by
  obtain ⟨b, hn⟩ := counted_eq hw
  obtain ⟨os, hok⟩ := (hs.box.locks.ok _ (List.mem_of_getElem? hn)).phase
  unfold waiting at hwaiting
  split at hwaiting
  · cases hwaiting
  · obtain ⟨q, hq, heq⟩ := Option.map_eq_some_iff.mp hwaiting
    obtain ⟨rfl, rfl⟩ := Prod.mk.inj heq
    rcases placed_cons.mp (((hs.box.rows.number hok i).placed r hr q).mp hq) with ⟨hepoch,
      hrow⟩ | hplaced
    · exact .inr (.inl ⟨b, w, hn, hepoch, hrow⟩)
    · exact .inl hplaced

/-- Only `emit` draws an `ord`. -/
theorem nextOrd_step (s : State) (o : Op) : (Forward.step s o).1.box.nextOrd = s.box.nextOrd ∨
    (∃ t, o = .box (.emit t)) ∧ (Forward.step s o).1.box.nextOrd = s.box.nextOrd + 1 := by
  cases o with
  | pass | crash => exact .inl rfl
  | box o =>
      cases o with
      | emit t => exact .inr ⟨⟨t, rfl⟩, rfl⟩
      | emitted | dropped | begin_ | published | purge | moves => exact .inl rfl
      | insert | lock | read | fork | number | count | commit | abort =>
          left
          simp only [Forward.step, Outbox.step]
          repeat' split
          all_goals rfl
  | begin_ k | select k batch | receive k | publish k a b | fail k | mark k =>
      left
      simp only [Forward.step]
      repeat' split
      all_goals rfl

/-- Only an acknowledgement acknowledges. -/
theorem acked_step (s : State) (op : Op) {k o : Nat} (h : .taken k o true ∈ (Forward.step s op).2) :
    op = .publish k true true ∧ ∃ rest done, s.passes[k]? =
    some (.publishing (o :: rest) done) := by
  cases op with
  | pass | crash => simp [Forward.step] at h
  | box o =>
      cases o with
      | published => simp [Forward.step] at h
      | emit | emitted | dropped | begin_ | insert | lock | read | fork | number | count
          | commit | abort | purge | moves =>
          simp [Forward.step] at h
  | begin_ j | select j batch | receive j | fail j | mark j =>
      simp only [Forward.step] at h
      repeat' split at h
      all_goals cases h
  | publish j a b =>
      simp only [Forward.step] at h
      split at h
      · next o' rest done hj =>
        split at h
        · next ha =>
          split at h
          · next hb =>
            obtain ⟨rfl, rfl, -⟩ := Note.taken.inj (List.mem_singleton.mp h)
            exact ⟨by rw [ha, hb], rest, done, hj⟩
          · simp at h
        · cases h
      · cases h
      · cases h

/-- A row of the table stays there, or its message was acknowledged. -/
theorem row_or_acked {h h' : List (List Note)} {s s' : State}
    (hr : Reach Forward.step anyOp start h s) (hr' : Reach Forward.step anyOp s h' s')
    {r : Outbox.Row} (hrow : r ∈ s.box.rows) :
    (∃ r' ∈ s'.box.rows, r'.ord = r.ord) ∨ Acked (h' ++ h).flatten r.ord := by
  induction hr' with
  | nil => exact .inl ⟨r, hrow, rfl⟩
  | @snoc h' s' o _ hr' ih =>
      rcases ih with ⟨r', hmem, heq⟩ | hacked
      · rcases step_box s' o with ⟨b, hbox, hnotes⟩ | ⟨hbox, -⟩
        · rw [hbox]
          rcases row_stays s'.box b hmem with ⟨r'', hmem', heq'⟩ | hpurged
          · exact .inl ⟨r'', hmem', heq'.trans heq⟩
          · have hs := (sound_reach (hr.trans hr')).step o
            have hnote : .purged r.ord ∈ boxNotes ((Forward.step s' o).2 ++ (h' ++ h).flatten) :=
              List.mem_filterMap.mpr ⟨_, List.mem_append_left _
                ((hnotes _).mpr (heq ▸ hpurged)), rfl⟩
            exact .inr (hs.purged _ hnote)
        · exact .inl ⟨r', hbox ▸ hmem, heq⟩
      · exact .inr (hacked.mono _)

end Forward

/-! ## The whole way -/

namespace Pipeline

open Outbox (Place Numbering Placed)
open Forward (given Acked Read)

/-- A message has its event's ID. -/
theorem Content.message_id {c : Content} {o : Nat} {p : Place} {put : Option Put} {impl : Str}
    {m : Message} (h : c.message o p put impl = some m) : m.id = c.id o := by
  unfold Content.message at h
  split at h
  · obtain ⟨claim, hheaders⟩ := Row.message_headers h
    rw [Message.id, hheaders]
    exact congrArg (Option.getD · []) (get?_headers (by simp [Row.own, hId]))
  · cases h

/-- A message is that of a row, at the position that was given to it. -/
def Carries (c : Content) (ns : List Numbering) (o : Nat) (m : Message) : Prop :=
  ∃ p, Placed ns o p ∧ ∃ put impl, c.message o p put impl = some m

/-- The steps of the passes. -/
def ofForward : Note → Option (List Forward.Note)
  | .forward notes => some notes
  | .workers _ | .between => none

/-- The steps of the workers. -/
def ofWorkers : Note → Option (List Queue.Note)
  | .workers notes => some notes
  | .forward _ | .between => none

/-- What the passes noted. -/
def told (h : List Note) : List Forward.Note := (h.filterMap ofForward).flatten

section
variable [Interp]

/-- What a step can do. -/
inductive Moves (c : Content) (s : State) : Op → State → Note → Prop
  | stays (o : Op) : Moves c s o s .between
  | forwards (o : Forward.Op) : acknowledges o = false → Moves c s (.forward o)
      { s with forward := (Forward.step s.forward o).1, reads := reading s.forward o ++ s.reads,
               batches := s.receiving o ++ s.batches } (.forward (Forward.step s.forward o).2)
  | works (o : Workers.Op) : s.own o = false →
      Moves c s (.workers o) { s with workers := (Workers.step s.workers o).1 }
      (.workers (Workers.step s.workers o).2)
  | sends (k o : Nat) (rest done : List Nat) : s.forward.passes[k]? =
      some (.publishing (o :: rest) done) → Moves c s (.send k)
        { s with workers := (Workers.step s.workers (.queue .begin_)).1
                 sends := s.sends ++ [⟨k, o, s.workers.queue.publishers.length, false⟩] }
        (.workers (Workers.step s.workers (.queue .begin_)).2)
  | finds (j k o t : Nat) (p : Place) (put : Option Put) (impl : Str) (m : Message) :
      s.sends[j]? = some ⟨k, o, t, false⟩ → s.place k o = some p → c.message o p put impl = some m →
      taken s.workers.queue m.id = true → Moves c s (.insert j put impl) (s.through j) .between
  | writes (j k o t : Nat) (p : Place) (put : Option Put) (impl : Str) (m : Message) :
      s.sends[j]? = some ⟨k, o, t, false⟩ → s.place k o = some p → c.message o p put impl = some m →
      writable s.workers.queue t = true → taken s.workers.queue m.id = false →
      contested s.workers.queue m.id = false →
      Moves c s (.insert j put impl)
        ({ s with workers := (Workers.step s.workers (.queue (.write t m))).1 }.through j)
        (.workers (Workers.step s.workers (.queue (.write t m))).2)
  | returns (j k o t : Nat) (rest done : List Nat) (pub : Queue.Publisher) :
      s.sends[j]? = some ⟨k, o, t, true⟩ → s.forward.passes[k]? =
      some (.publishing (o :: rest) done) → s.workers.queue.publishers[t]? = some pub →
      pub.stage = .committed → Moves c s (.acknowledge j)
      { s with forward := (Forward.step s.forward (.publish k true true)).1 }
        (.forward (Forward.step s.forward (.publish k true true)).2)

/-- Every step makes one of the moves. -/
theorem step_moves (c : Content) (s : State) (o : Op) :
    Moves c s o (step c s o).1 (step c s o).2 := by
  cases o with
  | forward o =>
      simp only [step]
      split
      · exact .stays _
      · next h => exact .forwards o (by simpa using h)
  | workers o =>
      simp only [step]
      split
      · exact .stays _
      · next h => exact .works o (by simpa using h)
  | send k =>
      simp only [step]
      split
      · next o rest done hk => exact .sends k o rest done hk
      · exact .stays _
  | insert j put impl =>
      simp only [step]
      split
      · next k o t hj =>
        split
        · next m hm =>
          obtain ⟨p, hp, hm⟩ := Option.bind_eq_some_iff.mp hm
          unfold State.insert
          split
          · exact .stays _
          · next hwritable =>
            split
            · next htaken => exact .finds j k o t p put impl m hj hp hm htaken
            · next htaken =>
              split
              · exact .stays _
              · next hcontested =>
                exact .writes j k o t p put impl m hj hp hm (by simpa using (not_or.mp hwritable).2)
                  (by simpa using htaken) (by simpa using hcontested)
        · exact .stays _
      · exact .stays _
  | acknowledge j =>
      simp only [step]
      split
      · next k o t hj =>
        split
        · next o' rest done xid drawn rows before hk ht =>
          split
          · next heq =>
            subst heq
            exact .returns j k _ t rest done _ hj hk ht rfl
          · exact .stays _
        · exact .stays _
      · exact .stays _

/-! ### The parts -/

/-- A run of the whole is a run of the forwarder. -/
theorem forward_reach {c : Content} {ok : State → Op → Prop} {h : List Note} {s s' : State}
    (hr : Reach (step c) ok s h s') :
    Reach Forward.step anyOp s.forward (h.filterMap ofForward) s'.forward := by
  refine hr.project State.forward ofForward fun s o _ => ?_
  have hmoves := step_moves c s o
  generalize (step c s o).1 = s', (step c s o).2 = n at hmoves
  cases hmoves with
  | stays | works | sends | finds | writes => exact .inl ⟨rfl, rfl⟩
  | forwards o => exact .inr ⟨o, trivial, rfl, rfl⟩
  | returns j k => exact .inr ⟨.publish k true true, trivial, rfl, rfl⟩

/-- A proper step is prudent in the workers. -/
theorem prudent_of_proper {c : Content} {s : State} {o : Workers.Op}
    (h : proper c s (.workers o) = true) : Workers.prudent s.workers o = true := by
  unfold proper at h
  split at h
  · next heq => cases heq
  · next heq =>
    cases heq
    rfl
  · next heq =>
    cases heq
    exact h
  all_goals next heq => cases heq

/-- A proper run of the whole is a prudent run of the workers. -/
theorem workers_reach {c : Content} {spec : SubscriptionSpec} {h : List Note} {s : State}
    (hr : Reach (step c) (fun s o => proper c s o = true) (created spec) h s) :
    Reach Workers.step (fun s o => Workers.prudent s o = true) (Workers.created spec)
    (h.filterMap ofWorkers) s.workers := by
  refine hr.project State.workers ofWorkers fun s o hok => ?_
  have hmoves := step_moves c s o
  generalize (step c s o).1 = s', (step c s o).2 = n at hmoves
  cases hmoves with
  | stays | forwards | finds | returns => exact .inl ⟨rfl, rfl⟩
  | works o => exact .inr ⟨o, prudent_of_proper hok, rfl, rfl⟩
  | sends => exact .inr ⟨.queue .begin_, rfl, rfl, rfl⟩
  | writes j k o t p put impl m => exact .inr ⟨.queue (.write t m), rfl, rfl, rfl⟩

end

/-! ### The invariant -/

/-- A message under this ID is committed, or this transaction has written it. -/
def Written (q : Queue.State) (t : Nat) (id : Str) : Prop :=
  (∃ m ∈ q.committed, m.id = id) ∨ ∃ p, q.publishers[t]? = some p ∧ ∃ m ∈ p.rows, m.id = id

/-- A message that was written stays written. -/
theorem Written.step {q : Queue.State} {t : Nat} {id : Str} (h : Written q t id) (o : Queue.Op) :
    Written (Queue.step q o).1 t id := by
  rcases h with ⟨m, hm, hid⟩ | ⟨p, hp, m, hm, hid⟩
  · exact .inl ⟨m, Queue.committed_step o hm, hid⟩
  · obtain ⟨p', hp', hrows⟩ := Queue.publisher_step o hp
    exact .inr ⟨p', hp', m, hrows hm, hid⟩

/-- A writable transaction writes its message. -/
theorem written_of_writable {q : Queue.State} {t : Nat} (h : writable q t = true) (m : Message) :
    Written (Queue.step q (.write t m)).1 t m.id := by
  obtain ⟨p, hp, hok⟩ := (Option.any_eq_true ..).mp h
  rw [Bool.and_eq_true, Bool.and_eq_true, decide_eq_true_iff] at hok
  obtain ⟨⟨hrun, hxid⟩, hdrawn⟩ := hok
  obtain ⟨x, hx⟩ := Option.isSome_iff_exists.mp hxid
  obtain ⟨n, hn⟩ := Option.isSome_iff_exists.mp hdrawn
  refine .inr ⟨p.write m, ?_, { m with seq := n, xid := x, before := p.before }, ?_, rfl⟩
  · simp only [Queue.step, Queue.State.write, Queue.State.publish, hp, if_pos hrun]
    exact List.getElem?_set_self (List.getElem?_eq_some_iff.mp hp).1
  · simp [Queue.Publisher.write, hx, hn]

/-- What a run keeps. -/
structure Sound (c : Content) (h : List Note) (s : State) : Prop where
  reads : ∀ x ∈ s.reads, Read (given (told h)) s.forward.box x.1 x.2.1 x.2.2
  batches : ∀ x ∈ s.batches, Placed (given (told h)) x.2.1 x.2.2
  drawn : ∀ o < s.forward.box.nextOrd, ∀ o' < s.forward.box.nextOrd, c.id o = c.id o' → o = o'
  rows : ∀ p ∈ s.workers.queue.publishers, ∀ m ∈ p.rows, ∀ o < s.forward.box.nextOrd, m.id =
    c.id o → Carries c (given (told h)) o m.toMessage
  once : ∀ o < s.forward.box.nextOrd, ∀ m m', s.workers.queue.live m →
    s.workers.queue.live m' → m.id = c.id o → m'.id = c.id o → m = m'
  sends : ∀ x ∈ s.sends, x.inserted = true → Written s.workers.queue x.tx (c.id x.ord)
  acked : ∀ o, Acked (told h) o → ∃ m ∈ s.workers.queue.committed, m.id = c.id o

theorem Carries.mono {c : Content} {notes : List Forward.Note} {o : Nat} {m : Message}
    (h : Carries c (given notes) o m) (new : List Forward.Note) :
    Carries c (given (new ++ notes)) o m :=
  h.imp fun _ hp => hp.imp_left (Forward.given_mono new)

/-- What is live is in the rows of a publisher. -/
theorem row_of_live {q : Queue.State} (hn : Queue.Numbers q) {m : Queue.Row} (hm : q.live m) :
    ∃ p ∈ q.publishers, m ∈ p.rows := by
  rcases hm with hm | ⟨p, hp, -, hm⟩
  · obtain ⟨t, p, hp, -, hm⟩ := Queue.mem_committed.mp (hn.messages m hm)
    exact ⟨p, List.mem_of_getElem? hp, hm⟩
  · exact ⟨p, hp, hm⟩

/-- A row's place is that of its batch. -/
theorem place_mem {s : State} {k o : Nat} {p : Place} (h : s.place k o = some p) :
    (k, o, p) ∈ s.batches := by
  obtain ⟨x, hx, rfl⟩ := Option.map_eq_some_iff.mp h
  have hp := List.find?_some hx
  rw [Bool.and_eq_true, decide_eq_true_iff, decide_eq_true_iff] at hp
  obtain ⟨rfl, rfl⟩ := hp
  exact List.mem_of_find?_eq_some hx

/-- The rows of a batch are read at their positions. -/
theorem read_of_reading {notes : List Forward.Note} {s : Forward.State}
    (hs : Forward.Sound notes s) {o : Forward.Op} {x : Nat × Nat × Place}
    (hx : x ∈ reading s o) : Read (given notes) s.box x.1 x.2.1 x.2.2 := by
  unfold reading at hx
  split at hx
  · split at hx
    · split at hx
      · next w hw =>
        split at hx
        · cases hx
        · obtain ⟨y, hy, rfl⟩ := List.mem_map.mp hx
          obtain ⟨r, hr, hwaiting⟩ := List.mem_filterMap.mp hy
          exact Read.counted hs hw hr hwaiting
      · cases hx
    · cases hx
  · cases hx

/-- What a pass goes on with has the position it was read at. -/
theorem placed_of_receiving {c : Content} {h : List Note} {s : State} (hs : Sound c h s)
    {o : Forward.Op} {x : Nat × Nat × Place} (hx : x ∈ s.receiving o) :
    Placed (given (told h)) x.2.1 x.2.2 := by
  unfold State.receiving at hx
  split at hx
  · split at hx
    · next i _ _ =>
      split at hx
      · next hcommitted =>
        obtain ⟨y, hy, rfl⟩ := List.mem_map.mp hx
        obtain ⟨hy, hi⟩ := List.mem_filter.mp hy
        exact (hs.reads y hy).placed ((of_decide_eq_true hi).symm ▸ hcommitted)
      · cases hx
    · cases hx
  · cases hx

/-- A pass or the tables go on. -/
theorem Sound.forward {c : Content} {h : List Note} {s : State} (hs : Sound c h s)
    (hf : Forward.Sound (told h) s.forward) (hn : Queue.Numbers s.workers.queue) (o : Forward.Op)
    (hacked : ∀ k ord, .taken k ord true ∈ (Forward.step s.forward o).2 →
      ∃ m ∈ s.workers.queue.committed, m.id = c.id ord)
    (hfresh : ∀ t, o = .box (.emit t) → s.fresh c s.forward.box.nextOrd = true) :
    Sound c (.forward (Forward.step s.forward o).2 :: h)
      { s with forward := (Forward.step s.forward o).1, reads := reading s.forward o ++ s.reads,
               batches := s.receiving o ++ s.batches } := by
  -- an `ord` drawn now has an ID of its own
  have hnext : ∀ ord < (Forward.step s.forward o).1.box.nextOrd, ord < s.forward.box.nextOrd ∨
      ((∀ o' < s.forward.box.nextOrd, c.id o' ≠ c.id ord) ∧ ord = s.forward.box.nextOrd ∧
        ∀ p ∈ s.workers.queue.publishers, ∀ m ∈ p.rows, m.id ≠ c.id ord) := by
    intro ord hlt
    rcases Forward.nextOrd_step s.forward o with heq | ⟨⟨t, ht⟩, heq⟩
    · exact .inl (heq ▸ hlt)
    · rw [heq] at hlt
      rcases Nat.lt_succ_iff_lt_or_eq.mp hlt with hlt | rfl
      · exact .inl hlt
      · have hall := hfresh t ht
        rw [State.fresh, Bool.and_eq_true, List.all_eq_true, List.all_eq_true] at hall
        refine .inr ⟨fun o' ho' => of_decide_eq_true (hall.1 o' (List.mem_range.mpr ho')),
          rfl, fun p hp m hm => ?_⟩
        exact of_decide_eq_true (List.all_eq_true.mp (hall.2 p hp) m hm)
  refine ⟨fun x hx => ?_, fun x hx => ?_, fun a ha b hb hab => ?_, fun p hp m hm ord hord hid => ?_,
    fun ord hord m m' hm hm' hid hid' => ?_, hs.sends, fun ord hord => ?_⟩
  · rcases List.mem_append.mp hx with hx | hx
    · exact (read_of_reading hf hx).step o
    · exact (hs.reads x hx).step o
  · rcases List.mem_append.mp hx with hx | hx
    · exact Forward.given_mono _ (placed_of_receiving hs hx)
    · exact Forward.given_mono _ (hs.batches x hx)
  · rcases hnext a ha with ha | ⟨ha, haeq, -⟩ <;> rcases hnext b hb with hb | ⟨hb, hbeq, -⟩
    · exact hs.drawn a ha b hb hab
    · exact absurd hab (hb a ha)
    · exact absurd hab.symm (ha b hb)
    · exact haeq.trans hbeq.symm
  · rcases hnext ord hord with hord | ⟨-, -, hnew⟩
    · exact (hs.rows p hp m hm ord hord hid).mono _
    · exact absurd hid (hnew p hp m hm)
  · rcases hnext ord hord with hord | ⟨-, -, hnew⟩
    · exact hs.once ord hord m m' hm hm' hid hid'
    · obtain ⟨p, hp, hrow⟩ := row_of_live hn hm
      exact absurd hid (hnew p hp m hrow)
  · obtain ⟨k, hk⟩ := hord
    rcases List.mem_append.mp hk with hk | hk
    · exact hacked k ord hk
    · exact hs.acked ord ⟨k, hk⟩

/-- The queue goes on, and what is written is under an ID that no message has. -/
theorem Sound.workers {c : Content} {h : List Note} {s : State} (hs : Sound c h s)
    (workers : Workers.State) (b : Queue.Op)
    (hqueue : workers.queue = (Queue.step s.workers.queue b).1)
    (hwrite : ∀ t m, b = .write t m → ∀ o < s.forward.box.nextOrd, m.id = c.id o →
      Carries c (given (told h)) o m ∧ ∀ m', s.workers.queue.live m' → m'.id ≠ c.id o)
      (notes : List Queue.Note) :
    Sound c (.workers notes :: h) { s with workers } := by
  refine ⟨hs.reads, hs.batches, hs.drawn, fun p hp m hm o ho hid => ?_,
    fun o ho m m' hm hm' hid hid' => ?_, fun x hx hin => ?_, fun o ho => ?_⟩
  · rw [hqueue] at hp
    rcases Queue.rows_step hp hm with ⟨p', hp', hm'⟩ | ⟨t, ht⟩
    · exact hs.rows p' hp' m hm' o ho hid
    · exact (hwrite t _ ht o ho hid).1
  · rw [hqueue] at hm hm'
    obtain ⟨x, hx, hlive⟩ := Queue.live_step s.workers.queue b
    have hnew : ∀ r, x = some r → r.id = c.id o → ∀ n, s.workers.queue.live n → n.id ≠ c.id o := by
      intro r hr hrid
      obtain ⟨t, ht⟩ := hx r hr
      exact (hwrite t _ ht o ho hrid).2
    rcases hlive m hm with hm | hm <;> rcases hlive m' hm' with hm' | hm'
    · exact hs.once o ho m m' hm hm' hid hid'
    · exact absurd hid (hnew m' hm' hid' m hm)
    · exact absurd hid' (hnew m hm hid m' hm')
    · exact Option.some.inj (hm.symm.trans hm')
  · rw [hqueue]
    exact (hs.sends x hx hin).step b
  · obtain ⟨m, hm, hid⟩ := hs.acked o ho
    exact ⟨m, hqueue ▸ Queue.committed_step b hm, hid⟩

/-- The `INSERT` of a call is through. -/
theorem Sound.through {c : Content} {h : List Note} {s : State} (hs : Sound c h s) {j k o t : Nat}
    (hj : s.sends[j]? = some ⟨k, o, t, false⟩)
    (hwritten : Written s.workers.queue t (c.id o)) : Sound c h (s.through j) := by
  refine ⟨hs.reads, hs.batches, hs.drawn, hs.rows, hs.once, fun x hx hin => ?_, hs.acked⟩
  obtain ⟨i, hi⟩ := List.mem_iff_getElem?.mp hx
  simp only [State.through, List.getElem?_modify] at hi
  obtain ⟨y, hy, rfl⟩ := Option.map_eq_some_iff.mp hi
  by_cases hji : j = i
  · subst hji
    obtain rfl := Option.some.inj (hj.symm.trans hy)
    rw [if_pos rfl]
    exact hwritten
  · rw [if_neg hji] at hin ⊢
    exact hs.sends y (List.mem_of_getElem? hy) hin

/-- A message that a call writes is that of its row, and of no other. -/
theorem Sound.carries {c : Content} {h : List Note} {s : State} (hs : Sound c h s)
    (hf : Forward.Sound (told h) s.forward) {k o : Nat} {p : Place}
    (hp : s.place k o = some p) {put : Option Put} {impl : Str} {m : Message}
    (hm : c.message o p put impl = some m) {o' : Nat} (ho' : o' < s.forward.box.nextOrd)
    (hid : m.id = c.id o') : Carries c (given (told h)) o' m := by
  have hplaced := hs.batches _ (place_mem hp)
  have hlt : o < s.forward.box.nextOrd := by
    obtain ⟨n, hn, -, hrow⟩ := hplaced
    exact hf.box.rows.drawn o (.inr (.inr (Outbox.mem_ords.mpr ⟨n, hn, p.seq, hrow⟩)))
  obtain rfl := hs.drawn o' ho' o hlt (hid.symm.trans (Content.message_id hm))
  exact ⟨p, hplaced, put, impl, hm⟩

section
variable [Interp]

/-- Every proper step keeps the pipeline sound. -/
theorem Sound.step {c : Content} {spec : SubscriptionSpec} {h : List Note} {s : State}
    (hr : Reach (step c) (fun s o => proper c s o = true) (created spec) h s)
    (hs : Sound c h s) {o : Op} (hok : proper c s o = true) :
    Sound c ((step c s o).2 :: h) (step c s o).1 := by
  have hf : Forward.Sound (told h) s.forward := Forward.sound_reach (forward_reach hr)
  obtain ⟨hq, hreach⟩ := Workers.queue_reach (workers_reach hr)
  have hn := (Queue.sound_reach hreach).numbers
  have hmoves := step_moves c s o
  generalize (Pipeline.step c s o).1 = s', (Pipeline.step c s o).2 = n at hmoves
  cases hmoves with
  | stays => exact ⟨hs.reads, hs.batches, hs.drawn, hs.rows, hs.once, hs.sends, hs.acked⟩
  | forwards o hno =>
      refine hs.forward hf hn o (fun k ord hk => ?_) fun t ht => ?_
      · obtain ⟨rfl, -⟩ := Forward.acked_step s.forward o hk
        cases hno
      · subst ht
        exact hok
  | returns j k o t rest done pub hj hk hpub hstage =>
      refine hs.forward hf hn (.publish k true true) (fun k' ord hk' => ?_) nofun
      obtain ⟨heq, rest', done', hpass⟩ := Forward.acked_step s.forward _ hk'
      obtain ⟨rfl, -, -⟩ := Forward.Op.publish.inj heq
      have hhead := hk.symm.trans hpass
      obtain rfl : o = ord := by
        injection hhead with hhead
        injection hhead with hhead
        exact (List.cons.inj hhead).1
      -- the transaction of the call has committed
      rcases hs.sends _ (List.mem_of_getElem? hj) rfl with hfound | ⟨p, hp, m, hm, hid⟩
      · exact hfound
      · obtain rfl := Option.some.inj (hpub.symm.trans hp)
        exact ⟨m, Queue.mem_committed.mpr ⟨t, _, hpub, hstage, hm⟩, hid⟩
  | works o _ =>
      rcases Workers.queue_step s.workers o with ⟨hqueue, -⟩ | ⟨b, hacts, hqueue, -⟩
      · refine ⟨hs.reads, hs.batches, hs.drawn, ?_, ?_, ?_, ?_⟩
        all_goals
          rw [hqueue]
        · exact hs.rows
        · exact hs.once
        · exact hs.sends
        · exact hs.acked
      · refine hs.workers _ b hqueue (fun t m hb o' ho' hid => ?_) _
        subst hb
        obtain rfl := hacts.write
        exact absurd hid (of_decide_eq_true (List.all_eq_true.mp hok o' (List.mem_range.mpr ho')))
  | sends k o rest done hk =>
      have hbegun := hs.workers (Workers.step s.workers (.queue .begin_)).1 .begin_ rfl nofun
        (Workers.step s.workers (.queue .begin_)).2
      refine ⟨hbegun.reads, hbegun.batches, hbegun.drawn, hbegun.rows, hbegun.once,
        fun x hx hin => ?_, hbegun.acked⟩
      rcases List.mem_append.mp hx with hx | hx
      · exact hbegun.sends x hx hin
      · rw [List.mem_singleton.mp hx] at hin
        cases hin
  | finds j k o t p put impl m hj hp hm htaken =>
      have hquiet : Sound c (.between :: h) s :=
        ⟨hs.reads, hs.batches, hs.drawn, hs.rows, hs.once, hs.sends, hs.acked⟩
      obtain ⟨m', hm', hid⟩ := List.any_eq_true.mp htaken
      exact hquiet.through hj
        (.inl ⟨m', hn.messages m' hm', (of_decide_eq_true hid).trans (Content.message_id hm)⟩)
  | writes j k o t p put impl m hj hp hm hwritable htaken hcontested =>
      have hid := Content.message_id hm
      have hwrote := hs.workers (Workers.step s.workers (.queue (.write t m))).1 (.write t m) rfl
        (fun t' m' hb o' ho' hid' => by
          obtain ⟨rfl, rfl⟩ := Queue.Op.write.inj hb
          refine ⟨hs.carries hf hp hm ho' hid', fun x hx hxid => ?_⟩
          have heq : x.id = m.id := hxid.trans hid'.symm
          rcases hx with hx | ⟨pub, hpub, hrun, hx⟩
          · exact absurd htaken (by rw [taken,
              List.any_eq_true.mpr ⟨x, hx, decide_eq_true heq⟩]; decide)
          · have hany : (pub.rows.any fun r => decide (r.id = m.id)) = true :=
              List.any_eq_true.mpr ⟨x, hx, decide_eq_true heq⟩
            exact absurd hcontested (by
              rw [contested, List.any_eq_true.mpr ⟨pub, hpub, by rw [hrun, hany]; rfl⟩]
              decide))
        (Workers.step s.workers (.queue (.write t m))).2
      exact hwrote.through hj (hid ▸ written_of_writable hwritable m)

/-- The pipeline is sound in every proper run. -/
theorem sound_reach {c : Content} {spec : SubscriptionSpec} {h : List Note} {s : State}
    (hr : Reach (step c) (fun s o => proper c s o = true) (created spec) h s) : Sound c h s := by
  induction hr with
  | nil =>
      refine ⟨nofun, nofun, fun o ho o' ho' _ => ?_, nofun, fun o ho m m' hm => ?_, nofun,
        fun o ho => ?_⟩
      · have hone : (created spec).forward.box.nextOrd = 1 := rfl
        omega
      · rcases hm with hm | ⟨p, hp, -⟩
        · cases hm
        · cases hp
      · obtain ⟨k, hk⟩ := ho
        cases hk
  | snoc o hok hr ih => exact ih.step hr hok

/-! ## The law -/

/-- What the workers know of an event whose message is safe. -/
theorem settled_of_safe {c : Content} {s : State} {o : Nat} {m : Message} (hid : m.id = c.id o)
    (h : Workers.safe s.workers.consumer m = true) : c.settled s o := by
  rw [Workers.safe, Bool.or_eq_true] at h
  rcases h with h | h
  · rw [hid, Content.id, uuidOf_uuidText (c.uuid o)] at h
    exact .inl (List.contains_iff_mem.mp h)
  · obtain ⟨l, hl, hp⟩ := List.any_eq_true.mp h
    rw [Bool.and_eq_true, decide_eq_true_iff] at hp
    exact .inr ⟨l, hl, hp.1.trans hid⟩

/-- **No event is lost or doubled between the outbox and its handler.** In every proper
run, from the moment the business transaction of an event has committed: the queue's
table has at most one message of the event, however often it was published; every
committed message under its ID is the event's own, at the one position it was given; and
its row is still in the outbox to be forwarded, or such a message is committed, and where
the durable selects it, the message is ahead of the read position, or waits as a delivery,
or the event was applied or has a dead letter, or the retention removed the message. -/
theorem no_event_lost (c : Content) (spec : SubscriptionSpec) (h h' : List Note) (s s' : State)
    (hr : Reach (step c) (fun s o => proper c s o = true) (created spec) h s)
    (hr' : Reach (step c) (fun s o => proper c s o = true) s h' s') (r : Outbox.Row)
    (hrow : r ∈ s.forward.box.rows) :
    (∀ m ∈ s'.workers.queue.messages, ∀ m' ∈ s'.workers.queue.messages, m.id = c.id r.ord →
      m'.id = c.id r.ord → m = m') ∧ (∀ m ∈ s'.workers.queue.committed, m.id = c.id r.ord →
      Carries c (given (told (h' ++ h))) r.ord m.toMessage) ∧
      ((∃ r' ∈ s'.forward.box.rows, r'.ord = r.ord ∧ r'.published = false) ∨
        ∃ m ∈ s'.workers.queue.committed, m.id = c.id r.ord ∧
          (spec.selects m.subject = true → s'.workers.queue.pos < m.key ∨
            m.seq ∈ s'.workers.queue.deliveries.map Queue.DeliveryRow.seq ∨ c.settled s' r.ord ∨
              m.seq ∉ s'.workers.queue.messages.map Queue.Row.seq)) := by
  have hall := hr.trans hr'
  have hs := sound_reach hall
  have hf : Forward.Sound (told (h' ++ h)) s'.forward := Forward.sound_reach (forward_reach hall)
  obtain ⟨hq, hqueue, hflat⟩ := Workers.queue_run (workers_reach hall)
  have hsound := Queue.sound_reach hqueue
  have hnumbers := hsound.numbers
  -- the row is there, or its message was acknowledged
  have hpresent : (∃ r' ∈ s'.forward.box.rows, r'.ord = r.ord) ∨ Acked (told (h' ++ h)) r.ord := by
    have hkept := Forward.row_or_acked (forward_reach hr) (forward_reach hr') hrow
    rwa [← List.filterMap_append] at hkept
  have hlt : r.ord < s'.forward.box.nextOrd := by
    refine hf.box.rows.drawn r.ord ?_
    rcases hpresent with ⟨r', hr', heq⟩ | ⟨k, hk⟩
    · exact .inr (.inl (heq ▸ List.mem_map_of_mem hr'))
    · obtain ⟨later, earlier, heq⟩ := List.append_of_mem hk
      obtain ⟨⟨p, n, hn, -, hp⟩, -⟩ := hf.ordered later k r.ord true earlier heq
      exact .inr (.inr (Outbox.mem_ords.mpr ⟨n, hn, p.seq, hp⟩))
  refine ⟨fun m hm m' hm' hid hid' => hs.once r.ord hlt m m' (.inl hm) (.inl hm') hid hid',
    fun m hm hid => ?_, ?_⟩
  · obtain ⟨t, p, hp, -, hmem⟩ := Queue.mem_committed.mp hm
    exact hs.rows p (List.mem_of_getElem? hp) m hmem r.ord hlt hid
  · by_cases hwaits : ∃ r' ∈ s'.forward.box.rows, r'.ord = r.ord ∧ r'.published = false
    · exact .inl hwaits
    · have hacked : Acked (told (h' ++ h)) r.ord := by
        rcases hpresent with ⟨r', hr', heq⟩ | hacked
        · cases hpub : r'.published with
          | true => exact heq ▸ hf.marked r' hr' hpub
          | false => exact absurd ⟨r', hr', heq, hpub⟩ hwaits
        · exact hacked
      obtain ⟨m, hm, hid⟩ := hs.acked r.ord hacked
      refine .inr ⟨m, hm, hid, fun hselects => ?_⟩
      by_cases hthere : m.seq ∈ s'.workers.queue.messages.map Queue.Row.seq
      · obtain ⟨m', hm', heq⟩ := List.mem_map.mp hthere
        obtain rfl := hnumbers.unique (hnumbers.messages m' hm') hm heq
        by_cases hahead : s'.workers.queue.pos < m'.key
        · exact .inl hahead
        · -- the position has passed it, so it was queued
          have hconsidered := (hsound.considered_iff hm').mpr (not_lt.mp hahead)
          have hqueued := (hsound.considered.selected m' hm hconsidered).mpr hselects
          rcases Queue.queued_reach hqueue hqueued with hdelivery | ⟨why, hdel⟩
          · exact .inr (.inl hdelivery)
          · obtain ⟨n, hn, hseq, hsafe | hgone⟩ := Workers.deleted_reach (workers_reach hall)
              (hflat ▸ hdel)
            · obtain rfl := hnumbers.unique hn hm hseq
              exact .inr (.inr (.inl (settled_of_safe hid hsafe)))
            · exact absurd hthere hgone
      · exact .inr (.inr (.inr hthere))

end

/-- The events of the example. -/
def content : Content where
  row o :=
    { eventId := 0x0197F000000070008000000000000000 + o % 2 ^ 32, stream := str "stock",
      partition := 0, type := str "moved", occurredAt := (⟨2026, 10, 6⟩, ⟨9, 30, 0, 125000⟩),
      recordId := str "sku-1", version := 3, projection := str "full", legalEntity := [],
      subjects := none, causation := none, hops := 0, trace := ⟨.empty, nofun⟩,
      payload := [0x7B, 0x7D], digest := str "d" }
  source := str "erp/inventory"
  uuid o := by
    have := Nat.mod_lt o (show 0 < 2 ^ 32 by norm_num)
    dsimp only
    omega

/-- The business transaction of an event commits. -/
def emitted : List Op := [.forward (.box (.emit 0)), .forward (.box (.emitted 0))]

/-- A pass comes to the row and calls `publish`, whose transaction commits. -/
def published (k : Nat) : List Op :=
  (Forward.Op.pass :: Forward.batchOf k k).map .forward ++
    [.send k, .workers (.queue (.draw k)), .workers (.queue (.assign k)), .insert k none (str "py"),
      .workers (.queue (.commit k))]

/-- The first pass does not hear the acknowledgement. The second publishes again, and
marks; then the event is handled, and the row is purged. -/
def publishedTwice : List Op :=
  published 0 ++ [.forward (.publish 0 true false), .forward (.mark 0)] ++ published 1 ++
    [.acknowledge 1, .forward (.publish 1 false false), .forward (.mark 1)] ++
    (Queue.round ++ [Queue.Op.claim []]).map (fun o => .workers (.queue o)) ++
    [Workers.Op.handle 0 3, .call (.begin_ 0 (.ok [])), .call (.insert 0),
      .call (.write 0 (str "w")), .call (.returns 0), .settle 0].map .workers ++
    [.forward (.box (.purge [1]))]

theorem no_event_lost_twice :
    let run := runOps (@step Interp.ascii content) (created Queue.moves) emitted
    let run' := runOps (@step Interp.ascii content) run.2 publishedTwice
    (∀ m ∈ run'.2.workers.queue.messages, ∀ m' ∈ run'.2.workers.queue.messages, m.id =
      content.id 1 →
        m'.id = content.id 1 → m = m') ∧
      run'.2.forward.box.rows = [] ∧ run'.2.sends.map Send.inserted = [true, true] ∧
      run'.2.workers.queue.messages.map Queue.Row.seq = [1] ∧
      run'.2.workers.consumer.inbox = [(content.row 1).eventId] := by
  have hok : allAllowed (@step Interp.ascii content)
    (fun s o => @proper Interp.ascii content s o = true)
      (created Queue.moves) emitted = true := by decide +kernel
  have hok' : allAllowed (@step Interp.ascii content)
    (fun s o => @proper Interp.ascii content s o = true)
      (runOps (@step Interp.ascii content) (created Queue.moves) emitted).2 publishedTwice =
      true := by decide +kernel
  have hlaw := @no_event_lost Interp.ascii content Queue.moves _ _ _ _
    (reach_of_allAllowed emitted hok) (reach_of_allAllowed publishedTwice hok') { ord := 1 }
    (by decide +kernel)
  exact ⟨hlaw.1, by decide +kernel, by decide +kernel, by decide +kernel, by decide +kernel⟩

end Pipeline

end BeSdk.Events
