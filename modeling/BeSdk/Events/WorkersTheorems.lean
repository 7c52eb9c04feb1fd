/-
BeSdk.Events.WorkersTheorems — which events disappear.

A delivery row is deleted by a settlement, by the give-up sweep, or with its message.
The first two are to keep the event or its dead letter, and do not always: the
consumer decides by its own limit whether an attempt is the last, the queue by the
stored one; a dead letter that cannot be written is answered with a NAK, which
deletes at the stored limit; an exhausted delivery is swept whatever became of its
last attempt; dead letters of messages without an ID share one key; and a handler
that swallows a failed statement is acknowledged without its effects. `prudent`
excludes these, and nothing else is deleted then (`CallsSafe`).

* `no_event_disappears`: in a prudent run each deleted delivery's event was applied,
  or has a dead letter, or its message was purged.
-/
import BeSdk.Events.Workers
import BeSdk.Events.LeaseTheorems
import BeSdk.Events.ConsumerTheorems

namespace BeSdk.Events

/-! ## The queue -/

namespace Queue

/-- A handout carries a committed message and its attempt. -/
def Carries (s : State) (x : Handout) : Prop :=
  ∃ m ∈ s.committed, m.seq = x.seq ∧ x.delivery = { m with attempt := x.attempt }

theorem handouts_prefix (s : State) (o : Op) : s.handouts <+: (step s o).1.handouts := by
  obtain heq | ⟨d, -, m, -, -, -, heq⟩ := handouts_step s o
  · exact heq ▸ List.prefix_rfl
  · exact heq ▸ List.prefix_append ..

/-- What was committed stays committed. -/
theorem committed_step {s : State} (o : Op) {m : Row} (hm : m ∈ s.committed) :
    m ∈ (step s o).1.committed := by
  have hmoves := step_moves s o
  generalize (step s o).1 = s', (step s o).2 = notes at hmoves
  cases hmoves with
  | begins => rwa [committed_begins]
  | publishes t go | commits t => exact committed_publish t _ hm
  | locks | fetches | looks | advances => exact hm
  | quiet _ _ hq _ => rwa [State.committed, hq.publishers]

theorem Carries.step {s : State} {x : Handout} (h : Carries s x) (o : Op) :
    Carries (step s o).1 x := by
  obtain ⟨m, hm, hx⟩ := h
  exact ⟨m, committed_step o hm, hx⟩

theorem carries_reach {ok : State → Op → Prop} {spec : SubscriptionSpec}
    {h : List (List Note)} {s : State} (hr : Reach step ok (created spec) h s) :
    ∀ x ∈ s.handouts, Carries s x := by
  induction hr with
  | nil => simp [created]
  | snoc o _ hr ih =>
      intro x hx
      obtain heq | ⟨d, -, m, hm, hseq, -, heq⟩ := handouts_step _ o
      · rw [heq] at hx
        exact (ih x hx).step o
      · rw [heq] at hx
        rcases List.mem_append.mp hx with hx | hx
        · exact (ih x hx).step o
        · rw [List.mem_singleton.mp hx]
          exact ⟨m, committed_step o ((sound_reach hr).numbers.messages m hm), hseq, rfl⟩

theorem deleteWhere_deleted {s : State} {p : DeliveryRow → Bool} {why why' : Reason} {q : Nat}
    (h : .deleted q why' ∈ (s.deleteWhere p why).2) :
    ∃ d ∈ s.deliveries, p d = true ∧ d.seq = q := by
  obtain ⟨d, hd, heq⟩ := List.mem_map.mp h
  cases heq
  exact ⟨d, (List.mem_filter.mp hd).1, (List.mem_filter.mp hd).2, rfl⟩

theorem take_deleted {s : State} {seq : Option Nat} {q : Nat} {why : Reason} :
    .deleted q why ∉ (s.take seq).2 := by
  intro h
  unfold State.take at h
  split at h
  · cases h
  · split at h <;> simp at h

/-- An ordered claim deletes the delivery it claimed when its message is gone. -/
theorem claimOrdered_deleted {notes : List Note} {s : State} (hs : Leases notes s)
    {q : Nat} {why : Reason} (h : .deleted q why ∈ s.claimOrdered.2) :
    (∃ d ∈ s.deliveries, d.seq = q) ∧ q ∉ s.messages.map Row.seq := by
  unfold State.claimOrdered at h
  split at h
  · dsimp only at h
    split at h
    · exact absurd h take_deleted
    · next hgone =>
      obtain ⟨e, he, hunder, hseq⟩ :=
        deleteWhere_deleted ((List.mem_append.mp h).resolve_right take_deleted)
      rw [take_deliveries] at he
      obtain ⟨d, hd, ⟨-, rfl⟩ | ⟨hdseq, rfl⟩⟩ := mem_lease he
      · exact absurd ((hs.rows e hd).token _ (under_iff.mp hunder).2) (lt_irrefl _)
      · refine ⟨⟨d, hd, hseq⟩, fun hmem => hgone (List.any_eq_true.mpr ?_)⟩
        obtain ⟨m, hm, heq⟩ := List.mem_map.mp hmem
        exact ⟨m, hm, decide_eq_true (heq.trans (hseq.symm.trans hdseq))⟩
  · cases h

/-- A delivery is deleted by a settlement, by the give-up sweep, or without a message. -/
theorem deleted_spec {notes : List Note} {s : State} (hs : Leases notes s)
    {o : Op} {q : Nat} {why : Reason} (h : .deleted q why ∈
      (step s o).2) : ∃ d ∈ s.deliveries, d.seq = q ∧ ((∃ k out x, o = .settle k out ∧
        s.handouts[k]? = some x ∧ d.under x.token = true ∧ (out = .nak → s.spec.maxDeliver ≤
          x.attempt)) ∨
      (o = .giveUp ∧ d.expired s.clock = true ∧ s.spec.maxDeliver ≤ d.attempts) ∨
      q ∉ (step s o).1.messages.map Row.seq) := by
  cases o with
  | settle k out =>
      simp only [step, State.settle] at h
      split at h
      · cases h
      · next x hk =>
        split at h
        · next hout =>
          obtain ⟨d, hd, hunder, hseq⟩ := deleteWhere_deleted h
          refine ⟨d, hd, hseq, .inl ⟨k, out, x, rfl, hk, hunder, ?_⟩⟩
          rintro rfl
          simpa using hout
        · cases h
  | giveUp =>
      obtain ⟨d, hd, hp, hseq⟩ := deleteWhere_deleted h
      rw [Bool.and_eq_true, decide_eq_true_iff] at hp
      exact ⟨d, hd, hseq, .inr (.inl ⟨rfl, hp⟩)⟩
  | dropGone token =>
      obtain ⟨d, hd, hp, hseq⟩ := deleteWhere_deleted h
      rw [Bool.and_eq_true, List.all_eq_true] at hp
      refine ⟨d, hd, hseq, .inr (.inr fun hmem => ?_)⟩
      obtain ⟨m, hm, heq⟩ := List.mem_map.mp hmem
      exact of_decide_eq_true (hp.2 m hm) (heq.trans hseq.symm)
  | purge old =>
      obtain ⟨d, hd, hp, hseq⟩ := deleteWhere_deleted h
      refine ⟨d, hd, hseq, .inr (.inr fun hmem => ?_)⟩
      obtain ⟨m, hm, heq⟩ := List.mem_map.mp hmem
      obtain ⟨n, hn, hnseq⟩ := List.mem_map.mp (List.contains_iff_mem.mp hp)
      have hkept := (List.mem_filter.mp hm).2
      have hgone := (List.mem_filter.mp hn).2
      rw [heq, ← hseq, ← hnseq, hgone] at hkept
      cases hkept
  | claim locked => exact absurd h take_deleted
  | claimOrdered =>
      obtain ⟨⟨d, hd, hseq⟩, hgone⟩ := claimOrdered_deleted hs h
      exact ⟨d, hd, hseq,
        .inr (.inr fun hmem => hgone (((claimOrdered_quiet s).1.messages.map _).subset hmem))⟩
  | advanced =>
      simp only [step, State.advanced] at h
      split at h
      · split at h
        · simp at h
        · simp at h
      · simp at h
  | lock | fetch =>
      simp only [step] at h
      split at h <;> simp at h
  | begin_ | draw t | assign t | write t m | commit t | abort t | inProgress k | rolledBack | look
  | tick now =>
      simp [step] at h

end Queue

/-! ## The calls -/

namespace Consumer

variable [Interp]

/-- How a call ended in a step. -/
def Answers (o : Op) (j : Nat) (r : Run) (out : Outcome) : Prop :=
  (o = .returns j ∧ out = .ack) ∨
    ∃ letter, o = .answer j letter ∧ r.phase = .failed ∧
      out = if r.delivery.attempt < r.limit then .nak else if letter = .written then .term else .nak

/-- A call keeps its delivery, and is answered where the step says so. -/
theorem runs_step (c : State) {o : Op} (ho : ∀ d limit, o ≠ .deliver d limit) {j : Nat} {r' : Run}
    (h : (step c o).1.runs[j]? = some r') :
    ∃ r, c.runs[j]? = some r ∧ r'.delivery = r.delivery ∧
      ∀ out, r'.phase = .answered out → r.phase = .answered out ∨ Answers o j r out := by
  have hstay : c.runs[j]? = some r' → ∃ r, c.runs[j]? = some r ∧ r'.delivery = r.delivery ∧
      ∀ out, r'.phase = .answered out → r.phase = .answered out ∨ Answers o j r out :=
    fun h => ⟨r', h, rfl, fun _ => .inl⟩
  have hturn : ∀ {c₀ : State} {i : Nat} {phase : Phase}, c₀.runs = c.runs →
    (c₀.to_ i phase).runs[j]? = some r' →
      (∀ r, i = j → c.runs[j]? = some r → ∀ out, phase = .answered out → Answers o j r out) →
      ∃ r, c.runs[j]? = some r ∧ r'.delivery = r.delivery ∧
        ∀ out, r'.phase = .answered out → r.phase = .answered out ∨ Answers o j r out := by
    intro c₀ i phase hruns h hphase
    obtain ⟨r, hr, rfl⟩ := getElem?_to_ h
    rw [hruns] at hr
    refine ⟨r, hr, ?_⟩
    by_cases hij : i = j
    · rw [if_pos hij]
      exact ⟨rfl, fun out hout => .inr (hphase r hij hr out hout)⟩
    · rw [if_neg hij]
      exact ⟨rfl, fun _ => .inl⟩
  cases o with
  | deliver d limit => exact absurd rfl (ho d limit)
  | begin_ i fetched =>
      simp only [step] at h
      split at h
      · split at h <;> exact hturn rfl h fun _ _ _ _ heq => by cases heq
      · exact hstay h
  | insert i =>
      simp only [step] at h
      split at h
      · split at h
        · exact hturn rfl h fun _ _ _ _ heq => by cases heq
        · split at h
          · exact hstay h
          · exact hturn rfl h fun _ _ _ _ heq => by cases heq
      · exact hstay h
  | write i w | fails i =>
      simp only [step] at h
      split at h
      · exact hturn rfl h fun _ _ _ _ heq => by cases heq
      · exact hstay h
  | raises i retry =>
      simp only [step] at h
      split at h
      · unfold afterFailure at h
        split at h <;> exact hturn rfl h fun _ _ _ _ heq => by cases heq
      · exact hstay h
  | returns i =>
      simp only [step] at h
      split at h
      · refine hturn (commit_runs ..).1 h fun r hij _ out heq => .inl ?_
        cases heq
        exact ⟨by rw [hij], rfl⟩
      · exact hstay h
  | loses i =>
      simp only [step] at h
      split at h
      · exact hturn (commit_runs ..).1 h fun _ _ _ _ heq => by cases heq
      · exact hstay h
  | answer i letter =>
      simp only [step] at h
      split at h
      · next d limit hr =>
        unfold State.answer at h
        dsimp only at h
        have hanswer : ∀ r, i = j → c.runs[j]? = some r → r = ⟨d, limit, .failed⟩ := by
          rintro r rfl hj
          exact Option.some.inj (hj.symm.trans hr)
        split at h
        · next hlt =>
          refine hturn rfl h fun r hij hj out heq => .inr ⟨letter, by rw [hij], ?_⟩
          obtain rfl := hanswer r hij hj
          cases heq
          exact ⟨rfl, by rw [if_pos hlt]⟩
        · next hge =>
          split at h
          · refine hturn (bury_runs ..).1 h fun r hij hj out heq => .inr ⟨.written, by rw [hij], ?_⟩
            obtain rfl := hanswer r hij hj
            cases heq
            exact ⟨rfl, by rw [if_neg hge, if_pos rfl]⟩
          · refine hturn (bury_runs ..).1 h fun r hij hj out heq => .inr ⟨.unheard, by rw [hij], ?_⟩
            obtain rfl := hanswer r hij hj
            cases heq
            exact ⟨rfl, by rw [if_neg hge, if_neg (by decide)]⟩
          · refine hturn rfl h fun r hij hj out heq => .inr ⟨.refused, by rw [hij], ?_⟩
            obtain rfl := hanswer r hij hj
            cases heq
            exact ⟨rfl, by rw [if_neg hge, if_neg (by decide)]⟩
      · exact hstay h
  | crash i => exact hturn rfl h fun _ _ _ _ heq => by cases heq

theorem runs_length (c : State) {o : Op} (ho : ∀ d limit, o ≠ .deliver d limit) :
    (step c o).1.runs.length = c.runs.length := by
  have hturn : ∀ {c₀ : State} (i : Nat) (phase : Phase), c₀.runs = c.runs →
    (c₀.to_ i phase).runs.length = c.runs.length :=
    fun i phase hruns => by rw [State.to_, List.length_modify, hruns]
  cases o with
  | deliver d limit => exact absurd rfl (ho d limit)
  | begin_ i fetched =>
      simp only [step]
      split
      · split <;> exact hturn _ _ rfl
      · rfl
  | insert i =>
      simp only [step]
      split
      · split
        · exact hturn _ _ rfl
        · split
          · rfl
          · exact hturn _ _ rfl
      · rfl
  | write i w | fails i | raises i retry =>
      simp only [step]
      split
      · exact hturn _ _ rfl
      · rfl
  | returns i | loses i =>
      simp only [step]
      split
      · exact hturn _ _ (commit_runs ..).1
      · rfl
  | answer i letter =>
      simp only [step]
      split
      · unfold State.answer
        split
        · exact hturn _ _ rfl
        · split
          · exact hturn _ _ (bury_runs ..).1
          · exact hturn _ _ (bury_runs ..).1
          · exact hturn _ _ rfl
      · rfl
  | crash i => exact hturn _ _ rfl

omit [Interp] in
theorem bury_dead (c : State) (d : Delivery) : c.dead ⊆ (c.bury d).dead := by
  unfold State.bury
  split
  · exact List.Subset.refl _
  · exact List.subset_cons_self ..

/-- Rows of the inbox and dead letters stay. -/
theorem tables_step (c : State) (o : Op) :
    c.inbox ⊆ (step c o).1.inbox ∧ c.dead ⊆ (step c o).1.dead := by
  have hstay : c.inbox ⊆ c.inbox ∧ c.dead ⊆ c.dead := ⟨List.Subset.refl _, List.Subset.refl _⟩
  have hcommit : ∀ i tx, c.inbox ⊆ (c.commit i tx).1.inbox ∧ c.dead ⊆ (c.commit i tx).1.dead := by
    intro i tx
    unfold State.commit
    split
    · exact ⟨List.subset_cons_self .., List.Subset.refl _⟩
    · exact hstay
  cases o with
  | deliver d limit | crash i => exact hstay
  | begin_ i fetched =>
      simp only [step]
      split
      · split <;> exact hstay
      · exact hstay
  | insert i =>
      simp only [step]
      split
      · split
        · exact hstay
        · split <;> exact hstay
      · exact hstay
  | write i w | fails i | raises i retry =>
      simp only [step]
      split <;> exact hstay
  | returns i | loses i =>
      simp only [step]
      split
      · exact hcommit ..
      · exact hstay
  | answer i letter =>
      simp only [step]
      split
      · next d limit _ =>
        unfold State.answer
        split
        · exact hstay
        · split
          · exact ⟨(bury_runs c d).2, bury_dead c d⟩
          · exact ⟨(bury_runs c d).2, bury_dead c d⟩
          · exact hstay
      · exact hstay

end Consumer

/-! ## The workers -/

namespace Workers

section
variable [Interp]

/-- The queue alone. -/
theorem queue_reach {ok : State → Op → Prop} {spec : SubscriptionSpec}
    {h : List (List Queue.Note)} {s : State} (hr : Reach step ok (created spec) h s) :
    ∃ hq, Reach Queue.step anyOp (Queue.created spec) hq s.queue := by
  induction hr with
  | nil => exact ⟨[], .nil⟩
  | snoc o _ _ ih =>
      obtain ⟨hq, ih⟩ := ih
      cases o with
      | queue o =>
          simp only [step]
          split
          · exact ⟨hq, ih⟩
          · exact ⟨_, ih.snoc o trivial⟩
      | call o =>
          simp only [step]
          split <;> exact ⟨hq, ih⟩
      | handle k limit =>
          simp only [step]
          split <;> exact ⟨hq, ih⟩
      | settle i =>
          simp only [step]
          split
          · next out k _ _ => exact ⟨_, ih.snoc (.settle k out) trivial⟩
          · exact ⟨hq, ih⟩

/-- The consumer alone; its handlers are careful where the workers are prudent. -/
theorem consumer_reach {spec : SubscriptionSpec} {h : List (List Queue.Note)} {s : State}
    (hr : Reach step (fun s o => prudent s o = true) (created spec) h s) :
    ∃ hc, Reach Consumer.step (fun s o => Consumer.careful s o = true) Consumer.start hc
    s.consumer := by
  induction hr with
  | nil => exact ⟨[], .nil⟩
  | snoc o hok _ ih =>
      obtain ⟨hc, ih⟩ := ih
      cases o with
      | queue o =>
          simp only [step]
          split <;> exact ⟨hc, ih⟩
      | call o =>
          simp only [step]
          split
          · exact ⟨hc, ih⟩
          · refine ⟨_, ih.snoc o ?_⟩
            cases o with
            | returns i => exact hok
            | deliver | begin_ | insert | write | fails | raises | loses | answer | crash => rfl
      | handle k limit =>
          simp only [step]
          split
          · next x _ => exact ⟨_, ih.snoc (Consumer.Op.deliver x.delivery limit) rfl⟩
          · exact ⟨hc, ih⟩
      | settle i =>
          simp only [step]
          split <;> exact ⟨hc, ih⟩

/-! ### Safe events -/

theorem safe_mono {c c' : Consumer.State} (hinbox : c.inbox ⊆ c'.inbox)
    (hdead : c.dead ⊆ c'.dead) {m : Message} (h : safe c m = true) : safe c' m = true := by
  rw [safe, Bool.or_eq_true] at h ⊢
  rcases h with h | h
  · left
    obtain ⟨key, hkey, hmem⟩ := (Option.any_eq_true ..).mp h
    exact (Option.any_eq_true ..).mpr ⟨key, hkey,
      List.contains_iff_mem.mpr (hinbox (List.contains_iff_mem.mp hmem))⟩
  · right
    obtain ⟨row, hrow, hp⟩ := List.any_eq_true.mp h
    exact List.any_eq_true.mpr ⟨row, hdead hrow, hp⟩

omit [Interp] in
/-- A dead letter that meets no other message's is the message's own. -/
theorem bury_buried {c : Consumer.State} {d : Delivery} (h : buries c d = true) :
    buried (c.bury d).dead d.toMessage = true := by
  unfold Consumer.State.bury
  split
  · next hany =>
    obtain ⟨row, hrow, heq⟩ := List.any_eq_true.mp hany
    rw [buries, hany, Bool.not_true, Bool.or_false, Bool.or_eq_true] at h
    rcases h with hid | h
    · exact List.any_eq_true.mpr ⟨row, hrow, by rw [heq, hid]; rfl⟩
    · exact h
  · exact List.any_eq_true.mpr ⟨_, List.mem_cons_self, by simp [Message.id]⟩

/-! ### The invariant -/

/-- An answer that deletes is for a safe event. -/
def SafeAnswer (s : State) (d : Delivery) (out : Outcome) : Prop :=
  (out = .nak ∧ d.attempt < s.queue.spec.maxDeliver) ∨ safe s.consumer d.toMessage = true

structure CallsSafe (s : State) : Prop where
  length : s.held.length = s.consumer.runs.length
  linked : ∀ (j : Nat) (r : Consumer.Run), s.consumer.runs[j]? = some r →
    ∃ (k : Nat) (x : Queue.Handout), s.held[j]? = some k ∧ s.queue.handouts[k]? = some x ∧
    r.delivery = x.delivery
  answers : ∀ r ∈ s.consumer.runs, ∀ out, r.phase = .answered out → SafeAnswer s r.delivery out

/-- A prudent answer to a failure is safe. -/
theorem answer_safe {s : State} {i : Nat} {r : Consumer.Run} (hr : s.consumer.runs[i]? = some r)
    (hfailed : r.phase = .failed) {letter : Consumer.Letter}
    (hok : prudent s (.call (.answer i letter)) = true) :
    SafeAnswer { s with consumer := (Consumer.step s.consumer (.answer i letter)).1 } r.delivery
      (if r.delivery.attempt < r.limit then .nak else if letter = .written then .term
        else .nak) := by
  obtain ⟨d, limit, phase⟩ := r
  obtain rfl : phase = .failed := hfailed
  obtain ⟨hinbox, hdead⟩ := Consumer.tables_step s.consumer (.answer i letter)
  have hkept : (decide (d.attempt < s.queue.spec.maxDeliver) || safe s.consumer d.toMessage) =
    true →
      SafeAnswer { s with consumer := (Consumer.step s.consumer (.answer i letter)).1 } d .nak := by
    intro h
    rw [Bool.or_eq_true, decide_eq_true_iff] at h
    exact h.imp (fun hlt => ⟨rfl, hlt⟩) (safe_mono hinbox hdead)
  have hburied : ∀ out, buries s.consumer d = true → (d.attempt < limit → False) →
    letter ≠ .refused →
      SafeAnswer { s with consumer := (Consumer.step s.consumer (.answer i letter)).1 } d out := by
    intro out hburies hge hletter
    refine .inr ?_
    rw [safe, Bool.or_eq_true]
    right
    simp only [Consumer.step, hr, Consumer.State.answer, if_neg hge]
    cases letter with
    | written | unheard => exact bury_buried hburies
    | refused => exact absurd rfl hletter
  simp only [prudent, hr] at hok
  split at hok
  · next hlt =>
    rw [if_pos hlt]
    exact hkept hok
  · next hge =>
    rw [if_neg hge]
    cases letter with
    | written => exact hburied _ hok hge (by decide)
    | unheard =>
        rw [Bool.or_eq_true] at hok
        exact hok.elim hkept fun hburies => hburied _ hburies hge (by decide)
    | refused => exact hkept hok

/-- The queue goes on, and its handouts and settings stay. -/
theorem CallsSafe.queue {s : State} (hs : CallsSafe s)
    {queue : Queue.State} (hspec : queue.spec = s.queue.spec)
    (hhandouts : s.queue.handouts <+: queue.handouts) : CallsSafe { s with queue } := by
  refine ⟨hs.length, fun j r hr => ?_, fun r hr out hout => ?_⟩
  · obtain ⟨k, x, hk, hx, hd⟩ := hs.linked j r hr
    refine ⟨k, x, hk, ?_, hd⟩
    obtain ⟨later, hlater⟩ := hhandouts
    rw [← hlater, getElem?_join hx]
  · rcases hs.answers r hr out hout with ⟨rfl, hlt⟩ | hsafe
    · exact .inl ⟨rfl, by rwa [hspec]⟩
    · exact .inr hsafe

/-- A worker calls `handle` with a handout. -/
theorem CallsSafe.handle {s : State} (hs : CallsSafe s) {k : Nat} {x : Queue.Handout}
    (hx : s.queue.handouts[k]? = some x) (limit : Int) :
    CallsSafe
    { s with consumer := (Consumer.step s.consumer (.deliver x.delivery limit)).1,
             held := s.held ++ [k] } := by
  refine ⟨by simp [Consumer.step, hs.length], fun j r hr => ?_, fun r hr out hout => ?_⟩
  · simp only [Consumer.step] at hr
    rcases getElem?_join_cases hr with hr | ⟨rfl, rfl⟩
    · obtain ⟨k', x', hk, hx', hd⟩ := hs.linked j r hr
      exact ⟨k', x', getElem?_join hk, hx', hd⟩
    · exact ⟨k, x, by rw [← hs.length, List.getElem?_concat_length], hx, rfl⟩
  · rcases List.mem_append.mp hr with hr | hr
    · exact hs.answers r hr out hout
    · rw [List.mem_singleton.mp hr] at hout
      cases hout

/-- The calls go on. -/
theorem CallsSafe.call {s : State} (hs : CallsSafe s) {o : Consumer.Op} (ho : delivers o = false)
    (hok : prudent s (.call o) = true) (hacked : Consumer.AllAcked (Consumer.step s.consumer o).1) :
    CallsSafe { s with consumer := (Consumer.step s.consumer o).1 } := by
  have hnot : ∀ d limit, o ≠ .deliver d limit := by
    rintro d limit rfl
    cases ho
  obtain ⟨hinbox, hdead⟩ := Consumer.tables_step s.consumer o
  refine ⟨by rw [Consumer.runs_length _ hnot, hs.length], fun j r' hr' => ?_,
    fun r' hmem out hout => ?_⟩
  · obtain ⟨r, hr, hd, -⟩ := Consumer.runs_step s.consumer hnot hr'
    rw [hd]
    exact hs.linked j r hr
  · obtain ⟨j, hr'⟩ := List.mem_iff_getElem?.mp hmem
    obtain ⟨r, hr, hd, hanswers⟩ := Consumer.runs_step s.consumer hnot hr'
    rcases hanswers out hout with hold | ⟨rfl, rfl⟩ | ⟨letter, rfl, hfailed, rfl⟩
    · rw [hd]
      exact (hs.answers r (List.mem_of_getElem? hr) out hold).imp_right (safe_mono hinbox hdead)
    · have happlied := hacked r' hmem
      rw [hout] at happlied
      obtain ⟨key, hkey, hin⟩ := happlied
      refine .inr ?_
      rw [safe, Bool.or_eq_true]
      exact .inl ((Option.any_eq_true ..).mpr ⟨key, hkey, List.contains_iff_mem.mpr hin⟩)
    · rw [hd]
      exact answer_safe hr hfailed hok

theorem CallsSafe.step {s : State} (hs : CallsSafe s) (o : Op) (hok : prudent s o = true)
    (hspec : (step s o).1.queue.spec = s.queue.spec) (hacked : Consumer.AllAcked
      (step s o).1.consumer) :
    CallsSafe (step s o).1 := by
  cases o with
  | queue o =>
      simp only [Workers.step] at hspec ⊢
      split
      · exact hs
      · next ho =>
        rw [if_neg ho] at hspec
        exact hs.queue hspec (Queue.handouts_prefix s.queue o)
  | call o =>
      simp only [Workers.step] at hacked ⊢
      split
      · exact hs
      · next ho =>
        rw [if_neg ho] at hacked
        exact hs.call (by simpa using ho) hok hacked
  | handle k limit =>
      simp only [Workers.step]
      split
      · next x hx => exact hs.handle hx limit
      · exact hs
  | settle i =>
      simp only [Workers.step] at hspec ⊢
      split
      · next out k hr hk =>
        rw [hr, hk] at hspec
        exact hs.queue hspec (Queue.handouts_prefix s.queue (.settle k out))
      · exact hs

theorem callsSafe_reach {spec : SubscriptionSpec} {h : List (List Queue.Note)} {s : State}
    (hr : Reach step (fun s o => prudent s o = true) (created spec) h s) : CallsSafe s := by
  induction hr with
  | nil => exact ⟨rfl, fun j r hr => by simp [created, Consumer.start] at hr,
      fun r hr => by simp [created, Consumer.start] at hr⟩
  | snoc o hok hr ih =>
      obtain ⟨_, hconsumer⟩ := consumer_reach (hr.snoc o hok)
      obtain ⟨_, hbefore⟩ := queue_reach hr
      obtain ⟨_, hafter⟩ := queue_reach (hr.snoc o hok)
      exact ih.step o hok ((Queue.sound_reach hafter).considered.settings.trans
        (Queue.sound_reach hbefore).considered.settings.symm) (Consumer.acked_reach hconsumer)

/-! ## The law -/

/-- What a settlement deletes is safe. -/
theorem settled_safe {s : State} (hs : CallsSafe s) {i k : Nat} {r : Consumer.Run}
    {out : Outcome} {x : Queue.Handout} (hr : s.consumer.runs[i]? = some r)
    (hphase : r.phase = .answered out) (hk : s.held[i]? = some k)
    (hx : s.queue.handouts[k]? = some x) (hcarries : x.delivery.attempt = x.attempt)
    (hlimit : out = .nak → s.queue.spec.maxDeliver ≤ x.attempt) :
    safe s.consumer x.delivery.toMessage = true := by
  obtain ⟨k', x', hk', hx', hd⟩ := hs.linked i r hr
  obtain rfl := Option.some.inj (hk.symm.trans hk')
  obtain rfl := Option.some.inj (hx.symm.trans hx')
  rcases hs.answers r (List.mem_of_getElem? hr) out hphase with ⟨hnak, hlt⟩ | hsafe
  · rw [hd, hcarries] at hlt
    exact absurd (hlimit hnak) (not_le.mpr hlt)
  · rwa [hd] at hsafe

/-- A last attempt that was answered is of a safe event. -/
theorem answered_safe {s : State} (hs : CallsSafe s) {notes : List Queue.Note}
    (hleases : Queue.Leases notes s.queue)
    (hcarries : ∀ x ∈ s.queue.handouts, Queue.Carries s.queue x)
    {d : Queue.DeliveryRow} (hd : d ∈ s.queue.deliveries)
    (hlimit : s.queue.spec.maxDeliver ≤ d.attempts) (hanswered : s.answered d = true) :
    ∃ m ∈ s.queue.committed, m.seq = d.seq ∧ safe s.consumer m.toMessage = true := by
  obtain ⟨⟨r, k⟩, hmem, hc⟩ := List.any_eq_true.mp hanswered
  obtain ⟨i, hi⟩ := List.mem_iff_getElem?.mp hmem
  obtain ⟨hrun, hk⟩ := List.getElem?_zip_eq_some.mp hi
  dsimp only at hc hrun hk
  split at hc
  · next out x hphase hx =>
    obtain ⟨m, hm, hseq, hdelivery⟩ := hcarries x (List.mem_of_getElem? hx)
    obtain ⟨hrow, hattempt⟩ := (hleases.rows d hd).held x (List.mem_of_getElem? hx) hc
    have hsafe := settled_safe hs hrun hphase hk hx (by rw [hdelivery]) fun _ => hattempt ▸ hlimit
    rw [hdelivery] at hsafe
    exact ⟨m, hm, hseq.trans hrow, hsafe⟩
  · cases hc

/-- **No event disappears.** In every run in which every step is prudent, a delivery
row is deleted only of a committed message whose business transaction has committed, or
of which there is a dead letter, or that the purge removed. -/
theorem no_event_disappears (spec : SubscriptionSpec) (h : List (List Queue.Note)) (s : State)
    (hr : Reach step (fun s o => prudent s o = true) (created spec) h s) (o : Op)
    (hok : prudent s o = true) (q : Nat) (why : Queue.Reason)
    (hdel : .deleted q why ∈ (step s o).2) : ∃ m ∈ s.queue.committed, m.seq = q ∧
      (safe (step s o).1.consumer m.toMessage = true ∨ q ∉ (step s o).1.queue.messages.map
        Queue.Row.seq) := by
  obtain ⟨hq, hreach⟩ := queue_reach hr
  have hsound := Queue.sound_reach hreach
  have hleases := Queue.leases_reach hreach
  have hcalls := callsSafe_reach hr
  -- every delivery row is of a committed message
  have hknown : ∀ d ∈ s.queue.deliveries, ∃ m ∈ s.queue.committed, m.seq = d.seq := by
    intro d hd
    obtain ⟨m, hm, heq, -⟩ := hsound.considered.known d.seq
      (hsound.considered.queued d.seq (hsound.considered.deliveries d hd))
    exact ⟨m, hm, heq⟩
  cases o with
  | queue o =>
      simp only [Workers.step] at hdel ⊢
      split at hdel
      · cases hdel
      · next ho =>
        rw [if_neg ho]
        obtain ⟨d, hd, rfl, hwhy⟩ := Queue.deleted_spec hleases hdel
        obtain ⟨m, hm, heq⟩ := hknown d hd
        rcases hwhy with ⟨k, out, x, rfl, -⟩ | ⟨rfl, hexpired, hlimit⟩ | hgone
        · exact absurd rfl ho
        · -- the sweep was prudent
          have hall := List.all_eq_true.mp hok d hd
          rw [hexpired, decide_eq_true hlimit, Bool.and_self, Bool.not_true, Bool.false_or,
            Bool.or_eq_true] at hall
          rcases hall with hanswered | hgone
          · obtain ⟨n, hn, hseq, hsafe⟩ :=
              answered_safe hcalls hleases (Queue.carries_reach hreach) hd hlimit hanswered
            exact ⟨n, hn, hseq, .inl hsafe⟩
          · refine ⟨m, hm, heq, .inr fun hmem => ?_⟩
            obtain ⟨m', hm', heq'⟩ := List.mem_map.mp hmem
            exact of_decide_eq_true (List.all_eq_true.mp hgone m' hm') heq'
        · exact ⟨m, hm, heq, .inr hgone⟩
  | call o =>
      simp only [Workers.step] at hdel
      split at hdel <;> cases hdel
  | handle k limit =>
      simp only [Workers.step] at hdel
      split at hdel <;> cases hdel
  | settle i =>
      simp only [Workers.step] at hdel ⊢
      split at hdel
      · next out k hrun hk =>
        obtain ⟨d, hd, rfl, hwhy⟩ := Queue.deleted_spec hleases (o := .settle k out) hdel
        rcases hwhy with ⟨k', out', x, heq, hx, hunder, hlimit⟩ | ⟨heq, -⟩ | hgone
        · obtain ⟨rfl, rfl⟩ := Queue.Op.settle.inj heq
          obtain ⟨m, hm, hseq, hcarries⟩ := Queue.carries_reach hreach x (List.mem_of_getElem? hx)
          have hsafe := settled_safe hcalls hrun rfl hk hx (by rw [hcarries]) hlimit
          rw [hcarries] at hsafe
          refine ⟨m, hm, ?_, .inl hsafe⟩
          rw [hseq]
          exact ((hleases.rows d hd).held x (List.mem_of_getElem? hx) hunder).1
        · cases heq
        · obtain ⟨m, hm, heq⟩ := hknown d hd
          exact ⟨m, hm, heq, .inr hgone⟩
      · cases hdel

end

/-- An event is published and queued, and a worker gets it. -/
def publishedEvent : List Op :=
  let ops : List Queue.Op := [.begin_, .draw 0, .assign 0,
    .write 0 Consumer.movedEvent.toMessage, .commit 0] ++
    Queue.round ++ [.claim []]
  ops.map Op.queue ++ [.handle 0 3]

/-- The handler raises, and the answer is settled. -/
def failed (i : Nat) (letter : Consumer.Letter) : List Op :=
  [.call (.begin_ i (.ok [])), .call (.insert i), .call (.raises i false),
    .call (.answer i letter), .settle i]

/-- A worker gets the event again. -/
def again (i : Nat) (now : Seconds) : List Op :=
  [.queue (.tick now), .queue (.claim []), .handle i 3]

/-- The `COMMIT` of the first delivery takes effect unheard; the second one finds the
inbox row. -/
def appliedUnheard : List Op :=
  publishedEvent ++ [.call (.begin_ 0 (.ok [])), .call (.insert 0),
    .call (.write 0 (str "w")), .call (.loses 0), .call (.answer 0 .refused), .settle 0] ++
    again 1 60 ++ [.call (.begin_ 1 (.ok [])), .call (.insert 1), .call (.returns 1)]

theorem no_event_disappears_unheard :
    let s := (runOps (@step Interp.ascii) (created Queue.moves) appliedUnheard).2
    ∃ m ∈ s.queue.committed, m.seq = 1 ∧
    (@safe Interp.ascii (@step Interp.ascii s (.settle 1)).1.consumer m.toMessage = true ∨
      1 ∉ (@step Interp.ascii s (.settle 1)).1.queue.messages.map Queue.Row.seq) := by
  have hok : allAllowed (@step Interp.ascii) (fun s o => @prudent Interp.ascii s o = true)
    (created Queue.moves)
      appliedUnheard = true := by decide +kernel
  exact @no_event_disappears Interp.ascii Queue.moves _ _
    (reach_of_allAllowed appliedUnheard hok) (.settle 1)
    rfl 1 (.settled 1 .ack) (by decide +kernel)

/-- The handler fails on each of three deliveries, and the dead letter cannot be
written. -/
def unburied : List Op :=
  publishedEvent ++ failed 0 .refused ++ again 1 60 ++ failed 1 .refused ++ again 2 120 ++
    [.call (.begin_ 2 (.ok [])), .call (.insert 2), .call (.raises 2 false),
      .call (.answer 2 .refused)]

/-- The NAK of the last delivery deletes it, and nothing of the event is left. -/
theorem event_disappears :
    ¬ ∀ (spec : SubscriptionSpec) (h : List (List Queue.Note)) (s : State), Reach
    (@step Interp.ascii) anyOp (created spec) h s →
      ∀ (o : Op) (q : Nat) (why : Queue.Reason), .deleted q why ∈ (@step Interp.ascii s o).2 →
        ∃ m ∈ s.queue.committed, m.seq = q ∧
        (@safe Interp.ascii (@step Interp.ascii s o).1.consumer m.toMessage = true ∨
          q ∉ (@step Interp.ascii s o).1.queue.messages.map Queue.Row.seq) := by
  intro hall
  obtain ⟨m, hm, hseq, hkept⟩ := hall Queue.moves _ _ (reach_runOps _ unburied _) (.settle 2)
    1 (.settled 2 .nak) (by decide +kernel)
  have hlost : ∀ m ∈ (runOps (@step Interp.ascii) (created Queue.moves) unburied).2.queue.committed,
      @safe Interp.ascii (@step Interp.ascii
        (runOps (@step Interp.ascii) (created Queue.moves) unburied).2
        (.settle 2)).1.consumer m.toMessage = false := by decide +kernel
  have hstill : 1 ∈
    (@step Interp.ascii (runOps (@step Interp.ascii) (created Queue.moves) unburied).2
      (.settle 2)).1.queue.messages.map Queue.Row.seq := by decide +kernel
  rcases hkept with hsafe | hgone
  · rw [hlost m hm] at hsafe
    cases hsafe
  · exact hgone hstill

end Workers

end BeSdk.Events
