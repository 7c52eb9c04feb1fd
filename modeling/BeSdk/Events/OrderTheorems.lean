/-
BeSdk.Events.OrderTheorems — what an ordered durable keeps, and what it does not.

Deliveries are queued in the order of the transaction IDs and claimed in that of the
sequence numbers. A message published after another one was committed is behind it
in both orders (`Precedes`), so it is never handed out before it. But a publisher
that drew the smaller number may get the larger transaction ID: its message is
queued below a delivery that is in flight already, and the claim, which looks at the
earliest delivery only, hands it out while the other lease runs.

As long as no advance does that (`State.inTurn`), what is in flight is in front
(`InFront`), and there is one of it.
-/
import BeSdk.Events.QueueTheorems

namespace BeSdk.Events.Queue

/-! ## In flight -/

/-- What an advance is about to queue comes after every delivery in flight. -/
def State.inTurn (s : State) : Bool :=
  match s.advance with
  | some ⟨_, _, some rows⟩ =>
      rows.all fun m => !s.spec.selects m.subject || s.deliveries.all fun d => !d.inFlight ||
        decide (d.seq < m.seq)
  | _ => true

/-- All instances claim as ordered. -/
def ordered (_ : State) : Op → Bool
  | .claim _ => false
  | _ => true

/-- All instances claim as ordered, and each advance is in turn. -/
def orderedInTurn (s : State) : Op → Bool
  | .claim _ => false
  | .advanced => s.inTurn
  | _ => true

/-- Only the earliest delivery is in flight. -/
def InFront (s : State) : Prop :=
  ∀ d ∈ s.deliveries, d.inFlight = true → ∀ e ∈ s.deliveries, d.seq ≤ e.seq

/-- Nothing is claimed. -/
def Calm (s s' : State) : Prop :=
  (s'.deliveries.map DeliveryRow.seq).Sublist (s.deliveries.map DeliveryRow.seq) ∧
    ∀ e ∈ s'.deliveries, e.inFlight = true → ∃ d ∈ s.deliveries, d.seq = e.seq ∧ d.inFlight = true

/-- A step that leaves the deliveries is calm. -/
theorem Calm.of_eq {s s' : State} (h : s'.deliveries = s.deliveries) : Calm s s' := by
  rw [Calm, h]
  exact ⟨.refl _, fun e he hin => ⟨e, he, rfl, hin⟩⟩

/-- So is a deletion. -/
theorem deleteWhere_calm (s : State) (p : DeliveryRow → Bool) (why : Reason) :
    Calm s (s.deleteWhere p why).1 :=
  ⟨List.filter_sublist.map _, fun e he hin => ⟨e, (List.mem_filter.mp he).1, rfl, hin⟩⟩

/-- So is an update that puts nothing in flight. -/
theorem updateWhere_calm (s : State) (p : DeliveryRow → Bool) {f : DeliveryRow → DeliveryRow}
    (hf : ∀ d, (f d).seq = d.seq ∧ ((f d).inFlight = true → d.inFlight = true)) :
    Calm s { s with deliveries := updateWhere p f s.deliveries } := by
  refine ⟨by rw [updateWhere_seqs fun d => (hf d).1], fun e he hin => ?_⟩
  obtain ⟨d, hd, rfl⟩ := List.mem_map.mp he
  split at hin
  · next hp => exact ⟨d, hd, by rw [if_pos hp, (hf d).1], (hf d).2 hin⟩
  · next hp => exact ⟨d, hd, by rw [if_neg hp], hin⟩

/-- A calm step leaves the delivery in flight in front. -/
theorem InFront.calm {s s' : State} (hs : InFront s) (hcalm : Calm s s') : InFront s' := by
  intro e he hin e' he'
  obtain ⟨d, hd, hseq, hin'⟩ := hcalm.2 e he hin
  obtain ⟨d', hd', hseq'⟩ := List.mem_map.mp (hcalm.1.subset (List.mem_map_of_mem he'))
  rw [← hseq, ← hseq']
  exact hs d hd hin' d' hd'

/-! ### Claims -/

/-- What an ordered claim has seen as the earliest delivery is in front as long as it
holds the subscription's row: nothing is queued meanwhile. -/
def Foremost (s : State) : Prop := ∀ d, s.seen = some d → ∀ e ∈ s.deliveries, d.seq ≤ e.seq

/-- What an ordered claim read stays in front of all over every move. -/
theorem Foremost.moves {s s' : State} {notes : List Note} (hmoves : Moves s s' notes)
    (hs : Foremost s) : Foremost s' := by
  intro d hd e he
  rcases seen_moves hmoves hd with ⟨hseen, hsub⟩ | ⟨hdue, hsame⟩
  · obtain ⟨e', he', heq⟩ := List.mem_map.mp (hsub.subset (List.mem_map_of_mem he))
    rw [← heq]
    exact hs d hseen e' he'
  · rw [hsame] at he
    exact (dueFirst_spec hdue).2.2 e he

/-- So it does in every run. -/
theorem foremost_reach {ok : State → Op → Prop} {spec : SubscriptionSpec}
    {h : List (List Note)} {s : State} (hr : Reach step ok (created spec) h s) : Foremost s := by
  induction hr with
  | nil => exact fun d hd => by cases hd
  | snoc o _ _ ih => exact ih.moves (step_moves _ o)

/-- The first delivery may be leased. -/
theorem InFront.lease {s : State} (hs : InFront s)
    {seq : Nat} (hle : ∀ d ∈ s.deliveries, seq ≤ d.seq) :
    InFront (s.lease seq) := by
  intro e he hin e' he'
  obtain ⟨d', hd', hseq'⟩ := List.mem_map.mp (lease_seqs s seq ▸ List.mem_map_of_mem he')
  obtain ⟨d, hd, rfl⟩ := List.mem_map.mp he
  rw [← hseq']
  split at hin
  · next hp =>
    rw [if_pos hp]
    exact (of_decide_eq_true hp).trans_le (hle d' hd')
  · next hp =>
    rw [if_neg hp]
    exact hs d hd hin d' hd'

/-- An ordered claim takes the first delivery. -/
theorem InFront.claimOrdered {s : State} (hs : InFront s) (hfront : Foremost s) :
    InFront s.claimOrdered.1 := by
  unfold State.claimOrdered
  split
  · next seen hholder =>
    have hfree : InFront { s with holder := none } := hs
    have hle : ∀ d ∈ s.deliveries, seen.seq ≤ d.seq := hfront seen (by rw [State.seen, hholder])
    have htake : InFront (State.take { s with holder := none } (some seen.seq)).1 :=
      (hfree.lease hle).calm (.of_eq (take_deliveries _ _))
    dsimp only
    split
    · exact htake
    · exact htake.calm (deleteWhere_calm _ _ .gone)
  · exact hs

/-! ### Advances -/

/-- New deliveries come behind where the advance is in turn. -/
theorem InFront.advanced {s : State} (hs : InFront s) (hturn : s.inTurn = true) :
    InFront s.advanced.1 := by
  unfold State.advanced
  split
  · next xid began rows hadv =>
    split
    · exact hs.calm (.of_eq rfl)
    · intro d hd hin e he
      rcases List.mem_append.mp hd with hd | hd
      · rcases List.mem_append.mp he with he | he
        · exact hs d hd hin e he
        · obtain ⟨m, hm, rfl⟩ := List.mem_map.mp he
          obtain ⟨hrow, hsel⟩ := List.mem_filter.mp (List.mem_filter.mp hm).1
          simp only [State.inTurn, hadv] at hturn
          have hm' := List.all_eq_true.mp hturn m hrow
          rw [hsel, Bool.not_true, Bool.false_or] at hm'
          have hd' := List.all_eq_true.mp hm' d hd
          rw [hin, Bool.not_true, Bool.false_or] at hd'
          exact (of_decide_eq_true hd').le
      · obtain ⟨m, -, rfl⟩ := List.mem_map.mp hd
        cases hin
  · exact hs

@[simp] theorem publish_deliveries (s : State) (t : Nat) (go : Publisher → Publisher) :
    (s.publish t go).deliveries = s.deliveries := by
  rcases publish_spec s t go with ⟨_, -, -, -, heq⟩ | ⟨heq, -⟩ <;> rw [heq]

/-- A settlement is calm. -/
theorem settle_calm (s : State) (k : Nat) (out : Outcome) : Calm s (s.settle k out).1 := by
  unfold State.settle
  split
  · exact .of_eq rfl
  · split
    · exact deleteWhere_calm ..
    · exact updateWhere_calm s _ fun d => ⟨rfl, fun h => by cases h⟩

/-- So is an extension. -/
theorem inProgress_calm (s : State) (k : Nat) : Calm s (s.inProgress k) := by
  unfold State.inProgress
  split
  · exact .of_eq rfl
  · exact updateWhere_calm s _ fun d => ⟨rfl, id⟩

/-- Every step in turn leaves the delivery in flight in front. -/
theorem InFront.step {s : State} (hs : InFront s) (hfront : Foremost s) (o : Op)
    (hok : orderedInTurn s o = true) : InFront (step s o).1 := by
  cases o with
  | claim locked => cases hok
  | advanced => exact hs.advanced hok
  | look =>
      simp only [Queue.step, State.look]
      split
      · exact hs
      · exact hs.calm (.of_eq rfl)
  | claimOrdered => exact hs.claimOrdered hfront
  | draw t | assign t | write t m | commit t | abort t =>
      exact hs.calm (.of_eq (publish_deliveries ..))
  | lock | fetch =>
      simp only [Queue.step]
      split <;> exact hs.calm (.of_eq rfl)
  | settle k out => exact hs.calm (settle_calm s k out)
  | inProgress k => exact hs.calm (inProgress_calm s k)
  | dropGone token | giveUp => exact hs.calm (deleteWhere_calm ..)
  | purge old => exact (hs.calm (.of_eq rfl)).calm (deleteWhere_calm ..)
  | begin_ | rolledBack | tick now => exact hs.calm (.of_eq rfl)

/-- What is in front is one delivery. -/
theorem InFront.leased {s : State} (hs : InFront s)
    (hseqs : (s.deliveries.map DeliveryRow.seq).Nodup) :
    (s.deliveries.filter (·.leased s.clock)).length ≤ 1 := by
  have hin : ∀ d ∈ s.deliveries.filter (·.leased s.clock), d ∈ s.deliveries ∧
    d.inFlight = true := fun d hd =>
    ⟨(List.mem_filter.mp hd).1, (Bool.and_eq_true_iff.mp (List.mem_filter.mp hd).2).1⟩
  have hnodup : ((s.deliveries.filter (·.leased s.clock)).map DeliveryRow.seq).Nodup :=
    (List.filter_sublist.map _).nodup hseqs
  generalize s.deliveries.filter (·.leased s.clock) = l at hin hnodup ⊢
  match l with
  | [] | [_] => simp
  | d :: e :: _ =>
      have hd := hin d (by simp)
      have he := hin e (by simp)
      have heq : d.seq = e.seq := le_antisymm (hs d hd.1 hd.2 e he.1) (hs e he.1 he.2 d hd.1)
      simp [heq] at hnodup

/-! ## Precedence -/

/-- What was committed before a transaction began is behind it in both orders. -/
structure Precedes (s : State) : Prop where
  xid : ∀ p ∈ s.publishers, ∀ x ∈ p.xid, x < s.nextXid
  rows : ∀ p ∈ s.publishers, ∀ m ∈ p.rows, p.xid = some m.xid ∧ m.before = p.before
  before : ∀ p ∈ s.publishers, ∀ q ∈ p.before, ∃ n ∈ s.committed, n.seq = q ∧
    (∀ r ∈ p.seqs, n.seq < r) ∧ ∀ x ∈ p.xid, n.xid < x

/-- A committed row's transaction ID was drawn. -/
theorem Precedes.xid_lt {s : State} (hs : Precedes s) {n : Row} (hn : n ∈ s.committed) :
    n.xid < s.nextXid := by
  obtain ⟨t, p, hp, -, hmem⟩ := mem_committed.mp hn
  exact hs.xid p (List.mem_of_getElem? hp) n.xid (hs.rows p (List.mem_of_getElem? hp) n hmem).1

theorem Numbers.seq_lt {s : State} (hs : Numbers s) {n : Row} (hn : n ∈ s.committed) :
    n.seq < s.nextSeq := by
  obtain ⟨t, p, hp, -, hmem⟩ := mem_committed.mp hn
  exact (hs.own t p hp).2 n.seq (Row.seq_mem_seqs hmem)

/-- Publishers' steps keep the rows in their order. -/
theorem Precedes.publish {s : State} (hs : Precedes s) (hn : Numbers s)
    {t : Nat} {go : Publisher → Publisher} {nextSeq nextXid : Nat} (hnext : s.nextXid ≤ nextXid)
    (hgo : ∀ p, p.stage = .running → Goes s p (go p) nextSeq nextXid) :
    Precedes { s.publish t go with nextSeq, nextXid } := by
  have hcommitted : ∀ {m}, m ∈ s.committed → m ∈ (s.publish t go).committed :=
    committed_publish t go
  rcases publish_spec s t go with ⟨p, hp, hrun, -, heq⟩ | ⟨heq, -⟩
  · rw [heq] at hcommitted ⊢
    have hgoes := hgo p hrun
    have hmem := List.mem_of_getElem? hp
    refine ⟨fun q hq x hx => ?_, fun q hq m hm => ?_, fun q hq b hb => ?_⟩
    · rcases List.mem_or_eq_of_mem_set hq with hq | rfl
      · exact (hs.xid q hq x hx).trans_le hnext
      · exact (hgoes.xid x hx).elim (fun hx => (hs.xid p hmem x hx).trans_le hnext) And.right
    · rcases List.mem_or_eq_of_mem_set hq with hq | rfl
      · exact hs.rows q hq m hm
      · rw [hgoes.before]
        rcases hgoes.rows m hm with hm | hm
        · obtain ⟨hxid, hbefore⟩ := hs.rows p hmem m hm
          exact ⟨hgoes.keeps m.xid hxid, hbefore⟩
        · exact hm
    · rcases List.mem_or_eq_of_mem_set hq with hq | rfl
      · obtain ⟨n, hn', h⟩ := hs.before q hq b hb
        exact ⟨n, hcommitted hn', h⟩
      · obtain ⟨n, hn', hseq, hseqs, hxids⟩ := hs.before p hmem b (hgoes.before ▸ hb)
        refine ⟨n, hcommitted hn', hseq, fun r hr => ?_, fun x hx => ?_⟩
        · exact (hgoes.seqs r hr).elim (hseqs r) fun hr => (hn.seq_lt hn').trans_le hr.1
        · exact (hgoes.xid x hx).elim (hxids x) fun hx => (hs.xid_lt hn').trans_le hx.1
  · rw [heq]
    exact ⟨fun p hp x hx => (hs.xid p hp x hx).trans_le hnext, hs.rows, hs.before⟩

/-- So does every move. -/
theorem Precedes.moves {s s' : State} {notes : List Note} (hmoves : Moves s s' notes)
    (hn : Numbers s) (hs : Precedes s) : Precedes s' := by
  cases hmoves with
  | begins =>
      refine ⟨fun p hp x hx => ?_, fun p hp m hm => ?_, fun p hp q hq => ?_⟩ <;>
        rcases List.mem_append.mp hp with hp | hp
      · exact hs.xid p hp x hx
      · rw [List.mem_singleton.mp hp] at hx
        cases hx
      · exact hs.rows p hp m hm
      · rw [List.mem_singleton.mp hp] at hm
        cases hm
      · rw [committed_begins]
        exact hs.before p hp q hq
      · rw [List.mem_singleton.mp hp] at hq ⊢
        obtain ⟨n, hn', rfl⟩ := List.mem_map.mp hq
        exact ⟨n, by rwa [committed_begins], rfl, by simp [Publisher.seqs], by simp⟩
  | publishes t go nextSeq nextXid _ hxid hgo => exact hs.publish hn hxid fun p hp => (hgo p hp).1
  | commits t =>
      have hgo := hs.publish hn (le_refl _) (t := t) fun p _ => stage_goes s p .committed
      refine ⟨?_, hgo.rows, hgo.before⟩
      rw [State.commit, publish_nextXid]
      exact hgo.xid
  | locks => exact ⟨fun p hp x hx => (hs.xid p hp x hx).trans (Nat.lt_succ_self _),
      hs.rows, hs.before⟩
  | fetches | looks | advances => exact ⟨hs.xid, hs.rows, hs.before⟩
  | quiet _ _ hq _ =>
      refine ⟨?_, ?_, ?_⟩
      · rw [hq.publishers, hq.nextXid]
        exact hs.xid
      · rw [hq.publishers]
        exact hs.rows
      · rw [State.committed, hq.publishers]
        exact hs.before

/-- A message published after another one was committed comes after it. -/
theorem Precedes.lt {s : State} (hs : Precedes s) (hn : Numbers s)
    {m₁ m₂ : Row} (h₁ : m₁ ∈ s.committed) (h₂ : m₂ ∈ s.committed)
    (hbefore : m₁.seq ∈ m₂.before) : m₁.seq < m₂.seq ∧ m₁.key < m₂.key := by
  obtain ⟨t, p, hp, -, hmem⟩ := mem_committed.mp h₂
  obtain ⟨hxid, hb⟩ := hs.rows p (List.mem_of_getElem? hp) m₂ hmem
  obtain ⟨n, hn', hseq, hseqs, hxids⟩ := hs.before p (List.mem_of_getElem? hp) m₁.seq (hb ▸ hbefore)
  obtain rfl := hn.unique hn' h₁ hseq
  exact ⟨hseqs m₂.seq (Row.seq_mem_seqs hmem),
    Prod.Lex.toLex_lt_toLex.mpr (.inl (hxids m₂.xid hxid))⟩

/-! ## The law -/

/-- What ordered instances hand out is the earliest delivery. -/
theorem handedOut_ordered {s : State} (hs : Foremost s) {o : Op} {q : Nat} {attempt : Int}
    (hok : ordered s o = true) (h : .handedOut q attempt ∈ (step s o).2) :
    (∃ d ∈ s.deliveries, d.seq = q) ∧ ∀ e ∈ s.deliveries, q ≤ e.seq := by
  obtain ⟨locked, rfl, -⟩ | ⟨-, seen, hseen, rfl, hthere⟩ := handedOut_spec h
  · cases hok
  · exact ⟨hthere, hs seen hseen⟩

/-- The invariant of an ordered durable. -/
theorem precedes_reach {ok : State → Op → Prop} {spec : SubscriptionSpec}
    {h : List (List Note)} {s : State} (hr : Reach step ok (created spec) h s) : Precedes s := by
  induction hr with
  | nil => exact ⟨by simp [created], by simp [created], by simp [created]⟩
  | snoc o _ hr ih => exact ih.moves (step_moves _ o) (sound_reach hr).numbers

/-- The delivery in flight is in front in every run whose steps are in turn. -/
theorem inFront_reach {spec : SubscriptionSpec} {h : List (List Note)} {s : State}
    (hr : Reach step (fun s o => orderedInTurn s o = true) (created spec) h s) : InFront s := by
  induction hr with
  | nil => exact fun d hd => by simp [created] at hd
  | snoc o hok hr ih => exact ih.step (foremost_reach hr) o hok

/-- **An ordered durable hands out in order, and one at a time while no message is
queued below a delivery in flight.** In every run of ordered instances, a message whose
publish began after another one was committed is handed out only when the other one
has no delivery any more: it was queued, unless the retention purge took it first. In
every such run whose advances are in turn, at most one delivery holds an unexpired
lease in every state reached. -/
theorem ordered_one_at_a_time (spec : SubscriptionSpec) :
    (∀ h s, Reach step (fun s o => orderedInTurn s o = true) (created spec) h s →
      (s.deliveries.filter (·.leased s.clock)).length ≤ 1) ∧
      ∀ h s, Reach step (fun s o => ordered s o = true) (created spec) h s →
        ∀ m₁ ∈ s.committed, ∀ m₂ ∈ s.committed, m₁.seq ∈ m₂.before →
        spec.selects m₁.subject = true →
          ∀ o, ordered s o = true → ∀ attempt, .handedOut m₂.seq attempt ∈ (step s o).2 →
            (∀ d ∈ s.deliveries, d.seq ≠ m₁.seq) ∧
            (m₁ ∈ s.messages → .queued m₁.seq ∈ h.flatten) := by
  refine ⟨fun h s hr => (inFront_reach hr).leased (sound_reach hr).considered.nodup,
    fun h s hr m₁ h₁ m₂ h₂ hbefore hsel o ho attempt hout => ?_⟩
  have hs := sound_reach hr
  obtain ⟨hseq, hkey⟩ := (precedes_reach hr).lt hs.numbers h₁ h₂ hbefore
  obtain ⟨⟨d, hd, hdseq⟩, hfront⟩ := handedOut_ordered (foremost_reach hr) ho hout
  refine ⟨fun d hd heq => absurd (hfront d hd) (by omega), fun hm₁ => ?_⟩
  -- the delivery of the later message was queued, so the position is past both
  obtain ⟨n, hn, hnseq, hle⟩ := hs.considered.known m₂.seq
    (hs.considered.queued _ (hdseq ▸ hs.considered.deliveries d hd))
  obtain rfl := hs.numbers.unique hn h₂ hnseq
  have hcons := hs.considered.all m₁ hm₁ (hkey.le.trans hle)
  exact (hs.considered.selected m₁ h₁ hcons).mpr hsel

/-- The second publisher's message is handed out, then the first one's is committed and
queued below it. -/
def crossedClaims : List Op :=
  crossed ++ round ++ [.look, .claimOrdered, .assign 0, .write 0 (moved [1]), .commit 0] ++ round ++
    [.look, .claimOrdered]

/-- Two deliveries of an ordered durable hold unexpired leases. -/
theorem ordered_two_at_a_time :
    ¬ ∀ h s, Reach step (fun s o => ordered s o = true) (created moves) h s →
      (s.deliveries.filter (·.leased s.clock)).length ≤ 1 := by
  intro hall
  have hok : allAllowed step (fun s o => ordered s o = true) (created moves) crossedClaims =
    true := by decide +kernel
  exact absurd (hall _ _ (reach_of_allAllowed crossedClaims hok)) (by decide +kernel)

/-- Two messages, published one after the other; the first one is handed out and
acknowledged. -/
def inTurnClaims : List Op :=
  [.begin_, .draw 0, .assign 0, .write 0 (moved [1]), .commit 0, .begin_, .draw 1, .assign 1,
    .write 1 (moved [2]), .commit 1] ++ round ++ [.look, .claimOrdered, .look, .claimOrdered,
    .settle 0 .ack, .look]

theorem ordered_one_at_a_time_moves :
    let run := runOps step (created moves) inTurnClaims
    (run.2.deliveries.filter (·.leased run.2.clock)).length ≤ 1 ∧ .handedOut 2 1 ∈
    (step run.2 .claimOrdered).2 ∧
      (∀ d ∈ run.2.deliveries, d.seq ≠ 1) ∧ .queued 1 ∈ run.1.flatten := by
  have hturn : allAllowed step (fun s o => orderedInTurn s o = true) (created moves)
    inTurnClaims = true := by
    decide +kernel
  have hok : allAllowed step (fun s o => ordered s o = true) (created moves) inTurnClaims =
    true := by decide +kernel
  have hrows : (runOps step (created moves) inTurnClaims).2.messages.map
    (fun m => (m.seq, m.before, m.subject)) =
      [(1, [], str "be.stock.0.moved"), (2, [1], str "be.stock.0.moved")] := by decide +kernel
  have hr := reach_of_allAllowed inTurnClaims hok
  have hin := (sound_reach hr).numbers.messages
  obtain ⟨m₁, hm₁, heq₁⟩ := List.mem_map.mp (hrows.symm ▸ List.mem_cons_self)
  obtain ⟨m₂, hm₂, heq₂⟩ := List.mem_map.mp (hrows.symm ▸ List.mem_cons_of_mem _ List.mem_cons_self)
  simp only [Prod.mk.injEq] at heq₁ heq₂
  have hlaw := (ordered_one_at_a_time moves).2 _ _ hr m₁ (hin m₁ hm₁) m₂ (hin m₂ hm₂)
    (by rw [heq₁.1, heq₂.2.1]; decide) (by rw [heq₁.2.2]; decide +kernel) .claimOrdered rfl 1
    (by rw [heq₂.1]; decide +kernel)
  rw [heq₁.1] at hlaw
  exact ⟨(ordered_one_at_a_time moves).1 _ _ (reach_of_allAllowed inTurnClaims hturn), by
    decide +kernel, hlaw.1, hlaw.2 hm₁⟩

end BeSdk.Events.Queue
