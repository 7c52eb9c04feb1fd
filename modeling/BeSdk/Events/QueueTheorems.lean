/-
BeSdk.Events.QueueTheorems — the queue reads every committed message once.

Three orders differ: that of the sequence numbers, that of the transaction IDs, and
that of the commits. What ties them together is the HORIZON: every transaction that
is still running, and every later one, has a transaction ID above the read position
(`Horizon`). So a message that commits is always ahead of the position, and the rows
an advance read below the snapshot's xmin stay exactly the rows up to the last of
them, whoever commits meanwhile. `Numbers` says that sequence numbers are drawn
once, `Considered` that the notes of a run count each message at or below the
position once and no other.

* `queue_exactly_once`: the messages queued are the matching committed ones at or
  below the position, each once; the position moves forward only, and past every
  message below the horizon after enough advances.
-/
import BeSdk.Events.Queue
import BeSdk.Lib.History
import BeSdk.Lib.Keyset
import Mathlib.Order.RelClasses

namespace BeSdk.Events.Queue

/-! ## What a step does -/

/-- The sequence numbers of a transaction. -/
def Publisher.seqs (p : Publisher) : List Nat := p.drawn.toList ++ p.rows.map Row.seq

/-- How a publisher runs on, from `s` to where the counters stand at `nextSeq` and
`nextXid`. -/
structure Goes (s : State) (p p' : Publisher) (nextSeq nextXid : Nat) : Prop where
  nodup : (∀ q ∈ p.seqs, q < s.nextSeq) → p.seqs.Nodup → p'.seqs.Nodup
  seqs : ∀ q ∈ p'.seqs, q ∈ p.seqs ∨ (s.nextSeq ≤ q ∧ q < nextSeq)
  keeps : ∀ x ∈ p.xid, x ∈ p'.xid
  xid : ∀ x ∈ p'.xid, x ∈ p.xid ∨ (s.nextXid ≤ x ∧ x < nextXid)
  before : p'.before = p.before
  rows : ∀ m ∈ p'.rows, m ∈ p.rows ∨ (p'.xid = some m.xid ∧ m.before = p.before)

/-- Neither a message nor a delivery is added. -/
structure Quiet (s s' : State) : Prop where
  spec : s'.spec = s.spec
  publishers : s'.publishers = s.publishers
  messages : s'.messages.Sublist s.messages
  pos : s'.pos = s.pos
  nextSeq : s'.nextSeq = s.nextSeq
  nextXid : s'.nextXid = s.nextXid
  holder : s'.holder = s.holder ∨ s'.holder = none
  deliveries : (s'.deliveries.map DeliveryRow.seq).Sublist (s.deliveries.map DeliveryRow.seq)

/-- A note of the read position. -/
def Note.queueing : Note → Bool
  | .considered _ => true
  | .queued _ => true
  | _ => false

/-- A step, as publishers and the read position see it. -/
inductive Moves (s : State) : State → List Note → Prop
  | begins : Moves s { s with publishers := s.publishers ++
      [{ before := s.committed.map Row.seq }] } []
  | publishes (t : Nat) (go : Publisher → Publisher) (nextSeq nextXid : Nat) :
      s.nextSeq ≤ nextSeq → s.nextXid ≤ nextXid →
      (∀ p, p.stage = .running → Goes s p (go p) nextSeq nextXid ∧ (go p).stage ≠ .committed) →
      Moves s { s.publish t go with nextSeq, nextXid } []
  | commits (t : Nat) : Moves s (s.commit t) []
  | locks (began : Seconds) :
      Moves s { s with holder := some (.advance { xid := s.nextXid, began }),
                       nextXid := s.nextXid + 1 } []
  | fetches (a : Advance) (rows : List Row) : s.advance = some a →
      rows = (pending s.messages s.pos s.xmin).take advanceBatch →
      Moves s { s with holder := some (.advance { a with rows := some rows }) } []
  | advances (a : Advance) (rows : List Row) (last : Row) (queued : List Row) :
      s.advance = some a → a.rows = some rows → rows.getLast? = some last →
      queued = missing s.deliveries (rows.filter fun m => s.spec.selects m.subject) →
      Moves s
        { s with holder := none, pos := last.key, deliveries := s.deliveries ++
          queued.map (newDelivery a.began) }
        ((rows.map fun m => .considered m.seq) ++ queued.map fun m => .queued m.seq)
  | looks : s.holder = none → Moves s { s with holder := s.dueFirst.map .claim } []
  | quiet (s' : State) (notes : List Note) : Quiet s s' → (∀ n ∈ notes, n.queueing = false) →
      Moves s s' notes

/-! ### Publishers -/

/-- Drawing a number takes the next one. -/
theorem draw_goes (s : State) (p : Publisher) (nextXid : Nat) :
    Goes s p { p with drawn := some s.nextSeq } (s.nextSeq + 1) nextXid where
  nodup hlt hnodup := by
    have hrows := (List.nodup_append'.mp hnodup).2.1
    refine List.nodup_cons.mpr ⟨fun hmem => ?_, hrows⟩
    exact absurd (hlt _ (List.mem_append_right _ hmem)) (lt_irrefl _)
  seqs q hq := by
    rcases List.mem_cons.mp hq with rfl | hq
    · exact .inr ⟨le_refl _, Nat.lt_succ_self _⟩
    · exact .inl (List.mem_append_right _ hq)
  keeps _ hx := hx
  xid _ hx := .inl hx
  before := rfl
  rows _ hm := .inl hm

/-- Being given a transaction ID takes the next one. -/
theorem assign_goes (s : State) (p : Publisher) (nextSeq : Nat) :
    Goes s p { p with xid := some (p.xid.getD s.nextXid) } nextSeq (s.nextXid + 1) where
  nodup _ hnodup := hnodup
  seqs _ hq := .inl hq
  keeps x hx := by
    cases p with
    | mk xid => cases hx; rfl
  xid x hx := by
    obtain ⟨_ | y, drawn, rows, stage, before⟩ := p
    · cases hx
      exact .inr ⟨le_refl _, Nat.lt_succ_self _⟩
    · exact .inl hx
  before := rfl
  rows _ hm := .inl hm

theorem stage_goes (s : State) (p : Publisher) (stage : Stage) :
    Goes s p { p with stage } s.nextSeq s.nextXid :=
  ⟨fun _ h => h, fun _ h => .inl h, fun _ h => h, fun _ h => .inl h, rfl, fun _ h => .inl h⟩

/-- Writing a message takes no number and stays in its stage. -/
theorem write_goes (s : State) (m : Message) (p : Publisher) :
    Goes s p (p.write m) s.nextSeq s.nextXid ∧ (p.write m).stage = p.stage := by
  unfold Publisher.write
  split
  · next x q hxid hdrawn =>
    obtain ⟨xid, drawn, rows, stage, before⟩ := p
    cases hxid
    cases hdrawn
    refine ⟨⟨fun _ hnodup => ?_, fun r hr => .inl ?_, fun _ h => h, fun _ h => .inl h, rfl,
      fun r hr => ?_⟩, rfl⟩
    · simp only [Publisher.seqs, Option.toList_some, List.cons_append, List.nil_append,
        List.nodup_cons] at hnodup
      simp only [Publisher.seqs, Option.toList_none, List.nil_append, List.map_append,
        List.map_cons, List.map_nil]
      exact List.nodup_append'.mpr ⟨hnodup.2, List.nodup_singleton _, by simpa using hnodup.1⟩
    · simpa [Publisher.seqs, or_comm] using hr
    · rcases List.mem_append.mp hr with hr | hr
      · exact .inl hr
      · rw [List.mem_singleton.mp hr]
        exact .inr ⟨rfl, rfl⟩
  · exact ⟨stage_goes s p p.stage, rfl⟩

/-- A running publisher changes, or nothing does. -/
theorem publish_spec (s : State) (t : Nat) (go : Publisher → Publisher) :
    (∃ p, s.publishers[t]? = some p ∧ p.stage = .running ∧ s.rowsOf t = p.rows ∧
      s.publish t go = { s with publishers := s.publishers.set t (go p) }) ∨
      (s.publish t go = s ∧ s.rowsOf t = []) := by
  unfold State.publish State.rowsOf
  split
  · next p hp =>
    split
    · next hrun => exact .inl ⟨p, hp, hrun, rfl, rfl⟩
    · exact .inr ⟨rfl, rfl⟩
  · exact .inr ⟨rfl, rfl⟩

@[simp] theorem publish_nextSeq (s : State) (t : Nat) (go : Publisher → Publisher) :
    (s.publish t go).nextSeq = s.nextSeq := by
  rcases publish_spec s t go with ⟨_, -, -, -, heq⟩ | ⟨heq, -⟩ <;> rw [heq]

@[simp] theorem publish_nextXid (s : State) (t : Nat) (go : Publisher → Publisher) :
    (s.publish t go).nextXid = s.nextXid := by
  rcases publish_spec s t go with ⟨_, -, -, -, heq⟩ | ⟨heq, -⟩ <;> rw [heq]

/-! ### Deliveries -/

/-- An update that keeps the numbers keeps their list. -/
theorem updateWhere_seqs {p : DeliveryRow → Bool} {f : DeliveryRow → DeliveryRow}
    (hf : ∀ d, (f d).seq = d.seq) (l : List DeliveryRow) :
    (updateWhere p f l).map DeliveryRow.seq = l.map DeliveryRow.seq := by
  rw [updateWhere, List.map_map]
  refine List.map_congr_left fun d _ => ?_
  rw [Function.comp]
  split
  · exact hf d
  · rfl

/-- `first` finds the smallest number among the rows that hold. -/
theorem first_eq_some {p : DeliveryRow → Bool} {l : List DeliveryRow} {seq : Nat}
    (h : first p l = some seq) : (∃ d ∈ l, p d = true ∧ d.seq = seq) ∧ ∀ d ∈ l, p d = true →
    seq ≤ d.seq := by
  obtain ⟨hmem, hle⟩ := List.min?_eq_some_iff.mp h
  obtain ⟨d, hd, rfl⟩ := List.mem_map.mp hmem
  obtain ⟨hd', hp⟩ := List.mem_filter.mp hd
  exact ⟨⟨d, hd', hp, rfl⟩, fun e he hpe => hle _
    (List.mem_map_of_mem (List.mem_filter.mpr ⟨he, hpe⟩))⟩

theorem Quiet.refl (s : State) : Quiet s s :=
  ⟨rfl, rfl, .refl _, rfl, rfl, rfl, .inl rfl, .refl _⟩

theorem Quiet.advance {s s' : State} (h : Quiet s s') :
    s'.advance = s.advance ∨ s'.advance = none := by
  rcases h.holder with h | h <;> simp [State.advance, h]

/-- Quiet steps compose. -/
theorem Quiet.trans {a b c : State} (hab : Quiet a b) (hbc : Quiet b c) : Quiet a c where
  spec := hbc.spec.trans hab.spec
  publishers := hbc.publishers.trans hab.publishers
  messages := hbc.messages.trans hab.messages
  pos := hbc.pos.trans hab.pos
  nextSeq := hbc.nextSeq.trans hab.nextSeq
  nextXid := hbc.nextXid.trans hab.nextXid
  holder := by
    rcases hbc.holder with h | h
    · rw [h]
      exact hab.holder
    · exact .inr h
  deliveries := hbc.deliveries.trans hab.deliveries

/-- A deletion is quiet, and notes the end of deliveries only. -/
theorem deleteWhere_quiet (s : State) (p : DeliveryRow → Bool) (why : Reason) :
    Quiet s (s.deleteWhere p why).1 ∧ ∀ n ∈ (s.deleteWhere p why).2, n.queueing = false := by
  refine ⟨⟨rfl, rfl, .refl _, rfl, rfl, rfl, .inl rfl, List.filter_sublist.map _⟩, fun n hn => ?_⟩
  obtain ⟨d, -, rfl⟩ := List.mem_map.mp hn
  rfl

/-- An update that keeps the numbers is quiet. -/
theorem updateWhere_quiet (s : State) (p : DeliveryRow → Bool) {f : DeliveryRow → DeliveryRow}
    (hf : ∀ d, (f d).seq = d.seq) : Quiet s { s with deliveries := updateWhere p f s.deliveries } :=
  ⟨rfl, rfl, .refl _, rfl, rfl, rfl, .inl rfl, by rw [updateWhere_seqs hf]⟩

theorem lease_seqs (s : State) (seq : Nat) :
    (s.lease seq).deliveries.map DeliveryRow.seq = s.deliveries.map DeliveryRow.seq := by
  rw [State.lease, updateWhere_seqs]
  exact fun _ => rfl

theorem lease_quiet (s : State) (seq : Nat) : Quiet s (s.lease seq) :=
  ⟨rfl, rfl, .refl _, rfl, rfl, rfl, .inl rfl, by rw [lease_seqs]⟩

theorem take_deliveries (s : State) (seq : Nat) :
    (s.take (some seq)).1.deliveries = (s.lease seq).deliveries := by
  simp only [State.take]
  split <;> rfl

/-- Taking a delivery is quiet. -/
theorem take_quiet (s : State) (seq : Option Nat) :
    Quiet s (s.take seq).1 ∧ ∀ n ∈ (s.take seq).2, n.queueing = false := by
  unfold State.take
  split
  · exact ⟨.refl s, by simp⟩
  · next seq =>
    have hlease := lease_quiet s seq
    split
    · exact ⟨⟨rfl, rfl, .refl _, rfl, rfl, rfl, .inl rfl, hlease.deliveries⟩, by
        simp [Note.queueing]⟩
    · exact ⟨hlease, by simp⟩

/-- The subscription's row is given back. -/
theorem released_quiet (s : State) : Quiet s { s with holder := none } :=
  ⟨rfl, rfl, .refl _, rfl, rfl, rfl, .inr rfl, .refl _⟩

/-- The second statement of an ordered claim is quiet. -/
theorem claimOrdered_quiet (s : State) :
    Quiet s s.claimOrdered.1 ∧ ∀ n ∈ s.claimOrdered.2, n.queueing = false := by
  unfold State.claimOrdered
  split
  · next seen _ =>
    have hfree := released_quiet s
    generalize { s with holder := none } = free at hfree
    obtain ⟨htake, hnotes⟩ := take_quiet free (some seen.seq)
    dsimp only
    split
    · exact ⟨hfree.trans htake, hnotes⟩
    · obtain ⟨hdel, hdeleted⟩ := deleteWhere_quiet (free.take (some seen.seq)).1
        (fun d => d.under s.nextToken) .gone
      exact ⟨(hfree.trans htake).trans hdel, fun n hn => (List.mem_append.mp hn).elim
        (hdeleted n) (hnotes n)⟩
  · exact ⟨.refl s, by simp⟩

/-- Settling a delivery is quiet, whatever the outcome. -/
theorem settle_quiet (s : State) (k : Nat) (out : Outcome) :
    Quiet s (s.settle k out).1 ∧ ∀ n ∈ (s.settle k out).2, n.queueing = false := by
  unfold State.settle
  split
  · exact ⟨.refl s, by simp⟩
  · split
    · exact deleteWhere_quiet ..
    · exact ⟨updateWhere_quiet s _ fun _ => rfl, by simp⟩

/-- A purge of messages is quiet. -/
theorem purge_quiet (s : State) (old : List Nat) :
    Quiet s (s.purge old).1 ∧ ∀ n ∈ (s.purge old).2, n.queueing = false := by
  obtain ⟨hdel, hnotes⟩ := deleteWhere_quiet
    { s with messages := s.messages.filter fun m => !old.contains m.seq }
    (fun d => ((s.messages.filter fun m => old.contains m.seq).map Row.seq).contains d.seq) .purged
  have hquiet : Quiet s { s with messages := s.messages.filter fun m => !old.contains m.seq } :=
    ⟨rfl, rfl, List.filter_sublist, rfl, rfl, rfl, .inl rfl, .refl _⟩
  exact ⟨hquiet.trans hdel, hnotes⟩

/-- The advance of the position is one of the moves. -/
theorem advanced_moves (s : State) : Moves s s.advanced.1 s.advanced.2 := by
  unfold State.advanced
  split
  · next xid began rows hadv =>
    split
    · exact .quiet _ _ (released_quiet s) (by simp)
    · next last hlast => exact .advances ⟨xid, began, some rows⟩ rows last _ hadv rfl hlast rfl
  · exact .quiet _ _ (.refl s) (by simp)

/-- A publisher's step before its commit is one of the moves. -/
theorem publish_moves (s : State) (t : Nat) (go : Publisher → Publisher)
    (hgo : ∀ p, p.stage = .running → Goes s p (go p) s.nextSeq s.nextXid ∧
      (go p).stage ≠ .committed) :
    Moves s (s.publish t go) [] := by
  have hmoves := Moves.publishes t go s.nextSeq s.nextXid (le_refl _) (le_refl _) hgo
  rwa [← publish_nextSeq s t go, ← publish_nextXid s t go] at hmoves

theorem inProgress_quiet (s : State) (k : Nat) : Quiet s (s.inProgress k) := by
  unfold State.inProgress
  split
  · exact .refl s
  · exact updateWhere_quiet s _ fun _ => rfl

theorem look_moves (s : State) : Moves s s.look [] := by
  unfold State.look
  split
  · exact .quiet _ _ (.refl s) (by simp)
  · next hfree => exact .looks hfree

/-- Every step is one of the moves. -/
theorem step_moves (s : State) (o : Op) : Moves s (step s o).1 (step s o).2 := by
  cases o with
  | begin_ => exact .begins
  | draw t =>
      have hmoves := Moves.publishes t (fun p => { p with drawn := some s.nextSeq })
        (s.nextSeq + 1) s.nextXid (Nat.le_succ _) (le_refl _) fun p hp =>
        ⟨draw_goes s p _, by simp [hp]⟩
      rwa [← publish_nextXid s t] at hmoves
  | assign t =>
      have hmoves := Moves.publishes t
        (fun p => { p with xid := some (p.xid.getD s.nextXid) }) s.nextSeq
        (s.nextXid + 1) (le_refl _) (Nat.le_succ _) fun p hp => ⟨assign_goes s p _, by simp [hp]⟩
      rwa [← publish_nextSeq s t] at hmoves
  | write t m =>
      exact publish_moves s t _ fun p hp =>
        ⟨(write_goes s m p).1, by rw [(write_goes s m p).2, hp]; decide⟩
  | commit t => exact .commits t
  | abort t => exact publish_moves s t _ fun p hp => ⟨stage_goes s p .aborted, by simp⟩
  | lock =>
      simp only [step]
      split
      · exact .quiet _ _ (.refl s) (by simp)
      · exact .locks _
  | fetch =>
      simp only [step]
      split
      · next xid began hadv => exact .fetches ⟨xid, began, none⟩ _ hadv rfl
      · exact .quiet _ _ (.refl s) (by simp)
  | advanced => exact advanced_moves s
  | rolledBack => exact .quiet _ _ (released_quiet s) (by simp [step])
  | claim locked => exact .quiet _ _ (take_quiet ..).1 (take_quiet ..).2
  | look => exact look_moves s
  | claimOrdered => exact .quiet _ _ (claimOrdered_quiet s).1 (claimOrdered_quiet s).2
  | dropGone token => exact .quiet _ _ (deleteWhere_quiet ..).1 (deleteWhere_quiet ..).2
  | settle k out => exact .quiet _ _ (settle_quiet ..).1 (settle_quiet ..).2
  | inProgress k => exact .quiet _ _ (inProgress_quiet s k) (by simp [step])
  | giveUp => exact .quiet _ _ (deleteWhere_quiet ..).1 (deleteWhere_quiet ..).2
  | purge old => exact .quiet _ _ (purge_quiet ..).1 (purge_quiet ..).2
  | tick now =>
      exact .quiet _ _ ⟨rfl, rfl, .refl _, rfl, rfl, rfl, .inl rfl, .refl _⟩ (by simp [step])

/-! ### The earliest delivery -/

/-- What the first statement of an ordered claim reads is the first delivery of all, and
due. -/
theorem dueFirst_spec {s : State} {d : DeliveryRow} (h : s.dueFirst = some d) :
    d ∈ s.deliveries ∧ d.due s.spec s.clock = true ∧ ∀ e ∈ s.deliveries, d.seq ≤ e.seq := by
  obtain ⟨seq, hfirst, hfind⟩ := Option.bind_eq_some_iff.mp h
  have hd := List.find?_some hfind
  rw [Bool.and_eq_true, decide_eq_true_iff] at hd
  refine ⟨List.mem_of_find?_eq_some hfind, hd.2, fun e he => ?_⟩
  rw [hd.1]
  exact (first_eq_some hfirst).2 e he rfl

/-- What an ordered claim has seen it saw before, and no delivery was queued since, or
it sees it now. -/
theorem seen_moves {s s' : State} {notes : List Note} (hmoves : Moves s s' notes) {d : DeliveryRow}
    (h : s'.seen = some d) :
    (s.seen = some d ∧ (s'.deliveries.map DeliveryRow.seq).Sublist
      (s.deliveries.map DeliveryRow.seq)) ∨
      (s.dueFirst = some d ∧ s'.deliveries = s.deliveries) := by
  cases hmoves with
  | begins => exact .inl ⟨h, .refl _⟩
  | publishes t go | commits t =>
      left
      simp only [State.commit] at h ⊢
      rcases publish_spec s t _ with ⟨_, -, -, -, heq⟩ | ⟨heq, -⟩ <;> rw [heq] at h ⊢ <;>
        exact ⟨h, .refl _⟩
  | locks | fetches | advances => cases h
  | looks =>
      rw [State.seen] at h
      cases hdue : s.dueFirst with
      | none =>
          rw [hdue] at h
          cases h
      | some e =>
          rw [hdue] at h
          cases h
          exact .inr ⟨rfl, rfl⟩
  | quiet _ _ hq _ =>
      left
      rcases hq.holder with heq | heq
      · rw [State.seen, heq] at h
        exact ⟨h, hq.deliveries⟩
      · rw [State.seen, heq] at h
        cases h

/-! ### Handouts -/

/-- A claim hands out the delivery it names, which is there. -/
theorem take_handedOut {s : State} {seq : Option Nat} {q : Nat} {attempt : Int}
    (h : .handedOut q attempt ∈ (s.take seq).2) : seq = some q ∧ ∃ d ∈ s.deliveries, d.seq = q := by
  unfold State.take at h
  split at h
  · simp at h
  · split at h
    · next d m hd _ =>
      simp only [List.mem_singleton, Note.handedOut.injEq] at h
      rw [h.1]
      exact ⟨rfl, d, List.mem_of_find?_eq_some hd, by simpa using List.find?_some hd⟩
    · simp at h

/-- What an ordered claim hands out is what its first statement read, and still queued. -/
theorem claimOrdered_handedOut {s : State} {q : Nat} {attempt : Int}
    (h : .handedOut q attempt ∈ s.claimOrdered.2) :
    ∃ seen, s.seen = some seen ∧ seen.seq = q ∧ ∃ d ∈ s.deliveries, d.seq = q := by
  unfold State.claimOrdered at h
  split at h
  · next seen hholder =>
    have htaken : .handedOut q attempt ∈
      (State.take { s with holder := none } (some seen.seq)).2 := by
      dsimp only at h
      split at h
      · exact h
      · refine (List.mem_append.mp h).resolve_left fun h => ?_
        obtain ⟨_, -, heq⟩ := List.mem_map.mp h
        cases heq
    obtain ⟨hseq, hthere⟩ := take_handedOut htaken
    exact ⟨seen, by rw [State.seen, hholder], Option.some.inj hseq, hthere⟩
  · simp at h

/-- Only claims hand out. -/
theorem handedOut_spec {s : State} {o : Op} {q : Nat} {attempt : Int}
    (h : .handedOut q attempt ∈ (step s o).2) :
    (∃ locked, o = .claim locked ∧ s.due locked = some q) ∨
      (o = .claimOrdered ∧
        ∃ seen, s.seen = some seen ∧ seen.seq = q ∧ ∃ d ∈ s.deliveries, d.seq = q) := by
  cases o with
  | claim locked => exact .inl ⟨locked, rfl, (take_handedOut h).1⟩
  | claimOrdered => exact .inr ⟨rfl, claimOrdered_handedOut h⟩
  | advanced =>
      simp only [step, State.advanced] at h
      split at h
      · split at h
        · simp at h
        · simp at h
      · simp at h
  | lock | fetch =>
      simp only [step] at h
      split at h <;> simp at h
  | settle k out =>
      simp only [step, State.settle] at h
      split at h
      · simp at h
      · split at h
        · simp [State.deleteWhere] at h
        · simp at h
  | dropGone token | giveUp | purge old =>
      simp [step, State.giveUp, State.purge, State.deleteWhere] at h
  | begin_ | draw t | assign t | write t m | commit t | abort t | inProgress k | rolledBack | look
  | tick now =>
      simp [step] at h

/-! ## Numbers -/

/-- Every sequence number was drawn once. -/
structure Numbers (s : State) : Prop where
  own : ∀ (t : Nat) (p : Publisher), s.publishers[t]? = some p → p.seqs.Nodup ∧
    ∀ q ∈ p.seqs, q < s.nextSeq
  others : ∀ (t u : Nat) (p q : Publisher), s.publishers[t]? = some p → s.publishers[u]? =
    some q → t ≠ u → p.seqs.Disjoint q.seqs
  messages : ∀ m ∈ s.messages, m ∈ s.committed
  nodup : (s.messages.map Row.seq).Nodup

/-- The committed rows are those of the committed publishers. -/
theorem mem_committed {s : State} {m : Row} :
    m ∈ s.committed ↔ ∃ (t : Nat) (p : Publisher), s.publishers[t]? = some p ∧
    p.stage = .committed ∧ m ∈ p.rows := by
  rw [State.committed, List.mem_flatMap]
  constructor
  · rintro ⟨p, hp, hm⟩
    obtain ⟨t, ht⟩ := List.mem_iff_getElem?.mp hp
    split at hm
    · next hstage => exact ⟨t, p, ht, hstage, hm⟩
    · simp at hm
  · rintro ⟨t, p, hp, hstage, hm⟩
    exact ⟨p, List.mem_of_getElem? hp, by rwa [if_pos hstage]⟩

theorem Row.seq_mem_seqs {p : Publisher} {m : Row} (hm : m ∈ p.rows) : m.seq ∈ p.seqs :=
  List.mem_append_right _ (List.mem_map_of_mem hm)

/-- What was committed stays so, whatever a running publisher does. -/
theorem committed_publish {s : State} (t : Nat) (go : Publisher → Publisher)
    {m : Row} (hm : m ∈ s.committed) : m ∈ (s.publish t go).committed := by
  obtain ⟨u, p, hp, hstage, hmem⟩ := mem_committed.mp hm
  rcases publish_spec s t go with ⟨r, hr, hrun, -, heq⟩ | ⟨heq, -⟩
  · have hu : u ≠ t := by
      rintro rfl
      rw [hr] at hp
      cases hp
      rw [hrun] at hstage
      cases hstage
    rw [heq]
    exact mem_committed.mpr ⟨u, p, by rwa [List.getElem?_set_ne (Ne.symm hu)], hstage, hmem⟩
  · rwa [heq]

theorem committed_begins (s : State) (before : List Nat) :
    { s with publishers := s.publishers ++ [{ before }] : State }.committed = s.committed := by
  simp [State.committed]

/-- A committed row is known by its sequence number. -/
theorem Numbers.unique {s : State} (hs : Numbers s) {m n : Row} (hm : m ∈ s.committed)
    (hn : n ∈ s.committed) (heq : m.seq = n.seq) : m = n := by
  obtain ⟨t, p, hp, -, hmem⟩ := mem_committed.mp hm
  obtain ⟨u, q, hq, -, hnem⟩ := mem_committed.mp hn
  by_cases htu : t = u
  · subst htu
    rw [hp] at hq
    cases hq
    exact List.inj_on_of_nodup_map (List.nodup_append'.mp (hs.own t p hp).1).2.1 hmem hnem heq
  · exact absurd (heq ▸ Row.seq_mem_seqs hnem) (hs.others t u p q hp hq htu (Row.seq_mem_seqs hmem))

/-- A publisher runs on. -/
theorem Numbers.publish {s : State} (hs : Numbers s) {t : Nat} {go : Publisher → Publisher}
    {nextSeq nextXid : Nat} (hnext : s.nextSeq ≤ nextSeq)
    (hgo : ∀ p, p.stage = .running → Goes s p (go p) nextSeq nextXid) :
    Numbers { s.publish t go with nextSeq, nextXid } := by
  have hcommitted : ∀ m ∈ s.messages, m ∈ (s.publish t go).committed := fun m hm =>
    committed_publish t go (hs.messages m hm)
  rcases publish_spec s t go with ⟨p, hp, hrun, -, heq⟩ | ⟨heq, -⟩
  · rw [heq] at hcommitted ⊢
    have hgoes := hgo p hrun
    obtain ⟨hnodup, hlt⟩ := hs.own t p hp
    refine ⟨fun u q hq => ?_, fun u v q r hq hr huv => ?_, hcommitted, hs.nodup⟩
    · rcases getElem?_set_cases hq with ⟨rfl, rfl⟩ | ⟨-, hq'⟩
      · refine ⟨hgoes.nodup hlt hnodup, fun x hx => ?_⟩
        rcases hgoes.seqs x hx with hold | ⟨-, hx⟩
        · exact (hlt x hold).trans_le hnext
        · exact hx
      · exact ⟨(hs.own u q hq').1, fun x hx => ((hs.own u q hq').2 x hx).trans_le hnext⟩
    · have hfresh : ∀ w r, s.publishers[w]? = some r → w ≠ t → (go p).seqs.Disjoint r.seqs := by
        intro w r hr hw x hx hx'
        rcases hgoes.seqs x hx with hold | ⟨hge, -⟩
        · exact hs.others t w p r hp hr (Ne.symm hw) hold hx'
        · exact absurd ((hs.own w r hr).2 x hx') (not_lt.mpr hge)
      rcases getElem?_set_cases hq with ⟨rfl, rfl⟩ | ⟨hu, hq'⟩ <;>
        rcases getElem?_set_cases hr with ⟨rfl, rfl⟩ | ⟨hv, hr'⟩
      · exact absurd rfl huv
      · exact hfresh v r hr' hv
      · exact (hfresh u q hq' hu).symm
      · exact hs.others u v q r hq' hr' huv
  · rw [heq]
    exact ⟨fun u q hq => ⟨(hs.own u q hq).1, fun x hx => ((hs.own u q hq).2 x hx).trans_le hnext⟩,
      hs.others, hs.messages, hs.nodup⟩

/-- A transaction commits with its rows. -/
theorem Numbers.commit {s : State} (hs : Numbers s) (t : Nat) : Numbers (s.commit t) := by
  have hpublish : Numbers (s.publish t fun p => { p with stage := .committed }) := by
    have hgo := hs.publish (le_refl _) (t := t) fun p _ => stage_goes s p .committed
    rwa [← publish_nextSeq s t, ← publish_nextXid s t] at hgo
  unfold State.commit
  rcases publish_spec s t fun p => { p with stage := .committed } with
    ⟨p, hp, hrun, hrows, heq⟩ | ⟨heq, hrows⟩
  · rw [heq] at hpublish ⊢
    rw [hrows]
    refine ⟨hpublish.own, hpublish.others, fun m hm => ?_, ?_⟩
    · rcases List.mem_append.mp hm with hm | hm
      · exact hpublish.messages m hm
      · have ht : t < s.publishers.length := (List.getElem?_eq_some_iff.mp hp).1
        exact mem_committed.mpr ⟨t, _, List.getElem?_set_self ht, rfl, hm⟩
    · rw [List.map_append, List.nodup_append']
      refine ⟨hs.nodup, (List.nodup_append'.mp (hs.own t p hp).1).2.1, fun x hx hx' => ?_⟩
      obtain ⟨m, hm, rfl⟩ := List.mem_map.mp hx
      obtain ⟨u, q, hq, hstage, hmem⟩ := mem_committed.mp (hs.messages m hm)
      have hu : u ≠ t := by
        rintro rfl
        rw [hp] at hq
        cases hq
        rw [hrun] at hstage
        cases hstage
      exact hs.others u t q p hq hp hu (Row.seq_mem_seqs hmem) (List.mem_append_right _ hx')
  · rw [heq, hrows, List.append_nil]
    exact hs

/-- Every move keeps the numbers. -/
theorem Numbers.moves {s s' : State} {notes : List Note} (hmoves : Moves s s' notes)
    (hs : Numbers s) : Numbers s' := by
  cases hmoves with
  | begins =>
      refine ⟨fun u q hq => ?_, fun u v q r hq hr huv => ?_,
        fun m hm => by rw [committed_begins]; exact hs.messages m hm, hs.nodup⟩
      · rcases getElem?_join_cases hq with hq' | ⟨-, rfl⟩
        · exact hs.own u q hq'
        · simp [Publisher.seqs]
      · rcases getElem?_join_cases hq with hq' | ⟨-, rfl⟩ <;>
          rcases getElem?_join_cases hr with hr' | ⟨-, rfl⟩
        · exact hs.others u v q r hq' hr' huv
        all_goals simp [Publisher.seqs]
  | publishes t go nextSeq nextXid hseq _ hgo => exact hs.publish hseq fun p hp => (hgo p hp).1
  | commits t => exact hs.commit t
  | quiet _ _ hq _ =>
      refine ⟨?_, ?_, ?_, ?_⟩
      · rw [hq.publishers, hq.nextSeq]
        exact hs.own
      · rw [hq.publishers]
        exact hs.others
      · intro m hm
        have := hs.messages m (hq.messages.subset hm)
        rwa [State.committed, hq.publishers]
      · exact (hq.messages.map _).nodup hs.nodup
  | locks | fetches | looks | advances => exact ⟨hs.own, hs.others, hs.messages, hs.nodup⟩

/-! ## The horizon -/

/-- Every running transaction and every later one has at least this ID. -/
def Clear (s : State) (x : Nat) : Prop :=
  x ≤ s.nextXid ∧ ∀ p ∈ s.publishers, p.stage = .running → ∀ y ∈ p.xid, x ≤ y

/-- What an advance read: the rows after the position, up to the last of them. -/
structure Reads (s : State) (rows : List Row) : Prop where
  nodup : (rows.map Row.seq).Nodup
  ahead : ∀ m ∈ rows, s.pos < m.key ∧ m ∈ s.committed
  horizon : ∃ x, Clear s x ∧ ∀ m ∈ rows, m.xid < x
  upto : ∀ last ∈ rows.getLast?, (∀ m ∈ rows, m.key ≤ last.key) ∧
    ∀ m ∈ s.messages, s.pos < m.key → m.key ≤ last.key → m ∈ rows

/-- What commits later is ahead of the position, and of what an advance read. -/
structure Horizon (s : State) : Prop where
  running : ∀ p ∈ s.publishers, p.stage = .running →
    (∀ x ∈ p.xid, x < s.nextXid) ∧ ∀ m ∈ p.rows, p.xid = some m.xid
  position : Clear s ((ofLex s.pos).1 + 1)
  advance : ∀ a ∈ s.advance, ∀ rows ∈ a.rows, Reads s rows

theorem Clear.mono {s : State} {x y : Nat} (hs : Clear s x) (hle : y ≤ x) : Clear s y :=
  ⟨hle.trans hs.1, fun p hp hrun z hz => hle.trans (hs.2 p hp hrun z hz)⟩

/-- A key is at most another one only if its transaction ID is. -/
theorem Row.xid_le {m n : Row} (h : m.key ≤ n.key) : m.xid ≤ n.xid := by
  rcases Prod.Lex.toLex_le_toLex.mp h with hlt | ⟨heq, -⟩
  · exact hlt.le
  · exact heq.le

/-- A row above a position in its transaction ID is ahead of it. -/
theorem Row.ahead {m : Row} {pos : Position} (h : (ofLex pos).1 + 1 ≤ m.xid) : pos < m.key :=
  Prod.Lex.lt_iff.mpr (.inl h)

theorem Row.key_injective {m n : Row} (h : m.key = n.key) : m.seq = n.seq :=
  congrArg Prod.snd (toLex.injective h)

theorem le_foldl_min {a b : Nat} {l : List Nat} : a ≤ l.foldl min b ↔ a ≤ b ∧ ∀ y ∈ l, a ≤ y := by
  induction l generalizing b with
  | nil => simp
  | cons x l ih => rw [List.foldl_cons, ih, le_min_iff, List.forall_mem_cons, and_assoc]

theorem le_xmin {s : State} {x : Nat} :
    x ≤ s.xmin ↔ x ≤ s.nextXid ∧ ∀ y ∈ s.running, x ≤ y := le_foldl_min

/-- Nothing below `pg_snapshot_xmin` is running or will be. -/
theorem clear_xmin (s : State) : Clear s s.xmin := by
  obtain ⟨hnext, hrunning⟩ := le_xmin.mp (le_refl s.xmin)
  refine ⟨hnext, fun p hp hrun y hy => hrunning y (List.mem_append_left _ ?_)⟩
  exact List.mem_filterMap.mpr ⟨p, hp, by rw [if_pos hrun]; exact hy⟩

/-- The pending messages lie behind the position and before the horizon. -/
theorem mem_pending {messages : List Row} {pos : Position} {xmin : Nat} {m : Row} :
    m ∈ pending messages pos xmin ↔ m ∈ messages ∧ pos < m.key ∧ m.xid < xmin := by
  rw [pending, List.mem_insertionSort, List.mem_filter, Bool.and_eq_true, decide_eq_true_iff,
    decide_eq_true_iff]

/-- The rows are read in strict order. -/
theorem pending_sorted {messages : List Row} (hnodup : (messages.map Row.seq).Nodup)
    (pos : Position) (xmin : Nat) :
    (pending messages pos xmin).Pairwise fun a b => a.key < b.key := by
  have hsorted := List.pairwise_insertionSort (fun a b : Row => a.key ≤ b.key)
    (messages.filter fun m => decide (pos < m.key) && decide (m.xid < xmin))
  have hdistinct : ((pending messages pos xmin).map Row.seq).Nodup := by
    refine (((List.perm_insertionSort _ _).map _).nodup_iff).mpr ?_
    exact (List.filter_sublist.map _).nodup hnodup
  rw [List.Nodup, List.pairwise_map] at hdistinct
  exact (List.Pairwise.and hsorted hdistinct).imp fun ⟨hle, hne⟩ =>
    lt_of_le_of_ne hle fun heq => hne (Row.key_injective heq)

instance : IsStrictOrder Row fun a b => a.key < b.key where
  irrefl _ := lt_irrefl _
  trans _ _ _ := lt_trans

/-- A batch is what lies between the position and its last row. -/
theorem batch_reads {s : State} (hs : Numbers s) (n : Nat) :
    Reads s ((pending s.messages s.pos s.xmin).take n) := by
  have hsorted := pending_sorted hs.nodup s.pos s.xmin
  have hmem : ∀ m ∈ (pending s.messages s.pos s.xmin).take n, m ∈ s.messages ∧ s.pos < m.key ∧
    m.xid < s.xmin :=
    fun m hm => mem_pending.mp (List.mem_of_mem_take hm)
  refine ⟨?_, fun m hm => ⟨(hmem m hm).2.1, hs.messages m (hmem m hm).1⟩,
    ⟨s.xmin, clear_xmin s, fun m hm => (hmem m hm).2.2⟩,
    fun last hlast => ⟨fun m hm => ?_, fun m hm hpos hle => ?_⟩⟩
  · rw [List.Nodup, List.pairwise_map]
    refine (hsorted.sublist (List.take_sublist ..)).imp_of_mem fun {a b} ha hb hlt heq => ?_
    rw [hs.unique (hs.messages a (hmem a ha).1) (hs.messages b (hmem b hb).1) heq] at hlt
    exact lt_irrefl _ hlt
  · exact not_lt.mp ((Keyset.split_at_last hsorted hlast).1 m hm)
  · have hlast' := hmem last (List.mem_of_getLast? hlast)
    have hpending : m ∈ pending s.messages s.pos s.xmin :=
      mem_pending.mpr ⟨hm, hpos, (Row.xid_le hle).trans_lt hlast'.2.2⟩
    exact (Keyset.mem_take_iff hsorted hlast hpending).mpr (not_lt.mpr hle)

/-- The horizon rises with a publisher that runs on. -/
theorem Clear.publish {s : State} {x : Nat} (hs : Clear s x) {t : Nat} {go : Publisher → Publisher}
    {nextSeq nextXid : Nat} (hnext : s.nextXid ≤ nextXid)
    (hgo : ∀ p, p.stage = .running → Goes s p (go p) nextSeq nextXid) :
    Clear { s.publish t go with nextSeq, nextXid } x := by
  refine ⟨hs.1.trans hnext, fun q hq hrun y hy => ?_⟩
  rcases publish_spec s t go with ⟨p, hp, hprun, -, heq⟩ | ⟨heq, -⟩
  · rw [heq] at hq
    rcases List.mem_or_eq_of_mem_set hq with hq | rfl
    · exact hs.2 q hq hrun y hy
    · rcases (hgo p hprun).xid y hy with hy | ⟨hge, -⟩
      · exact hs.2 p (List.mem_of_getElem? hp) hprun y hy
      · exact hs.1.trans hge
  · rw [heq] at hq
    exact hs.2 q hq hrun y hy

/-- A publisher's step keeps what was read. -/
theorem Reads.publish {s : State} {rows : List Row} (hs : Reads s rows)
    {t : Nat} {go : Publisher → Publisher} {nextSeq nextXid : Nat} (hnext : s.nextXid ≤ nextXid)
    (hgo : ∀ p, p.stage = .running → Goes s p (go p) nextSeq nextXid) :
    Reads { s.publish t go with nextSeq, nextXid } rows := by
  obtain ⟨x, hclear, hlt⟩ := hs.horizon
  have hmessages : (s.publish t go).messages = s.messages ∧ (s.publish t go).pos = s.pos := by
    rcases publish_spec s t go with ⟨_, -, -, -, heq⟩ | ⟨heq, -⟩ <;> rw [heq] <;> exact ⟨rfl, rfl⟩
  refine ⟨hs.nodup, fun m hm => ⟨?_, committed_publish t go (hs.ahead m hm).2⟩,
    ⟨x, hclear.publish hnext hgo, hlt⟩, ?_⟩
  · rw [hmessages.2]
    exact (hs.ahead m hm).1
  · rw [hmessages.1, hmessages.2]
    exact hs.upto

/-- A publisher's step keeps the horizon. -/
theorem Horizon.publish {s : State} (hs : Horizon s) {t : Nat} {go : Publisher → Publisher}
    {nextSeq nextXid : Nat} (hnext : s.nextXid ≤ nextXid)
    (hgo : ∀ p, p.stage = .running → Goes s p (go p) nextSeq nextXid) :
    Horizon { s.publish t go with nextSeq, nextXid } := by
  refine ⟨fun q hq hrun => ?_, ?_, fun a ha rows hrows => ?_⟩
  · have hold : ∀ p ∈ s.publishers, p.stage = .running →
        (∀ x ∈ p.xid, x < nextXid) ∧ ∀ m ∈ p.rows, p.xid = some m.xid := fun p hp hp' =>
      ⟨fun x hx => ((hs.running p hp hp').1 x hx).trans_le hnext, (hs.running p hp hp').2⟩
    rcases publish_spec s t go with ⟨p, hp, hprun, -, heq⟩ | ⟨heq, -⟩
    · rw [heq] at hq
      rcases List.mem_or_eq_of_mem_set hq with hq | rfl
      · exact hold q hq hrun
      · have hgoes := hgo p hprun
        obtain ⟨hxid, hrows⟩ := hold p (List.mem_of_getElem? hp) hprun
        refine ⟨fun x hx => (hgoes.xid x hx).elim (hxid x) And.right, fun m hm => ?_⟩
        rcases hgoes.rows m hm with hm | hm
        · exact hgoes.keeps m.xid (hrows m hm)
        · exact hm.1
    · rw [heq] at hq
      exact hold q hq hrun
  · have hpos : (s.publish t go).pos = s.pos := by
      rcases publish_spec s t go with ⟨_, -, -, -, heq⟩ | ⟨heq, -⟩ <;> rw [heq]
    simp only [hpos]
    exact hs.position.publish hnext hgo
  · have hadv : (s.publish t go).advance = s.advance := by
      rcases publish_spec s t go with ⟨_, -, -, -, heq⟩ | ⟨heq, -⟩
      · rw [heq]
        rfl
      · rw [heq]
    exact (hs.advance a (by rwa [← hadv]) rows hrows).publish hnext hgo

/-- What commits is ahead of everything below the horizon. -/
theorem Horizon.commit {s : State} (hs : Horizon s) (t : Nat) : Horizon (s.commit t) := by
  have hpublish : Horizon (s.publish t fun p => { p with stage := .committed }) := by
    have hgo := hs.publish (le_refl _) (t := t) fun p _ => stage_goes s p .committed
    rwa [← publish_nextSeq s t, ← publish_nextXid s t] at hgo
  unfold State.commit
  refine ⟨hpublish.running, ?_, fun a ha rows hrows => ?_⟩
  · exact hpublish.position
  · have hreads := hpublish.advance a ha rows hrows
    obtain ⟨x, hclear, hlt⟩ := hreads.horizon
    refine ⟨hreads.nodup, hreads.ahead, ⟨x, hclear, hlt⟩,
      fun last hlast => ⟨(hreads.upto last hlast).1, ?_⟩⟩
    intro m hm hpos hle
    rcases publish_spec s t fun p => { p with stage := .committed } with ⟨p, hp, hrun,
      hrowsOf, heq⟩ | ⟨heq, hrowsOf⟩
    · rcases List.mem_append.mp hm with hm | hm
      · refine (hreads.upto last hlast).2 m ?_ hpos hle
        rwa [heq]
      · rw [hrowsOf] at hm
        have hadv : s.advance = some a := by rwa [heq] at ha
        obtain ⟨y, hy, hylt⟩ := (hs.advance a hadv rows hrows).horizon
        have hp' := List.mem_of_getElem? hp
        have hge : y ≤ m.xid := hy.2 p hp' hrun m.xid ((hs.running p hp' hrun).2 m hm)
        exact absurd (hylt last (List.mem_of_getLast? hlast))
          (not_lt.mpr (hge.trans (Row.xid_le hle)))
    · rw [hrowsOf, List.append_nil] at hm
      refine (hreads.upto last hlast).2 m ?_ hpos hle
      rwa [heq]

/-- Every move keeps the horizon. -/
theorem Horizon.moves {s s' : State} {notes : List Note} (hmoves : Moves s s' notes)
    (hn : Numbers s) (hs : Horizon s) : Horizon s' := by
  cases hmoves with
  | begins =>
      have hclear : ∀ x, Clear s x →
          Clear { s with publishers := s.publishers ++ [{ before := s.committed.map Row.seq }]
            } x := by
        refine fun x hx => ⟨hx.1, fun p hp hrun y hy => ?_⟩
        rcases List.mem_append.mp hp with hp | hp
        · exact hx.2 p hp hrun y hy
        · rw [List.mem_singleton.mp hp] at hy
          cases hy
      refine ⟨fun p hp hrun => ?_, hclear _ hs.position, fun a ha rows hrows => ?_⟩
      · rcases List.mem_append.mp hp with hp | hp
        · exact hs.running p hp hrun
        · rw [List.mem_singleton.mp hp]
          exact ⟨by simp, by simp⟩
      · obtain ⟨hnodup, hahead, ⟨x, hx, hlt⟩, hupto⟩ := hs.advance a ha rows hrows
        exact ⟨hnodup, by rw [committed_begins]; exact hahead, ⟨x, hclear x hx, hlt⟩, hupto⟩
  | publishes t go nextSeq nextXid _ hxid hgo => exact hs.publish hxid fun p hp => (hgo p hp).1
  | commits t => exact hs.commit t
  | locks began =>
      refine ⟨fun p hp hrun => ⟨fun x hx => ((hs.running p hp hrun).1 x hx).trans
        (Nat.lt_succ_self _), (hs.running p hp hrun).2⟩,
        ⟨hs.position.1.trans (Nat.le_succ _), hs.position.2⟩, ?_⟩
      rintro _ ⟨⟩ _ ⟨⟩
  | fetches a rows hadv hrows =>
      subst hrows
      refine ⟨hs.running, hs.position, ?_⟩
      rintro _ ⟨⟩ _ ⟨⟩
      obtain ⟨hnodup, hahead, hhorizon, hupto⟩ := batch_reads hn advanceBatch
      exact ⟨hnodup, hahead, hhorizon, hupto⟩
  | looks =>
      refine ⟨hs.running, hs.position, fun a ha => ?_⟩
      rw [State.advance] at ha
      cases hdue : s.dueFirst <;> rw [hdue] at ha <;> cases ha
  | advances a rows last queued hadv hrows hlast _ =>
      obtain ⟨-, -, ⟨x, hx, hlt⟩, -⟩ := hs.advance a hadv rows hrows
      refine ⟨hs.running, hx.mono (hlt last (List.mem_of_getLast? hlast)), ?_⟩
      rintro _ ⟨⟩
  | quiet _ _ hq _ =>
      have hclear : ∀ x, Clear s x → Clear s' x := by
        intro x hx
        unfold Clear
        rwa [hq.publishers, hq.nextXid]
      refine ⟨?_, ?_, fun a ha rows hrows => ?_⟩
      · rw [hq.publishers, hq.nextXid]
        exact hs.running
      · rw [hq.pos]
        exact hclear _ hs.position
      · rcases hq.advance with hadv | hadv
        · rw [hadv] at ha
          obtain ⟨hnodup, hahead, ⟨x, hx, hlt⟩, hupto⟩ := hs.advance a ha rows hrows
          refine ⟨hnodup, ?_, ⟨x, hclear x hx, hlt⟩,
            fun last hlast => ⟨(hupto last hlast).1, fun m hm => ?_⟩⟩
          · rw [State.committed, hq.publishers, hq.pos]
            exact hahead
          · rw [hq.pos]
            exact (hupto last hlast).2 m (hq.messages.subset hm)
        · rw [hadv] at ha
          cases ha

/-! ## What was considered -/

/-- The messages that were considered are those at or below the position, each once,
and those that match were queued with it. -/
structure Considered (spec : SubscriptionSpec) (notes : List Note) (s : State) : Prop where
  settings : s.spec = spec
  once : (notes.filter Note.queueing).Nodup
  known : ∀ q, .considered q ∈ notes → ∃ m ∈ s.committed, m.seq = q ∧ m.key ≤ s.pos
  all : ∀ m ∈ s.messages, m.key ≤ s.pos → .considered m.seq ∈ notes
  queued : ∀ q, .queued q ∈ notes → .considered q ∈ notes
  selected : ∀ m ∈ s.committed, .considered m.seq ∈ notes →
    (.queued m.seq ∈ notes ↔ spec.selects m.subject = true)
  deliveries : ∀ d ∈ s.deliveries, .queued d.seq ∈ notes
  nodup : (s.deliveries.map DeliveryRow.seq).Nodup

theorem mem_queueing {notes : List Note} {n : Note} (hn : n.queueing = true) :
    n ∈ notes.filter Note.queueing ↔ n ∈ notes := by
  rw [List.mem_filter, and_iff_left hn]

/-- A step that adds no note of the position, no delivery, and no message below it. -/
theorem Considered.frame {spec : SubscriptionSpec} {notes new : List Note} {s s' : State}
    (hs : Considered spec notes s) (hn : Numbers s') (hnew : ∀ n ∈ new, n.queueing = false)
    (hspec : s'.spec = s.spec) (hpos : s'.pos = s.pos)
    (hcommitted : ∀ m ∈ s.committed, m ∈ s'.committed)
    (hmessages : ∀ m ∈ s'.messages, m ∈ s.messages ∨ s.pos < m.key)
    (hdeliveries : (s'.deliveries.map DeliveryRow.seq).Sublist (s.deliveries.map DeliveryRow.seq)) :
    Considered spec (new ++ notes) s' := by
  have hmem : ∀ n : Note, n.queueing = true → (n ∈ new ++ notes ↔ n ∈ notes) := fun n hq =>
    ⟨fun hn => (List.mem_append.mp hn).resolve_left fun hin => by simp [hnew n hin] at hq,
      List.mem_append_right _⟩
  refine ⟨hspec.trans hs.settings, ?_, fun q hq => ?_, fun m hm hle => ?_, fun q hq => ?_,
    fun m hm hq => ?_, fun d hd => ?_, hdeliveries.nodup hs.nodup⟩
  · rw [List.filter_append, List.filter_eq_nil_iff.mpr fun n hn => by simp [hnew n hn],
      List.nil_append]
    exact hs.once
  · obtain ⟨m, hm, hmq, hle⟩ := hs.known q ((hmem _ rfl).mp hq)
    exact ⟨m, hcommitted m hm, hmq, by rwa [hpos]⟩
  · rw [hpos] at hle
    rcases hmessages m hm with hm | hlt
    · exact (hmem _ rfl).mpr (hs.all m hm hle)
    · exact absurd hle (not_le.mpr hlt)
  · exact (hmem _ rfl).mpr (hs.queued q ((hmem _ rfl).mp hq))
  · have hcons := (hmem _ rfl).mp hq
    obtain ⟨n, hn', heq, -⟩ := hs.known m.seq hcons
    rw [hmem _ rfl]
    exact hs.selected m (hn.unique (hcommitted n hn') hm heq ▸ hn') hcons
  · obtain ⟨e, he, heq⟩ := List.mem_map.mp (hdeliveries.subset (List.mem_map_of_mem hd))
    rw [← heq]
    exact (hmem _ rfl).mpr (hs.deliveries e he)

/-- What an advance read was not considered before. -/
theorem Considered.fresh {spec : SubscriptionSpec} {notes : List Note} {s : State}
    (hs : Considered spec notes s) (hn : Numbers s) {rows : List Row} (hr : Reads s rows) :
    ∀ m ∈ rows, .considered m.seq ∉ notes := by
  intro m hm hq
  obtain ⟨n, hn', heq, hle⟩ := hs.known m.seq hq
  obtain ⟨hlt, hm'⟩ := hr.ahead m hm
  rw [hn.unique hn' hm' heq] at hle
  exact absurd hle (not_le.mpr hlt)

/-- An advance considers each row it read for the first time. -/
theorem Considered.advances {spec : SubscriptionSpec} {notes : List Note} {s : State}
    (hs : Considered spec notes s) (hn : Numbers s) {rows : List Row} (hr : Reads s rows)
    {last : Row} (hlast : rows.getLast? = some last) (began : Seconds) :
    let queued := missing s.deliveries (rows.filter fun m => s.spec.selects m.subject)
    Considered spec (((rows.map fun m => .considered m.seq) ++ queued.map fun m => .queued
      m.seq) ++ notes) { s with holder := none, pos := last.key,
                                deliveries := s.deliveries ++ queued.map (newDelivery began) } := by
  have hfresh := hs.fresh hn hr
  have hmissing : missing s.deliveries (rows.filter fun m => s.spec.selects m.subject)
      = rows.filter fun m => s.spec.selects m.subject := by
    refine List.filter_eq_self.mpr fun m hm => List.all_eq_true.mpr fun d hd =>
      decide_eq_true fun heq => ?_
    exact hfresh m (List.mem_filter.mp hm).1 (heq ▸ hs.queued _ (hs.deliveries d hd))
  rw [hmissing, hs.settings]
  obtain ⟨hupto, hall⟩ := hr.upto last hlast
  have hpos : s.pos < last.key := (hr.ahead last (List.mem_of_getLast? hlast)).1
  have hcons : ∀ q, Note.considered q ∈ (rows.map fun m => Note.considered m.seq) ++
      (rows.filter fun m => spec.selects m.subject).map (fun m => Note.queued m.seq) ↔
      q ∈ rows.map Row.seq := by
    simp
  have hqueued : ∀ q, Note.queued q ∈ (rows.map fun m => Note.considered m.seq) ++
      (rows.filter fun m => spec.selects m.subject).map (fun m => Note.queued m.seq) ↔
      q ∈ (rows.filter fun m => spec.selects m.subject).map Row.seq := by
    simp
  refine ⟨rfl, ?_, fun q hq => ?_, fun m hm hle => ?_, fun q hq => ?_, fun m hm hq => ?_,
    fun d hd => ?_, ?_⟩
  · have hall : ((rows.map fun m => Note.considered m.seq) ++
        (rows.filter fun m => spec.selects m.subject).map fun m => Note.queued m.seq).filter
        Note.queueing = _ :=
      List.filter_eq_self.mpr fun n hn => by
        rcases List.mem_append.mp hn with hn | hn <;>
          obtain ⟨_, -, rfl⟩ := List.mem_map.mp hn <;> rfl
    rw [List.filter_append, hall, List.nodup_append']
    refine ⟨List.nodup_append'.mpr ⟨?_, ?_, ?_⟩, hs.once, fun n hn hn' => ?_⟩
    · have := hr.nodup.map (f := Note.considered) fun _ _ => Note.considered.inj
      rwa [List.map_map] at this
    · have hsub : ((rows.filter fun m => spec.selects m.subject).map Row.seq).Nodup :=
        (List.filter_sublist.map Row.seq).nodup hr.nodup
      have := hsub.map (f := Note.queued) fun _ _ => Note.queued.inj
      rwa [List.map_map] at this
    · intro n hn hn'
      obtain ⟨_, -, rfl⟩ := List.mem_map.mp hn
      obtain ⟨_, -, heq⟩ := List.mem_map.mp hn'
      cases heq
    · have hold := (List.mem_filter.mp hn').1
      rcases List.mem_append.mp hn with hn | hn <;> obtain ⟨m, hm, rfl⟩ := List.mem_map.mp hn
      · exact hfresh m hm hold
      · exact hfresh m (List.mem_filter.mp hm).1 (hs.queued _ hold)
  · rcases List.mem_append.mp hq with hq | hq
    · obtain ⟨m, hm, rfl⟩ := List.mem_map.mp ((hcons q).mp hq)
      exact ⟨m, (hr.ahead m hm).2, rfl, hupto m hm⟩
    · obtain ⟨m, hm, heq, hle⟩ := hs.known q hq
      exact ⟨m, hm, heq, hle.trans hpos.le⟩
  · by_cases hold : m.key ≤ s.pos
    · exact List.mem_append_right _ (hs.all m hm hold)
    · have hrow := hall m hm (not_le.mp hold) hle
      exact List.mem_append_left _ ((hcons _).mpr (List.mem_map_of_mem hrow))
  · rcases List.mem_append.mp hq with hq | hq
    · obtain ⟨m, hm, rfl⟩ := List.mem_map.mp ((hqueued q).mp hq)
      exact List.mem_append_left _ ((hcons _).mpr (List.mem_map_of_mem (List.mem_filter.mp hm).1))
    · exact List.mem_append_right _ (hs.queued q hq)
  · rw [List.mem_append, hqueued]
    rcases List.mem_append.mp hq with hq | hq
    · obtain ⟨n, hrow, heq⟩ := List.mem_map.mp ((hcons _).mp hq)
      obtain rfl := hn.unique (hr.ahead n hrow).2 hm heq
      constructor
      · rintro (hq' | hq')
        · obtain ⟨r, hr', heq'⟩ := List.mem_map.mp hq'
          have hr'' := List.mem_filter.mp hr'
          rw [← hn.unique (hr.ahead r hr''.1).2 hm heq']
          exact hr''.2
        · exact absurd (hs.queued _ hq') (hfresh n hrow)
      · exact fun hsel => .inl (List.mem_map_of_mem (List.mem_filter.mpr ⟨hrow, hsel⟩))
    · rw [← hs.selected m hm hq]
      refine or_iff_right fun hq' => ?_
      obtain ⟨r, hr', heq'⟩ := List.mem_map.mp hq'
      exact hfresh r (List.mem_filter.mp hr').1 (heq' ▸ hq)
  · rcases List.mem_append.mp hd with hd | hd
    · exact List.mem_append_right _ (hs.deliveries d hd)
    · obtain ⟨m, hm, rfl⟩ := List.mem_map.mp hd
      exact List.mem_append_left _ ((hqueued _).mpr (List.mem_map_of_mem hm))
  · rw [List.map_append, List.map_map, List.nodup_append']
    refine ⟨hs.nodup, (List.filter_sublist.map Row.seq).nodup hr.nodup, fun q hq hq' => ?_⟩
    obtain ⟨d, hd, rfl⟩ := List.mem_map.mp hq
    obtain ⟨m, hm, heq⟩ := List.mem_map.mp hq'
    have hseq : m.seq = d.seq := heq
    exact hfresh m (List.mem_filter.mp hm).1 (hseq ▸ hs.queued _ (hs.deliveries d hd))

/-- Every move keeps that the messages before the position were considered. -/
theorem Considered.moves {spec : SubscriptionSpec} {s s' : State} {notes new : List Note}
    (hmoves : Moves s s' new) (hn : Numbers s)
    (hh : Horizon s) (hs : Considered spec notes s) : Considered spec (new ++ notes) s' := by
  have hn' := hn.moves hmoves
  cases hmoves with
  | begins =>
      exact hs.frame hn' (by simp) rfl rfl (fun m hm => by rwa [committed_begins])
        (fun _ hm => .inl hm) (.refl _)
  | publishes t go nextSeq nextXid _ _ _ =>
      have hcommitted : ∀ m ∈ s.committed, m ∈ (s.publish t go).committed :=
        fun m => committed_publish t go
      rcases publish_spec s t go with ⟨p, -, -, -, heq⟩ | ⟨heq, -⟩ <;>
        rw [heq] at hcommitted hn' ⊢ <;>
        exact hs.frame hn' (by simp) rfl rfl hcommitted (fun _ hm => .inl hm) (.refl _)
  | commits t =>
      have hcommitted : ∀ m ∈ s.committed, m ∈ (s.commit t).committed :=
        fun m => committed_publish t _
      unfold State.commit at hcommitted hn' ⊢
      rcases publish_spec s t fun p => { p with stage := .committed } with ⟨p, hp, hrun,
        hrows, heq⟩ | ⟨heq, hrows⟩ <;>
        rw [heq, hrows] at hcommitted hn' ⊢
      · refine hs.frame hn' (by simp) rfl rfl hcommitted (fun m hm => ?_) (.refl _)
        refine (List.mem_append.mp hm).imp_right fun hm => Row.ahead ?_
        have hp' := List.mem_of_getElem? hp
        exact hh.position.2 p hp' hrun m.xid ((hh.running p hp' hrun).2 m hm)
      · exact hs.frame hn' (by simp) rfl rfl hcommitted (fun m hm => .inl (by simpa using hm))
          (.refl _)
  | locks began =>
      exact hs.frame hn' (by simp) rfl rfl (fun _ hm => hm) (fun _ hm => .inl hm) (.refl _)
  | fetches | looks =>
      exact hs.frame hn' (by simp) rfl rfl (fun _ hm => hm) (fun _ hm => .inl hm) (.refl _)
  | advances a rows last queued hadv hrows hlast hqueued =>
      subst hqueued
      exact hs.advances hn (hh.advance a hadv rows hrows) hlast a.began
  | quiet _ _ hq hnew =>
      refine hs.frame hn' hnew hq.spec hq.pos (fun m hm => ?_)
        (fun m hm => .inl (hq.messages.subset hm)) hq.deliveries
      rwa [State.committed, hq.publishers]

/-- A message that was queued and is not in the table does not come back. -/
theorem Considered.gone {spec : SubscriptionSpec} {s s' : State} {notes new : List Note}
    (hmoves : Moves s s' new) (hn : Numbers s) (hh : Horizon s) (hs : Considered spec notes s)
    {q : Nat} (hq : .queued q ∈ notes) (hmem : q ∈ s'.messages.map Row.seq) :
    q ∈ s.messages.map Row.seq := by
  obtain ⟨m, hm, rfl⟩ := List.mem_map.mp hmem
  have hn' := hn.moves hmoves
  cases hmoves with
  | begins | locks | fetches | looks | advances => exact List.mem_map_of_mem hm
  | publishes t go =>
      rcases publish_spec s t go with ⟨_, -, -, -, heq⟩ | ⟨heq, -⟩ <;> rw [heq] at hm <;>
        exact List.mem_map_of_mem hm
  | commits t =>
      obtain ⟨n, hnmem, heq, hle⟩ := hs.known m.seq (hs.queued _ hq)
      have hunique := hn'.unique (hn'.messages m hm) (committed_publish t _ hnmem) heq.symm
      rcases publish_spec s t fun p => { p with stage := .committed } with ⟨p, hp, hrun,
        hrows, hpub⟩ | ⟨hpub, hrows⟩ <;>
        rw [State.commit, hpub, hrows] at hm
      · rcases List.mem_append.mp hm with hm | hm
        · exact List.mem_map_of_mem hm
        · have hp' := List.mem_of_getElem? hp
          have hahead := Row.ahead (hh.position.2 p hp' hrun m.xid ((hh.running p hp' hrun).2 m hm))
          rw [hunique] at hahead
          exact absurd hle (not_le.mpr hahead)
      · rw [List.append_nil] at hm
        exact List.mem_map_of_mem hm
  | quiet _ _ hq' _ => exact List.mem_map_of_mem (hq'.messages.subset hm)

/-- The position moves forward only. -/
theorem pos_le_moves {s s' : State} {notes : List Note} (hmoves : Moves s s' notes)
    (hh : Horizon s) : s.pos ≤ s'.pos := by
  cases hmoves with
  | begins | locks | fetches | looks => exact le_refl _
  | publishes t go => rcases publish_spec s t go with ⟨_, -, -, -, heq⟩ | ⟨heq, -⟩ <;> rw [heq]
  | commits t =>
      rw [State.commit]
      rcases publish_spec s t fun p => { p with stage := .committed } with ⟨_, -, -, -,
        heq⟩ | ⟨heq, -⟩ <;> rw [heq]
  | advances a rows last _ hadv hrows hlast _ =>
      exact ((hh.advance a hadv rows hrows).ahead last (List.mem_of_getLast? hlast)).1.le
  | quiet _ _ hq _ => exact hq.pos.ge

/-! ## Runs -/

/-- The invariant of a run. -/
structure Sound (spec : SubscriptionSpec) (h : List (List Note)) (s : State) : Prop where
  numbers : Numbers s
  horizon : Horizon s
  considered : Considered spec h.flatten s

/-- A queue that was just created is sound. -/
theorem sound_created (spec : SubscriptionSpec) : Sound spec [] (created spec) where
  numbers := ⟨by simp [created], by simp [created], by simp [created], by simp [created]⟩
  horizon := ⟨by simp [created], ⟨le_refl _, by simp [created]⟩, by simp [created, State.advance]⟩
  considered := ⟨rfl, .nil, by simp, fun m hm => by simp [created] at hm, by simp, by simp,
    fun d hd => by simp [created] at hd, .nil⟩

/-- Every step keeps a queue sound. -/
theorem Sound.step {spec : SubscriptionSpec} {h : List (List Note)} {s : State}
    (hs : Sound spec h s) (o : Op) : Sound spec ((step s o).2 :: h) (step s o).1 where
  numbers := hs.numbers.moves (step_moves s o)
  horizon := hs.horizon.moves (step_moves s o) hs.numbers
  considered := hs.considered.moves (step_moves s o) hs.numbers hs.horizon

theorem sound_reach {ok : State → Op → Prop} {spec : SubscriptionSpec} {h : List (List Note)}
    {s : State} (hr : Reach step ok (created spec) h s) : Sound spec h s :=
  hr.invariant (sound_created spec) fun _ _ o _ hs => hs.step o

/-- The position never goes back. -/
theorem pos_le_reach {spec : SubscriptionSpec} {h h' : List (List Note)} {s s' : State}
    (hs : Sound spec h s) (hr : Reach step anyOp s h' s') : s.pos ≤ s'.pos := by
  have hrun : Sound spec (h' ++ h) s' ∧ s.pos ≤ s'.pos := by
    induction hr with
    | nil => exact ⟨hs, le_refl _⟩
    | snoc o _ _ ih => exact ⟨ih.1.step o, ih.2.trans (pos_le_moves (step_moves _ o) ih.1.horizon)⟩
  exact hrun.2

/-! ## Progress -/

/-- One whole `_advance`, alone. -/
def round : List Op := [.lock, .fetch, .advanced]

/-- An advance stops below its own transaction, so it reads what is below the horizon
before it. -/
theorem xmin_locked {s : State} (hfree : s.holder = none) (began : Seconds) :
    { s with holder := some (.advance { xid := s.nextXid, began }),
             nextXid := s.nextXid + 1 : State }.xmin = s.xmin := by
  refine eq_of_forall_le_iff fun x => ?_
  simp only [le_xmin, State.running, State.advance, hfree, Option.map_none, Option.map_some,
    Option.toList_none, Option.toList_some, List.append_nil, List.mem_append, List.mem_singleton]
  constructor
  · exact fun ⟨_, h⟩ => ⟨h _ (.inr rfl), fun y hy => h y (.inl hy)⟩
  · rintro ⟨hnext, h⟩
    refine ⟨hnext.trans (Nat.le_succ _), fun y hy => ?_⟩
    rcases hy with hy | rfl
    · exact h y hy
    · exact hnext

/-- A round moves the position to the last pending message, and nothing else. -/
theorem round_spec {s : State} (hfree : s.holder = none) :
    (runOps step s round).2.holder = none ∧ (runOps step s round).2.messages = s.messages ∧
      s.xmin ≤ (runOps step s round).2.xmin ∧
      (pending s.messages s.pos s.xmin = [] ∧ (runOps step s round).2.pos = s.pos ∨
        ∃ last ∈ pending s.messages s.pos s.xmin, (runOps step s round).2.pos = last.key) := by
  have hlock : (step s .lock).1 =
      { s with holder := some (.advance { xid := s.nextXid, began := s.clock }),
               nextXid := s.nextXid + 1 } := by
    simp [step, hfree]
  have hrun : (runOps step s round).2 = (State.advanced
      { s with
        holder := some (.advance ⟨s.nextXid, s.clock,
          some ((pending s.messages s.pos s.xmin).take advanceBatch)⟩)
        nextXid := s.nextXid + 1 }).1 := by
    change (step (step (step s .lock).1 .fetch).1 .advanced).1 = _
    rw [hlock, ← xmin_locked hfree s.clock]
    rfl
  have hnone : ∀ s' : State, s'.holder = none → s'.advance = none :=
    fun s' h => by rw [State.advance, h]
  have hle : ∀ s' : State, s'.publishers = s.publishers → s'.holder = none →
    s'.nextXid = s.nextXid + 1 →
      s.xmin ≤ s'.xmin := by
    intro s' hp ha hx
    obtain ⟨hnext, hrunning⟩ := le_xmin.mp (le_refl s.xmin)
    rw [le_xmin, State.running, hp, hnone s' ha, hx]
    rw [State.running, hnone s hfree] at hrunning
    exact ⟨hnext.trans (Nat.le_succ _), hrunning⟩
  rw [hrun, State.advanced]
  dsimp only [State.advance]
  split
  · next hnone =>
    refine ⟨rfl, rfl, hle _ rfl rfl rfl, .inl ⟨?_, rfl⟩⟩
    rw [List.getLast?_eq_none_iff, List.take_eq_nil_iff] at hnone
    exact hnone.resolve_left (by decide)
  · next last hlast =>
    exact ⟨rfl, rfl, hle _ rfl rfl rfl,
      .inr ⟨last, List.mem_of_mem_take (List.mem_of_getLast? hlast), rfl⟩⟩

/-- A round does not move the position back. -/
theorem round_pos_le {s : State} (hfree : s.holder = none) :
    s.pos ≤ (runOps step s round).2.pos := by
  obtain ⟨-, -, -, ⟨-, hpos⟩ | ⟨last, hlast, hpos⟩⟩ := round_spec hfree
  · exact hpos.ge
  · rw [hpos]
    exact (mem_pending.mp hlast).2.1.le

/-- The rounds, one after another. -/
def rounds : Nat → State → State
  | 0, s => s
  | n + 1, s => rounds n (runOps step s round).2

/-- Nor does any number of rounds. -/
theorem rounds_pos_le : ∀ (n : Nat) {s : State}, s.holder = none → s.pos ≤ (rounds n s).pos
  | 0, _, _ => le_refl _
  | n + 1, _, hfree => (round_pos_le hfree).trans (rounds_pos_le n (round_spec hfree).1)

/-- How many messages are ahead of the position. -/
def State.ahead (s : State) : Nat := s.messages.countP fun m => decide (s.pos < m.key)

/-- While messages are pending a round leaves fewer of them ahead. -/
theorem ahead_round {s : State} (hfree : s.holder = none)
    (hpending : pending s.messages s.pos s.xmin ≠ []) :
    (runOps step s round).2.ahead < s.ahead := by
  obtain ⟨-, hmessages, -, ⟨hnil, -⟩ | ⟨last, hlast, hpos⟩⟩ := round_spec hfree
  · exact absurd hnil hpending
  · obtain ⟨hmem, hpast, -⟩ := mem_pending.mp hlast
    rw [State.ahead, State.ahead, hmessages, hpos, List.countP_eq_length_filter,
      List.countP_eq_length_filter]
    have hsub : (s.messages.filter fun m => decide (last.key < m.key)).Sublist
        (s.messages.filter fun m => decide (s.pos < m.key)) :=
      List.monotone_filter_right _ fun m hm => decide_eq_true (hpast.trans (of_decide_eq_true hm))
    refine lt_of_le_of_ne hsub.length_le fun heq => ?_
    have hin : last ∈ s.messages.filter fun m => decide (s.pos < m.key) :=
      List.mem_filter.mpr ⟨hmem, decide_eq_true hpast⟩
    rw [← hsub.eq_of_length heq] at hin
    exact lt_irrefl _ (of_decide_eq_true (List.mem_filter.mp hin).2)

/-- Each round leaves fewer messages ahead, until none is below the horizon. -/
theorem rounds_pass : ∀ (n : Nat) {s : State} {m : Row}, s.holder = none → m ∈ s.messages →
    m.xid < s.xmin → s.ahead ≤ n → m.key ≤ (rounds n s).pos
  | 0, s, m, _, hm, _, hahead => by
      have hnone := List.countP_eq_zero.mp (Nat.le_zero.mp hahead) m hm
      simpa [rounds] using hnone
  | n + 1, s, m, hfree, hm, hlt, hahead => by
      by_cases hle : m.key ≤ s.pos
      · exact hle.trans (rounds_pos_le (n + 1) hfree)
      · have hpending : pending s.messages s.pos s.xmin ≠ [] :=
          List.ne_nil_of_mem (mem_pending.mpr ⟨hm, not_le.mp hle, hlt⟩)
        obtain ⟨hfree', hmessages, hxmin, -⟩ := round_spec hfree
        exact rounds_pass n hfree' (by rwa [hmessages]) (hlt.trans_le hxmin)
          (Nat.le_of_lt_succ ((ahead_round hfree hpending).trans_le hahead))

/-! ## The law -/

/-- A note of the position is in a run at most once. -/
theorem Sound.count {spec : SubscriptionSpec} {h : List (List Note)} {s : State}
    (hs : Sound spec h s) {n : Note} (hn : n.queueing = true) :
    h.flatten.count n ≤ 1 ∧ (n ∈ h.flatten → h.flatten.count n = 1) := by
  have hcount : (h.flatten.filter Note.queueing).count n = h.flatten.count n := List.count_filter hn
  rw [← hcount]
  exact ⟨List.nodup_iff_count_le_one.mp hs.considered.once n, fun hmem =>
    List.count_eq_one_of_mem hs.considered.once ((mem_queueing hn).mpr hmem)⟩

/-- A message is considered once the position passes it. -/
theorem Sound.considered_iff {spec : SubscriptionSpec} {h : List (List Note)} {s : State}
    (hs : Sound spec h s) {m : Row} (hm : m ∈ s.messages) :
    .considered m.seq ∈ h.flatten ↔ m.key ≤ s.pos := by
  refine ⟨fun hq => ?_, hs.considered.all m hm⟩
  obtain ⟨n, hn, heq, hle⟩ := hs.considered.known m.seq hq
  rwa [hs.numbers.unique hn (hs.numbers.messages m hm) heq] at hle

/-- **The queue neither loses nor repeats a message.** In every run: a message in the
table is considered exactly once when it is at or below the position and not yet when
it is ahead, and queued exactly once when it also matches; nothing is queued twice, and
nothing but a committed message that matches; every delivery was queued; the position
never moves back; and an idle queue, where no transaction holds the subscription's row,
passes every message below the horizon. -/
theorem queue_exactly_once (spec : SubscriptionSpec) {h : List (List Note)} {s : State}
    (hr : Reach step anyOp (created spec) h s) :
    (∀ m ∈ s.messages,
      h.flatten.count (.considered m.seq) = (if m.key ≤ s.pos then 1 else 0) ∧
        h.flatten.count (.queued m.seq) = if m.key ≤ s.pos ∧ spec.selects m.subject =
        true then 1 else 0) ∧
      (∀ q, h.flatten.count (.queued q) ≤ 1) ∧
      (∀ q, .queued q ∈ h.flatten → ∃ m ∈ s.committed, m.seq = q ∧ spec.selects m.subject = true) ∧
      (∀ p ∈ s.publishers, p.stage ≠ .committed → ∀ m ∈ p.rows, .queued m.seq ∉ h.flatten) ∧
      (∀ d ∈ s.deliveries, .queued d.seq ∈ h.flatten) ∧
      (∀ h' s', Reach step anyOp s h' s' → s.pos ≤ s'.pos) ∧
      (s.holder = none → ∀ m ∈ s.messages, m.xid < s.xmin →
        m.key ≤ (rounds s.messages.length s).pos) := by
  have hs := sound_reach hr
  have hcommitted : ∀ q, .queued q ∈ h.flatten → ∃ m ∈ s.committed, m.seq = q ∧
    spec.selects m.subject = true := by
    intro q hq
    obtain ⟨m, hm, rfl, -⟩ := hs.considered.known q (hs.considered.queued q hq)
    exact ⟨m, hm, rfl, (hs.considered.selected m hm (hs.considered.queued _ hq)).mp hq⟩
  refine ⟨fun m hm => ⟨?_, ?_⟩, fun q => (hs.count rfl).1, hcommitted,
    fun p hp hstage m hm hq => ?_, hs.considered.deliveries,
    fun h' s' hr' => pos_le_reach hs hr', fun hfree m hm hlt => ?_⟩
  · split
    · next hle => exact (hs.count rfl).2 ((hs.considered_iff hm).mpr hle)
    · next hlt => exact List.count_eq_zero.mpr fun hq => hlt ((hs.considered_iff hm).mp hq)
  · have hsel := hs.considered.selected m (hs.numbers.messages m hm)
    split
    · next hle => exact (hs.count rfl).2 ((hsel ((hs.considered_iff hm).mpr hle.1)).mpr hle.2)
    · next hlt =>
      refine List.count_eq_zero.mpr fun hq => hlt ?_
      have hcons := hs.considered.queued _ hq
      exact ⟨(hs.considered_iff hm).mp hcons, (hsel hcons).mp hq⟩
  · obtain ⟨n, hn, heq, -⟩ := hcommitted m.seq hq
    obtain ⟨t, q, hq', hstage', hmem⟩ := mem_committed.mp hn
    obtain ⟨u, hu⟩ := List.mem_iff_getElem?.mp hp
    have hut : t ≠ u := by
      rintro rfl
      rw [hu] at hq'
      cases hq'
      exact hstage hstage'
    exact hs.numbers.others t u q p hq' hu hut (Row.seq_mem_seqs hmem) (heq ▸ Row.seq_mem_seqs hm)
  · exact rounds_pass _ hfree hm hlt List.countP_le_length

/-- A durable of the examples. -/
def moves : SubscriptionSpec :=
  { durable := str "stock-moves", streams := [str "stock"], maxDeliver := 3, ackWait := 30,
    backoff := [1], concurrency := 1 }

def moved (data : Bytes) : Message := { subject := str "be.stock.0.moved", headers := .empty, data }

/-- The first publisher draws its sequence number first, and its transaction ID last;
the second commits between. -/
def crossed : List Op :=
  [.begin_, .begin_, .draw 0, .draw 1, .assign 1, .write 1 (moved [2]), .commit 1]

theorem queue_exactly_once_crossed :
    let ops := crossed ++ round ++ [.claim [], .assign 0, .write 0 (moved [1]), .commit 0] ++
    round ++
      [.settle 0 .ack] ++ round
    let run := runOps step (created moves) ops
    (∀ q, run.1.flatten.count (.queued q) ≤ 1) ∧ run.1.flatten.count (.queued 1) = 1 ∧
      run.1.flatten.count (.queued 2) = 1 :=
  ⟨(queue_exactly_once moves (reach_runOps step _ (created moves))).2.1, by decide +kernel, by
    decide +kernel⟩

end BeSdk.Events.Queue
