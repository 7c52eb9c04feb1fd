/-
BeSdk.Audit.TransferTheorems — no audit record is lost on its way, and none is missing
unseen.

A commit makes of a row what actions of its transaction's task make of the row as it is
committed (`Lib.RowLocks`), and that is one of few things (`Becomes`): a position, a
receipt while it is pending, and once it is received a reset or a deletion. A row is
received only with a receipt that the audit component gave for a record it stored, and what
it stored is what was submitted, so a row that a watermark's purge deletes is in the backup.

Only the holder of the counter's row numbers, and the rows it picked stay where they are:
a row without a position was never submitted, so nothing deletes it. So every row that a
numbering picked gets its number, and the numbers of an epoch have no gap (`Positions`).

* `records_kept`: in every run each inserted record is in the log as it was written, or in
  the audit component's backup as it was written; a received row was stored; and a record
  is submitted with the same content every time.
* `positions_accounted`: in every run the numbers given in an epoch are 1, 2, …, n, and the
  record at each is in the log or in the backup at that position.
-/
import BeSdk.Audit.Transfer

namespace BeSdk.Audit.Transfer

open RowLocks

/-! ## What becomes of a row -/

/-- The actions of a task. -/
def acts : Task → Id → Action LogRow → Prop
  | .numbering _, _, act => ∃ p, act = placeAction p
  | .statements job _, k, act => ∃ q ∈ job.statements, act = q.action k

/-- A row with a receipt. -/
def settled (r : LogRow) (now : Int) (rc : Receipt) : LogRow :=
  { r with state := rc.state, receiptEpoch := some rc.epoch, receiptSeq := some rc.seq
           receiptChain := some rc.chain, receivedAt := some now }

/-- A row with a position. -/
def placed (r : LogRow) (p : Option Place) : LogRow := { r with rest := { r.rest with place := p } }

/-- A watermark covers what a row's receipt names. -/
def Backed (w : Watermark) (r : LogRow) : Prop :=
  ∀ p : Position, r.receiptEpoch = some p.epoch → r.receiptSeq = some p.seq → Covers w p

theorem state_ne_pending (rc : Receipt) : rc.state ≠ .pending := by
  rw [Receipt.state]
  split <;> simp

theorem action_eq_updates {q : Statement} {k : Id} {r r' : LogRow} :
    q.action k r = .updates r' ↔ q.cond k r = some true ∧ q.make r = some r' := by
  unfold Statement.action
  split
  · simp_all
  · simp_all
  · split <;> simp_all

theorem action_eq_deletes {q : Statement} {k : Id} {r : LogRow} :
    q.action k r = .deletes ↔ q.cond k r = some true ∧ q.make r = none := by
  unfold Statement.action
  split
  · simp_all
  · simp_all
  · split <;> simp_all

/-- A numbering only gives a position. -/
theorem via_numbering {p : Phase} {k : Id} {r : LogRow} {change : Option LogRow}
    (h : Via (acts (.numbering p) k) r change) : ∃ q, change = some (placed r q) := by
  induction h with
  | same => exact ⟨r.rest.place, rfl⟩
  | updates _ hact hmakes ih =>
      obtain ⟨q, hq⟩ := ih
      obtain ⟨q', rfl⟩ := hact
      cases hq
      cases hmakes
      exact ⟨some q', rfl⟩
  | deletes _ hact hmakes =>
      obtain ⟨q, rfl⟩ := hact
      cases hmakes

/-- A row takes one receipt, while it is pending. -/
theorem via_storing {now : Int} {receipts : List Receipt} {todo : List Statement} {k : Id}
    {r : LogRow} {change : Option LogRow}
    (h : Via (acts (.statements (.storing now receipts) todo) k) r change) :
    change = some r ∨ ∃ rc ∈ receipts, rc.id = k ∧ r.state = .pending ∧
    change = some (settled r now rc) := by
  induction h with
  | same => exact .inl rfl
  | updates _ hact hmakes ih =>
      obtain ⟨q, hq, rfl⟩ := hact
      obtain ⟨rc, hrc, rfl⟩ := List.mem_map.mp hq
      obtain ⟨hcond, hmake⟩ := action_eq_updates.mp hmakes
      obtain ⟨hk, hpending⟩ : k = rc.id ∧ _ = TransferState.pending := by
        simpa [storeStatement] using hcond
      rcases ih with ih | ⟨rc', -, -, -, ih⟩ <;> cases ih
      · cases hmake
        exact .inr ⟨rc, hrc, hk.symm, hpending, rfl⟩
      · exact absurd hpending (state_ne_pending rc')
  | deletes _ hact hmakes =>
      obtain ⟨q, hq, rfl⟩ := hact
      obtain ⟨rc, -, rfl⟩ := List.mem_map.mp hq
      cases (action_eq_deletes.mp hmakes).2

/-- What a statement of a purge does to a row. -/
theorem purge_action {w : Watermark} {now : Int} {q : Statement}
    (hq : q ∈ purgeStatements w now) (k : Id) (r : LogRow) :
    (q.action k r = .deletes → r.state = .received ∧ Backed w r) ∧
      ∀ r', q.action k r = .updates r' → r.state = .received ∧ r' = r.reset := by
  have hdelete : ∀ (e : Str) (n : Bigint), (∀ p : Position, p.epoch = e → p.seq ≤ n → Covers w p) →
      q = deleteStatement (covered now e n) → (q.action k r = .deletes → r.state = .received ∧
        Backed w r) ∧ ∀ r', q.action k r = .updates r' → r.state = .received ∧ r' = r.reset := by
    rintro e n hcovers rfl
    refine ⟨fun h => ?_, fun r' h => (by cases (action_eq_updates.mp h).2)⟩
    have hcond : covered now e n r = true := by
      simpa [deleteStatement] using (action_eq_deletes.mp h).1
    simp only [covered, Bool.and_eq_true, decide_eq_true_eq] at hcond
    obtain ⟨⟨⟨hstate, -⟩, hepoch⟩, hseq⟩ := hcond
    refine ⟨hstate, fun p hpe hps => hcovers p ?_ ?_⟩
    · exact Option.some.inj (hpe.symm.trans hepoch)
    · rw [hps] at hseq
      simpa using hseq
  have hresend : ∀ f : LogRow → Option Bool, (f r = some true → r.state = .received) →
    q = resendStatement f →
      (q.action k r = .deletes → r.state = .received ∧ Backed w r) ∧
        ∀ r', q.action k r = .updates r' → r.state = .received ∧ r' = r.reset := by
    rintro f hf rfl
    refine ⟨fun h => (by cases (action_eq_deletes.mp h).2), fun r' h => ?_⟩
    obtain ⟨hcond, hmake⟩ := action_eq_updates.mp h
    cases hmake
    exact ⟨hf hcond, rfl⟩
  rcases List.mem_append.mp hq with hq | hq
  · rcases List.mem_cons.mp hq with rfl | hq
    · exact hdelete w.epoch w.seq (fun p he hn => .inl ⟨he, hn⟩) rfl
    · obtain ⟨a, ha, hq⟩ := List.mem_flatMap.mp hq
      rcases List.mem_append.mp hq with hq | hq
      · split at hq
        · next hbacked =>
          exact hdelete a.1 a.2 (fun p he hn => .inr ⟨hbacked, a, ha, he, hn⟩)
            (List.mem_singleton.mp hq)
        · cases hq
      · refine hresend (fun r => some (pastFork a.1 a.2 r)) (fun h => ?_) (List.mem_singleton.mp hq)
        have : pastFork a.1 a.2 r = true := Option.some.inj h
        simp only [pastFork, Bool.and_eq_true, decide_eq_true_eq] at this
        exact this.1.1
  · refine hresend (lost w) (fun h => ?_) (List.mem_singleton.mp hq)
    unfold lost at h
    split at h
    · assumption
    · cases h

/-- A purge deletes or resets a received row, and that once. -/
theorem via_purging {w : Watermark} {now : Int} {todo : List Statement} {k : Id} {r : LogRow}
    {change : Option LogRow} (h : Via (acts (.statements (.purging w now) todo) k) r change) :
    change = some r ∨
    (r.state = .received ∧ (change = some r.reset ∨ (Backed w r ∧ change = none))) := by
  induction h with
  | same => exact .inl rfl
  | updates _ hact hmakes ih =>
      obtain ⟨q, hq, rfl⟩ := hact
      obtain ⟨hreceived, rfl⟩ := (purge_action hq k _).2 _ hmakes
      rcases ih with ih | ⟨-, ih | ⟨-, ih⟩⟩ <;> cases ih
      · exact .inr ⟨hreceived, .inl rfl⟩
      · cases hreceived
  | deletes _ hact hmakes ih =>
      obtain ⟨q, hq, rfl⟩ := hact
      obtain ⟨hreceived, hbacked⟩ := (purge_action hq k _).1 hmakes
      rcases ih with ih | ⟨-, ih | ⟨-, ih⟩⟩ <;> cases ih
      · exact .inr ⟨hreceived, .inr ⟨hbacked, rfl⟩⟩
      · cases hreceived

/-- What a commit of statements makes of a row: it stays, or takes a receipt that is right
while it is pending, or is reset, or is deleted by a watermark that covers it. -/
inductive Becomes (s : State) (k : Id) (r : LogRow) : Option LogRow → Prop
  | same : Becomes s k r (some r)
  | settled (now : Int) (rc : Receipt) : rc.id = k → r.state = .pending →
      (rc.state = .received → Confirms s.stored rc) → Becomes s k r (some (settled r now rc))
  | reset : r.state = .received → Becomes s k r (some r.reset)
  | deleted (w : Watermark) : w ∈ s.marks → r.state = .received → Backed w r → Becomes s k r none

/-- A row that stays keeps what was written and its position. -/
theorem Becomes.rest {s : State} {k : Id} {r r' : LogRow} (h : Becomes s k r (some r')) :
    r'.rest = r.rest := by
  cases h with
  | same | settled | reset => rfl

/-! ## The invariants -/

/-- The numbers given in an epoch, oldest first. -/
def numbers (e : Epoch) (given : List (Place × Id)) : List Nat :=
  (given.filter fun x => decide (x.1.epoch = e)).map fun x => x.1.seq

/-- What was submitted is a record as it was written, at the position it was given. -/
def Submitted (s : State) (x : Item) : Prop :=
  ∃ e p, (x.id, e) ∈ s.inserted ∧ (p, x.id) ∈ s.given ∧ x.seq = p.seq ∧
    x.epoch = epochText p.epoch ∧ x.digest = e.digest ∧ e.record = some x.record

/-- Each record is in the log or in the backup. -/
structure Records (s : State) : Prop where
  ids : (s.inserted.map Prod.fst).Nodup
  written : ∀ k r, s.db.table.get? k = some r → (k, r.rest.written) ∈ s.inserted
  received : ∀ k r, s.db.table.get? k = some r → r.state = .received →
    ∃ p ∈ s.stored, p.item.id = k ∧ r.receiptEpoch = some p.epoch ∧ r.receiptSeq = some p.seq
  submitted : ∀ x ∈ s.sent, Submitted s x
  stored : ∀ p ∈ s.stored, p.item ∈ s.sent
  durable : ∀ p ∈ s.durable, p ∈ s.stored
  marks : ∀ w ∈ s.marks, ∀ p ∈ s.stored, Covers w p → p ∈ s.durable
  kept : ∀ x ∈ s.inserted, (s.db.table.get? x.1).isSome = true ∨ ∃ p ∈ s.durable, p.item.id = x.1

/-- The log has the positions that were given, and the counter the last of them. -/
structure Positions (s : State) : Prop where
  placed : ∀ k r, s.db.table.get? k = some r → ∀ p, r.rest.place = some p ↔ (p, k) ∈ s.given
  once : (s.given.map Prod.snd).Nodup
  known : ∀ x ∈ s.given, x.2 ∈ s.inserted.map Prod.fst
  dense : ∀ e, numbers e s.given = List.range' 1 (numbers e s.given).length
  counted : ∀ x ∈ s.given, ∃ e, s.counter.epoch = some e ∧ x.1.epoch ≤ e
  counter : ∀ e, s.counter.epoch = some e → s.counter.lastSeq = (numbers e s.given).length ∧
    e ≤ s.epoch

/-- An epoch that was read after the lock. -/
def Reached (s : State) (now : Epoch) : Prop :=
  now ≤ s.epoch ∧ ∀ e, s.counter.epoch = some e → e ≤ now

/-- The rows that a numbering picked have no position; some have their number in its
changes, and it has still to come to the others. -/
structure Work (s : State) (tx : Tx Id LogRow Task) (now : Epoch) (ids : List Id) : Prop where
  nodup : ids.Nodup
  unplaced : ∀ k ∈ ids, ∃ r, s.db.table.get? k = some r ∧ r.rest.place = none
  reached : Reached s now
  split : ∃ done todo, done ++ todo = ids.zipIdx (s.counter.last now + 1) ∧
    tx.left = todo.map (fun x => (x.1, placeAction ⟨now, x.2⟩)) ∧
    tx.own.entries.map (fun x => (x.1, x.2.bind fun r => r.rest.place)) = done.map fun x =>
    (x.1, some ⟨now, x.2⟩)

/-- What a numbering has read is as it was. -/
def Phase.Ok (s : State) (tx : Tx Id LogRow Task) : Phase → Prop
  | .began => tx.own.entries = [] ∧ tx.left = []
  | .locked c => tx.own.entries = [] ∧ tx.left = [] ∧ c = s.counter
  | .read last now => tx.own.entries = [] ∧ tx.left = [] ∧ last = s.counter.last now ∧ Reached s now
  | .numbered last now => last = s.counter.last now ∧ ∃ ids, Work s tx now ids
  | .counted c => tx.left = [] ∧ ∃ now ids, Work s tx now ids ∧
      c = ⟨some now, s.counter.last now + ids.length⟩

/-- The receipts are right, and the watermark was given. -/
def Job.Ok (s : State) : Job → Prop
  | .storing _ receipts => ∀ rc ∈ receipts, rc.state = .received → Confirms s.stored rc
  | .purging w _ => w ∈ s.marks

def Task.Ok (s : State) (tx : Tx Id LogRow Task) : Task → Prop
  | .numbering p => p.Ok s tx
  | .statements job todo => (∀ q ∈ todo, q ∈ job.statements) ∧ job.Ok s

structure Locks (s : State) : Prop where
  sound : s.db.Sound acts
  tasks : ∀ tx ∈ s.db.txs, tx.stage = .running → tx.task.Ok s tx
  holder : ∀ (i j : Nat) (tx ty : Tx Id LogRow Task), s.db.txs[i]? = some tx →
    s.db.txs[j]? = some ty → i ≠ j → tx.stage = .running → ty.stage = .running →
    tx.task.holds = true → ty.task.holds = false

structure Inv (s : State) : Prop where
  records : Records s
  positions : Positions s
  locks : Locks s

/-! ### Records -/

/-- What was submitted stays so while more is inserted and numbered. -/
theorem Submitted.mono {s s' : State} {x : Item} (h : Submitted s x)
    (hinserted : ∀ y ∈ s.inserted, y ∈ s'.inserted) (hgiven : ∀ y ∈ s.given, y ∈ s'.given) :
    Submitted s' x := by
  obtain ⟨e, p, he, hp, hrest⟩ := h
  exact ⟨e, p, hinserted _ he, hgiven _ hp, hrest⟩

/-- An id has one record. -/
theorem Records.unique {s : State} (hs : Records s) {k : Id} {e e' : Written}
    (h : (k, e) ∈ s.inserted) (h' : (k, e') ∈ s.inserted) : e = e' := by
  have := List.inj_on_of_nodup_map hs.ids h h' rfl
  exact (Prod.mk.inj this).2

/-- A step that leaves the log and the audit component as they were. -/
theorem Records.same {s s' : State} (h : Records s) (htable : s'.db.table = s.db.table)
    (hinserted : s'.inserted = s.inserted) (hgiven : s'.given = s.given)
    (hsent : s'.sent = s.sent) (hstored : s'.stored = s.stored)
    (hdurable : s'.durable = s.durable) (hmarks : s'.marks = s.marks) : Records s' where
  ids := hinserted ▸ h.ids
  written := by rw [htable, hinserted]; exact h.written
  received := by rw [htable, hstored]; exact h.received
  submitted x hx := (h.submitted x (hsent ▸ hx)).mono (fun _ hy => hinserted ▸ hy) fun _ hy =>
    hgiven ▸ hy
  stored := by rw [hstored, hsent]; exact h.stored
  durable := by rw [hdurable, hstored]; exact h.durable
  marks := by rw [hmarks, hstored, hdurable]; exact h.marks
  kept := by rw [hinserted, htable, hdurable]; exact h.kept

/-- Positions stay where they are while table, counter and numbers do. -/
theorem Positions.same {s s' : State} (h : Positions s) (htable : s'.db.table = s.db.table)
    (hinserted : s'.inserted = s.inserted) (hgiven : s'.given = s.given)
    (hcounter : s'.counter = s.counter) (hepoch : s.epoch ≤ s'.epoch) : Positions s' where
  placed := by rw [htable, hgiven]; exact h.placed
  once := by rw [hgiven]; exact h.once
  known := by rw [hgiven, hinserted]; exact h.known
  dense := by rw [hgiven]; exact h.dense
  counted := by rw [hgiven, hcounter]; exact h.counted
  counter e he := by
    rw [hcounter] at he
    rw [hcounter, hgiven]
    exact ⟨(h.counter e he).1, (h.counter e he).2.trans hepoch⟩

/-- A row without a position was not submitted, so no receipt is right for it. -/
theorem Records.unplaced {s : State} (hs : Records s) (hp : Positions s) {k : Id} {r : LogRow}
    (hr : s.db.table.get? k = some r) (hnone : r.rest.place = none) : r.state ≠ .received := by
  intro hreceived
  obtain ⟨p, hstored, rfl, -⟩ := hs.received k r hr hreceived
  obtain ⟨-, q, -, hq, -⟩ := hs.submitted _ (hs.stored p hstored)
  rw [(hp.placed _ r hr q).mpr hq] at hnone
  cases hnone

/-- Rows that became what statements make of them. -/
theorem Records.becomes {s s' : State} (h : Records s) (hinserted : s'.inserted = s.inserted)
    (hgiven : s'.given = s.given) (hsent : s'.sent = s.sent) (hstored : s'.stored = s.stored)
    (hdurable : s'.durable = s.durable) (hmarks : s'.marks = s.marks)
    (hrows : ∀ k r', s'.db.table.get? k = some r' → ∃ r, s.db.table.get? k = some r ∧
      Becomes s k r (some r'))
    (hgone : ∀ k r, s.db.table.get? k = some r → s'.db.table.get? k = none →
      Becomes s k r none) : Records s' where
  ids := hinserted ▸ h.ids
  written k r' hr' := by
    obtain ⟨r, hr, hbecomes⟩ := hrows k r' hr'
    rw [hbecomes.rest, hinserted]
    exact h.written k r hr
  received k r' hr' hreceived := by
    rw [hstored]
    obtain ⟨r, hr, hbecomes⟩ := hrows k r' hr'
    cases hbecomes with
    | same => exact h.received k _ hr hreceived
    | settled now rc hk _ hconfirms =>
        obtain ⟨p, hp, hid, hepoch, hseq⟩ := hconfirms hreceived
        exact ⟨p, hp, hid.trans hk, by rw [hepoch]; rfl, by rw [hseq]; rfl⟩
    | reset => cases hreceived
  submitted x hx := (h.submitted x (hsent ▸ hx)).mono (fun _ hy => hinserted ▸ hy) fun _ hy =>
    hgiven ▸ hy
  stored := by rw [hstored, hsent]; exact h.stored
  durable := by rw [hdurable, hstored]; exact h.durable
  marks := by rw [hmarks, hstored, hdurable]; exact h.marks
  kept x hx := by
    rw [hinserted] at hx
    rw [hdurable]
    rcases h.kept x hx with hin | hout
    · obtain ⟨r, hr⟩ := Option.isSome_iff_exists.mp hin
      cases hr' : s'.db.table.get? x.1 with
      | some r' => exact .inl rfl
      | none =>
          -- the watermark that deleted it covers the position of its receipt
          cases hgone x.1 r hr hr' with
          | deleted w hw hreceived hbacked =>
              obtain ⟨p, hp, hid, hepoch, hseq⟩ := h.received x.1 r hr hreceived
              exact .inr ⟨p, h.marks w hw p hp (hbacked p hepoch hseq), hid⟩
    · exact .inr hout

/-- Positions stay where they are while rows change their state only. -/
theorem Positions.becomes {s s' : State} (h : Positions s)
    (hinserted : s'.inserted = s.inserted) (hgiven : s'.given = s.given)
    (hcounter : s'.counter = s.counter) (hepoch : s'.epoch = s.epoch)
    (hrows : ∀ k r', s'.db.table.get? k = some r' → ∃ r, s.db.table.get? k = some r ∧
      Becomes s k r (some r')) :
    Positions s' where
  placed k r' hr' p := by
    obtain ⟨r, hr, hbecomes⟩ := hrows k r' hr'
    rw [hbecomes.rest, hgiven]
    exact h.placed k r hr p
  once := by rw [hgiven]; exact h.once
  known := by rw [hgiven, hinserted]; exact h.known
  dense := by rw [hgiven]; exact h.dense
  counted := by rw [hgiven, hcounter]; exact h.counted
  counter := by rw [hcounter, hgiven, hepoch]; exact h.counter

/-! ### Transactions -/

/-- What a transaction relies on stays right: for a holder of the lock the counter and the
rows without a position are there. -/
theorem Task.Ok.mono {s s' : State} {tx : Tx Id LogRow Task} (h : tx.task.Ok s tx)
    (hepoch : s.epoch ≤ s'.epoch) (hstored : ∀ p ∈ s.stored, p ∈ s'.stored)
    (hmarks : ∀ w ∈ s.marks, w ∈ s'.marks)
    (hheld : tx.task.holds = true → s'.counter = s.counter ∧ ∀ k r, s.db.table.get? k =
      some r → r.rest.place = none → ∃ r', s'.db.table.get? k = some r' ∧
      r'.rest.place = none) : tx.task.Ok s' tx := by
  have hreached : ∀ {now}, s'.counter = s.counter → Reached s now → Reached s' now :=
    fun hcounter hr =>
    ⟨hr.1.trans hepoch, hcounter ▸ hr.2⟩
  have hwork : ∀ {now ids}, tx.task.holds = true → Work s tx now ids → Work s' tx now ids := by
    intro now ids hholds hw
    obtain ⟨hcounter, hrows⟩ := hheld hholds
    refine ⟨hw.nodup, fun k hk => ?_, hreached hcounter hw.reached, hcounter ▸ hw.split⟩
    obtain ⟨r, hr, hnone⟩ := hw.unplaced k hk
    exact hrows k r hr hnone
  cases htask : tx.task with
  | statements job todo =>
      rw [htask] at h
      refine ⟨h.1, ?_⟩
      have hjob := h.2
      cases job with
      | storing now receipts =>
          intro rc hrc hreceived
          obtain ⟨p, hp, hrest⟩ := hjob rc hrc hreceived
          exact ⟨p, hstored p hp, hrest⟩
      | purging w now => exact hmarks w hjob
  | numbering p =>
      rw [htask] at h
      cases p with
      | began => exact h
      | locked c => exact ⟨h.1, h.2.1, h.2.2.trans (hheld (by rw [htask]; rfl)).1.symm⟩
      | read last now =>
          obtain ⟨hcounter, -⟩ := hheld (by rw [htask]; rfl)
          exact ⟨h.1, h.2.1, h.2.2.1.trans (by rw [hcounter]), hreached hcounter h.2.2.2⟩
      | numbered last now =>
          have hholds : tx.task.holds = true := by rw [htask]; rfl
          obtain ⟨hlast, ids, hw⟩ := h
          exact ⟨hlast.trans (by rw [(hheld hholds).1]), ids, hwork hholds hw⟩
      | counted c =>
          have hholds : tx.task.holds = true := by rw [htask]; rfl
          obtain ⟨hleft, now, ids, hw, hc⟩ := h
          exact ⟨hleft, now, ids, hwork hholds hw, hc.trans (by rw [(hheld hholds).1])⟩

/-- The transactions are the same, and so is the log. -/
theorem Locks.same {s s' : State} (h : Locks s) (hdb : s'.db = s.db)
    (hcounter : s'.counter = s.counter) (hepoch : s.epoch ≤ s'.epoch)
    (hstored : ∀ p ∈ s.stored, p ∈ s'.stored) (hmarks : ∀ w ∈ s.marks, w ∈ s'.marks) :
    Locks s' where
  sound := hdb ▸ h.sound
  tasks tx htx hrun :=
    (h.tasks tx (hdb ▸ htx) hrun).mono hepoch hstored hmarks fun _ =>
      ⟨hcounter, fun _ r hr hnone => ⟨r, hdb ▸ hr, hnone⟩⟩
  holder := hdb ▸ h.holder

/-- A transaction begins. -/
theorem Locks.begin_ {s s' : State} (h : Locks s) {task : Task} (hdb : s'.db = s.db.begin_ task)
    (hcounter : s'.counter = s.counter) (hepoch : s'.epoch = s.epoch)
    (hstored : s'.stored = s.stored) (hmarks : s'.marks = s.marks) (hok : task.Ok s' { task })
    (hholds : task.holds = false) : Locks s' where
  sound := hdb ▸ h.sound.begin_ task
  tasks tx htx hrun := by
    rw [hdb] at htx
    rcases List.mem_append.mp htx with htx | htx
    · refine (h.tasks tx htx hrun).mono (le_of_eq hepoch.symm) (fun p hp => hstored ▸ hp)
        (fun w hw => hmarks ▸ hw) fun _ => ⟨hcounter, fun _ r hr hnone => ⟨r, ?_, hnone⟩⟩
      rw [hdb]
      exact hr
    · obtain rfl := List.mem_singleton.mp htx
      exact hok
  holder i j tx ty hi hj hij hrx hry hx := by
    rw [hdb] at hi hj
    rcases getElem?_join_cases hi with hi | ⟨-, rfl⟩
    · rcases getElem?_join_cases hj with hj | ⟨-, rfl⟩
      · exact h.holder i j tx ty hi hj hij hrx hry hx
      · exact hholds
    · rw [hholds] at hx
      cases hx

/-- A transaction goes on, and locks the counter's row only where nobody holds it. -/
theorem Locks.go {s : State} (h : Locks s) {i : Nat} {f : Tx Id LogRow Task → Tx Id LogRow Task}
    (hsound : (s.db.go i f).Sound acts)
    (hf : ∀ tx, s.db.txs[i]? = some tx → tx.stage = .running → (f tx).stage = .running →
      (f tx).task.Ok s (f tx) ∧ ((f tx).task.holds = true → tx.task.holds = true ∨
        s.counting = false)) :
    Locks { s with db := s.db.go i f } where
  sound := hsound
  tasks tx htx hrun := by
    have hok : tx.task.Ok s tx := by
      obtain heq | ⟨ty, hty, hrun', heq⟩ := s.db.go_cases i f <;> simp only [heq] at htx
      · exact h.tasks tx htx hrun
      · obtain ⟨j, hj⟩ := List.mem_iff_getElem?.mp htx
        rcases getElem?_set_cases hj with ⟨-, rfl⟩ | ⟨-, hj⟩
        · exact (hf ty hty hrun' hrun).1
        · exact h.tasks tx (List.mem_of_getElem? hj) hrun
    exact hok.mono le_rfl (fun _ hp => hp) (fun _ hw => hw) fun _ =>
      ⟨rfl, fun _ r hr hnone => ⟨r, by simpa using hr, hnone⟩⟩
  holder a b ta tb ha hb hab hra hrb hx := by
    obtain heq | ⟨ty, hty, hrun', heq⟩ := s.db.go_cases i f <;> simp only [heq] at ha hb
    · exact h.holder a b ta tb ha hb hab hra hrb hx
    · have hnobody : s.counting = false → ∀ (j : Nat) (t : Tx Id LogRow Task), s.db.txs[j]? =
        some t →
          t.stage = .running → t.task.holds = false := by
        intro hfree j t ht hrun
        rw [State.counting, List.any_eq_false] at hfree
        have := hfree t (List.mem_of_getElem? ht)
        rw [hrun, beq_self_eq_true, Bool.true_and] at this
        exact Bool.eq_false_iff.mpr this
      rcases getElem?_set_cases ha with ⟨rfl, rfl⟩ | ⟨-, ha'⟩
      · obtain ⟨hbi, hb'⟩ := (getElem?_set_cases hb).resolve_left fun h => hab h.1.symm
        rcases (hf ty hty hrun' hra).2 hx with hheld | hfree
        · exact h.holder a b ty tb hty hb' hab hrun' hrb hheld
        · exact hnobody hfree b tb hb' hrb
      · rcases getElem?_set_cases hb with ⟨rfl, rfl⟩ | ⟨-, hb'⟩
        · rw [← Bool.not_eq_true]
          intro hheld
          rcases (hf ty hty hrun' hrb).2 hheld with hheld | hfree
          · rw [h.holder b a ty ta hty ha' (Ne.symm hab) hrun' hra hheld] at hx
            cases hx
          · rw [hnobody hfree a ta ha' hra] at hx
            cases hx
        · exact h.holder a b ta tb ha' hb' hab hra hrb hx

/-- A transaction goes on: the log and the audit component are as they were. -/
theorem Inv.go {s : State} (hs : Inv s) {i : Nat} {f : Tx Id LogRow Task → Tx Id LogRow Task}
    (hsound : (s.db.go i f).Sound acts)
    (hf : ∀ tx, s.db.txs[i]? = some tx → tx.stage = .running → (f tx).stage = .running →
      (f tx).task.Ok s (f tx) ∧ ((f tx).task.holds = true → tx.task.holds = true ∨
        s.counting = false)) :
    Inv { s with db := s.db.go i f } where
  records := hs.records.same (by simp) rfl rfl rfl rfl rfl rfl
  positions := hs.positions.same (by simp) rfl rfl rfl le_rfl
  locks := hs.locks.go hsound hf

/-! ### Numbering -/

/-- A numbering's transaction does what its statement says. -/
theorem sound_numbering {table : Dict Id LogRow} {tx : Tx Id LogRow Task}
    (h : tx.Sound acts table) {p : Phase} (htask : tx.task = .numbering p) (p' : Phase)
    {left : List (Id × Action LogRow)} (hleft : ∀ x ∈ left, ∃ q, x.2 = placeAction q) :
    ({ tx with task := .numbering p', left } : Tx Id LogRow Task).Sound acts table :=
  h.next (fun k act ha => by rw [htask] at ha; exact ha) hleft

/-- A numbering goes from one phase to the next, and its statement is as it was. -/
theorem Inv.phase {s : State} (hs : Inv s) {i : Nat} {f : Tx Id LogRow Task → Tx Id LogRow Task}
    (hf : ∀ tx, tx.stage = .running → f tx = tx ∨ ∃ p p', tx.task = .numbering p ∧
      f tx = { tx with task := .numbering p' } ∧ (p.Ok s tx → p'.Ok s tx) ∧
      ((Task.numbering p).holds = true ∨ s.counting = false)) : Inv
      { s with db := s.db.go i f } := by
  refine hs.go (hs.locks.sound.go fun tx htx hrun _ => ?_) fun tx htx hrun _ => ?_
  · have htxs := hs.locks.sound.txs tx (List.mem_of_getElem? htx) hrun
    rcases hf tx hrun with heq | ⟨p, p', htask, heq, -, -⟩ <;> rw [heq]
    · exact ⟨htxs, fun _ hk => .inl hk⟩
    · refine ⟨sound_numbering htxs htask p' fun x hx => ?_, fun _ hk => .inl hk⟩
      have := htxs.left x hx
      rw [htask] at this
      exact this
  · have hok := hs.locks.tasks tx (List.mem_of_getElem? htx) hrun
    rcases hf tx hrun with heq | ⟨p, p', htask, heq, hphase, hholds⟩ <;> rw [heq]
    · exact ⟨hok, .inl⟩
    · rw [htask] at hok
      refine ⟨?_, fun _ => ?_⟩
      · -- a phase speaks of the changes and the rows left, not of the task
        have hnext := hphase hok
        cases p' with
        | began | locked | read => exact hnext
        | numbered last now =>
            exact ⟨hnext.1, hnext.2.imp fun ids hw => ⟨hw.nodup, hw.unplaced, hw.reached, hw.split⟩⟩
        | counted c =>
            obtain ⟨hleft, now, ids, hw, hc⟩ := hnext
            exact ⟨hleft, now, ids, ⟨hw.nodup, hw.unplaced, hw.reached, hw.split⟩, hc⟩
      · rw [htask]
        exact hholds

/-- The numbers of a batch are the next ones. -/
theorem counter_last {s : State} (hp : Positions s) {now : Epoch} (hnow : Reached s now) :
    s.counter.last now = (numbers now s.given).length := by
  unfold Counter.last
  split
  · next he => exact (hp.counter now he).1
  · next he =>
    -- the epoch is later than any that has a number
    rw [numbers, List.filter_eq_nil_iff.mpr, List.map_nil, List.length_nil]
    intro x hx
    obtain ⟨e, hepoch, hle⟩ := hp.counted x hx
    rw [decide_eq_true_eq]
    rintro rfl
    exact he (by rw [hepoch, le_antisymm (hnow.2 e hepoch) hle])

/-- The unnumbered records are those without a place. -/
theorem mem_unnumbered {rows : List (Id × LogRow)} {k : Id} (h : k ∈ unnumbered rows) :
    ∃ r, (k, r) ∈ rows ∧ r.rest.place = none := by
  obtain ⟨⟨k, r⟩, hx, rfl⟩ := List.mem_map.mp h
  have hx := (List.mem_insertionSort _).mp (List.mem_of_mem_take hx)
  exact ⟨r, (List.mem_filter.mp hx).1, Option.isNone_iff_eq_none.mp (List.mem_filter.mp hx).2⟩

/-- Each unnumbered record is read once. -/
theorem unnumbered_nodup (d : Dict Id LogRow) : (unnumbered d.entries).Nodup := by
  refine ((List.take_sublist _ _).map Prod.fst).nodup ?_
  have hperm := (List.perm_insertionSort (fun x y : Id × LogRow => x.2.rest.written.ord ≤
    y.2.rest.written.ord) (d.entries.filter fun x => x.2.rest.place.isNone)).map Prod.fst
  exact hperm.nodup_iff.mpr ((List.filter_sublist.map Prod.fst).nodup d.nodup)

/-- A numbering begins its statement: it has come to no row yet. -/
theorem work_begun {s : State} {tx : Tx Id LogRow Task} {now : Epoch}
    (hown : tx.own.entries = []) (hnow : Reached s now) (task : Task) :
    Work s { tx with task, left := numberPicks (s.counter.last now) now (tx.own.apply
      s.db.table).entries } now (unnumbered (tx.own.apply s.db.table).entries) where
  nodup := unnumbered_nodup _
  unplaced k hk := by
    obtain ⟨r, hr, hnone⟩ := mem_unnumbered hk
    refine ⟨r, ?_, hnone⟩
    have hget := Dict.get?_eq_some_iff.mpr hr
    rwa [Changes.get?_apply_of_none] at hget
    rw [Dict.get?, hown]
    rfl
  reached := hnow
  split := ⟨[], _, rfl, rfl, by rw [hown]; rfl⟩

/-- The row that a numbering comes to is there, and gets its number. -/
theorem Work.visit {s : State} {tx : Tx Id LogRow Task} {now : Epoch} {ids : List Id}
    (hw : Work s tx now ids) : Work s
    (tx.visit s.db.table) now ids ∧ (tx.visit s.db.table).task = tx.task := by
  obtain ⟨done, todo, hsplit, hleft, hown⟩ := hw.split
  cases todo with
  | nil =>
      have hsame : tx.visit s.db.table = tx := by rw [Tx.visit, hleft]; rfl
      rw [hsame]
      exact ⟨hw, rfl⟩
  | cons x todo =>
      obtain ⟨k, n⟩ := x
      have hids : (done ++ (k, n) :: todo).map Prod.fst = ids := by rw [hsplit, List.zipIdx_map_fst]
      have hnot : k ∉ tx.own.entries.map Prod.fst := by
        have hkeys := congrArg (List.map Prod.fst) hown
        rw [List.map_map, List.map_map] at hkeys
        replace hkeys : tx.own.entries.map Prod.fst = done.map Prod.fst := hkeys
        have hnodup := hids ▸ hw.nodup
        rw [List.map_append, List.map_cons, List.nodup_append] at hnodup
        rw [hkeys]
        exact fun h => hnodup.2.2 k h k List.mem_cons_self rfl
      have hk : k ∈ ids := hids ▸ List.mem_map.mpr ⟨(k, n),
        List.mem_append_right _ List.mem_cons_self, rfl⟩
      obtain ⟨r, hr, -⟩ := hw.unplaced k hk
      have hget : (tx.own.apply s.db.table).get? k = some r := by
        rw [Changes.get?_apply_of_none (lookup_eq_none_iff.mpr hnot), hr]
      have hvisit : tx.visit s.db.table =
          { tx with
            left := todo.map fun x => (x.1, placeAction ⟨now, x.2⟩)
            own := tx.own.set k (some (placed r (some ⟨now, n⟩))) } := by
        rw [Tx.visit, hleft]
        simp only [List.map_cons, hget]
        rfl
      rw [hvisit]
      refine ⟨⟨hw.nodup, hw.unplaced, hw.reached, done ++ [(k, n)], todo, ?_, rfl, ?_⟩, rfl⟩
      · rw [List.append_assoc, List.singleton_append, hsplit]
      · change (assign k _ tx.own.entries).map _ = _
        rw [assign_of_not_mem hnot, List.map_append, List.map_append, hown]
        rfl

/-- Going to the next row keeps the invariant. -/
theorem Inv.visit {s : State} (hs : Inv s) (i : Nat) : Inv { s with db := s.db.visit i } := by
  refine hs.go (hs.locks.sound.visit i) fun tx htx hrun hrun' => ?_
  have hok := hs.locks.tasks tx (List.mem_of_getElem? htx) hrun
  split
  · exact ⟨hok, .inl⟩
  · next hfree =>
    rw [if_neg hfree] at hrun'
    have hidle : tx.left = [] → tx.visit s.db.table = tx := fun h => by rw [Tx.visit, h]
    have hkeeps : (tx.visit s.db.table).task = tx.task := by
      obtain ⟨-, hv⟩ | ⟨k, act, left, -, ⟨hv, -⟩ | hv | ⟨r, -, ⟨-, hv⟩ | ⟨r', -, hv⟩⟩⟩ :=
        Tx.visit_cases s.db.table tx <;>
        rw [hv]
    rw [hkeeps]
    refine ⟨?_, .inl⟩
    cases htask : tx.task with
    | statements job todo => rwa [htask] at hok
    | numbering p =>
        rw [htask] at hok
        cases p with
        | began => rwa [hidle hok.2]
        | locked c => rwa [hidle hok.2.1]
        | read last now => rwa [hidle hok.2.1]
        | numbered last now => exact ⟨hok.1, hok.2.imp fun ids hw => hw.visit.1⟩
        | counted c => rwa [hidle hok.1]

/-- A statement acts on each row as its condition says. -/
theorem picks_spec {q : Statement} {rows : List (Id × LogRow)} {picked : List (Id × Action LogRow)}
    (h : q.picks rows = some picked) : ∀ x ∈ picked, x.2 = q.action x.1 := by
  unfold Statement.picks at h
  split at h
  · cases h
    intro x hx
    obtain ⟨y, -, rfl⟩ := List.mem_map.mp hx
    rfl
  · cases h

/-- A statement begins. -/
theorem execute_cases (table : Dict Id LogRow) (tx : Tx Id LogRow Task) :
    execute table tx = tx ∨
      (∃ last now, tx.task = .numbering (.read last now) ∧ execute table tx =
        { tx with task := .numbering (.numbered last now),
                  left := numberPicks last now (tx.own.apply table).entries }) ∨
      (∃ job q todo picked, tx.task = .statements job (q :: todo) ∧
        (∀ x ∈ picked, x.2 = q.action x.1) ∧
        execute table tx = { tx with task := .statements job todo, left := picked }) ∨
      execute table tx = { tx with stage := .aborted } := by
  unfold execute
  split
  · split
    · next last now htask => exact .inr (.inl ⟨last, now, htask, rfl⟩)
    · next job q todo htask =>
      split
      · next picked hpicked =>
          exact .inr (.inr (.inl ⟨job, q, todo, picked, htask, picks_spec hpicked, rfl⟩))
      · exact .inr (.inr (.inr rfl))
    · exact .inl rfl
  · exact .inl rfl

/-- Acting on a row keeps the invariant. -/
theorem Inv.execute {s : State} (hs : Inv s) (i : Nat) :
    Inv { s with db := s.db.go i (execute s.db.table) } := by
  refine hs.go (hs.locks.sound.go fun tx htx hrun hrun' => ?_) fun tx htx hrun hrun' => ?_
  · have htxs := hs.locks.sound.txs tx (List.mem_of_getElem? htx) hrun
    have hok := hs.locks.tasks tx (List.mem_of_getElem? htx) hrun
    obtain heq | ⟨last, now, htask, heq⟩ | ⟨job, q, todo, picked, htask, hpicked, heq⟩ | heq :=
      execute_cases s.db.table tx <;> rw [heq] at hrun' ⊢
    · exact ⟨htxs, fun _ hk => .inl hk⟩
    · refine ⟨sound_numbering htxs htask _ fun x hx => ?_, fun _ hk => .inl hk⟩
      obtain ⟨y, -, rfl⟩ := List.mem_map.mp hx
      exact ⟨_, rfl⟩
    · rw [htask] at hok
      refine ⟨htxs.next (fun k act ha => ?_)
        fun x hx => ⟨q, hok.1 q List.mem_cons_self, hpicked x hx⟩,
        fun _ hk => .inl hk⟩
      rw [htask] at ha
      exact ha
    · cases hrun'
  · have hok := hs.locks.tasks tx (List.mem_of_getElem? htx) hrun
    obtain heq | ⟨last, now, htask, heq⟩ | ⟨job, q, todo, picked, htask, -, heq⟩ | heq :=
      execute_cases s.db.table tx <;> rw [heq] at hrun' ⊢
    · exact ⟨hok, .inl⟩
    · rw [htask] at hok ⊢
      obtain ⟨hown, -, rfl, hnow⟩ := hok
      exact ⟨⟨rfl, _, work_begun hown hnow _⟩, fun _ => .inl rfl⟩
    · rw [htask] at hok
      exact ⟨⟨fun q' hq' => hok.1 q' (List.mem_cons_of_mem _ hq'), hok.2⟩, fun h => by cases h⟩
    · cases hrun'

/-! ### Commits -/

/-- What a commit of statements makes of the rows. -/
theorem commit_becomes {s : State} (hs : Inv s) {i : Nat} {tx : Tx Id LogRow Task}
    (htx : s.db.txs[i]? = some tx) (hrun : tx.stage = .running)
    {job : Job} {todo : List Statement} (htask : tx.task = .statements job todo) {k : Id}
    {r : LogRow} (hr : s.db.table.get? k = some r) :
    Becomes s k r ((tx.own.apply s.db.table).get? k) := by
  rw [Changes.get?_apply, hr]
  change Becomes s k r ((tx.own.get? k).getD (some r))
  cases hk : tx.own.get? k with
  | none => exact .same
  | some change =>
      obtain ⟨r₀, hr₀, hvia⟩ := hs.locks.sound.changed htx hrun hk
      cases hr.symm.trans hr₀
      have hok := hs.locks.tasks tx (List.mem_of_getElem? htx) hrun
      rw [htask] at hvia hok
      have hjob := hok.2
      cases job with
      | storing now receipts =>
          rcases via_storing hvia with rfl | ⟨rc, hrc, hid, hpending, rfl⟩
          · exact .same
          · exact .settled now rc hid hpending (hjob rc hrc)
      | purging w now =>
          rcases via_purging hvia with rfl | ⟨hreceived, rfl | ⟨hbacked, rfl⟩⟩
          · exact .same
          · exact .reset hreceived
          · exact .deleted w hjob hreceived hbacked

/-- A row of the table after changes was a row before them. -/
theorem row_before {c : Changes Id LogRow} {d : Dict Id LogRow} {k : Id} {r' : LogRow}
    (h : (c.apply d).get? k = some r') : ∃ r, d.get? k = some r := by
  rw [Changes.get?_apply] at h
  obtain ⟨r, hr, -⟩ := Option.bind_eq_some_iff.mp h
  exact ⟨r, hr⟩

/-- A transaction commits: the others have their locks, and rely on what they did. -/
theorem Locks.commit {s s' : State} (h : Locks s) {i : Nat} {tx : Tx Id LogRow Task}
    (htx : s.db.txs[i]? = some tx) (hrun : tx.stage = .running) (hleft : tx.left = [])
    (hdb : s'.db = s.db.commit i) (hepoch : s'.epoch = s.epoch)
    (hstored : s'.stored = s.stored) (hmarks : s'.marks = s.marks)
    (hheld : ∀ (j : Nat) (ty : Tx Id LogRow Task), i ≠ j → s.db.txs[j]? = some ty →
      ty.stage = .running → ty.task.holds = true → s'.counter = s.counter ∧
      ∀ k r, s.db.table.get? k = some r → r.rest.place = none →
        ∃ r', (tx.own.apply s.db.table).get? k = some r' ∧ r'.rest.place = none) : Locks s' := by
  have hdb' := hdb.trans (Store.commit_eq htx hrun hleft)
  have hother : ∀ (j : Nat) (ty : Tx Id LogRow Task), s'.db.txs[j]? = some ty →
    ty.stage = .running →
      j ≠ i ∧ s.db.txs[j]? = some ty := by
    intro j ty hty hrun'
    rw [hdb'] at hty
    rcases getElem?_set_cases hty with ⟨-, rfl⟩ | hty
    · cases hrun'
    · exact hty
  refine ⟨hdb ▸ h.sound.commit i, fun ty hty hrun' => ?_, fun a b ta tb ha hb hab hra hrb => ?_⟩
  · obtain ⟨j, hj⟩ := List.mem_iff_getElem?.mp hty
    obtain ⟨hji, hj⟩ := hother j ty hj hrun'
    refine (h.tasks ty (List.mem_of_getElem? hj) hrun').mono (le_of_eq hepoch.symm)
      (fun p hp => hstored ▸ hp) (fun w hw => hmarks ▸ hw) fun hholds => ?_
    rw [hdb']
    exact hheld j ty (Ne.symm hji) hj hrun' hholds
  · exact h.holder a b ta tb (hother a ta ha hra).2 (hother b tb hb hrb).2 hab hra hrb

/-- Going to the next statement keeps the invariant. -/
theorem Inv.statements {s : State} (hs : Inv s) {i : Nat} {tx : Tx Id LogRow Task}
    (htx : s.db.txs[i]? = some tx) (hrun : tx.stage = .running) (hleft : tx.left = [])
    {job : Job} {todo : List Statement} (htask : tx.task = .statements job todo) :
    Inv { s with db := s.db.commit i } := by
  have hdb := Store.commit_eq htx hrun hleft
  have hrows : ∀ k r', (tx.own.apply s.db.table).get? k = some r' →
      ∃ r, s.db.table.get? k = some r ∧ Becomes s k r (some r') := by
    intro k r' hr'
    obtain ⟨r, hr⟩ := row_before hr'
    exact ⟨r, hr, hr' ▸ commit_becomes hs htx hrun htask hr⟩
  refine ⟨hs.records.becomes rfl rfl rfl rfl rfl rfl ?_ ?_, hs.positions.becomes rfl rfl rfl rfl ?_,
    hs.locks.commit htx hrun hleft rfl rfl rfl rfl fun j ty _ _ _ _ =>
    ⟨rfl, fun k r hr hnone => ?_⟩⟩
  · rw [hdb]
    exact hrows
  · rw [hdb]
    intro k r hr hnone
    exact hnone ▸ commit_becomes hs htx hrun htask hr
  · rw [hdb]
    exact hrows
  · -- a row without a position is not received, so it stays
    have hbecomes := commit_becomes hs htx hrun htask hr
    cases hr' : (tx.own.apply s.db.table).get? k with
    | some r' =>
        rw [hr'] at hbecomes
        exact ⟨r', rfl, hbecomes.rest ▸ hnone⟩
    | none =>
        rw [hr'] at hbecomes
        cases hbecomes with
        | deleted w _ hreceived _ =>
            exact absurd hreceived (hs.records.unplaced hs.positions hr hnone)

/-- A numbering that has come to all its rows has given each its number. -/
theorem Work.own_eq {s : State} {tx : Tx Id LogRow Task} {now : Epoch} {ids : List Id}
    (hw : Work s tx now ids) (hleft : tx.left = []) :
    tx.own.entries.map (fun x => (x.1, x.2.bind fun r => r.rest.place)) =
      (ids.zipIdx (s.counter.last now + 1)).map fun x => (x.1, some ⟨now, x.2⟩) := by
  obtain ⟨done, todo, hsplit, hl, hown⟩ := hw.split
  obtain rfl : todo = [] := List.map_eq_nil_iff.mp (hl.symm.trans hleft)
  rw [hown, ← hsplit, List.append_nil]

/-- A numbering holds the rows that it numbers. -/
theorem Work.size_eq {s : State} {tx : Tx Id LogRow Task} {now : Epoch} {ids : List Id}
    (hw : Work s tx now ids) (hleft : tx.left = []) : tx.own.size = ids.length := by
  simpa [Dict.size] using congrArg List.length (hw.own_eq hleft)

/-- It gives the numbers after the counter, one after the other. -/
theorem Work.givenBy_eq {s : State} {tx : Tx Id LogRow Task} {now : Epoch} {ids : List Id}
    (hw : Work s tx now ids) (hleft : tx.left = []) :
    givenBy tx = (ids.zipIdx (s.counter.last now + 1)).map fun x => (⟨now, x.2⟩, x.1) := by
  have h := congrArg (List.filterMap fun x : Id × Option Place => x.2.map fun p => (p, x.1))
    (hw.own_eq hleft)
  rw [List.filterMap_map, List.filterMap_map] at h
  refine h.trans ?_
  rw [← List.filterMap_eq_map]
  rfl

/-- Which number each of its rows is given. -/
theorem Work.mem_given {s : State} {tx : Tx Id LogRow Task} {now : Epoch} {ids : List Id}
    (hw : Work s tx now ids) (hleft : tx.left = []) {p : Place} {k : Id} :
    (p, k) ∈ givenBy tx ↔ ∃ n, p = ⟨now, n⟩ ∧ (k, n) ∈ ids.zipIdx (s.counter.last now + 1) := by
  rw [hw.givenBy_eq hleft, List.mem_map]
  constructor
  · rintro ⟨⟨k, n⟩, hmem, heq⟩
    cases heq
    exact ⟨n, rfl, hmem⟩
  · rintro ⟨n, rfl, hmem⟩
    exact ⟨(k, n), hmem, rfl⟩

/-- The row of a numbering after its commit. -/
theorem Work.row {s : State} {tx : Tx Id LogRow Task} {now : Epoch} {ids : List Id}
    (hw : Work s tx now ids) (hleft : tx.left = [])
    {k : Id} {r r' : LogRow} (hr : s.db.table.get? k = some r)
    (hr' : (tx.own.apply s.db.table).get? k = some r') :
    (k ∉ ids ∧ r' = r) ∨ ∃ n, (k, n) ∈ ids.zipIdx (s.counter.last now + 1) ∧
    r'.rest.place = some ⟨now, n⟩ := by
  cases hk : tx.own.get? k with
  | none =>
      rw [Changes.get?_apply_of_none hk, hr] at hr'
      refine .inl ⟨fun hmem => ?_, (Option.some.inj hr').symm⟩
      have hkeys := congrArg (List.map Prod.fst) (hw.own_eq hleft)
      rw [List.map_map, List.map_map] at hkeys
      have hkeys' : tx.own.entries.map Prod.fst = (ids.zipIdx (s.counter.last now + 1)).map
        Prod.fst := hkeys
      rw [List.zipIdx_map_fst] at hkeys'
      exact lookup_eq_none_iff.mp hk (hkeys' ▸ hmem)
  | some change =>
      rw [Changes.get?_apply_of_some hk (by rw [hr]; rfl)] at hr'
      subst hr'
      have hmem : (k, r'.rest.place) ∈ tx.own.entries.map fun x =>
        (x.1, x.2.bind fun r => r.rest.place) :=
        List.mem_map.mpr ⟨(k, some r'), Dict.get?_eq_some_iff.mp hk, rfl⟩
      rw [hw.own_eq hleft] at hmem
      obtain ⟨⟨k', n⟩, hn, heq⟩ := List.mem_map.mp hmem
      obtain ⟨rfl, hplace⟩ := Prod.mk.inj heq
      exact .inr ⟨n, hn, hplace.symm⟩

/-- The rows after a numbering are those before it, some with a position. -/
theorem numbering_rows {s : State} (hs : Inv s) {i : Nat} {tx : Tx Id LogRow Task}
    (htx : s.db.txs[i]? = some tx) (hrun : tx.stage = .running)
    {p : Phase} (htask : tx.task = .numbering p) {k : Id} {r : LogRow}
    (hr : s.db.table.get? k = some r) :
    ∃ q, (tx.own.apply s.db.table).get? k = some (placed r q) := by
  rw [Changes.get?_apply, hr]
  change ∃ q, (tx.own.get? k).getD (some r) = some (placed r q)
  cases hk : tx.own.get? k with
  | none => exact ⟨r.rest.place, rfl⟩
  | some change =>
      obtain ⟨r₀, hr₀, hvia⟩ := hs.locks.sound.changed htx hrun hk
      cases hr.symm.trans hr₀
      rw [htask] at hvia
      exact via_numbering hvia

/-- A numbering changes no record. -/
theorem Records.numbered {s s' : State} (h : Records s) (hinserted : s'.inserted = s.inserted)
    (hgiven : ∀ x ∈ s.given, x ∈ s'.given) (hsent : s'.sent = s.sent)
    (hstored : s'.stored = s.stored) (hdurable : s'.durable = s.durable)
    (hmarks : s'.marks = s.marks) (hrows : ∀ k r', s'.db.table.get? k = some r' →
      ∃ r q, s.db.table.get? k = some r ∧ r' = placed r q)
    (hkeep : ∀ k, (s.db.table.get? k).isSome = true → (s'.db.table.get? k).isSome = true) :
    Records s' where
  ids := hinserted ▸ h.ids
  written k r' hr' := by
    obtain ⟨r, q, hr, rfl⟩ := hrows k r' hr'
    rw [hinserted]
    exact h.written k r hr
  received k r' hr' hreceived := by
    obtain ⟨r, q, hr, rfl⟩ := hrows k r' hr'
    rw [hstored]
    exact h.received k r hr hreceived
  submitted x hx := (h.submitted x (hsent ▸ hx)).mono (fun _ hy => hinserted ▸ hy) hgiven
  stored := by rw [hstored, hsent]; exact h.stored
  durable := by rw [hdurable, hstored]; exact h.durable
  marks := by rw [hmarks, hstored, hdurable]; exact h.marks
  kept x hx := by
    rw [hdurable]
    exact (h.kept x (hinserted ▸ hx)).imp_left (hkeep x.1)

theorem numbers_append (e : Epoch) (given new : List (Place × Id)) :
    numbers e (given ++ new) = numbers e given ++ numbers e new := by
  rw [numbers, List.filter_append, List.map_append]
  rfl

/-- The numbers of a batch, in its epoch and in another. -/
theorem numbers_batch (e now : Epoch) (ids : List Id) (n : Nat) :
    numbers e ((ids.zipIdx n).map fun x => (⟨now, x.2⟩, x.1)) = if now = e then List.range' n
    ids.length else [] := by
  have hepoch : ((fun x : Place × Id => decide (x.1.epoch = e)) ∘
    fun x : Id × Nat => ((⟨now, x.2⟩ : Place), x.1)) =
      fun _ => decide (now = e) := rfl
  rw [numbers, List.filter_map, List.map_map, hepoch]
  split
  · next he =>
    rw [decide_eq_true he, List.filter_true]
    exact List.zipIdx_map_snd n ids
  · next he =>
    rw [decide_eq_false he, List.filter_false]
    rfl

/-- The batch gets the numbers after the last. -/
theorem Positions.numbered {s s' : State} (hs : Inv s) {tx : Tx Id LogRow Task} {now : Epoch}
    {ids : List Id} (hw : Work s tx now ids) (hleft : tx.left = [])
    (hdb : s'.db.table = tx.own.apply s.db.table) (hinserted : s'.inserted = s.inserted)
    (hgiven : s'.given = s.given ++ givenBy tx)
    (hcounter : s'.counter = ⟨some now, s.counter.last now + ids.length⟩)
    (hepoch : s'.epoch = s.epoch) : Positions s' := by
  have hp := hs.positions
  have hunplaced : ∀ k ∈ ids, ∀ p, (p, k) ∉ s.given := by
    intro k hk p hmem
    obtain ⟨r, hr, hnone⟩ := hw.unplaced k hk
    rw [(hp.placed k r hr p).mpr hmem] at hnone
    cases hnone
  have hids : (givenBy tx).map Prod.snd = ids := by
    rw [hw.givenBy_eq hleft, List.map_map]
    exact List.zipIdx_map_fst _ ids
  have hnumbers : ∀ e, numbers e s'.given =
      numbers e s.given ++ if now = e then List.range' ((numbers now s.given).length + 1)
      ids.length else [] := by
    intro e
    rw [hgiven, numbers_append, hw.givenBy_eq hleft, numbers_batch, counter_last hp hw.reached]
  refine ⟨fun k r' hr' p => ?_, ?_, fun x hx => ?_, fun e => ?_, fun x hx => ?_, fun e he => ?_⟩
  · rw [hdb] at hr'
    rw [hgiven, List.mem_append, hw.mem_given hleft]
    obtain ⟨r, hr⟩ := row_before hr'
    rcases hw.row hleft hr hr' with ⟨hnot, rfl⟩ | ⟨n, hn, hplace⟩
    · rw [hp.placed k _ hr p]
      refine ⟨.inl, fun h => h.resolve_right ?_⟩
      rintro ⟨n, -, hn⟩
      exact hnot (List.zipIdx_map_fst (s.counter.last now + 1) ids ▸ List.mem_map.mpr
        ⟨(k, n), hn, rfl⟩)
    · have hk : k ∈ ids := List.zipIdx_map_fst (s.counter.last now + 1) ids ▸ List.mem_map.mpr
        ⟨(k, n), hn, rfl⟩
      rw [hplace]
      constructor
      · intro h
        cases h
        exact .inr ⟨n, rfl, hn⟩
      · rintro (hmem | ⟨n', rfl, hn'⟩)
        · exact absurd hmem (hunplaced k hk p)
        · have hnodup : ((ids.zipIdx (s.counter.last now + 1)).map Prod.fst).Nodup := by
            rw [List.zipIdx_map_fst]
            exact hw.nodup
          have := List.inj_on_of_nodup_map hnodup hn hn' rfl
          rw [(Prod.mk.inj this).2]
  · rw [hgiven, List.map_append, hids, List.nodup_append]
    refine ⟨hp.once, hw.nodup, fun k hk j hj => ?_⟩
    rintro rfl
    obtain ⟨⟨p, k⟩, hx, rfl⟩ := List.mem_map.mp hk
    exact hunplaced _ hj p hx
  · rw [hinserted]
    rw [hgiven, List.mem_append] at hx
    rcases hx with hx | hx
    · exact hp.known x hx
    · have hk : x.2 ∈ ids := hids ▸ List.mem_map_of_mem hx
      obtain ⟨r, hr, -⟩ := hw.unplaced x.2 hk
      exact List.mem_map_of_mem (hs.records.written x.2 r hr)
  · rw [hnumbers e]
    split
    · next he =>
      subst he
      rw [List.length_append, List.length_range', ← List.range'_append_1, ← hp.dense now,
        Nat.add_comm 1]
    · rw [List.append_nil]
      exact hp.dense e
  · rw [hcounter]
    rw [hgiven, List.mem_append] at hx
    refine ⟨now, rfl, ?_⟩
    rcases hx with hx | hx
    · obtain ⟨e, he, hle⟩ := hp.counted x hx
      exact hle.trans (hw.reached.2 e he)
    · obtain ⟨n, hplace, -⟩ := (hw.mem_given hleft).mp hx
      rw [hplace]
  · rw [hcounter] at he ⊢
    obtain rfl : now = e := Option.some.inj he
    refine ⟨?_, hepoch ▸ hw.reached.1⟩
    rw [hnumbers, if_pos rfl, List.length_append, List.length_range', counter_last hp hw.reached]

/-- A numbering that is committed keeps the invariant. -/
theorem Inv.numbered {s : State} (hs : Inv s) {i : Nat} {tx : Tx Id LogRow Task}
    (htx : s.db.txs[i]? = some tx) (hrun : tx.stage = .running) (hleft : tx.left = [])
    {c : Counter} (htask : tx.task = .numbering (.counted c)) :
    Inv { s with db := s.db.commit i, counter := c, given := s.given ++ givenBy tx } := by
  have hok := hs.locks.tasks tx (List.mem_of_getElem? htx) hrun
  rw [htask] at hok
  obtain ⟨-, now, ids, hw, rfl⟩ := hok
  have hdb := Store.commit_eq htx hrun hleft
  refine ⟨hs.records.numbered rfl (fun x hx => List.mem_append_left _ hx) rfl rfl rfl rfl ?_ ?_,
    Positions.numbered hs hw hleft (by rw [hdb]) rfl rfl rfl rfl,
    hs.locks.commit htx hrun hleft rfl rfl rfl rfl fun j ty hij hty hrun' hholds => ?_⟩
  · rw [hdb]
    intro k r' hr'
    obtain ⟨r, hr⟩ := row_before hr'
    obtain ⟨q, hq⟩ := numbering_rows hs htx hrun htask hr
    exact ⟨r, q, hr, Option.some.inj (hr'.symm.trans hq)⟩
  · rw [hdb]
    intro k hk
    obtain ⟨r, hr⟩ := Option.isSome_iff_exists.mp hk
    obtain ⟨q, hq⟩ := numbering_rows hs htx hrun htask hr
    exact Option.isSome_iff_exists.mpr ⟨_, hq⟩
  · -- nobody else holds the lock
    have := hs.locks.holder i j tx ty htx hty hij hrun hrun' (by rw [htask]; rfl)
    rw [this] at hholds
    cases hholds

/-! ### Steps -/

/-- The invariant holds at the start. -/
theorem inv_start (e : Epoch) : Inv (start e) where
  records :=
    ⟨List.nodup_nil, fun _ _ h => (by cases h), fun _ _ h => (by cases h),
      fun _ h => (by cases h), fun _ h => (by cases h), fun _ h => (by cases h),
      fun _ h => (by cases h), fun _ h => (by cases h)⟩
  positions :=
    ⟨fun _ _ h => (by cases h), List.nodup_nil, fun _ h => (by cases h), fun _ => rfl,
      fun _ h => (by cases h), fun _ h => (by cases h)⟩
  locks := ⟨sound_empty, fun _ h => (by cases h), fun _ _ _ _ h => (by cases h)⟩

/-- It holds after a record is inserted. -/
theorem Inv.insert {s : State} (hs : Inv s) {k : Id} (e : Written)
    (hnew : k ∉ s.inserted.map Prod.fst) (hnone : s.db.table.get? k = none) :
    Inv { s with db := s.db.insert k { state := .pending, rest := ⟨e, none⟩ },
                 inserted := s.inserted ++ [(k, e)] } := by
  have hget : ∀ j, (s.db.insert k { state := .pending, rest := ⟨e, none⟩ }).table.get? j =
      if j = k then some { state := .pending, rest := ⟨e, none⟩ } else s.db.table.get? j := by
    intro j
    rw [Store.insert, hnone]
    exact Dict.get?_set _ _ _ _
  have htxs : (s.db.insert k { state := .pending, rest := ⟨e, none⟩ }).txs = s.db.txs := by
    rw [Store.insert, hnone]
    rfl
  have hinserted : ∀ x ∈ s.inserted, x ∈ s.inserted ++ [(k, e)] :=
    fun x hx => List.mem_append_left _ hx
  refine ⟨⟨?_, fun j r hr => ?_, fun j r hr hreceived => ?_,
    fun x hx => (hs.records.submitted x hx).mono hinserted
      fun _ hy => hy, hs.records.stored, hs.records.durable, hs.records.marks, fun x hx => ?_⟩,
    ⟨fun j r hr p => ?_, hs.positions.once, fun x hx => ?_, hs.positions.dense,
      hs.positions.counted, hs.positions.counter⟩,
    ⟨hs.locks.sound.insert _ _, fun tx htx hrun => ?_, ?_⟩⟩
  · rw [List.map_append, List.nodup_append]
    refine ⟨hs.records.ids, List.nodup_singleton k, fun j hj j' hj' => ?_⟩
    rintro rfl
    obtain rfl : j = k := List.mem_singleton.mp hj'
    exact hnew hj
  · rw [hget] at hr
    split at hr
    · next hj =>
      subst hj
      cases hr
      exact List.mem_append_right _ List.mem_cons_self
    · exact hinserted _ (hs.records.written j r hr)
  · rw [hget] at hr
    split at hr
    · cases hr
      cases hreceived
    · exact hs.records.received j r hr hreceived
  · rw [hget]
    split
    · exact .inl rfl
    · next hne =>
      refine hs.records.kept x ((List.mem_append.mp hx).resolve_right fun h => hne ?_)
      rw [List.mem_singleton.mp h]
  · rw [hget] at hr
    split at hr
    · next hj =>
      subst hj
      cases hr
      exact ⟨fun h => (by cases h), fun h => absurd (hs.positions.known _ h) hnew⟩
    · exact hs.positions.placed j r hr p
  · rw [List.map_append]
    exact List.mem_append_left _ (hs.positions.known x hx)
  · refine (hs.locks.tasks tx (htxs ▸ htx) hrun).mono le_rfl (fun _ hp => hp)
      (fun _ hw => hw) fun _ =>
      ⟨rfl, fun j r hr hplace => ⟨r, ?_, hplace⟩⟩
    rw [hget, if_neg, hr]
    rintro rfl
    rw [hnone] at hr
    cases hr
  · rw [htxs]
    exact hs.locks.holder

/-- The receipts of a call change nothing that was submitted. -/
theorem sent_answered {s : State} {c : Nat} {items : List Item} {b : Bool}
    (h : s.calls[c]? = some ⟨items, b⟩) :
    (s.calls.set c ⟨items, true⟩).flatMap Call.items = s.sent := by
  have hsame : (s.calls.map Call.items).set c items = s.calls.map Call.items := by
    refine List.ext_getElem? fun j => ?_
    by_cases hj : c = j
    · subst hj
      rw [List.getElem?_set_self', List.getElem?_map, h]
      rfl
    · rw [List.getElem?_set_ne hj]
  rw [State.sent, List.flatMap_def, List.map_set, hsame, List.flatMap_def]

/-- A batch holds pending records, and they were submitted. -/
theorem mem_batch {s : State} (hp : Positions s) (hr : Records s) {x : Item} (h : x ∈ s.batch) :
    Submitted s x ∧ ∃ r, s.db.table.get? x.id = some r ∧ r.state = .pending := by
  obtain ⟨⟨k, r⟩, hmem, hitem⟩ := List.mem_filterMap.mp (List.mem_of_mem_take h)
  have hrow := Dict.get?_eq_some_iff.mpr ((List.mem_insertionSort _).mp hmem)
  unfold itemOf at hitem
  split at hitem
  · next hpending =>
    split at hitem
    · next p record hplace hrecord =>
      cases hitem
      exact ⟨⟨r.rest.written, p, hr.written k r hrow, (hp.placed k r hrow p).mp hplace, rfl,
        rfl, rfl, hrecord⟩, r, hrow, hpending⟩
    · cases hitem
  · cases hitem

/-- It holds after a batch is read. -/
theorem Inv.fetch {s : State} (hs : Inv s) :
    Inv { s with calls := s.calls ++ [{ items := s.batch }] } := by
  have hsent : ({ s with calls := s.calls ++ [{ items := s.batch }] } : State).sent =
    s.sent ++ s.batch := by
    rw [State.sent, List.flatMap_append, List.flatMap_singleton]
    rfl
  refine ⟨⟨hs.records.ids, hs.records.written, hs.records.received, fun x hx => ?_,
    fun p hp => ?_, hs.records.durable, hs.records.marks, hs.records.kept⟩,
    hs.positions.same rfl rfl rfl rfl le_rfl, hs.locks.same rfl rfl le_rfl (fun _ hp => hp)
    fun _ hw => hw⟩
  · rw [hsent, List.mem_append] at hx
    rcases hx with hx | hx
    · exact (hs.records.submitted x hx).mono (fun _ hy => hy) fun _ hy => hy
    · exact (mem_batch hs.positions hs.records hx).1.mono (fun _ hy => hy) fun _ hy => hy
  · rw [hsent]
    exact List.mem_append_left _ (hs.records.stored p hp)

/-- The audit component stores a record, at a position that no watermark covers. -/
theorem Inv.stores {s : State} (hs : Inv s) {p : Position} (hsent : p.item ∈ s.sent)
    (hpast : ∀ w ∈ s.marks, ¬ Covers w p) : Inv { s with stored := s.stored ++ [p] } := by
  have hstored : ∀ q ∈ s.stored, q ∈ s.stored ++ [p] := fun q hq => List.mem_append_left _ hq
  refine ⟨⟨hs.records.ids, hs.records.written, fun k r hr hreceived => ?_,
      fun x hx => (hs.records.submitted x hx).mono (fun _ hy => hy) fun _ hy => hy, fun q hq => ?_,
      fun q hq => hstored q (hs.records.durable q hq), fun w hw q hq hcovers => ?_,
      hs.records.kept⟩,
    hs.positions.same rfl rfl rfl rfl le_rfl, hs.locks.same rfl rfl le_rfl hstored fun _ hw => hw⟩
  · obtain ⟨q, hq, hrest⟩ := hs.records.received k r hr hreceived
    exact ⟨q, hstored q hq, hrest⟩
  · rcases List.mem_append.mp hq with hq | hq
    · exact hs.records.stored q hq
    · exact List.mem_singleton.mp hq ▸ hsent
  · rcases List.mem_append.mp hq with hq | hq
    · exact hs.records.marks w hw q hq hcovers
    · exact absurd (List.mem_singleton.mp hq ▸ hcovers) (hpast w hw)

/-- The invariant holds after positions become durable. -/
theorem Inv.backsUp {s : State} (hs : Inv s) (ps : List Position) :
    Inv { s with durable := s.durable ++ ps.filter fun p => decide (p ∈ s.stored) } := by
  refine ⟨⟨hs.records.ids, hs.records.written, hs.records.received,
      fun x hx => (hs.records.submitted x hx).mono (fun _ hy => hy) fun _ hy => hy,
      hs.records.stored, fun q hq => ?_, fun w hw q hq hcovers => List.mem_append_left _
      (hs.records.marks w hw q hq hcovers), fun x hx => ?_⟩,
    hs.positions.same rfl rfl rfl rfl le_rfl, hs.locks.same rfl rfl le_rfl (fun _ hp => hp)
      fun _ hw => hw⟩
  · rcases List.mem_append.mp hq with hq | hq
    · exact hs.records.durable q hq
    · exact of_decide_eq_true (List.mem_filter.mp hq).2
  · exact (hs.records.kept x hx).imp_right fun ⟨q, hq, hid⟩ => ⟨q, List.mem_append_left _ hq, hid⟩

/-- It holds after a watermark that covers only what is durable. -/
theorem Inv.watermark {s : State} (hs : Inv s)
    {w : Watermark} (hw : ∀ p ∈ s.stored, Covers w p → p ∈ s.durable) :
    Inv { s with marks := s.marks ++ [w] } := by
  refine ⟨⟨hs.records.ids, hs.records.written, hs.records.received,
      fun x hx => (hs.records.submitted x hx).mono (fun _ hy => hy) fun _ hy => hy,
      hs.records.stored, hs.records.durable, fun v hv => ?_, hs.records.kept⟩,
    hs.positions.same rfl rfl rfl rfl le_rfl,
    hs.locks.same rfl rfl le_rfl (fun _ hp => hp) fun _ hv => List.mem_append_left _ hv⟩
  rcases List.mem_append.mp hv with hv | hv
  · exact hs.records.marks v hv
  · exact List.mem_singleton.mp hv ▸ hw

/-- Every honest step keeps the invariant. -/
theorem inv_step {s : State} (hs : Inv s) (o : Op) (hok : Honest s o) : Inv (step s o).1 := by
  cases o with
  | insert k e =>
      simp only [step]
      split
      · exact hs
      · next hnone => exact hs.insert e hok (Option.not_isSome_iff_eq_none.mp hnone)
  | number =>
      exact ⟨hs.records.same rfl rfl rfl rfl rfl rfl rfl, hs.positions.same rfl rfl rfl rfl le_rfl,
        hs.locks.begin_ rfl rfl rfl rfl rfl ⟨rfl, rfl⟩ rfl⟩
  | lock i =>
      simp only [step]
      split
      · exact hs
      · next hfree =>
        refine hs.phase fun tx _ => ?_
        split
        · next htask =>
          exact .inr ⟨_, _, htask, rfl, fun h => ⟨h.1, h.2, rfl⟩, .inr (by simpa using hfree)⟩
        · exact .inl rfl
  | read i =>
      refine hs.phase fun tx _ => ?_
      split
      · next c htask =>
        refine .inr ⟨_, _, htask, rfl, fun h => ⟨h.1, h.2.1, by rw [h.2.2], le_rfl,
          fun e he => ?_⟩, .inl rfl⟩
        exact (hs.positions.counter e he).2
      · exact .inl rfl
  | count i =>
      refine hs.phase fun tx _ => ?_
      split
      · next last now htask hleft =>
        refine .inr ⟨_, _, htask, rfl, fun h => ?_, .inl rfl⟩
        obtain ⟨rfl, ids, hw⟩ := h
        exact ⟨hleft, now, ids, hw, by rw [hw.size_eq hleft]⟩
      · exact .inl rfl
  | fetch =>
      simp only [step]
      split
      · exact hs
      · exact hs.fetch
  | answer c receipts now =>
      simp only [step]
      split
      · next items hcall =>
        exact ⟨hs.records.same rfl rfl rfl (sent_answered hcall) rfl rfl rfl,
          hs.positions.same rfl rfl rfl rfl le_rfl,
          hs.locks.begin_ rfl rfl rfl rfl rfl ⟨fun _ hq => hq, hok⟩ rfl⟩
      · exact hs
  | watermark w => exact hs.watermark hok
  | purge m now =>
      simp only [step]
      split
      · next w hw =>
        exact ⟨hs.records.same rfl rfl rfl rfl rfl rfl rfl,
          hs.positions.same rfl rfl rfl rfl le_rfl,
          hs.locks.begin_ rfl rfl rfl rfl rfl ⟨fun _ hq => hq, List.mem_of_getElem? hw⟩ rfl⟩
      · exact hs
  | execute i => exact hs.execute i
  | visit i => exact hs.visit i
  | commit i =>
      simp only [step]
      split
      · next tx htx =>
        split
        · next h =>
          have hleft := List.isEmpty_iff.mp h.2
          split
          · next c htask => exact hs.numbered htx h.1 hleft htask
          · next job htask => exact hs.statements htx h.1 hleft htask
          · exact hs
        · exact hs
      · exact hs
  | abort i => exact hs.go (hs.locks.sound.abort i) fun tx _ _ h => by cases h
  | moves e =>
      exact ⟨hs.records.same rfl rfl rfl rfl rfl rfl rfl,
        hs.positions.same rfl rfl rfl rfl (le_max_left _ _),
        hs.locks.same rfl rfl (le_max_left _ _) (fun _ hp => hp) fun _ hw => hw⟩
  | stores p => exact hs.stores hok.1 hok.2
  | backsUp ps => exact hs.backsUp ps

theorem inv_of_reach {e : Epoch} {h : List Unit} {s : State}
    (hr : Reach step Honest (start e) h s) : Inv s :=
  @Reach.invariant _ _ _ step Honest _ (fun _ s => Inv s) (inv_start e)
    (fun _ _ o hok hs => inv_step hs o hok) h s hr

/-! ## No record is lost -/

/-- The record is in the log as it was written. -/
def InLog (s : State) (x : Id × Written) : Prop :=
  ∃ r, s.db.table.get? x.1 = some r ∧ r.rest.written = x.2

/-- The audit component stored the record as it was written. -/
def Holds (ps : List Position) (x : Id × Written) : Prop :=
  ∃ p ∈ ps, p.item.id = x.1 ∧ p.item.digest = x.2.digest ∧ x.2.record = some p.item.record

/-- What the audit component stored of a record is what was written. -/
theorem Records.stored_as_written {s : State} (h : Records s)
    {p : Position} (hp : p ∈ s.stored) {e : Written} (he : (p.item.id, e) ∈ s.inserted) :
    p.item.digest = e.digest ∧ e.record = some p.item.record := by
  obtain ⟨e', q, he', -, -, -, hdigest, hrecord⟩ := h.submitted _ (h.stored p hp)
  obtain rfl := h.unique he he'
  exact ⟨hdigest, hrecord⟩

/-- **No record is lost.** In every run each inserted record is in the log as it was
written, or in the audit component's backup as it was written; a received row has the
receipt of a position that its record was stored at; and a record is submitted with the
same position and content every time. -/
theorem records_kept {e : Epoch} {h : List Unit} {s : State}
    (hr : Reach step Honest (start e) h s) : (∀ x ∈ s.inserted, InLog s x ∨ Holds s.durable x) ∧
      (∀ k r, s.db.table.get? k = some r → r.state = .received →
        ∃ p ∈ s.stored, r.receiptEpoch = some p.epoch ∧ r.receiptSeq = some p.seq ∧
        p.item.id = k ∧ p.item.digest = r.rest.written.digest ∧
        r.rest.written.record = some p.item.record) ∧
      ∀ x ∈ s.sent, ∀ y ∈ s.sent, x.id = y.id → x = y := by
  have hs := inv_of_reach hr
  refine ⟨fun x hx => ?_, fun k r hrow hreceived => ?_, fun x hx y hy hid => ?_⟩
  · rcases hs.records.kept x hx with hin | ⟨p, hp, hid⟩
    · obtain ⟨r, hrow⟩ := Option.isSome_iff_exists.mp hin
      exact .inl ⟨r, hrow, hs.records.unique (hs.records.written x.1 r hrow) hx⟩
    · obtain ⟨k, e⟩ := x
      obtain rfl : p.item.id = k := hid
      exact .inr ⟨p, hp, rfl, hs.records.stored_as_written (hs.records.durable p hp) hx⟩
  · obtain ⟨p, hp, rfl, hepoch, hseq⟩ := hs.records.received k r hrow hreceived
    exact ⟨p, hp, hepoch, hseq, rfl, hs.records.stored_as_written hp (hs.records.written _ r hrow)⟩
  · obtain ⟨e₁, p₁, he₁, hp₁, hseq₁, hepoch₁, hdigest₁, hrecord₁⟩ := hs.records.submitted x hx
    obtain ⟨e₂, p₂, he₂, hp₂, hseq₂, hepoch₂, hdigest₂, hrecord₂⟩ := hs.records.submitted y hy
    obtain ⟨k, seq, epoch, digest, record⟩ := x
    obtain ⟨k', seq', epoch', digest', record'⟩ := y
    obtain rfl : k = k' := hid
    obtain rfl := hs.records.unique he₁ he₂
    have hplace := (Prod.mk.inj (List.inj_on_of_nodup_map hs.positions.once hp₁ hp₂ rfl)).1
    subst hplace
    rw [Item.mk.injEq]
    exact ⟨rfl, hseq₁.trans hseq₂.symm, hepoch₁.trans hepoch₂.symm, hdigest₁.trans hdigest₂.symm,
      Option.some.inj (hrecord₁.symm.trans hrecord₂)⟩

/-- A database epoch. -/
def firstEpoch : Epoch := toLex (⟨1, by decide⟩, ⟨1, by decide⟩)

def written (n : Nat) : Id × Written := (n, ⟨n, str "sha256:0", some []⟩)

/-- The first record in its epoch, as it was stored. -/
def storedAt (k : Id) (seq : Bigint) : Position :=
  ⟨str "4.1", seq, ⟨k, 1, str "1.1", str "sha256:0", []⟩⟩

/-- A record is inserted and numbered. -/
def recorded : List Op :=
  [.insert (written 7).1 (written 7).2, .number, .lock 0, .read 0, .execute 0, .visit 0,
    .count 0, .commit 0]

/-- A record is inserted, numbered, sent, received, backed up, and deleted after a week. -/
def journey : List Op :=
  recorded ++
    [.fetch, .stores (storedAt 7 ⟨1, by decide⟩),
      .answer 0 [⟨7, 1, str "4.1", ⟨1, by decide⟩, str "c"⟩] 0, .execute 1, .visit 1,
      .commit 1, .backsUp [storedAt 7 ⟨1, by decide⟩],
      .watermark ⟨str "4.1", ⟨1, by decide⟩, .empty, true⟩,
      .purge 0 604800000001, .execute 2, .visit 2, .execute 2, .commit 2]

theorem records_kept_purged :
    (InLog (runOps step (start firstEpoch) journey).2 (written 7) ∨
        Holds (runOps step (start firstEpoch) journey).2.durable (written 7)) ∧
      (runOps step (start firstEpoch) journey).2.db.table.get? 7 = none :=
  ⟨(records_kept (reach_of_allAllowed journey (by decide +kernel))).1 (written 7)
    (by decide +kernel), by decide +kernel⟩

/-! ## No record is missing unseen -/

/-- The record at a position is in the log with it, or in the backup with it. -/
def Located (s : State) (p : Place) (k : Id) : Prop :=
  (∃ r, s.db.table.get? k = some r ∧ r.rest.place = some p) ∨
    ∃ q ∈ s.durable, q.item.id = k ∧ q.item.seq = p.seq ∧ q.item.epoch = epochText p.epoch

/-- **Positions have no gap, and each leads to its record.** In every run, in every epoch,
the numbers given are 1, 2, …, n, each to one record, and that is in the log at this
position or was backed up by the audit component with it. -/
theorem positions_accounted {e₀ : Epoch} {h : List Unit} {s : State}
    (hr : Reach step Honest (start e₀) h s) (e : Epoch) :
    ∃ n, ∀ k, (1 ≤ k ∧ k ≤ n ↔ ∃ id, (⟨e, k⟩, id) ∈ s.given) ∧
      ∀ id, (⟨e, k⟩, id) ∈ s.given → Located s ⟨e, k⟩ id ∧ ∀ id', (⟨e, k⟩, id') ∈ s.given →
      id' = id := by
  have hs := inv_of_reach hr
  have hmem : ∀ k id, (⟨e, k⟩, id) ∈ s.given ↔ (⟨e, k⟩, id) ∈ s.given.filter fun x =>
    decide (x.1.epoch = e) := by
    intro k id
    simp
  have hnodup : (numbers e s.given).Nodup := hs.positions.dense e ▸ List.nodup_range'
  refine ⟨(numbers e s.given).length, fun k => ⟨?_, fun id hid => ⟨?_, fun id' hid' => ?_⟩⟩⟩
  · have hrange : k ∈ numbers e s.given ↔ 1 ≤ k ∧ k ≤ (numbers e s.given).length := by
      rw [hs.positions.dense e, List.mem_range'_1, List.length_range']
      omega
    rw [← hrange, numbers, List.mem_map]
    constructor
    · rintro ⟨⟨⟨e', k⟩, id⟩, hx, rfl⟩
      obtain ⟨hgiven, he⟩ := List.mem_filter.mp hx
      obtain rfl : e' = e := of_decide_eq_true he
      exact ⟨id, hgiven⟩
    · rintro ⟨id, hx⟩
      exact ⟨_, (hmem k id).mp hx, rfl⟩
  · obtain ⟨x, hx, rfl⟩ := List.mem_map.mp (hs.positions.known _ hid)
    rcases hs.records.kept x hx with hin | ⟨p, hp, hpid⟩
    · obtain ⟨r, hrow⟩ := Option.isSome_iff_exists.mp hin
      exact .inl ⟨r, hrow, (hs.positions.placed x.1 r hrow _).mpr hid⟩
    · obtain ⟨-, q, -, hq, hseq, hepoch, -⟩ :=
        hs.records.submitted _ (hs.records.stored p (hs.records.durable p hp))
      rw [hpid] at hq
      obtain rfl := (Prod.mk.inj (List.inj_on_of_nodup_map hs.positions.once hq hid rfl)).1
      exact .inr ⟨p, hp, hpid, hseq, hepoch⟩
  · have := List.inj_on_of_nodup_map hnodup ((hmem k id').mp hid') ((hmem k id).mp hid) rfl
    exact (Prod.mk.inj this).2

theorem positions_accounted_purged :
    ∃ n, ∀ k, (1 ≤ k ∧ k ≤ n ↔ ∃ id, (⟨firstEpoch, k⟩, id) ∈
      (runOps step (start firstEpoch) journey).2.given) ∧ ∀ id, (⟨firstEpoch, k⟩, id) ∈
      (runOps step (start firstEpoch) journey).2.given →
        Located (runOps step (start firstEpoch) journey).2 ⟨firstEpoch, k⟩ id ∧
          ∀ id', (⟨firstEpoch, k⟩, id') ∈ (runOps step (start firstEpoch) journey).2.given →
          id' = id :=
  positions_accounted (reach_of_allAllowed journey (by decide +kernel)) firstEpoch

/-! ## A conflict stops its record -/

/-- What a step makes of a row. -/
theorem step_row {s : State} (hs : Inv s) (o : Op)
    {k : Id} {r : LogRow} (hr : s.db.table.get? k = some r) :
    (∃ q, (step s o).1.db.table.get? k = some (placed r q)) ∨
    Becomes s k r ((step s o).1.db.table.get? k) := by
  have hsame : ∀ s' : State, s'.db.table = s.db.table → Becomes s k r (s'.db.table.get? k) := by
    intro s' htable
    rw [htable, hr]
    exact .same
  cases o with
  | insert j e =>
      simp only [step]
      split
      · exact .inr (hsame s rfl)
      · next hnone =>
        have hne : k ≠ j := by
          rintro rfl
          exact hnone (by rw [hr]; rfl)
        right
        rw [Store.insert, if_neg hnone, Dict.get?_set_of_ne _ _ hne, hr]
        exact .same
  | number | watermark | moves | stores | backsUp => exact .inr (hsame _ rfl)
  | lock =>
      simp only [step]
      split
      · exact .inr (hsame s rfl)
      · exact .inr (hsame _ (Store.go_table _ _ _))
  | read | count | execute | visit | abort => exact .inr (hsame _ (Store.go_table _ _ _))
  | fetch =>
      simp only [step]
      split <;> exact .inr (hsame _ rfl)
  | answer | purge =>
      simp only [step]
      split <;> exact .inr (hsame _ rfl)
  | commit i =>
      simp only [step]
      split
      · next tx htx =>
        split
        · next h =>
          have hdb := Store.commit_eq htx h.1 (List.isEmpty_iff.mp h.2)
          split
          · next c htask =>
            rw [hdb]
            exact .inl (numbering_rows hs htx h.1 htask hr)
          · next job htask =>
            rw [hdb]
            exact .inr (commit_becomes hs htx h.1 htask hr)
          · exact .inr (hsame s rfl)
        · exact .inr (hsame s rfl)
      · exact .inr (hsame s rfl)

/-- What a step submits is a batch. -/
theorem step_sent (s : State) (o : Op) :
    ∃ later, (step s o).1.sent = s.sent ++ later ∧ ∀ x ∈ later, x ∈ s.batch := by
  have hnone : ∀ s' : State, s'.sent = s.sent → ∃ later, s'.sent = s.sent ++ later ∧
    ∀ x ∈ later, x ∈ s.batch :=
    fun s' h => ⟨[], by rw [h, List.append_nil], fun _ hx => by cases hx⟩
  cases o with
  | fetch =>
      simp only [step]
      split
      · exact hnone s rfl
      · refine ⟨s.batch, ?_, fun _ hx => hx⟩
        rw [State.sent, List.flatMap_append, List.flatMap_singleton]
        rfl
  | answer c receipts now =>
      simp only [step]
      split
      · next items hcall => exact hnone _ (sent_answered hcall)
      · exact hnone s rfl
  | number | watermark | moves | stores | backsUp | read | count | execute | visit | abort =>
      exact hnone _ rfl
  | insert | lock | purge =>
      simp only [step]
      split <;> exact hnone _ rfl
  | commit =>
      simp only [step]
      split
      · split
        · split <;> exact hnone _ rfl
        · exact hnone s rfl
      · exact hnone s rfl

/-- Since a state the row has kept all but its position, and its record was not submitted. -/
def Stands (s : State) (k : Id) (r : LogRow) (t : State) : Prop :=
  (∃ q, t.db.table.get? k = some (placed r q)) ∧ ∃ later, t.sent = s.sent ++ later ∧
    ∀ x ∈ later, x.id ≠ k

/-- A record in conflict stands over every step. -/
theorem Stands.step {s t : State} {k : Id} {r : LogRow} (h : Stands s k r t)
    (hconflict : r.state = .conflict) (ht : Inv t) (o : Op) : Stands s k r (step t o).1 := by
  obtain ⟨⟨q, hq⟩, later, hsent, hnot⟩ := h
  have hstate : (placed r q).state = .conflict := hconflict
  refine ⟨?_, ?_⟩
  · rcases step_row ht o hq with ⟨q', hq'⟩ | hbecomes
    · exact ⟨q', hq'⟩
    · generalize (Transfer.step t o).1.db.table.get? k = next at hbecomes ⊢
      cases hbecomes with
      | same => exact ⟨q, rfl⟩
      | settled _ _ _ hpending =>
          rw [hstate] at hpending
          cases hpending
      | reset hreceived | deleted _ _ hreceived =>
          rw [hstate] at hreceived
          cases hreceived
  · obtain ⟨more, hmore, hbatch⟩ := step_sent t o
    refine ⟨later ++ more, by rw [hmore, hsent, List.append_assoc], fun x hx => ?_⟩
    rcases List.mem_append.mp hx with hx | hx
    · exact hnot x hx
    · rintro rfl
      obtain ⟨-, r', hr', hpending⟩ := mem_batch ht.positions ht.records (hbatch x hx)
      cases hq.symm.trans hr'
      rw [hstate] at hpending
      cases hpending

/-- **A conflict stops its record, and for good.** From any state of any run, whatever the
replicas do: a row in conflict keeps all but its position, and is never submitted again. -/
theorem conflict_stands {e : Epoch} {h h' : List Unit} {s s' : State}
    (hr : Reach step Honest (start e) h s) (hr' : Reach step Honest s h' s')
    {k : Id} {r : LogRow} (hrow : s.db.table.get? k = some r)
    (hconflict : r.state = .conflict) : Stands s k r s' := by
  have hstart : Stands s k r s := ⟨⟨r.rest.place, hrow⟩, [], (List.append_nil _).symm,
    fun _ hx => by cases hx⟩
  exact (@Reach.invariant _ _ _ step Honest s (fun _ t => Inv t ∧ Stands s k r t)
    ⟨inv_of_reach hr, hstart⟩ (fun _ _ o hok ht => ⟨inv_step ht.1 o hok,
      ht.2.step hconflict ht.1 o⟩) h' s' hr').2

/-- Another record was stored under the id. -/
def disputed : List Op :=
  recorded ++ [.fetch, .answer 0 [⟨7, 2, str "", ⟨0, by decide⟩, str ""⟩] 0, .execute 1,
    .visit 1, .commit 1]

/-- The next record is numbered and sent. -/
def resumed : List Op :=
  [.insert (written 8).1 (written 8).2, .number, .lock 2, .read 2, .execute 2, .visit 2,
    .count 2, .commit 2, .fetch]

def disputedRow : LogRow :=
  { state := .conflict, receiptEpoch := some (str ""), receiptSeq := some ⟨0, by decide⟩,
    receiptChain := some (str "")
    receivedAt := some 0, rest := ⟨(written 7).2, some ⟨firstEpoch, 1⟩⟩ }

theorem conflict_stands_disputed :
    Stands (runOps step (start firstEpoch) disputed).2 7 disputedRow
      (runOps step (runOps step (start firstEpoch) disputed).2 resumed).2 :=
  conflict_stands
    (reach_of_allAllowed disputed (by decide +kernel))
    (reach_of_allAllowed resumed (by decide +kernel)) (by decide +kernel) rfl

end BeSdk.Audit.Transfer
