/-
BeSdk.Events.WakeTheorems — a waiting forwarder has forwarded what it was told of.

A row is OWED when it was told of, or a poll saw it, and its partition was not given up
since (`Owed`). While it is unpublished something still leads to it (`Covered`): its
partition is dirty, or among the parts still to be tried, or being tried at a stage
whose numbering and reading took in the row or filled the batch, so that the
partition is tried again. `Sound` keeps this over every step; where the forwarder waits
and was not woken nothing leads to any row, so none is owed.

* `waits_up_to_date`: no wakeup is lost, and none postpones the poll.
-/
import BeSdk.Events.Wake
import Mathlib.Data.List.Perm.Subperm

namespace BeSdk.Events.Wake

variable {f : Forwarder}

/-! ## The past -/

/-- The forwarder gave up on a partition: its lease was refused, forwarding it failed, or a
poll could not read. -/
def Note.givesUp (p : Part) : Note → Bool
  | .gaveUp q => q = p
  | .unread => true
  | _ => false

/-- The forwarder was told of a row, or a poll saw it. -/
def Note.tells (r : Part × Nat) : Note → Bool
  | .told rows => rows.contains r
  | .polled rows => rows.contains r
  | _ => false

/-- The forwarder knows of the row, and did not give up on its partition since. -/
def Owed (notes : List Note) (r : Part × Nat) : Prop :=
  Since (fun n => n.givesUp r.1 = false) (fun n => n.tells r = true) notes

/-- When the poll is due: an interval after the last one ended. -/
def pollDue (f : Forwarder) : List Note → Nat
  | [] => 0
  | .pollEnded t :: _ => t + f.poll
  | _ :: notes => pollDue f notes

/-- A pass that is no poll began before the poll was due. -/
def Paced (f : Forwarder) : List Note → Prop
  | [] => True
  | .pass poll t :: notes => (poll = true ↔ pollDue f notes ≤ t) ∧ Paced f notes
  | _ :: notes => Paced f notes

/-! ## What leads to a row -/

/-- The stage goes on to publish the row, or to a full batch. -/
def Stage.Covers (limit : Nat) (r : Row) : Stage → Prop
  | .leasing => True
  | .leased => True
  | .numbered picked => picked.length = limit ∨ r.status = .numbered ∨ r.ord ∈ picked
  | .read _ batch => batch.length = limit ∨ r.ord ∈ batch
  | .publishing rest done => done.length + rest.length = limit ∨ r.ord ∈ done ++ rest
  | .marking done ok => ok = true → done.length = limit ∨ r.ord ∈ done

/-- The pass goes on to the row's partition. -/
def Phase.Covers (f : Forwarder) (r : Row) : Phase → Prop
  | .waiting => False
  | .pending => r.part ∈ f.every
  | .forwarding _ rest full => r.part ∈ rest ∨ r.part ∈ full
  | .trying _ p rest full stage =>
      r.part ∈ rest ∨ r.part ∈ full ∨ (r.part = p ∧ stage.Covers f.batch r)
  | .stopped => True

def Covered (f : Forwarder) (s : State) (r : Row) : Prop := r.part ∈ s.dirty ∨ s.phase.Covers f r

/-- The rows that the open transaction has numbered are there as it saw them. -/
def Phase.Holds (rows : List Row) : Phase → Prop
  | .trying _ p _ _ (.numbered picked) =>
      picked.Nodup ∧ ∀ o ∈ picked, ∃ r ∈ rows, r.ord = o ∧ r.part = p ∧ r.status = .unnumbered
  | _ => True

structure Sound (f : Forwarder) (notes : List Note) (s : State) : Prop where
  ords : ∀ r ∈ s.rows, r.ord < s.nextOrd
  distinct : (s.rows.map Row.ord).Nodup
  untold : ∀ rows ∈ s.untold, ∀ r ∈ rows, r.1 ∈ f.every ∧ r.2 < s.nextOrd
  known : ∀ n ∈ notes, ∀ r : Part × Nat, n.tells r = true → r.1 ∈ f.every ∧ r.2 < s.nextOrd
  dirty : ∀ p ∈ s.dirty, p ∈ f.every
  woken : s.dirty ≠ [] → s.written = true
  holds : s.phase.Holds s.rows
  covered : ∀ r ∈ s.rows, r.status ≠ .published → Owed notes r.key → Covered f s r
  due : s.nextPoll = pollDue f notes
  paced : Paced f notes

/-- A row that is owed was told or will be polled. -/
theorem Owed.known {notes : List Note} {r : Part × Nat} (h : Owed notes r) :
    ∃ n ∈ notes, n.tells r = true := by
  induction notes with
  | nil => exact absurd h (since_nil _ _)
  | cons n notes ih =>
    rcases h with h | ⟨-, h⟩
    · exact ⟨n, List.mem_cons_self, h⟩
    · obtain ⟨m, hm, htells⟩ := ih h
      exact ⟨m, List.mem_cons_of_mem _ hm, htells⟩

/-- After a note that tells of no row. -/
theorem Owed.before {n : Note} {notes : List Note} {r : Part × Nat} (h : Owed (n :: notes) r)
    (htells : n.tells r = false) : n.givesUp r.1 = false ∧ Owed notes r := by
  rcases h with h | h
  · rw [htells] at h
    cases h
  · exact h

/-! ## The table -/

/-- The rows after a step: those there before, with their marks, and new ones. -/
structure Later (s : State) (rows : List Row) (nextOrd : Nat) : Prop where
  next : s.nextOrd ≤ nextOrd
  ords : ∀ r ∈ rows, r.ord < nextOrd
  distinct : (rows.map Row.ord).Nodup
  from_ : ∀ r ∈ rows, (∃ q ∈ s.rows, q.key = r.key ∧
    (q.status = .unnumbered ∨ q.status = r.status ∨ r.status = .published)) ∨ s.nextOrd ≤ r.ord

/-- Rows that are inserted come later. -/
theorem Sound.insert_later {notes : List Note} {s : State} (hs : Sound f notes s)
    (parts : List Part) : Later s (s.insert parts).rows (s.insert parts).nextOrd := by
  have hnew :
    ∀ r ∈ parts.zipIdx.map (fun p : Part × Nat => ({ part := p.1, ord := s.nextOrd + p.2 } : Row)),
      s.nextOrd ≤ r.ord ∧ r.ord < s.nextOrd + parts.length := by
    intro r hr
    obtain ⟨⟨p, i⟩, hp, rfl⟩ := List.mem_map.mp hr
    have := (List.mem_zipIdx hp).2.1
    simp only
    omega
  refine ⟨Nat.le_add_right _ _, fun r hr => ?_, ?_, fun r hr => ?_⟩
  · rcases List.mem_append.mp hr with hr | hr
    · exact (hs.ords r hr).trans_le (Nat.le_add_right _ _)
    · exact (hnew r hr).2
  · rw [State.insert, List.map_append, List.nodup_append]
    refine ⟨hs.distinct, ?_, ?_⟩
    · have hords : (parts.zipIdx.map
        (fun p : Part × Nat => ({ part := p.1, ord := s.nextOrd + p.2 } : Row))).map Row.ord =
          (List.range parts.length).map (s.nextOrd + ·) := by
        rw [List.map_map, List.range_eq_range', ← List.zipIdx_map_snd 0 parts, List.map_map]
        rfl
      rw [hords]
      exact List.nodup_range.map fun a b h => by simpa using h
    · rintro a ha b hb rfl
      obtain ⟨q, hq, rfl⟩ := List.mem_map.mp ha
      obtain ⟨r, hr, heq⟩ := List.mem_map.mp hb
      have := hs.ords q hq
      have := (hnew r hr).1
      omega
  · rcases List.mem_append.mp hr with hr | hr
    · exact .inl ⟨r, hr, rfl, .inr (.inl rfl)⟩
    · exact .inr (hnew r hr).1

/-- Rows that go on keep their place and their key. -/
theorem Sound.map_later {notes : List Note} {s : State} (hs : Sound f notes s)
    {g : Row → Row} (hkey : ∀ r, (g r).key = r.key)
    (hstatus : ∀ r, r.status = .unnumbered ∨ r.status = (g r).status ∨ (g r).status = .published) :
    Later s (s.rows.map g) s.nextOrd := by
  have hord : ∀ r, (g r).ord = r.ord := fun r => congrArg Prod.snd (hkey r)
  refine ⟨le_rfl, fun r hr => ?_, ?_, fun r hr => ?_⟩
  · obtain ⟨q, hq, rfl⟩ := List.mem_map.mp hr
    rw [hord]
    exact hs.ords q hq
  · rw [List.map_map, show Row.ord ∘ g = Row.ord from funext hord]
    exact hs.distinct
  · obtain ⟨q, hq, rfl⟩ := List.mem_map.mp hr
    exact .inl ⟨q, hq, (hkey q).symm, hstatus q⟩

/-- Rows that are numbered were there. -/
theorem Sound.number_later {notes : List Note} {s : State} (hs : Sound f notes s)
    (ords : List Nat) : Later s (s.number ords).rows s.nextOrd := by
  refine hs.map_later (fun r => ?_) fun r => ?_
  · split <;> rfl
  · split
    · next h => exact .inl h.2
    · exact .inr (.inl rfl)

/-- So were rows that are marked. -/
theorem Sound.mark_later {notes : List Note} {s : State} (hs : Sound f notes s) (ords : List Nat) :
    Later s (s.mark ords).rows s.nextOrd := by
  refine hs.map_later (fun r => ?_) fun r => ?_
  · split <;> rfl
  · split
    · exact .inr (.inr rfl)
    · exact .inr (.inl rfl)

/-- So were rows that stay. -/
theorem Sound.purge_later {notes : List Note} {s : State} (hs : Sound f notes s) (ords : List Nat) :
    Later s (s.purge ords).rows s.nextOrd := by
  refine ⟨le_rfl, fun r hr => hs.ords r (List.mem_filter.mp hr).1, ?_, fun r hr => ?_⟩
  · exact (List.filter_sublist.map Row.ord).nodup hs.distinct
  · exact .inl ⟨r, (List.mem_filter.mp hr).1, rfl, .inr (.inl rfl)⟩

/-- A stage that covers a row covers what became of it. -/
theorem Stage.Covers.later {limit : Nat} {q r : Row} {stage : Stage}
    (h : stage.Covers limit q) (hord : q.ord = r.ord)
    (hnumbered : q.status = .numbered → r.status = .numbered) : stage.Covers limit r := by
  cases stage with
  | leasing => trivial
  | leased => trivial
  | numbered picked => exact h.imp_right fun h => h.imp hnumbered fun h => hord ▸ h
  | read picked batch => exact h.imp_right fun h => hord ▸ h
  | publishing rest done => exact h.imp_right fun h => hord ▸ h
  | marking done ok => exact fun hok => (h hok).imp_right fun h => hord ▸ h

/-- So does a phase. -/
theorem Phase.Covers.later {q r : Row} {phase : Phase} (h : phase.Covers f q) (hkey : q.key = r.key)
    (hnumbered : q.status = .numbered → r.status = .numbered) : phase.Covers f r := by
  have hpart : q.part = r.part := congrArg Prod.fst hkey
  cases phase with
  | waiting => exact h
  | pending =>
    simp only [Phase.Covers] at h ⊢
    rwa [← hpart]
  | forwarding poll rest full =>
    simp only [Phase.Covers] at h ⊢
    rwa [← hpart]
  | trying poll p rest full stage =>
    simp only [Phase.Covers] at h ⊢
    rw [← hpart]
    exact h.imp_right fun h => h.imp_right fun h =>
      ⟨h.1, h.2.later (congrArg Prod.snd hkey) hnumbered⟩
  | stopped => trivial

/-- The rows that nobody but this forwarder numbers or publishes stay. -/
theorem Phase.Holds.mono {phase : Phase} {rows rows' : List Row} (h : phase.Holds rows)
    (hstay : ∀ r ∈ rows, some r.part = phase.locked → r.status = .unnumbered → r ∈ rows') :
    phase.Holds rows' := by
  unfold Phase.Holds at h ⊢
  split at h
  · refine ⟨h.1, fun o ho => ?_⟩
    obtain ⟨r, hr, hord, hpart, hstatus⟩ := h.2 o ho
    exact ⟨r, hstay r hr (by rw [hpart]; rfl) hstatus, hord, hpart, hstatus⟩
  · trivial

/-- The table changes, and nothing else. -/
theorem Sound.later {notes : List Note} {s : State} (hs : Sound f notes s)
    {rows : List Row} {nextOrd : Nat} (hlater : Later s rows nextOrd)
    (hholds : s.phase.Holds rows) : Sound f notes { s with rows, nextOrd } where
  ords := hlater.ords
  distinct := hlater.distinct
  untold := fun l hl r hr => ⟨(hs.untold l hl r hr).1, (hs.untold l hl r hr).2.trans_le hlater.next⟩
  known := fun n hn r hr => ⟨(hs.known n hn r hr).1, (hs.known n hn r hr).2.trans_le hlater.next⟩
  dirty := hs.dirty
  woken := hs.woken
  holds := hholds
  covered := by
    intro r hr hpublished howed
    rcases hlater.from_ r hr with ⟨q, hq, hkey, hstatus⟩ | hnew
    · have hsame : q.status = .unnumbered ∨ q.status = r.status := hstatus.imp_right fun h =>
        h.resolve_right hpublished
      have hunpublished : q.status ≠ .published := by
        rcases hsame with h | h <;> rw [h]
        · decide
        · exact hpublished
      have hnumbered : q.status = .numbered → r.status = .numbered := by
        intro h
        rcases hsame with h' | h'
        · rw [h] at h'
          cases h'
        · exact h' ▸ h
      have hpart : q.part = r.part := congrArg Prod.fst hkey
      exact (hs.covered q hq hunpublished (hkey ▸ howed)).imp (fun h => hpart ▸ h) fun h =>
        h.later hkey hnumbered
    · obtain ⟨n, hn, htells⟩ := howed.known
      exact absurd (hs.known n hn r.key htells).2 (Nat.not_lt.mpr hnew)
  due := hs.due
  paced := hs.paced

/-! ### The steps of others -/

theorem Sound.insert {notes : List Note} {s : State} (hs : Sound f notes s)
    (parts : List Part) : Sound f notes (s.insert parts) :=
  hs.later (hs.insert_later parts) (hs.holds.mono fun _ hr _ _ => List.mem_append_left _ hr)

/-- Another process may number rows. -/
theorem Sound.otherNumber {notes : List Note} {s : State} (hs : Sound f notes s) (ords : List Nat) :
    Sound f notes (s.number (ords.filter (· ∉ s.locked))) := by
  refine hs.later (hs.number_later _) (hs.holds.mono fun r hr hlocked _ => ?_)
  have hmem : r.ord ∈ s.locked := List.mem_map.mpr
    ⟨r, List.mem_filter.mpr ⟨hr, by simpa using hlocked⟩, rfl⟩
  refine List.mem_map.mpr ⟨r, hr, ?_⟩
  rw [if_neg]
  simp [hmem]

/-- Another process may mark rows as published. -/
theorem Sound.otherMark {notes : List Note} {s : State} (hs : Sound f notes s) (ords : List Nat) :
    Sound f notes (s.mark (ords.filter (· ∈ s.numbered))) := by
  refine hs.later (hs.mark_later _) (hs.holds.mono fun r hr _ hstatus => ?_)
  refine List.mem_map.mpr ⟨r, hr, ?_⟩
  rw [if_neg]
  intro hmem
  obtain ⟨q, hq, hord⟩ := List.mem_map.mp (of_decide_eq_true (List.mem_filter.mp hmem).2)
  obtain ⟨hq, hnumbered⟩ := List.mem_filter.mp hq
  rw [List.inj_on_of_nodup_map hs.distinct hq hr hord] at hnumbered
  exact of_decide_eq_true hnumbered hstatus

/-- Rows may be purged. -/
theorem Sound.purge {notes : List Note} {s : State} (hs : Sound f notes s) (ords : List Nat) :
    Sound f notes (s.purge ords) := by
  refine hs.later (hs.purge_later ords) (hs.holds.mono fun r hr _ hstatus => ?_)
  exact List.mem_filter.mpr ⟨hr, by simp [hstatus]⟩

/-! ### The steps of the forwarder -/

/-- The loop goes on, telling of nothing: what led to a row still does, or its partition
was given up. -/
theorem Sound.turn {notes : List Note} {s : State} (hs : Sound f notes s) (new : List Note)
    {phase : Phase} {dirty : List Part} {written : Bool} {next : Nat}
    (hdirty : ∀ p ∈ dirty, p ∈ f.every) (hwoken : dirty ≠ [] → written = true)
    (hholds : phase.Holds s.rows) (htells : ∀ n ∈ new, ∀ row, n.tells row = false)
    (hdue : next = pollDue f (new ++ notes)) (hpaced : Paced f (new ++ notes))
    (hcovers : ∀ r ∈ s.rows, r.status ≠ .published → (∀ n ∈ new, n.givesUp r.part = false) →
      Covered f s r → r.part ∈ dirty ∨ phase.Covers f r) :
    Sound f (new ++ notes) { s with phase, dirty := dirty, written, nextPoll := next } where
  ords := hs.ords
  distinct := hs.distinct
  untold := hs.untold
  known := by
    intro n hn r hr
    rcases List.mem_append.mp hn with hn | hn
    · rw [htells n hn r] at hr
      cases hr
    · exact hs.known n hn r hr
  dirty := hdirty
  woken := hwoken
  holds := hholds
  covered := by
    intro r hr hpublished howed
    have hbefore : ∀ l : List Note, (∀ n ∈ l, ∀ r, n.tells r = false) → Owed (l ++ notes) r.key →
        (∀ n ∈ l, n.givesUp r.part = false) ∧ Owed notes r.key := by
      intro l
      induction l with
      | nil => exact fun _ h => ⟨by simp, h⟩
      | cons n l ih =>
        intro hl h
        rw [List.forall_mem_cons] at hl
        obtain ⟨hn, h⟩ := Owed.before h (hl.1 r.key)
        obtain ⟨hall, h⟩ := ih hl.2 h
        exact ⟨List.forall_mem_cons.mpr ⟨hn, hall⟩, h⟩
    obtain ⟨hnew, howed⟩ := hbefore new htells howed
    exact hcovers r hr hpublished hnew (hs.covered r hr hpublished howed)
  due := hdue
  paced := hpaced

/-- The loop goes on to a phase that leads to the same rows. -/
theorem Sound.to_ {notes : List Note} {s : State} (hs : Sound f notes s)
    {phase : Phase} (hholds : phase.Holds s.rows)
    (hcovers : ∀ r ∈ s.rows, r.status ≠ .published → s.phase.Covers f r → phase.Covers f r) :
    Sound f notes { s with phase } :=
  hs.turn [] hs.dirty hs.woken hholds (by simp) hs.due hs.paced
    fun r hr hpublished _ h => h.imp_right (hcovers r hr hpublished)

/-- The loop goes on and leads to the rows of one partition no more. -/
theorem Sound.gaveUp {notes : List Note} {s : State} (hs : Sound f notes s)
    {phase : Phase} (p : Part) (hholds : phase.Holds s.rows)
    (hcovers : ∀ r ∈ s.rows, r.part ≠ p → s.phase.Covers f r → phase.Covers f r) :
    Sound f (.gaveUp p :: notes) { s with phase } :=
  hs.turn [.gaveUp p] hs.dirty hs.woken hholds (by simp [Note.tells]) hs.due hs.paced
    fun r hr _ hkept h => h.imp_right (hcovers r hr fun heq => by simp [Note.givesUp, heq] at hkept)

/-- A read within its limit takes every row. -/
theorem Takes.mem {limit : Nat} {rows taken left : List Nat} (h : Takes limit rows taken left)
    {o : Nat} (ho : o ∈ rows) : taken.length = limit ∨ o ∈ taken := by
  rcases h.2 with hfull | ⟨rfl, -⟩
  · exact .inl hfull
  · refine .inr ?_
    rw [← List.append_nil taken]
    exact h.1.mem_iff.mpr ho

/-- At least as many rows as the limit fill it. -/
theorem Takes.full {limit : Nat} {rows taken left : List Nat}
    (h : Takes limit rows taken left) (hlimit : limit ≤ rows.length) :
    taken.length = limit := by
  rcases h.2 with hfull | ⟨rfl, hle⟩
  · exact hfull
  · have := h.1.length_eq
    rw [List.append_nil] at this
    omega

/-- A part that raised leaves the others to the poll. -/
theorem raised_sound {notes : List Note} {s : State} (hs : Sound f notes s)
    {poll : Bool} {p : Part} {rest full : List Part} {stage : Stage}
    (hphase : s.phase = .trying poll p rest full stage) :
    Sound f ((s.raised poll p rest full).2 ++ notes) (s.raised poll p rest full).1 := by
  refine hs.gaveUp p trivial fun r _ hne h => ?_
  rw [hphase] at h
  exact h.imp_right fun h => h.resolve_right fun h => hne h.1

/-- A step within a pass keeps what is owed. -/
theorem tryStep_sound {notes : List Note} {s : State} (hs : Sound f notes s)
    {poll : Bool} {p : Part} {rest full : List Part} {stage : Stage}
    (hphase : s.phase = .trying poll p rest full stage) (o : Op) :
    Sound f ((tryStep f s poll p rest full stage o).2 ++ notes)
    (tryStep f s poll p rest full stage o).1 := by
  -- a stage that takes in every row the stage before it did
  have hgoes : ∀ stage' : Stage, (Phase.trying poll p rest full stage').Holds s.rows →
      (∀ r ∈ s.rows, r.status ≠ .published → r.part = p → stage.Covers f.batch r →
        stage'.Covers f.batch r) →
      Sound f notes (s.to_ poll p rest full stage') := by
    intro stage' hholds hcovers
    refine hs.to_ hholds fun r hr hpublished h => ?_
    rw [hphase] at h
    exact h.imp_right fun h => h.imp_right fun h => ⟨h.1, hcovers r hr hpublished h.1 h.2⟩
  unfold tryStep
  split
  -- the lease
  · exact hgoes .leased trivial fun _ _ _ _ _ => trivial
  · refine hs.gaveUp p trivial fun r _ hne h => ?_
    rw [hphase] at h
    refine h.imp_right fun h => ?_
    have hfull := h.resolve_right fun h => hne h.1
    split
    · exact List.mem_append_left _ hfull
    · exact hfull
  · exact raised_sound hs hphase
  -- the transaction
  · next picked left =>
    split
    swap
    · exact hs
    next htakes =>
    have hnodup : (s.unnumbered p).Nodup := (List.filter_sublist.map Row.ord).nodup hs.distinct
    refine hgoes (.numbered picked) ⟨(htakes.1.nodup_iff.mpr hnodup).of_append_left,
      fun o ho => ?_⟩ fun r hr hpublished hpart _ => ?_
    · obtain ⟨r, hr, hord⟩ := List.mem_map.mp (htakes.1.mem_iff.mp (List.mem_append_left left ho))
      obtain ⟨hr, hcond⟩ := List.mem_filter.mp hr
      exact ⟨r, hr, hord, of_decide_eq_true hcond⟩
    · cases hstatus : r.status with
      | published => exact absurd hstatus hpublished
      | numbered => exact .inr (.inl hstatus)
      | unnumbered =>
        have hmem : r.ord ∈ s.unnumbered p :=
          List.mem_map.mpr ⟨r, List.mem_filter.mpr ⟨hr, by simp [hpart, hstatus]⟩, rfl⟩
        exact (htakes.mem hmem).imp_right .inr
  · next picked batch left =>
    split
    swap
    · exact hs
    next htakes =>
    refine hgoes (.read picked batch) trivial fun r hr hpublished hpart hcovers => ?_
    have hholds : picked.Nodup ∧ ∀ o ∈ picked, ∃ r ∈ s.rows, r.ord = o ∧ r.part = p ∧
      r.status = .unnumbered := by
      have := hs.holds
      rwa [hphase] at this
    have hseen : ∀ q ∈ s.rows, q.part = p → q.status = .numbered ∨
      (q.status = .unnumbered ∧ q.ord ∈ picked) →
        q.ord ∈ s.unpublished p picked :=
      fun q hq hqpart hstatus => List.mem_map.mpr
        ⟨q, List.mem_filter.mpr ⟨hq, by simpa [hqpart] using hstatus⟩, rfl⟩
    rcases hcovers with hfull | hstatus | hpicked
    · -- what was numbered fills the batch
      have hsub : picked ⊆ s.unpublished p picked := by
        intro o ho
        obtain ⟨q, hq, rfl, hqpart, hstatus⟩ := hholds.2 o ho
        exact hseen q hq hqpart (.inr ⟨hstatus, ho⟩)
      exact .inl (htakes.full (hfull ▸ (List.subperm_of_subset hholds.1 hsub).length_le))
    · exact htakes.mem (hseen r hr hpart (.inl hstatus))
    · refine htakes.mem (hseen r hr hpart ?_)
      cases hstatus : r.status with
      | published => exact absurd hstatus hpublished
      | numbered => exact .inl rfl
      | unnumbered => exact .inr ⟨rfl, hpicked⟩
  · next picked batch =>
    have hlater : Sound f notes (s.number picked) := hs.later (hs.number_later picked)
      (by rw [hphase]; trivial)
    refine hlater.to_ trivial fun r _ _ h => ?_
    rw [show (s.number picked).phase = s.phase from rfl, hphase] at h
    exact h.imp_right fun h => h.imp_right fun h =>
      ⟨h.1, h.2.imp (fun h => by simpa using h) fun h => by simpa using h⟩
  · exact hgoes .leased trivial fun _ _ _ _ _ => trivial
  · exact hgoes .leased trivial fun _ _ _ _ _ => trivial
  · exact hgoes .leased trivial fun _ _ _ _ _ => trivial
  · exact raised_sound hs hphase
  · exact raised_sound hs hphase
  · exact raised_sound hs hphase
  -- the messages
  · next o os done ok =>
    cases ok with
    | true =>
      refine hgoes (.publishing os (done ++ [o])) trivial fun r _ _ _ h => ?_
      rcases h with h | h
      · left
        simp only [List.length_append, List.length_cons, List.length_nil] at h ⊢
        omega
      · right
        simpa using h
    | false => exact hgoes (.marking done false) trivial fun r _ _ _ _ h => by cases h
  · next done _ =>
    refine hgoes (.marking done true) trivial fun r _ _ _ h _ => ?_
    simpa [Stage.Covers] using h
  -- the marks
  · next done ok =>
    have hlater : Sound f notes (s.mark done) := hs.later (hs.mark_later done)
      (by rw [hphase]; trivial)
    have hphase' : (s.mark done).phase = .trying poll p rest full (.marking done ok) := hphase
    cases ok with
    | false => exact raised_sound hlater hphase'
    | true =>
      refine hlater.to_ trivial fun r hr hpublished h => ?_
      rw [hphase'] at h
      refine h.imp_right fun h => ?_
      rcases h with h | ⟨hpart, h⟩
      · split
        · exact List.mem_append_left _ h
        · exact h
      · rcases h rfl with hfull | hdone
        · rw [if_pos hfull, hpart]
          exact List.mem_append_right _ (List.mem_singleton_self p)
        · obtain ⟨q, hq, rfl⟩ := List.mem_map.mp hr
          have hord : q.ord ∈ done := by
            split at hdone <;> exact hdone
          rw [if_pos hord] at hpublished
          exact absurd rfl hpublished
  · exact raised_sound hs hphase
  · exact hs

/-- A pass ends, and nothing led to any row. -/
theorem endPass_sound {notes : List Note} {s : State} (hs : Sound f notes s) (poll : Bool)
    (hphase : s.phase = .forwarding poll [] []) :
    Sound f ((s.endPass f poll).2 ++ notes) (s.endPass f poll).1 := by
  have hcovers : ∀ r : Row, Covered f s r → r.part ∈ s.dirty ∨ Phase.waiting.Covers f r := by
    intro r h
    refine h.imp_right fun h => ?_
    rw [hphase] at h
    simp [Phase.Covers] at h
  unfold State.endPass
  split
  · exact hs.turn [.pollEnded s.now] hs.dirty hs.woken trivial (by simp [Note.tells]) rfl
      hs.paced fun r _ _ _ => hcovers r
  · exact hs.turn [] hs.dirty hs.woken trivial (by simp) hs.due hs.paced fun r _ _ _ => hcovers r

/-- A poll tries every partition that has a row it saw. -/
theorem pending_sound {notes : List Note} {s : State} (hs : Sound f notes s)
    (hphase : s.phase = .pending) {rows : List (Part × Nat)}
    (hrows : rows = (s.rows.filter fun r => r.status ≠ .published ∧ r.part ∈ f.every).map Row.key) :
    Sound f (.polled rows :: notes)
    { s with phase := .forwarding true (f.every.filter fun p => p ∈ rows.map Prod.fst) [] } where
  ords := hs.ords
  distinct := hs.distinct
  untold := hs.untold
  known := by
    intro n hn r hr
    rcases List.mem_cons.mp hn with rfl | hn
    · simp only [Note.tells, List.contains_iff_mem, hrows] at hr
      obtain ⟨q, hq, rfl⟩ := List.mem_map.mp hr
      obtain ⟨hq, hcond⟩ := List.mem_filter.mp hq
      exact ⟨(of_decide_eq_true hcond).2, hs.ords q hq⟩
    · exact hs.known n hn r hr
  dirty := hs.dirty
  woken := hs.woken
  holds := trivial
  covered := by
    intro r hr hpublished howed
    have hpart : r.part ∈ f.every ∨ r.part ∈ s.dirty := by
      rcases howed with htells | ⟨-, howed⟩
      · simp only [Note.tells, List.contains_iff_mem, hrows] at htells
        obtain ⟨q, hq, hkey⟩ := List.mem_map.mp htells
        have hqpart : q.part = r.part := congrArg Prod.fst hkey
        exact .inl (hqpart ▸ (of_decide_eq_true (List.mem_filter.mp hq).2).2)
      · have h := hs.covered r hr hpublished howed
        rw [Covered, hphase] at h
        exact h.symm
    rcases hpart with hpart | hdirty
    · refine .inr (.inl (List.mem_filter.mpr ⟨hpart, decide_eq_true ?_⟩))
      rw [hrows, List.map_map]
      exact List.mem_map.mpr ⟨r, List.mem_filter.mpr ⟨hr, by simp [hpublished, hpart]⟩, rfl⟩
    · exact .inl hdirty
  due := hs.due
  paced := hs.paced

/-- The wakeup that begins a pass keeps what is owed. -/
theorem wake_sound {notes : List Note} {s : State} (hs : Sound f notes s)
    (hphase : s.phase = .waiting) {poll : Bool} (hpoll : poll = true ↔ s.nextPoll ≤ s.now)
    {written : List Part} (hwritten : written.Perm s.dirty) :
    Sound f (.pass poll s.now :: notes)
      { s with dirty := [], written := false, phase := if poll then .pending
        else .forwarding false written [] } := by
  refine hs.turn [.pass poll s.now] (by simp) (by simp) ?_ (by simp [Note.tells]) hs.due
    ⟨?_, hs.paced⟩ fun r hr _ _ h => .inr ?_
  · split <;> trivial
  · rw [hpoll, hs.due]
    rfl
  · rw [Covered, hphase] at h
    have hdirty : r.part ∈ s.dirty := h.resolve_right id
    split
    · exact hs.dirty _ hdirty
    · exact .inl (hwritten.mem_iff.mpr hdirty)

/-- So does every step of the loop. -/
theorem runStep_sound {notes : List Note} {s : State} (hs : Sound f notes s) (o : Op) :
    Sound f ((runStep f s o).2 ++ notes) (runStep f s o).1 := by
  unfold runStep
  cases hphase : s.phase with
  | waiting =>
    cases o with
    | wake written =>
      simp only
      split
      · next hwritten => exact wake_sound hs hphase (by simp) hwritten
      · exact hs
    | _ => exact hs
  | pending =>
    cases o with
    | pending ok =>
      cases ok with
      | true => exact pending_sound hs hphase rfl
      | false =>
        refine hs.turn [.pollEnded s.now, .unread] hs.dirty hs.woken trivial
          (by simp [Note.tells]) rfl hs.paced fun r _ _ hkept _ => ?_
        have := hkept .unread (by simp)
        cases this
    | _ => exact hs
  | forwarding poll rest full =>
    cases rest with
    | cons p rest =>
      cases o with
      | next =>
        refine hs.to_ trivial fun r _ _ h => ?_
        rw [hphase] at h
        rcases h with h | h
        · rcases List.mem_cons.mp h with h | h
          · exact .inr (.inr ⟨h, trivial⟩)
          · exact .inl h
        · exact .inr (.inl h)
      | _ => exact hs
    | nil =>
      cases full with
      | nil =>
        cases o with
        | next => exact endPass_sound hs poll hphase
        | _ => exact hs
      | cons p full =>
        cases o with
        | next =>
          refine hs.to_ trivial fun r _ _ h => ?_
          rw [hphase] at h
          exact .inl (h.resolve_left (by simp))
        | _ => exact hs
  | trying poll p rest full stage => exact tryStep_sound hs hphase o
  | stopped => exact hs

/-- What a commit writes is told of later, or never. -/
theorem commit_sound {notes : List Note} {s : State} (hs : Sound f notes s)
    {parts : List Part} (hall : ∀ p ∈ parts, p ∈ f.every) :
    Sound f notes { s.insert parts with untold :=
      s.untold ++ [parts.zipIdx.map fun p => (p.1, s.nextOrd + p.2)] } := by
  have hinsert := hs.insert parts
  refine { hinsert with untold := ?_ }
  intro rows hrows r hr
  rcases List.mem_append.mp hrows with hrows | hrows
  · exact hinsert.untold rows hrows r hr
  · rw [List.mem_singleton.mp hrows] at hr
    obtain ⟨⟨p, i⟩, hp, rfl⟩ := List.mem_map.mp hr
    have hlt := (List.mem_zipIdx hp).2.1
    have hpart := (List.mem_zipIdx hp).2.2
    refine ⟨hall p (by rw [hpart]; exact List.getElem_mem _), ?_⟩
    simp only [State.insert]
    omega

/-- Telling the loop of rows that were committed keeps what is owed. -/
theorem tell_sound {notes : List Note} {s : State} (hs : Sound f notes s)
    {i : Nat} {rows : List (Part × Nat)} (hrows : s.untold[i]? = some rows) :
    Sound f (.told rows :: notes)
      { s with untold := s.untold.set i [], written := true,
               dirty := (s.dirty ++ rows.map Prod.fst).dedup } := by
  have huntold := hs.untold rows (List.mem_of_getElem? hrows)
  refine { hs with untold := ?_, known := ?_, dirty := ?_, woken := fun _ => rfl,
                   covered := ?_, due := hs.due, paced := hs.paced }
  · intro l hl
    rcases List.mem_or_eq_of_mem_set hl with hl | rfl
    · exact hs.untold l hl
    · simp
  · intro n hn r hr
    rcases List.mem_cons.mp hn with rfl | hn
    · exact huntold r (by simpa [Note.tells] using hr)
    · exact hs.known n hn r hr
  · intro p hp
    rcases List.mem_append.mp (List.mem_dedup.mp hp) with hp | hp
    · exact hs.dirty p hp
    · obtain ⟨r, hr, rfl⟩ := List.mem_map.mp hp
      exact (huntold r hr).1
  · intro r hr hpublished howed
    rcases howed with htells | ⟨-, howed⟩
    · have hmem : r.key ∈ rows := by simpa [Note.tells] using htells
      exact .inl
        (List.mem_dedup.mpr (List.mem_append_right _ (List.mem_map.mpr ⟨r.key, hmem, rfl⟩)))
    · exact (hs.covered r hr hpublished howed).imp_left
        fun h => List.mem_dedup.mpr (List.mem_append_left _ h)

/-- Every step keeps what is owed. -/
theorem Sound.step {notes : List Note} {s : State} (hs : Sound f notes s) (o : Op) :
    Sound f ((step f s o).2 ++ notes) (step f s o).1 := by
  cases o with
  | commit parts =>
    simp only [Wake.step]
    split
    · next hall => exact commit_sound hs hall
    · exact hs
  | tell i =>
    simp only [Wake.step]
    split
    · next rows hrows =>
      split
      · exact hs
      · exact tell_sound hs hrows
    · exact hs
  | otherCommit parts => exact hs.insert parts
  | otherNumber ords => exact hs.otherNumber ords
  | otherMark ords => exact hs.otherMark ords
  | purge ords => exact hs.purge ords
  | tick n => exact { hs with }
  | stop marks =>
    cases marks with
    | true =>
      have hstopped : Sound f notes { s with phase := .stopped } :=
        hs.to_ trivial fun _ _ _ _ => trivial
      exact hstopped.later (hstopped.mark_later s.phase.done) trivial
    | false => exact hs.to_ trivial fun _ _ _ _ => trivial
  | _ => exact runStep_sound hs _

/-- Nothing is owed at the start. -/
theorem sound_start : Sound f [] start where
  ords := by simp [start]
  distinct := List.nodup_nil
  untold := by simp [start]
  known := by simp
  dirty := by simp [start]
  woken := by simp [start]
  holds := trivial
  covered := by simp [start]
  due := rfl
  paced := trivial

theorem sound_reach {h : List (List Note)} {s : State} (hr : Reach (step f) anyOp start h s) :
    Sound f h.flatten s :=
  @Reach.invariant _ _ _ (step f) anyOp start (fun h s => Sound f h.flatten s) sound_start
    (fun _ _ o _ hs => hs.step o) _ _ hr

/-! ## The forwarder waits -/

/-- No wakeup is lost. Where a forwarder waits and was not woken, every row that it was told
of, and every row that a poll saw, is published, or its partition was given up since; and
each of its passes was a poll if and only if the poll was due, which no wakeup postpones. -/
theorem waits_up_to_date {h : List (List Note)} {s : State} (hr : Reach (step f) anyOp start h s) :
    (s.phase = .waiting → s.written = false → ∀ r ∈ s.rows, Owed h.flatten r.key →
      r.status = .published) ∧ Paced f h.flatten := by
  have hs := sound_reach hr
  refine ⟨fun hphase hwritten r hr howed => ?_, hs.paced⟩
  by_contra hpublished
  have hdirty : s.dirty = [] := by
    by_contra hne
    rw [hs.woken hne] at hwritten
    cases hwritten
  have hcovered := hs.covered r hr hpublished howed
  rw [Covered, hphase, hdirty] at hcovered
  simp [Phase.Covers] at hcovered

/-- Three events of one commit, in batches of two. -/
def threeEvents : List Op :=
  [.wake [], .pending true, .next, .commit [(str "orders", 0), (str "orders", 0),
    (str "orders", 0)], .tell 0,
   .wake [(str "orders", 0)], .next, .lease (some true), .number [1, 2] [3], .read [1, 2] [],
     .receive, .publish true,
   .publish true, .publish true, .mark true, .next, .next, .lease (some true), .number [3] [],
     .read [3] [], .receive,
   .publish true, .publish true, .mark true, .next]

theorem waits_up_to_date_three : ∃ h s, Reach (step ⟨[(str "orders", 0)], 5, 2⟩) anyOp start h
    s ∧ s.phase = .waiting ∧ s.rows.map Row.ord = [1, 2, 3] ∧ ∀ r ∈ s.rows, r.status =
    .published := by
  have howed : ∀ r ∈ (runOps (step ⟨[(str "orders", 0)], 5, 2⟩) start threeEvents).2.rows,
      Since (fun n => n.givesUp r.key.1 = false) (fun n => n.tells r.key = true)
        (runOps (step ⟨[(str "orders", 0)], 5, 2⟩) start threeEvents).1.flatten := by decide +kernel
  have hr := reach_runOps (step ⟨[(str "orders", 0)], 5, 2⟩) threeEvents start
  exact ⟨_, _, hr, by decide +kernel, by decide +kernel,
    fun r hmem => (waits_up_to_date hr).1 (by decide +kernel) (by decide +kernel) r hmem
    (howed r hmem)⟩

end BeSdk.Events.Wake
