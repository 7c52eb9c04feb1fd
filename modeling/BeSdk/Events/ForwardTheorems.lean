/-
BeSdk.Events.ForwardTheorems — rows are published in the order of their positions, and
none is dropped.

Nothing here is about leases. A batch is read under the lock of the counter's row, and
has the first of the rows that are numbered and not marked; a mark is set on
acknowledged rows only, so at each row of a batch every row at a smaller position is
acknowledged or before it in the batch (`Ready`). A numbering that commits later gives
larger positions only (`placed_later`), so that stays true until the batch is through.

* `forwarded_in_order`: the law of every run.
-/
import BeSdk.Events.Forward
import BeSdk.Events.OutboxTheorems

namespace BeSdk.Events.Forward

open Outbox (Place Epoch Numbering Placed Work numberings ords)

/-! ## What a run says -/

/-- The notes of the tables. -/
def boxNotes (notes : List Note) : List Outbox.Note :=
  notes.filterMap fun | .box n => some n | .taken _ _ _ => none

/-- The calls of `number_in` that committed. -/
def given (notes : List Note) : List Numbering := numberings (boxNotes notes)

/-- The transport acknowledged the message of a row. -/
def Acked (notes : List Note) (o : Nat) : Prop := ∃ k, .taken k o true ∈ notes

theorem Acked.mono {notes : List Note} {o : Nat} (h : Acked notes o) (new : List Note) :
    Acked (new ++ notes) o :=
  h.imp fun _ hk => List.mem_append_right _ hk

theorem boxNotes_box (new : List Outbox.Note) (notes : List Note) :
    boxNotes (new.map .box ++ notes) = new ++ boxNotes notes := by
  rw [boxNotes, List.filterMap_append, List.filterMap_map]
  exact congrArg (· ++ boxNotes notes) (List.filterMap_some)

/-! ## Positions -/

theorem placed_cons {n : Numbering} {ns : List Numbering} {o : Nat} {p : Place} :
    Placed (n :: ns) o p ↔ (n.epoch = p.epoch ∧ (o, p.seq) ∈ n.rows) ∨ Placed ns o p := by
  simp [Placed]

/-- A row has one position. -/
theorem placed_unique {o : Nat} {p q : Place} :
    ∀ {ns : List Numbering}, (ords ns).Nodup → Placed ns o p → Placed ns o q → p = q
  | [], _, hp, _ => by simp [Placed] at hp
  | n :: ns, hnodup, hp, hq => by
      rw [Outbox.ords_cons, List.nodup_append'] at hnodup
      obtain ⟨hhead, htail, hdisjoint⟩ := hnodup
      have hords : ∀ {r : Place}, Placed ns o r → o ∈ ords ns := fun {r} h => by
        obtain ⟨m, hm, -, hrow⟩ := h
        exact Outbox.mem_ords.mpr ⟨m, hm, r.seq, hrow⟩
      rcases placed_cons.mp hp with ⟨hpe, hpr⟩ | hp <;>
        rcases placed_cons.mp hq with ⟨hqe, hqr⟩ | hq
      · have hseq := List.inj_on_of_nodup_map hhead hpr hqr rfl
        obtain ⟨pe, ps⟩ := p
        obtain ⟨qe, qs⟩ := q
        obtain rfl := hpe.symm.trans hqe
        obtain rfl : ps = qs := congrArg Prod.snd hseq
        rfl
      · exact absurd (hords hq) (hdisjoint (List.mem_map_of_mem hpr))
      · exact absurd (hords hp) (hdisjoint (List.mem_map_of_mem hqr))
      · exact placed_unique htail hp hq

/-- A numbering gives larger positions than those before it. -/
theorem placed_later {notes : List Outbox.Note} {s : Outbox.State}
    (hs : Outbox.Positions notes s) {w : Work} {os : List Nat}
    (hw : w.Ok s os) {o q o' : Nat} {p : Place} (hnew : (o, q) ∈ w.rows)
    (hold : Placed (numberings notes) o' p) : key p < key ⟨w.now, q⟩ := by
  obtain ⟨n, hn, hepoch, hrow⟩ := hold
  have hle : p.epoch ≤ w.now := hepoch ▸ hw.numberings_le hs n hn
  rw [key, key, Prod.Lex.toLex_lt_toLex]
  rcases lt_or_eq_of_le hle with hlt | heq
  · exact .inl hlt
  · refine .inr ⟨heq, ?_⟩
    have hmem : p.seq ∈ Outbox.numbers p.epoch (numberings notes) := by
      have hgiven : ∀ ns : List Numbering, n ∈ ns → p.seq ∈ Outbox.numbers p.epoch ns := by
        intro ns
        induction ns with
        | nil => nofun
        | cons m ns ih =>
            intro hm
            rw [Outbox.numbers_cons, List.mem_append]
            rcases List.mem_cons.mp hm with rfl | hm
            · rw [if_pos hepoch]
              exact .inr (List.mem_map_of_mem hrow)
            · exact .inl (ih hm)
      exact hgiven _ hn
    rw [hs.dense, List.mem_range'_1] at hmem
    have hlast := hw.last hs
    rw [heq] at hmem
    rw [hw.rows_eq] at hnew
    have hq : w.last + 1 ≤ q := List.le_snd_of_mem_zipIdx hnew
    change p.seq < q
    omega

/-! ## Batches -/

/-- At each row of a batch, every row at a smaller position is acknowledged or before it
in the batch. -/
def Ready (ns : List Numbering) : (Nat → Prop) → List Nat → Prop
  | _, [] => True
  | acked, o :: rest =>
      (∃ p, Placed ns o p ∧ ∀ o' p', Placed ns o' p' → key p' < key p → acked o') ∧
        Ready ns (fun x => x = o ∨ acked x) rest

/-- A batch that is ready stays so. -/
theorem Ready.mono {ns : List Numbering} :
    ∀ {batch : List Nat} {A B : Nat → Prop}, Ready ns A batch → (∀ o, A o → B o) →
    Ready ns B batch
  | [], _, _, _, _ => trivial
  | _ :: _, _, _, ⟨⟨p, hp, hsmaller⟩, hrest⟩, hAB =>
      ⟨⟨p, hp, fun o' p' hp' hlt => hAB o' (hsmaller o' p' hp' hlt)⟩,
        hrest.mono fun x hx => hx.imp_right (hAB x)⟩

/-- So does a part of it. -/
theorem Ready.take {ns : List Numbering} :
    ∀ {batch : List Nat} {A : Nat → Prop} (n : Nat), Ready ns A batch →
    Ready ns A (batch.take n)
  | [], _, n, _ => by rw [List.take_nil]; trivial
  | _ :: _, _, 0, _ => trivial
  | _ :: _, _, n + 1, ⟨hfirst, hrest⟩ => ⟨hfirst, hrest.take n⟩

/-- What is numbered later is above. -/
theorem Ready.number {n : Numbering} {ns : List Numbering} (hlater : ∀ o q, (o, q) ∈ n.rows →
    ∀ o' p, Placed ns o' p → key p < key ⟨n.epoch, q⟩) : ∀ {batch : List Nat} {A :
    Nat → Prop}, Ready ns A batch → Ready (n :: ns) A batch
  | [], _, _ => trivial
  | _ :: _, _, ⟨⟨p, hp, hsmaller⟩, hrest⟩ => by
      refine ⟨⟨p, placed_cons.mpr (.inr hp), fun o' p' hp' hlt => ?_⟩, hrest.number hlater⟩
      rcases placed_cons.mp hp' with ⟨hepoch, hrow⟩ | hp'
      · have habove := hlater o' p'.seq hrow _ p hp
        rw [hepoch] at habove
        exact absurd hlt (not_lt.mpr habove.le)
      · exact hsmaller o' p' hp' hlt

/-- The rows in the order of their positions are ready, when all others are acknowledged. -/
theorem ready_of_sorted {ns : List Numbering} : ∀ {l : List (Place × Nat)} {A : Nat → Prop},
    l.Pairwise (fun a b => key a.1 ≤ key b.1) → (∀ x ∈ l, Placed ns x.2 x.1) →
    (∀ o p, Placed ns o p → A o ∨ (p, o) ∈ l) → Ready ns A (l.map Prod.snd)
  | [], _, _, _, _ => trivial
  | x :: l, A, hsorted, hplaced, hcover => by
      obtain ⟨hhead, htail⟩ := List.pairwise_cons.mp hsorted
      refine ⟨⟨x.1, hplaced x List.mem_cons_self, fun o' p' hp' hlt => ?_⟩,
        ready_of_sorted htail (fun y hy => hplaced y (List.mem_cons_of_mem _ hy)) fun o p hp => ?_⟩
      · refine (hcover o' p' hp').resolve_right fun hmem => ?_
        rcases List.mem_cons.mp hmem with heq | hmem
        · rw [← heq] at hlt
          exact lt_irrefl _ hlt
        · exact absurd hlt (not_lt.mpr (hhead _ hmem))
      · rcases hcover o p hp with ha | hmem
        · exact .inl (.inr ha)
        · rcases List.mem_cons.mp hmem with heq | hmem
          · exact .inl (.inl (congrArg Prod.snd heq))
          · exact .inr hmem

/-- The batch of a table in which every mark and every purge is of an acknowledged row. -/
theorem ready_unpublished {notes : List Outbox.Note} {s : Outbox.State}
    (hs : Outbox.Rows notes s) {A : Nat → Prop} (hmarked : ∀ r ∈ s.rows, r.published = true →
      A r.ord) (hpurged : ∀ o, .purged o ∈ notes → A o) :
    Ready (numberings notes) A (unpublished s.rows) := by
  have hmem : ∀ x, x ∈ (s.rows.filterMap waiting).insertionSort (fun a b => key a.1 ≤ key b.1) ↔
      ∃ r ∈ s.rows, waiting r = some x := fun x => by rw [List.mem_insertionSort,
        List.mem_filterMap]
  refine ready_of_sorted (List.pairwise_insertionSort _ _) (fun x hx => ?_) fun o p hp => ?_
  · obtain ⟨r, hr, hx⟩ := (hmem x).mp hx
    unfold waiting at hx
    split at hx
    · cases hx
    · obtain ⟨p, hp, rfl⟩ := Option.map_eq_some_iff.mp hx
      exact (hs.placed r hr p).mp hp
  · obtain ⟨n, hn, hepoch, hrow⟩ := hp
    rcases hs.kept o (Outbox.mem_ords.mpr ⟨n, hn, p.seq, hrow⟩) with hin | hgone
    · obtain ⟨r, hr, rfl⟩ := List.mem_map.mp hin
      cases hpub : r.published with
      | true => exact .inl (hmarked r hr hpub)
      | false =>
          refine .inr ((hmem _).mpr ⟨r, hr, ?_⟩)
          rw [waiting, hpub, (hs.placed r hr p).mpr ⟨n, hn, hepoch, hrow⟩]
          rfl
    · exact .inl (hpurged o hgone)

/-! ## The invariant -/

/-- The numberer is through its statements. -/
def Through : Outbox.Phase → Prop
  | .counted _ | .committed | .aborted => True
  | .began | .ensured | .locked _ | .read _ _ | .forked _ | .numbered _ => False

/-- What is known of a batch by the phase of the transaction it was read in. -/
def Seen (ns : List Numbering) (acked : Nat → Prop) (i : Nat) (batch : List Nat) :
    Outbox.Phase → Prop
  | .counted w => Ready (⟨i, w.now, w.rows⟩ :: ns) acked batch
  | .committed => Ready ns acked batch
  | _ => True

/-- What a pass has read stays true. -/
def Stage.Ok (notes : List Note) (box : Outbox.State) : Stage → Prop
  | .read i batch =>
      ∃ n, box.numberers[i]? = some n ∧ Through n.phase ∧ Seen (given notes) (Acked notes) i
        batch n.phase
  | .publishing rest done => Ready (given notes) (Acked notes) rest ∧ ∀ o ∈ done, Acked notes o
  | .marking done => ∀ o ∈ done, Acked notes o
  | .leased | .numbering _ | .ended => True

/-- When a message was taken, every row at a smaller position was acknowledged. -/
def Ordered (notes : List Note) : Prop :=
  ∀ later k o a earlier, notes = later ++ .taken k o a :: earlier →
    (∃ p, Placed (given notes) o p) ∧ ∀ p, Placed (given notes) o p →
    ∀ o' p', Placed (given notes) o' p' → key p' < key p → Acked earlier o'

structure Sound (notes : List Note) (s : State) : Prop where
  box : Outbox.Sound (boxNotes notes) s.box
  marked : ∀ r ∈ s.box.rows, r.published = true → Acked notes r.ord
  purged : ∀ o, .purged o ∈ boxNotes notes → Acked notes o
  ordered : Ordered notes
  passes : ∀ st ∈ s.passes, st.Ok notes s.box

/-- What a pass has seen stays so. -/
theorem Seen.mono {ns : List Numbering} {A B : Nat → Prop} {i : Nat} {batch : List Nat}
    {phase : Outbox.Phase} (h : Seen ns A i batch phase) (hAB : ∀ o, A o → B o) :
    Seen ns B i batch phase := by
  cases phase with
  | counted w => exact Ready.mono h hAB
  | committed => exact Ready.mono h hAB
  | began | ensured | locked _ | read _ _ | forked _ | numbered _ | aborted => trivial

/-- Nothing was numbered, and the numberers that are through are as they were. -/
theorem Stage.Ok.same {notes : List Note} {box : Outbox.State} {st : Stage}
    (h : st.Ok notes box) {notes' : List Note} {box' : Outbox.State}
    (hnumberers : ∀ (i : Nat) (n : Outbox.Numberer), box.numberers[i]? = some n →
      Through n.phase → box'.numberers[i]? = some n)
    (hgiven : given notes' = given notes) (hacked : ∀ o, Acked notes o → Acked notes' o) :
    st.Ok notes' box' := by
  cases st with
  | leased | numbering _ | ended => trivial
  | marking done => exact fun o ho => hacked o (h o ho)
  | publishing rest done => exact ⟨hgiven ▸ h.1.mono hacked, fun o ho => hacked o (h.2 o ho)⟩
  | read i batch =>
      obtain ⟨n, hn, hthrough, hseen⟩ := h
      exact ⟨n, hnumberers i n hn hthrough, hthrough, hgiven ▸ hseen.mono hacked⟩

/-! ### Steps of the tables -/

/-- A numbering commits: what passes have read stays below it, and one of them may have
read it. -/
theorem Stage.Ok.number {notes : List Note} {box : Outbox.State}
    (hs : Outbox.Sound (boxNotes notes) box) {st : Stage}
    (h : st.Ok notes box) {j : Nat} {b : Bool} {w : Work}
    (hj : box.numberers[j]? = some ⟨b, .counted w⟩) :
    st.Ok (.box (.numbering ⟨j, w.now, w.rows⟩) :: notes)
    ((box.apply w).to_ j ⟨b, .committed⟩) := by
  obtain ⟨os, hw⟩ := (hs.locks.ok _ (List.mem_of_getElem? hj)).phase
  have hgiven : given (.box (.numbering ⟨j, w.now, w.rows⟩) :: notes) = ⟨j, w.now, w.rows⟩ ::
    given notes := rfl
  have hacked : ∀ o, Acked notes o → Acked (.box (.numbering ⟨j, w.now, w.rows⟩) :: notes)
    o := fun o ho => ho.mono [_]
  have hready : ∀ {batch : List Nat}, Ready (given notes) (Acked notes) batch →
      Ready (⟨j, w.now, w.rows⟩ :: given notes)
      (Acked (.box (.numbering ⟨j, w.now, w.rows⟩) :: notes)) batch := fun hr =>
    (hr.number fun o q hq o' p hp => placed_later hs.positions hw hq hp).mono hacked
  cases st with
  | leased | numbering _ | ended => trivial
  | marking done => exact fun o ho => hacked o (h o ho)
  | publishing rest done => exact ⟨hready h.1, fun o ho => hacked o (h.2 o ho)⟩
  | read i batch =>
      obtain ⟨n, hn, hthrough, hseen⟩ := h
      by_cases hij : j = i
      · subst hij
        obtain rfl := Option.some.inj (hj.symm.trans hn)
        exact ⟨⟨b, .committed⟩, List.getElem?_set_self (List.getElem?_eq_some_iff.mp hj).1, trivial,
          Ready.mono hseen hacked⟩
      · refine ⟨n, ?_, hthrough, ?_⟩
        · change (box.numberers.set j _)[i]? = some n
          rw [List.getElem?_set_ne hij, hn]
        · rw [hgiven]
          cases hp : n.phase with
          | counted w' =>
              -- only one transaction has the lock
              have hholds := hs.locks.holder j i _ n hj hn hij rfl
              rw [Outbox.Numberer.holds, hp] at hholds
              cases hholds
          | committed =>
              rw [hp] at hseen
              exact hready hseen
          | began | ensured | locked _ | read _ _ | forked _ | numbered _ | aborted => trivial

/-- A numberer that is through its statements only commits or is aborted. -/
theorem Stage.Ok.turn {notes : List Note} {box : Outbox.State} {st : Stage}
    (h : st.Ok notes box) {j : Nat} {n n' : Outbox.Numberer} (hj : box.numberers[j]? = some n)
    (hturn : Outbox.Turns box n n') : st.Ok notes (box.to_ j n') := by
  cases st with
  | leased | numbering _ | ended => trivial
  | marking done => exact h
  | publishing rest done => exact h
  | read i batch =>
      obtain ⟨m, hm, hthrough, hseen⟩ := h
      by_cases hij : j = i
      · subst hij
        obtain rfl := Option.some.inj (hj.symm.trans hm)
        refine ⟨n', List.getElem?_set_self (List.getElem?_eq_some_iff.mp hj).1, ?_⟩
        cases hturn with
        | aborts => exact ⟨trivial, trivial⟩
        | finds | inserts | locks | reads | forks | numbers | counts | ends => exact hthrough.elim
      · refine ⟨m, ?_, hthrough, hseen⟩
        change (box.numberers.set j n')[i]? = some m
        rw [List.getElem?_set_ne hij, hm]

/-- A step of the outbox leaves what a pass knows. -/
theorem Stage.Ok.box {notes : List Note} {box : Outbox.State}
    (hs : Outbox.Sound (boxNotes notes) box) {st : Stage}
    (h : st.Ok notes box) (o : Outbox.Op) :
    st.Ok ((Outbox.step box o).2.map .box ++ notes) (Outbox.step box o).1 := by
  have hgoes := Outbox.step_goes box o
  generalize (Outbox.step box o).1 = box', (Outbox.step box o).2 = new at hgoes
  cases hgoes with
  | turns j n n' hj hturn => exact h.turn hj hturn
  | numbers j b w hj => exact h.number hs hj
  | stays | emits | commits | drops | publishes | moves =>
      exact h.same (fun _ _ hn _ => hn) rfl fun _ => id
  | begins => exact h.same (fun _ _ hn _ => getElem?_join hn) rfl fun _ => id
  | creates j hj =>
      refine h.same (fun i n hn hthrough => ?_) rfl fun o ho => ho.mono [_]
      have hne : j ≠ i := by
        rintro rfl
        obtain rfl := Option.some.inj (hj.symm.trans hn)
        exact hthrough
      change (box.numberers.set j _)[i]? = some n
      rw [List.getElem?_set_ne hne, hn]
  | purges os =>
      refine h.same (fun _ _ hn _ => hn) ?_ fun o ho => ho.mono _
      rw [given, boxNotes_box]
      have hgone :=
        (Outbox.notes_purged ((box.rows.filter fun r => r.published && os.contains r.ord).map
          Outbox.Row.ord)
        (boxNotes notes)).2
      rwa [List.map_map] at hgone

/-- Only marking marks a row. -/
theorem published_of_step (box : Outbox.State) {o : Outbox.Op} (hne : ∀ os, o ≠ .published os) :
    ∀ r' ∈ (Outbox.step box o).1.rows, r'.published = true → ∃ r ∈ box.rows, r.ord = r'.ord ∧
    r.published = true := by
  have hsame : (Outbox.step box o).1.rows = box.rows →
      ∀ r' ∈ (Outbox.step box o).1.rows, r'.published = true → ∃ r ∈ box.rows, r.ord =
      r'.ord ∧ r.published = true :=
    fun heq r' hr' hpub => ⟨r', heq ▸ hr', rfl, hpub⟩
  cases o with
  | emit | dropped | begin_ | moves => exact hsame rfl
  | insert i | lock i | read i | fork i | number i batch | count i | abort i =>
      refine hsame ?_
      simp only [Outbox.step]
      repeat' split
      all_goals rfl
  | published os => exact absurd rfl (hne os)
  | emitted t =>
      intro r' hr' hpub
      rcases List.mem_append.mp hr' with hr' | hr'
      · exact ⟨r', hr', rfl, hpub⟩
      · obtain ⟨w, -, rfl⟩ := List.mem_map.mp hr'
        cases hpub
  | purge os => exact fun r' hr' hpub => ⟨r', (List.mem_filter.mp hr').1, rfl, hpub⟩
  | commit i =>
      simp only [Outbox.step]
      split
      · exact fun r' hr' hpub => ⟨r', hr', rfl, hpub⟩
      · exact fun r' hr' hpub => ⟨r', hr', rfl, hpub⟩
      · rintro r' hr' hpub
        obtain ⟨r, hr, rfl⟩ := List.mem_map.mp hr'
        refine ⟨r, hr, (Outbox.placed_ord _ r).symm, ?_⟩
        unfold Outbox.Work.placed at hpub
        split at hpub <;> exact hpub
      · exact fun r' hr' hpub => ⟨r', hr', rfl, hpub⟩

/-- A purge deletes marked rows only. -/
theorem published_of_purged (box : Outbox.State) (o : Outbox.Op)
    {ord : Nat} (h : .purged ord ∈ (Outbox.step box o).2) :
    ∃ r ∈ box.rows, r.ord = ord ∧ r.published = true := by
  have hgoes := Outbox.step_goes box o
  generalize (Outbox.step box o).1 = box', (Outbox.step box o).2 = new at hgoes h
  cases hgoes with
  | stays | emits | commits | drops | begins | turns | publishes | moves => cases h
  | creates i hi => cases List.mem_singleton.mp h
  | numbers i b w hi => cases List.mem_singleton.mp h
  | purges os =>
      obtain ⟨r, hr, heq⟩ := List.mem_map.mp h
      obtain ⟨hmem, hpub⟩ := List.mem_filter.mp hr
      exact ⟨r, hmem, Outbox.Note.purged.inj heq, ((Bool.and_eq_true _ _).mp hpub).1⟩

/-! ### Every step -/

/-- A step of the outbox leaves the order of what was sent. -/
theorem Ordered.box {notes : List Note} {s : State} (hs : Sound notes s) (o : Outbox.Op) :
    Ordered ((Outbox.step s.box o).2.map .box ++ notes) := by
  have hbox' := hs.box.step o
  have hgiven : given ((Outbox.step s.box o).2.map .box ++ notes) =
    numberings ((Outbox.step s.box o).2 ++ boxNotes notes) :=
    congrArg numberings (boxNotes_box _ _)
  intro later k ord a earlier heq
  -- the message was taken before
  obtain ⟨later', hlater, hnotes⟩ : ∃ later', later = (Outbox.step s.box o).2.map .box ++ later' ∧
      notes = later' ++ .taken k ord a :: earlier := by
    rcases List.append_eq_append_iff.mp heq with ⟨l, rfl, hl⟩ | ⟨l, hl, hl'⟩
    · exact ⟨l, rfl, hl⟩
    · cases l with
      | nil => exact ⟨[], by simpa using hl.symm, by simpa using hl'.symm⟩
      | cons x l =>
          obtain ⟨rfl, -⟩ := List.cons.inj hl'
          have hmem : Note.taken k ord a ∈ (Outbox.step s.box o).2.map .box := by rw [hl]; simp
          obtain ⟨_, -, h⟩ := List.mem_map.mp hmem
          cases h
  obtain ⟨hplaced, hsmaller⟩ := hs.ordered later' k ord a earlier hnotes
  obtain ⟨p₀, hp₀⟩ := hplaced
  rw [hgiven]
  have hgoes := Outbox.step_goes s.box o
  have honce := hbox'.rows.once
  generalize (Outbox.step s.box o).1 = box', (Outbox.step s.box o).2 = new at hgoes honce
  have hsame : numberings (new ++ boxNotes notes) = given notes →
      (∃ p, Placed (numberings (new ++ boxNotes notes)) ord p) ∧
      ∀ p, Placed (numberings (new ++ boxNotes notes)) ord p →
        ∀ o' p', Placed (numberings (new ++ boxNotes notes)) o' p' → key p' < key p →
        Acked earlier o' := by
    intro h
    rw [h]
    exact ⟨⟨p₀, hp₀⟩, hsmaller⟩
  cases hgoes with
  | stays | emits | commits | drops | begins | turns | publishes | moves | creates =>
      exact hsame rfl
  | purges os =>
      have hgone :=
        (Outbox.notes_purged ((s.box.rows.filter fun r => r.published &&
          os.contains r.ord).map Outbox.Row.ord)
        (boxNotes notes)).2
      rw [List.map_map] at hgone
      exact hsame hgone
  | numbers i b w hi =>
      obtain ⟨os, hw⟩ := (hs.box.locks.ok _ (List.mem_of_getElem? hi)).phase
      refine ⟨⟨p₀, placed_cons.mpr (.inr hp₀)⟩, fun p hp o' p' hp' hlt => ?_⟩
      obtain rfl : p = p₀ := placed_unique honce hp (placed_cons.mpr (.inr hp₀))
      rcases placed_cons.mp hp' with ⟨hepoch, hrow⟩ | hp'
      · have habove : key p < key ⟨w.now, p'.seq⟩ := placed_later hs.box.positions hw hrow hp₀
        have hp'eq : (⟨w.now, p'.seq⟩ : Place) = p' :=
          congrArg (fun e => (⟨e, p'.seq⟩ : Place)) hepoch
        rw [hp'eq] at habove
        exact absurd hlt (not_lt.mpr habove.le)
      · exact hsmaller p hp₀ o' p' hp' hlt

/-- A step of the tables. -/
theorem Sound.box_step {notes : List Note} {s : State} (hs : Sound notes s) {o : Outbox.Op}
    (hmarks : ∀ os, o = .published os → ∀ ord ∈ os, Acked notes ord) :
    Sound ((Outbox.step s.box o).2.map .box ++ notes)
    { s with box := (Outbox.step s.box o).1 } := by
  have hacked : ∀ ord, Acked notes ord → Acked ((Outbox.step s.box o).2.map .box ++ notes)
    ord := fun ord h => h.mono _
  refine ⟨?_, fun r' hr' hpub => ?_, fun ord hord => ?_, Ordered.box hs o,
    fun st hst => (hs.passes st hst).box hs.box o⟩
  · rw [boxNotes_box]
    exact hs.box.step o
  · by_cases hpublished : ∃ os, o = .published os
    · obtain ⟨os, rfl⟩ := hpublished
      obtain ⟨r, hr, rfl⟩ := List.mem_map.mp hr'
      split at hpub
      · next h =>
        rw [if_pos h]
        exact hacked _ (hmarks os rfl r.ord h.2)
      · next h =>
        rw [if_neg h]
        exact hacked _ (hs.marked r hr hpub)
    · obtain ⟨r, hr, heq, hpub⟩ := published_of_step s.box (fun os h => hpublished ⟨os, h⟩) r'
        hr' hpub
      exact hacked _ (heq ▸ hs.marked r hr hpub)
  · rw [boxNotes_box, List.mem_append] at hord
    rcases hord with hord | hord
    · obtain ⟨r, hr, rfl, hpub⟩ := published_of_purged s.box o hord
      exact hacked _ (hs.marked r hr hpub)
    · exact hacked _ (hs.purged ord hord)

/-- A pass goes on, and nothing else happens. -/
theorem Sound.turn {notes : List Note} {s : State} (hs : Sound notes s)
    {k : Nat} {st : Stage} (hok : st.Ok notes s.box) : Sound notes (s.to_ k st) := by
  refine ⟨hs.box, hs.marked, hs.purged, hs.ordered, fun st' hst' => ?_⟩
  rcases List.mem_or_eq_of_mem_set hst' with hst' | rfl
  · exact hs.passes st' hst'
  · exact hok

/-- The transport takes the message of the next row of a batch. -/
theorem Sound.taken {notes : List Note} {s : State} (hs : Sound notes s)
    {k : Nat} {o : Nat} {rest done : List Nat}
    (hk : s.passes[k]? = some (.publishing (o :: rest) done)) {a : Bool} {st : Stage}
    (hok : st.Ok (.taken k o a :: notes) s.box) : Sound (.taken k o a :: notes) (s.to_ k st) := by
  have hacked : ∀ ord, Acked notes ord → Acked (.taken k o a :: notes) ord :=
    fun ord h => h.mono [_]
  obtain ⟨⟨⟨p₀, hp₀, hsmaller⟩, -⟩, -⟩ := hs.passes _ (List.mem_of_getElem? hk)
  refine ⟨hs.box, fun r hr hpub => hacked _ (hs.marked r hr hpub),
    fun ord hord => hacked _ (hs.purged ord hord), ?_, fun st' hst' => ?_⟩
  · intro later k' o' a' earlier heq
    cases later with
    | nil =>
        obtain ⟨hnote, rfl⟩ := List.cons.inj heq
        obtain ⟨rfl, rfl, rfl⟩ := Note.taken.inj hnote
        refine ⟨⟨p₀, hp₀⟩, fun p hp o' p' hp' hlt => ?_⟩
        obtain rfl := placed_unique hs.box.rows.once hp hp₀
        exact hsmaller o' p' hp' hlt
    | cons x later => exact hs.ordered later k' o' a' earlier (List.cons.inj heq).2
  · rcases List.mem_or_eq_of_mem_set hst' with hst' | rfl
    · exact (hs.passes st' hst').same (fun _ _ hn _ => hn) rfl hacked
    · exact hok

/-- A numbering that counted its rows is one of the numberers. -/
theorem counted_eq {box : Outbox.State} {i : Nat} {w : Work} (h : counted box i = some w) :
    ∃ b, box.numberers[i]? = some ⟨b, .counted w⟩ := by
  unfold counted at h
  split at h
  · next b w' hn =>
    obtain rfl := Option.some.inj h
    exact ⟨b, hn⟩
  · cases h

/-- A pass reads its batch. -/
theorem Sound.select {notes : List Note} {s : State} (hs : Sound notes s) (k : Nat)
    {i : Nat} {w : Work} (hw : counted s.box i = some w) (n : Nat) :
    Sound notes (s.to_ k (.read i ((unpublished (s.box.apply w).rows).take n))) := by
  obtain ⟨b, hn⟩ := counted_eq hw
  obtain ⟨os, hok⟩ := (hs.box.locks.ok _ (List.mem_of_getElem? hn)).phase
  refine hs.turn ⟨_, hn, trivial, Ready.take n ?_⟩
  refine ready_unpublished (hs.box.rows.number hok i) (fun r hr hpub => ?_) fun ord hord => ?_
  · obtain ⟨r, hmem, rfl⟩ := List.mem_map.mp hr
    rw [Outbox.placed_ord]
    refine hs.marked r hmem ?_
    unfold Outbox.Work.placed at hpub
    split at hpub <;> exact hpub
  · rcases List.mem_cons.mp hord with h | hord
    · cases h
    · exact hs.purged ord hord

/-- Every step keeps the forwarding sound. -/
theorem Sound.step {notes : List Note} {s : State} (hs : Sound notes s) (o : Op) :
    Sound ((Forward.step s o).2 ++ notes) (Forward.step s o).1 := by
  cases o with
  | pass =>
      refine ⟨hs.box, hs.marked, hs.purged, hs.ordered, fun st hst => ?_⟩
      rcases List.mem_append.mp hst with hst | hst
      · exact hs.passes st hst
      · rw [List.mem_singleton.mp hst]
        trivial
  | crash k => exact hs.turn trivial
  | box o =>
      cases o with
      | published os => exact hs
      | emit | emitted | dropped | begin_ | insert | lock | read | fork | number | count
          | commit | abort | purge | moves =>
          exact hs.box_step nofun
  | begin_ k =>
      simp only [Forward.step]
      split
      · split
        · exact (hs.box_step (o := .begin_) nofun).turn trivial
        · exact hs
      · exact hs
  | select k batch =>
      simp only [Forward.step]
      split
      · split
        · next w hw =>
          split
          · exact hs
          · exact hs.select k hw _
        · exact hs
      · exact hs
  | receive k =>
      simp only [Forward.step]
      split
      · next i batch hk =>
        split
        · next hcommitted =>
          obtain ⟨n, hn, -, hseen⟩ := hs.passes _ (List.mem_of_getElem? hk)
          refine hs.turn ⟨?_, nofun⟩
          unfold committed at hcommitted
          rw [hn] at hcommitted
          split at hcommitted
          · next heq =>
            obtain rfl := Option.some.inj heq
            exact hseen
          · cases hcommitted
        · exact hs
      · exact hs
  | publish k taken acked =>
      simp only [Forward.step]
      split
      · next o rest done hk =>
        obtain ⟨hready, hdone⟩ := hs.passes _ (List.mem_of_getElem? hk)
        split
        · split
          · have hacked : ∀ ord, Acked notes ord → Acked (.taken k o true :: notes) ord :=
              fun ord h => h.mono [_]
            have hthis : Acked (.taken k o true :: notes) o := ⟨k, List.mem_cons_self⟩
            refine hs.taken hk ⟨hready.2.mono fun ord h => h.elim (fun heq => heq ▸ hthis)
              (hacked ord), fun ord hord => ?_⟩
            rcases List.mem_append.mp hord with hord | hord
            · exact hacked ord (hdone ord hord)
            · rw [List.mem_singleton.mp hord]
              exact hthis
          · exact hs.taken hk fun ord hord => (hdone ord hord).mono [_]
        · exact hs.turn hdone
      · next done hk => exact hs.turn (hs.passes _ (List.mem_of_getElem? hk)).2
      · exact hs
  | fail k =>
      simp only [Forward.step]
      split
      · next st hk =>
        have hok := hs.passes _ (List.mem_of_getElem? hk)
        cases st with
        | publishing rest done => exact hs.turn hok.2
        | leased | numbering _ | read _ _ | marking _ | ended => exact hs.turn trivial
      · exact hs
  | mark k =>
      simp only [Forward.step]
      split
      · next done hk =>
        have hdone := hs.passes _ (List.mem_of_getElem? hk)
        have hbox := hs.box_step (o := .published done) fun os h =>
          (Outbox.Op.published.inj h) ▸ hdone
        exact hbox.turn trivial
      · exact hs

/-- It is sound at the start. -/
theorem sound_start : Sound [] start :=
  ⟨Outbox.sound_start, nofun, nofun, fun later k o a earlier h => by simp at h, nofun⟩

/-- It is sound in every run. -/
theorem sound_reach {h : List (List Note)} {s : State}
    (hr : Reach Forward.step anyOp start h s) : Sound h.flatten s := by
  induction hr with
  | nil => exact sound_start
  | snoc o _ _ ih => exact ih.step o

/-! ## The law -/

/-- A row of the tables stays until it is purged. -/
theorem row_stays (box : Outbox.State) (o : Outbox.Op) {r : Outbox.Row} (hr : r ∈ box.rows) :
    (∃ r' ∈ (Outbox.step box o).1.rows, r'.ord = r.ord) ∨ .purged r.ord ∈
    (Outbox.step box o).2 := by
  have hgoes := Outbox.step_goes box o
  generalize (Outbox.step box o).1 = box', (Outbox.step box o).2 = new at hgoes
  cases hgoes with
  | stays | emits | drops | begins | turns | moves | creates => exact .inl ⟨r, hr, rfl⟩
  | commits t => exact .inl ⟨r, List.mem_append_left _ hr, rfl⟩
  | numbers i b w hi => exact .inl ⟨w.placed r, List.mem_map_of_mem hr, Outbox.placed_ord w r⟩
  | publishes os =>
      refine .inl ⟨_, List.mem_map_of_mem hr, ?_⟩
      split <;> rfl
  | purges os =>
      cases hp : r.published && os.contains r.ord with
      | false => exact .inl ⟨r, List.mem_filter.mpr ⟨hr, by rw [hp]; rfl⟩, rfl⟩
      | true => exact .inr (List.mem_map.mpr ⟨r, List.mem_filter.mpr ⟨hr, hp⟩, rfl⟩)

/-- What a step of a pass or of the tables does to the tables. -/
theorem step_box (s : State) (o : Op) :
    (∃ b, (Forward.step s o).1.box = (Outbox.step s.box b).1 ∧
      ∀ n, .box n ∈ (Forward.step s o).2 ↔ n ∈ (Outbox.step s.box b).2) ∨
    ((Forward.step s o).1.box = s.box ∧ ∀ n, .box n ∉ (Forward.step s o).2) := by
  cases o with
  | pass | crash => exact .inr ⟨rfl, by simp [Forward.step]⟩
  | box o =>
      cases o with
      | published os => exact .inr ⟨rfl, by simp [Forward.step]⟩
      | emit | emitted | dropped | begin_ | insert | lock | read | fork | number | count
          | commit | abort | purge | moves =>
          exact .inl ⟨_, rfl, fun n => by simp [Forward.step]⟩
  | begin_ k =>
      simp only [Forward.step]
      split
      · split
        · exact .inl ⟨.begin_, rfl, by simp [Outbox.step]⟩
        · exact .inr ⟨rfl, by simp⟩
      · exact .inr ⟨rfl, by simp⟩
  | mark k =>
      simp only [Forward.step]
      split
      · next done hk => exact .inl ⟨.published done, rfl, by simp [Outbox.step]⟩
      · exact .inr ⟨rfl, by simp⟩
  | select | receive | fail =>
      refine .inr ?_
      simp only [Forward.step]
      repeat' split
      all_goals exact ⟨rfl, by simp⟩
  | publish =>
      refine .inr ?_
      simp only [Forward.step]
      repeat' split
      all_goals exact ⟨rfl, by simp⟩

/-- **Forwarding preserves the order of positions and never drops a row.** In every run
of any number of passes, whatever their leases say: the table has the positions that were
given; when the transport takes a row's message, every row at a smaller position has been
taken and acknowledged before; a mark is set on acknowledged rows only; a purge deletes
marked rows only; and a row goes in no other way. -/
theorem forwarded_in_order {h : List (List Note)} {s : State} (hr : Reach step anyOp start h s) :
    (∀ r ∈ s.box.rows, ∀ p, r.place = some p ↔ Placed (given h.flatten) r.ord p) ∧
      (∀ later k o a earlier, h.flatten = later ++ .taken k o a :: earlier →
        ∃ p, Placed (given h.flatten) o p ∧ ∀ o' p', Placed (given h.flatten) o' p' →
        key p' < key p → Acked earlier o') ∧
      (∀ r ∈ s.box.rows, r.published = true → Acked h.flatten r.ord) ∧
      (∀ o ord, .box (.purged ord) ∈ (step s o).2 → ∃ r ∈ s.box.rows, r.ord = ord ∧
        r.published = true) ∧
      ∀ o, ∀ r ∈ s.box.rows, (∃ r' ∈ (step s o).1.box.rows, r'.ord = r.ord) ∨
      .box (.purged r.ord) ∈ (step s o).2 := by
  have hs := sound_reach hr
  refine ⟨hs.box.rows.placed, fun later k o a earlier heq => ?_, hs.marked,
    fun o ord hord => ?_, fun o r hrow => ?_⟩
  · obtain ⟨⟨p, hp⟩, hsmaller⟩ := hs.ordered later k o a earlier heq
    exact ⟨p, hp, hsmaller p hp⟩
  · rcases step_box s o with ⟨b, -, hnotes⟩ | ⟨-, hnotes⟩
    · exact published_of_purged s.box b ((hnotes _).mp hord)
    · exact absurd hord (hnotes _)
  · rcases step_box s o with ⟨b, hbox, hnotes⟩ | ⟨hbox, -⟩
    · rw [hbox]
      exact (row_stays s.box b hrow).imp_right (hnotes _).mpr
    · exact .inl ⟨r, hbox ▸ hrow, rfl⟩

/-- The statements of a pass up to the commit of its numbering. -/
def batchOf (k i : Nat) : List Op :=
  .begin_ k :: ((Outbox.call i 5).map .box ++ [.select k 5, .box (.commit i), .receive k])

/-- Two passes at a time read the same rows. The first is lost after one message, the
second publishes both. -/
def twoPasses : List Op :=
  [.box (.emit 0), .box (.emit 0), .box (.emitted 0), .pass, .pass] ++ batchOf 0 0 ++ batchOf 1 1 ++
    [.publish 0 true true, .publish 1 true true, .crash 0, .publish 1 true true, .fail 1,
      .mark 1, .box (.purge [1])]

theorem forwarded_in_order_two :
    let run := runOps step start twoPasses
    (∀ r ∈ run.2.box.rows, r.published = true → Acked run.1.flatten r.ord) ∧
      run.2.box.rows.map (fun r => (r.ord, r.published)) = [(2, true)] ∧
      (run.1.flatten.filterMap fun | .taken k o _ => some (k, o) | .box _ => none) =
      [(1, 2), (1, 1), (0, 1)] := by
  have hlaw := forwarded_in_order (reach_runOps step twoPasses start)
  exact ⟨hlaw.2.2.1, by decide +kernel, by decide +kernel⟩

end BeSdk.Events.Forward
