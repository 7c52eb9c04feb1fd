/-
BeSdk.Events.OutboxTheorems — positions are dense and forks are recorded.

The notes of a run have every committed call of `number_in`, and the tables are what
they say: the counter (`counterOf`), the history (`forks`) and the position of each
row (`Placed`). Only one transaction at a time is past the lock of the counter's row,
so what it read of the tables is still there when it commits (`Numberer.Ok`): the rows
it picked have no position, and the counter has the last number given. It read the
database epoch after the lock, so the epochs of the numberings never go back, and an
epoch that differs from the counter's has no numbers yet (`Work.Ok.last`).

* `outbox_positions`: in every run the numbers given in an epoch are 1, 2, …, n, each
  row has at most one, and the history has one row for each change of epoch.
-/
import BeSdk.Events.Outbox

namespace BeSdk.Events.Outbox

/-! ## What was numbered -/

/-- The committed calls, newest first. -/
def numberings (notes : List Note) : List Numbering :=
  notes.filterMap fun | .numbering n => some n | .created _ | .purged _ => none

/-- The positions given in an epoch, oldest first. -/
def given (e : Epoch) : List Numbering → List (Nat × Nat)
  | [] => []
  | n :: ns => given e ns ++ if n.epoch = e then n.rows else []

/-- The numbers given in an epoch. -/
def numbers (e : Epoch) (ns : List Numbering) : List Nat := (given e ns).map Prod.snd

/-- The rows that were numbered. -/
def ords (ns : List Numbering) : List Nat := ns.flatMap fun n => n.rows.map Prod.fst

/-- A row was given a position. -/
def Placed (ns : List Numbering) (ord : Nat) (p : Place) : Prop :=
  ∃ n ∈ ns, n.epoch = p.epoch ∧ (ord, p.seq) ∈ n.rows

/-- The history row of a numbering in another epoch than the one before it, with the
last number given in the old one. -/
def forkOf (n : Numbering) : List Numbering → List Fork
  | [] => []
  | m :: ns => if m.epoch = n.epoch then []
      else [⟨m.epoch, (numbers m.epoch (m :: ns)).getLast?.getD 0, n.epoch⟩]

/-- A history row for each change of epoch. -/
def forks : List Numbering → List Fork
  | [] => []
  | n :: ns => forks ns ++ forkOf n ns

/-- The counter after the last numbering. -/
def counterOf (notes : List Note) : Option Counter :=
  match numberings notes with
  | n :: ns => some ⟨some n.epoch, (numbers n.epoch (n :: ns)).length⟩
  | [] => if notes.any fun | .created _ => true | _ => false then some {} else none

/-- Whose commit a note is of. -/
def Note.numberer : Note → Option Nat
  | .created i => some i
  | .numbering n => some n.numberer
  | .purged _ => none

@[simp] theorem numberings_numbering (n : Numbering) (notes : List Note) :
    numberings (.numbering n :: notes) = n :: numberings notes := rfl

@[simp] theorem numberings_created (i : Nat) (notes : List Note) :
    numberings (.created i :: notes) = numberings notes := rfl

/-- A purge changes neither the counter nor the numberings of a history. -/
theorem notes_purged (gone : List Nat) (notes : List Note) :
    counterOf (gone.map Note.purged ++ notes) = counterOf notes ∧
      numberings (gone.map Note.purged ++ notes) = numberings notes := by
  induction gone with
  | nil => exact ⟨rfl, rfl⟩
  | cons o gone ih => exact ih

theorem numbers_cons (e : Epoch) (n : Numbering) (ns : List Numbering) :
    numbers e (n :: ns) = numbers e ns ++ if n.epoch = e then n.rows.map Prod.snd else [] := by
  simp only [numbers, given, List.map_append]
  split <;> rfl

theorem ords_cons (n : Numbering) (ns : List Numbering) :
    ords (n :: ns) = n.rows.map Prod.fst ++ ords ns := rfl

theorem mem_ords {ns : List Numbering} {o : Nat} :
    o ∈ ords ns ↔ ∃ n ∈ ns, ∃ q, (o, q) ∈ n.rows := by
  simp [ords, List.mem_flatMap]

/-- An epoch that no numbering was in has no numbers. -/
theorem numbers_eq_nil {e : Epoch} {ns : List Numbering} (h : ∀ n ∈ ns, n.epoch ≠ e) :
    numbers e ns = [] := by
  induction ns with
  | nil => rfl
  | cons n ns ih =>
      rw [numbers_cons, ih fun m hm => h m (List.mem_cons_of_mem _ hm),
        if_neg (h n List.mem_cons_self)]
      rfl

/-! ## Steps -/

/-- A numberer's own step, which changes no table. -/
inductive Turns (s : State) : Numberer → Numberer → Prop
  | finds {b : Bool} : s.counter.isSome = true → Turns s ⟨b, .began⟩ ⟨false, .ensured⟩
  | inserts {b : Bool} : s.counter = none → (∀ n ∈ s.numberers, n.inserting = false) →
      Turns s ⟨b, .began⟩ ⟨true, .ensured⟩
  | locks {b : Bool} {c : Counter} : (∀ n ∈ s.numberers, n.holds = false) →
      (if b = true then some {} else s.counter) = some c → Turns s ⟨b, .ensured⟩ ⟨b, .locked c⟩
  | reads {b : Bool} {c : Counter} : Turns s ⟨b, .locked c⟩ ⟨b, .read c s.epoch⟩
  | forks {b : Bool} {c : Counter} {now : Epoch} : Turns s ⟨b, .read c now⟩
      ⟨b, .forked (c.fork now)⟩
  | numbers {b : Bool} {w : Work} (k : Nat) :
      Turns s ⟨b, .forked w⟩ ⟨b, .numbered (w.number (s.unnumbered.take k))⟩
  | counts {b : Bool} {w : Work} : Turns s ⟨b, .numbered w⟩ ⟨b, .counted w⟩
  | ends : Turns s ⟨false, .ensured⟩ ⟨false, .committed⟩
  | aborts {n : Numberer} : (∀ b, n ≠ ⟨b, .committed⟩) → Turns s n { n with phase := .aborted }

/-- What a step can do. -/
inductive Goes (s : State) : State → List Note → Prop
  | stays : Goes s s []
  | emits (t : Nat) : Goes s { s with written := s.written ++ [(t, s.nextOrd)],
                                      nextOrd := s.nextOrd + 1 } []
  | commits (t : Nat) :
      Goes s { s with rows := s.rows ++
        (s.written.filter fun w => decide (w.1 = t)).map fun w => { ord := w.2 }
                      written := s.written.filter fun w => decide (w.1 ≠ t) } []
  | drops (t : Nat) : Goes s { s with written := s.written.filter fun w => decide (w.1 ≠ t) } []
  | begins : Goes s { s with numberers := s.numberers ++ [{}] } []
  | turns (i : Nat) (n n' : Numberer) : s.numberers[i]? = some n → Turns s n n' →
      Goes s (s.to_ i n') []
  | creates (i : Nat) : s.numberers[i]? = some ⟨true, .ensured⟩ →
      Goes s ({ s with counter := some {} }.to_ i ⟨true, .committed⟩) [.created i]
  | numbers (i : Nat) (b : Bool) (w : Work) : s.numberers[i]? = some ⟨b, .counted w⟩ →
      Goes s ((s.apply w).to_ i ⟨b, .committed⟩) [.numbering ⟨i, w.now, w.rows⟩]
  | publishes (ords : List Nat) :
      Goes s { s with rows := s.rows.map fun r =>
                        if r.place.isSome ∧ r.ord ∈ ords then { r with published :=
                          true } else r } []
  | purges (ords : List Nat) :
      Goes s { s with rows := s.rows.filter fun r => !(r.published && ords.contains r.ord) }
        ((s.rows.filter fun r => r.published && ords.contains r.ord).map fun r => .purged r.ord)
  | moves (e : Epoch) : Goes s { s with epoch := max s.epoch e } []

/-- Every step goes one of the ways. -/
theorem step_goes (s : State) (o : Op) : Goes s (step s o).1 (step s o).2 := by
  cases o with
  | emit t => exact .emits t
  | emitted t => exact .commits t
  | dropped t => exact .drops t
  | begin_ => exact .begins
  | insert i =>
      simp only [step]
      split
      · next hn =>
        split
        · next hsome => exact .turns i _ _ hn (.finds hsome)
        · next hnone =>
          split
          · exact .stays
          · next hfree =>
            exact .turns i _ _ hn (.inserts (by simpa using hnone) (by simpa using hfree))
      · exact .stays
  | lock i =>
      simp only [step]
      split
      · next hn =>
        split
        · exact .stays
        · next hfree =>
          split
          · next hc => exact .turns i _ _ hn (.locks (by simpa using hfree) hc)
          · exact .stays
      · exact .stays
  | read i =>
      simp only [step]
      split
      · next hn => exact .turns i _ _ hn .reads
      · exact .stays
  | fork i =>
      simp only [step]
      split
      · next hn => exact .turns i _ _ hn .forks
      · exact .stays
  | number i batch =>
      simp only [step]
      split
      · next hn =>
        split
        · exact .turns i _ _ hn (.aborts (by simp))
        · exact .turns i _ _ hn (.numbers _)
      · exact .stays
  | count i =>
      simp only [step]
      split
      · next hn => exact .turns i _ _ hn .counts
      · exact .stays
  | commit i =>
      simp only [step]
      split
      · next hn => exact .creates i hn
      · next hn => exact .turns i _ _ hn .ends
      · next hn => exact .numbers i _ _ hn
      · exact .stays
  | abort i =>
      simp only [step]
      split
      · exact .stays
      · exact .stays
      · next n hnot hn => exact .turns i n _ hn (.aborts fun b heq => hnot b heq)
  | published ords => exact .publishes ords
  | purge ords => exact .purges ords
  | moves e => exact .moves e

/-! ## The invariants -/

/-- Counter, history and epochs are those of the numberings. -/
structure Positions (notes : List Note) (s : State) : Prop where
  counter : s.counter = counterOf notes
  dense : ∀ e, numbers e (numberings notes) = List.range' 1 (numbers e (numberings notes)).length
  forward : (numberings notes).Pairwise fun n m => m.epoch ≤ n.epoch
  reached : ∀ n ∈ numberings notes, n.epoch ≤ s.epoch
  history : s.history = forks (numberings notes)

/-- The positions of the table are those that were given, each row's once. -/
structure Rows (notes : List Note) (s : State) : Prop where
  nodup : (s.rows.map Row.ord).Nodup
  once : (ords (numberings notes)).Nodup
  placed : ∀ r ∈ s.rows, ∀ p, r.place = some p ↔ Placed (numberings notes) r.ord p
  kept : ∀ o ∈ ords (numberings notes), o ∈ s.rows.map Row.ord ∨ .purged o ∈ notes
  ascending : ∀ n ∈ numberings notes, n.rows.Pairwise fun a b => a.1 < b.1 ∧ a.2 < b.2
  marked : ∀ r ∈ s.rows, r.published = true → r.place.isSome = true
  written : (s.written.map Prod.snd).Nodup
  fresh : ∀ o ∈ s.written.map Prod.snd, o ∉ s.rows.map Row.ord ∧ o ∉ ords (numberings notes)
  drawn : ∀ o, o ∈ s.written.map Prod.snd ∨ o ∈ s.rows.map Row.ord ∨
    o ∈ ords (numberings notes) → o < s.nextOrd

/-- What a numberer wrote is by the counter as it is, and for rows without a position. -/
structure Work.Ok (s : State) (w : Work) (os : List Nat) : Prop where
  reached : w.now ≤ s.epoch
  forward : ∀ e, (s.counter.getD {}).epoch = some e → e ≤ w.now
  eq : w = ((s.counter.getD {}).fork w.now).number os
  ascending : os.Pairwise (· < ·)
  unnumbered : ∀ o ∈ os, ∃ r ∈ s.rows, r.ord = o ∧ r.place = none

def Phase.Ok (s : State) : Phase → Prop
  | .locked c => c = s.counter.getD {}
  | .read c now => c = s.counter.getD {} ∧ now ≤ s.epoch ∧ ∀ e, c.epoch = some e → e ≤ now
  | .forked w => w.Ok s []
  | .numbered w | .counted w => ∃ os, w.Ok s os
  | .began | .ensured | .committed | .aborted => True

/-- What a numberer has read is as it was. -/
structure Numberer.Ok (s : State) (n : Numberer) : Prop where
  counter : n.active = true → (n.inserted = true ↔ s.counter = none)
  phase : n.phase.Ok s

/-- At most one of the numberers meets a condition. -/
def Alone (p : Numberer → Bool) (ns : List Numberer) : Prop :=
  ∀ (i j : Nat) (n m : Numberer), ns[i]? = some n → ns[j]? = some m → i ≠ j → p n = true →
    p m = false

structure Locks (notes : List Note) (s : State) : Prop where
  ok : ∀ n ∈ s.numberers, n.Ok s
  holder : Alone Numberer.holds s.numberers
  inserter : Alone Numberer.inserting s.numberers
  ended : ∀ note ∈ notes, ∀ i, note.numberer = some i → ∃ b, s.numberers[i]? = some ⟨b, .committed⟩

/-! ### Numberers -/

@[simp] theorem fork_now (c : Counter) (now : Epoch) : (c.fork now).now = now := by
  unfold Counter.fork
  split <;> rfl

/-- The statement before wrote no rows. -/
theorem number_nil (c : Counter) (now : Epoch) : (c.fork now).number [] = c.fork now := by
  unfold Counter.fork
  split <;> rfl

/-- The unnumbered rows are those without a place. -/
theorem mem_unnumbered {s : State} {o : Nat} :
    o ∈ s.unnumbered ↔ ∃ r ∈ s.rows, r.ord = o ∧ r.place = none := by
  rw [State.unnumbered, List.mem_insertionSort, List.mem_map]
  constructor
  · rintro ⟨r, hr, rfl⟩
    exact ⟨r, (List.mem_filter.mp hr).1, rfl,
      Option.isNone_iff_eq_none.mp (List.mem_filter.mp hr).2⟩
  · rintro ⟨r, hr, rfl, hnone⟩
    exact ⟨r, List.mem_filter.mpr ⟨hr, Option.isNone_iff_eq_none.mpr hnone⟩, rfl⟩

/-- Unnumbered rows come in the order they were written in. -/
theorem unnumbered_ascending {s : State} (hnodup : (s.rows.map Row.ord).Nodup) :
    s.unnumbered.Pairwise (· < ·) := by
  have hnodup' : s.unnumbered.Nodup :=
    (List.perm_insertionSort _ _).nodup_iff.mpr ((List.filter_sublist.map _).nodup hnodup)
  have hsorted : s.unnumbered.Pairwise (· ≤ ·) := List.pairwise_insertionSort _ _
  exact hsorted.imp₂ (fun _ _ hle hne => lt_of_le_of_ne hle hne) hnodup'

/-- One numberer may come to hold what no other does. -/
theorem Alone.set {p : Numberer → Bool} {ns : List Numberer} (hs : Alone p ns)
    {i : Nat} {n n' : Numberer} (hn : ns[i]? = some n)
    (hp : p n' = true → p n = true ∨ ∀ m ∈ ns, p m = false) : Alone p (ns.set i n') := by
  intro j k m m' hj hk hjk hm
  rcases getElem?_set_cases hj with ⟨rfl, rfl⟩ | ⟨-, hj'⟩
  · obtain ⟨-, hk'⟩ := (getElem?_set_cases hk).resolve_left fun h => hjk h.1.symm
    rcases hp hm with hheld | hfree
    · exact hs _ k n m' hn hk' hjk hheld
    · exact hfree m' (List.mem_of_getElem? hk')
  · rcases getElem?_set_cases hk with ⟨rfl, rfl⟩ | ⟨-, hk'⟩
    · rw [← Bool.not_eq_true]
      intro hm'
      rcases hp hm' with hheld | hfree
      · rw [hs j _ m n hj' hn hjk hm] at hheld
        cases hheld
      · rw [hfree m (List.mem_of_getElem? hj')] at hm
        cases hm
    · exact hs j k m m' hj' hk' hjk hm

/-- A new numberer that does not hold it leaves the holder alone. -/
theorem Alone.push {p : Numberer → Bool} {ns : List Numberer} (hs : Alone p ns)
    {n' : Numberer} (hp : p n' = false) : Alone p (ns ++ [n']) := by
  intro j k m m' hj hk hjk hm
  rcases getElem?_join_cases hj with hj | ⟨-, rfl⟩
  · rcases getElem?_join_cases hk with hk | ⟨-, rfl⟩
    · exact hs j k m m' hj hk hjk hm
    · exact hp
  · rw [hp] at hm
    cases hm

/-- The tables a numberer has read are as they were, and the rows it picked are there. -/
theorem Numberer.Ok.mono {s s' : State} {n : Numberer} (hn : n.Ok s)
    (hcounter : s'.counter = s.counter) (hepoch : s.epoch ≤ s'.epoch)
    (hrows : ∀ r ∈ s.rows, r.place = none → ∃ r' ∈ s'.rows, r'.ord = r.ord ∧
      r'.place = none) : n.Ok s' := by
  have hwork : ∀ {w : Work} {os : List Nat}, w.Ok s os → w.Ok s' os := by
    intro w os hw
    refine ⟨hw.reached.trans hepoch, hcounter ▸ hw.forward, hcounter ▸ hw.eq, hw.ascending,
      fun o ho => ?_⟩
    obtain ⟨r, hr, rfl, hnone⟩ := hw.unnumbered o ho
    exact hrows r hr hnone
  refine ⟨hcounter ▸ hn.counter, ?_⟩
  have hphase := hn.phase
  cases hp : n.phase with
  | locked c =>
      rw [hp] at hphase
      rw [Phase.Ok, hcounter]
      exact hphase
  | read c now =>
      rw [hp] at hphase
      rw [Phase.Ok, hcounter]
      exact ⟨hphase.1, hphase.2.1.trans hepoch, hphase.2.2⟩
  | forked w =>
      rw [hp] at hphase
      exact hwork hphase
  | numbered w | counted w =>
      rw [hp] at hphase
      exact hphase.imp fun _ => hwork
  | began | ensured | committed | aborted => exact trivial

/-- What a numberer knows stays true while counter, epoch and rows do. -/
theorem Numberer.Ok.same {s s' : State} {n : Numberer} (hn : n.Ok s)
    (hcounter : s'.counter = s.counter) (hepoch : s'.epoch = s.epoch)
    (hrows : s'.rows = s.rows) : n.Ok s' :=
  hn.mono hcounter (le_of_eq hepoch.symm) fun r hr hnone => ⟨r, by rw [hrows]; exact hr, rfl, hnone⟩

/-- A numberer goes on. -/
theorem Locks.goes {notes : List Note} (new : List Note) {s s' : State} (hs : Locks notes s)
    {i : Nat} {n n' : Numberer} (hn : s.numberers[i]? = some n)
    (hnumberers : s'.numberers = s.numberers.set i n') (hok : n'.Ok s')
    (hothers : ∀ (j : Nat) (m : Numberer), i ≠ j → s.numberers[j]? = some m → m.Ok s')
    (hholds : n'.holds = true → n.holds = true ∨ ∀ m ∈ s.numberers, m.holds = false)
    (hinserting : n'.inserting = true → n.inserting = true ∨ ∀ m ∈ s.numberers, m.inserting = false)
    (hopen : ∀ b, n ≠ ⟨b, .committed⟩)
    (hnew : ∀ note ∈ new, ∀ j, note.numberer = some j → j = i ∧ ∃ b, n' = ⟨b, .committed⟩) :
    Locks (new ++ notes) s' := by
  refine ⟨fun m hm => ?_, hnumberers ▸ hs.holder.set hn hholds,
    hnumberers ▸ hs.inserter.set hn hinserting, fun note hnote j hj => ?_⟩
  · obtain ⟨j, hj⟩ := List.mem_iff_getElem?.mp hm
    rw [hnumberers] at hj
    rcases getElem?_set_cases hj with ⟨-, rfl⟩ | ⟨hij, hj⟩
    · exact hok
    · exact hothers j m (Ne.symm hij) hj
  · rw [hnumberers]
    rcases List.mem_append.mp hnote with hnote | hnote
    · obtain ⟨rfl, b, rfl⟩ := hnew note hnote j hj
      exact ⟨b, List.getElem?_set_self (List.getElem?_eq_some_iff.mp hn).1⟩
    · obtain ⟨b, hb⟩ := hs.ended note hnote j hj
      refine ⟨b, ?_⟩
      by_cases hij : i = j
      · subst hij
        exact absurd (Option.some.inj (hn.symm.trans hb)) (hopen b)
      · rw [List.getElem?_set_ne hij, hb]

/-- The numberers stay, and what they have read is as it was. -/
theorem Locks.same {notes : List Note} (new : List Note) {s s' : State} (hs : Locks notes s)
    (hnumberers : s'.numberers = s.numberers) (hok : ∀ n ∈ s.numberers, n.Ok s')
    (hnew : ∀ note ∈ new, note.numberer = none) : Locks (new ++ notes) s' := by
  refine ⟨hnumberers ▸ hok, hnumberers ▸ hs.holder, hnumberers ▸ hs.inserter,
    fun note hnote j hj => ?_⟩
  rcases List.mem_append.mp hnote with hnote | hnote
  · rw [hnew note hnote] at hj
    cases hj
  · rw [hnumberers]
    exact hs.ended note hnote j hj

theorem Numberer.holds_active {n : Numberer} (h : n.holds = true) : n.active = true := by
  obtain ⟨b, phase⟩ := n
  cases phase with
  | locked | read | forked | numbered | counted => rfl
  | began | ensured | committed | aborted => cases h

/-- While one has inserted the counter's row, no other is past its first statement. -/
theorem Locks.inserter_alone {notes : List Note} {s : State} (hs : Locks notes s)
    {i j : Nat} {n m : Numberer} (hn : s.numberers[i]? = some n)
    (hm : s.numberers[j]? = some m) (hij : i ≠ j) (hinserting : n.inserting = true) :
    m.active = false := by
  obtain ⟨hactive, hinserted⟩ := (Bool.and_eq_true _ _).mp hinserting
  have hnone := ((hs.ok n (List.mem_of_getElem? hn)).counter hactive).mp hinserted
  rw [← Bool.not_eq_true]
  intro hmactive
  have hminserted := ((hs.ok m (List.mem_of_getElem? hm)).counter hmactive).mpr hnone
  have hfree := hs.inserter i j n m hn hm hij hinserting
  rw [Numberer.inserting, hmactive, hminserted] at hfree
  cases hfree

/-- While one holds the counter's row, the others that have inserted or found it have
read nothing. -/
theorem Locks.holder_alone {notes : List Note} {s : State} (hs : Locks notes s)
    {i j : Nat} {n m : Numberer} (hn : s.numberers[i]? = some n)
    (hm : s.numberers[j]? = some m) (hij : i ≠ j) (hholds : n.holds = true) :
    m.active = false ∨ (m.phase = .ensured ∧ m.inserted = false) := by
  have hmholds := hs.holder i j n m hn hm hij hholds
  cases hactive : m.active with
  | false => exact .inl rfl
  | true =>
      refine .inr ⟨?_, ?_⟩
      · obtain ⟨b, phase⟩ := m
        cases phase with
        | ensured => rfl
        | began | committed | aborted => cases hactive
        | locked | read | forked | numbered | counted => cases hmholds
      · cases hinserted : m.inserted with
        | false => rfl
        | true =>
            have hnactive := hs.inserter_alone hm hn (Ne.symm hij)
              (by rw [Numberer.inserting, hactive, hinserted]; rfl)
            rw [Numberer.holds_active hholds] at hnactive
            cases hnactive

/-- What a numberer reads is right. -/
theorem Turns.ok {s : State} {n n' : Numberer} (h : Turns s n n') (hn : n.Ok s)
    (hnodup : (s.rows.map Row.ord).Nodup)
    (hreached : ∀ e, (s.counter.getD {}).epoch = some e → e ≤ s.epoch) : n'.Ok s := by
  cases h with
  | finds hsome =>
      exact ⟨fun _ => ⟨fun h => (by cases h), fun h => (by rw [h] at hsome; cases hsome)⟩, trivial⟩
  | inserts hnone _ => exact ⟨fun _ => ⟨fun _ => hnone, fun _ => rfl⟩, trivial⟩
  | @locks b c _ hc =>
      refine ⟨fun _ => hn.counter rfl, ?_⟩
      -- the row it has inserted is the only one
      cases b with
      | true =>
          have hnone := (hn.counter rfl).mp rfl
          cases hc
          rw [Phase.Ok, hnone]
          rfl
      | false =>
          rw [if_neg (by decide)] at hc
          rw [Phase.Ok, hc]
          rfl
  | @reads b c =>
      have hc : c = s.counter.getD {} := hn.phase
      exact ⟨fun _ => hn.counter rfl, hc, le_refl _, hc ▸ hreached⟩
  | @forks b c now =>
      obtain ⟨rfl, hnow, hforward⟩ : c = s.counter.getD {} ∧ now ≤ s.epoch ∧
        ∀ e, c.epoch = some e → e ≤ now := hn.phase
      refine ⟨fun _ => hn.counter rfl, ?_, ?_, ?_, .nil, by simp⟩
      · rwa [fork_now]
      · rwa [fork_now]
      · rw [fork_now, number_nil]
  | @numbers b w k =>
      have hw : w.Ok s [] := hn.phase
      refine ⟨fun _ => hn.counter rfl, s.unnumbered.take k, hw.reached, hw.forward, ?_, ?_,
        fun o ho => ?_⟩
      · have heq := congrArg (fun w => w.number (s.unnumbered.take k)) hw.eq
        exact heq
      · exact (unnumbered_ascending hnodup).sublist (List.take_sublist _ _)
      · exact mem_unnumbered.mp (List.mem_of_mem_take ho)
  | counts => exact ⟨fun _ => hn.counter rfl, hn.phase⟩
  | ends | aborts => exact ⟨fun h => (by cases h), trivial⟩

/-! ### The rows -/

/-- The rows are as they were. -/
theorem Rows.same {notes : List Note} (new : List Note) {s s' : State} (hs : Rows notes s)
    (hrows : s'.rows = s.rows) (hwritten : s'.written = s.written)
    (hnext : s'.nextOrd = s.nextOrd) (hnew : numberings (new ++ notes) = numberings notes) :
    Rows (new ++ notes) s' := by
  refine ⟨hrows ▸ hs.nodup, hnew ▸ hs.once, ?_, ?_, hnew ▸ hs.ascending, hrows ▸ hs.marked,
    hwritten ▸ hs.written, ?_, ?_⟩
  · rw [hrows, hnew]
    exact hs.placed
  · rw [hrows, hnew]
    exact fun o ho => (hs.kept o ho).imp_right (List.mem_append_right _)
  · rw [hwritten, hrows, hnew]
    exact hs.fresh
  · rw [hwritten, hrows, hnew, hnext]
    exact hs.drawn

/-- A row that is committed has a place that nothing has taken. -/
theorem Rows.emit {notes : List Note} {s : State} (hs : Rows notes s) (t : Nat) :
    Rows notes { s with written := s.written ++ [(t, s.nextOrd)], nextOrd := s.nextOrd + 1 } := by
  have hmap : (s.written ++ [(t, s.nextOrd)]).map Prod.snd = s.written.map Prod.snd ++
    [s.nextOrd] := by simp
  refine ⟨hs.nodup, hs.once, hs.placed, hs.kept, hs.ascending, hs.marked, ?_, fun o ho => ?_,
    fun o ho => ?_⟩
  · rw [hmap, List.nodup_append']
    refine ⟨hs.written, List.nodup_singleton _, fun o ho hnext => ?_⟩
    rw [List.mem_singleton.mp hnext] at ho
    exact lt_irrefl _ (hs.drawn _ (.inl ho))
  · rw [hmap] at ho
    rcases List.mem_append.mp ho with ho | ho
    · exact hs.fresh o ho
    · rw [List.mem_singleton.mp ho]
      exact ⟨fun h => lt_irrefl _ (hs.drawn _ (.inr (.inl h))),
        fun h => lt_irrefl _ (hs.drawn _ (.inr (.inr h)))⟩
  · rw [hmap, List.mem_append, List.mem_singleton] at ho
    rcases ho with (ho | rfl) | ho
    · exact Nat.lt_succ_of_lt (hs.drawn o (.inl ho))
    · exact Nat.lt_succ_self _
    · exact Nat.lt_succ_of_lt (hs.drawn o (.inr ho))

/-- A rollback leaves the rows as they are. -/
theorem Rows.drop {notes : List Note} {s : State} (hs : Rows notes s) (t : Nat) :
    Rows notes { s with written := s.written.filter fun w => decide (w.1 ≠ t) } := by
  have hsub := (List.filter_sublist (l := s.written) (p := fun w => decide (w.1 ≠ t))).map Prod.snd
  exact ⟨hs.nodup, hs.once, hs.placed, hs.kept, hs.ascending, hs.marked, hsub.nodup hs.written,
    fun o ho => hs.fresh o (hsub.subset ho),
    fun o ho => hs.drawn o (ho.imp_left fun h => hsub.subset h)⟩

/-- A business transaction commits. -/
theorem Rows.commit {notes : List Note} {s : State} (hs : Rows notes s) (t : Nat) :
    Rows notes { s with rows := s.rows ++
      (s.written.filter fun w => decide (w.1 = t)).map fun w => { ord := w.2 }
                        written := s.written.filter fun w => decide (w.1 ≠ t) } := by
  have hmap : (s.rows ++ (s.written.filter fun w => decide (w.1 = t)).map
    fun w => ({ ord := w.2 } : Row)).map Row.ord =
      s.rows.map Row.ord ++ (s.written.filter fun w => decide (w.1 = t)).map Prod.snd := by
    rw [List.map_append, List.map_map]
    rfl
  have hmine := (List.filter_sublist (l := s.written) (p := fun w => decide (w.1 = t))).map Prod.snd
  have hothers := (List.filter_sublist (l := s.written) (p := fun w => decide (w.1 ≠ t))).map
    Prod.snd
  -- each row is of one transaction
  have hdisjoint : ∀ o ∈ (s.written.filter fun w => decide (w.1 ≠ t)).map Prod.snd,
      o ∉ (s.written.filter fun w => decide (w.1 = t)).map Prod.snd := by
    rintro o ho ho'
    obtain ⟨w, hw, rfl⟩ := List.mem_map.mp ho
    obtain ⟨w', hw', heq⟩ := List.mem_map.mp ho'
    obtain ⟨hw, hne⟩ := List.mem_filter.mp hw
    obtain ⟨hw', ht⟩ := List.mem_filter.mp hw'
    obtain rfl := List.inj_on_of_nodup_map hs.written hw' hw heq
    exact of_decide_eq_true hne (of_decide_eq_true ht)
  refine ⟨?_, hs.once, fun r hr p => ?_, fun o ho => ?_, hs.ascending, fun r hr hmarked => ?_,
    hothers.nodup hs.written, fun o ho => ?_, fun o ho => ?_⟩
  · rw [hmap, List.nodup_append']
    exact ⟨hs.nodup, hmine.nodup hs.written, fun o ho ho' => (hs.fresh o (hmine.subset ho')).1 ho⟩
  · rcases List.mem_append.mp hr with hr | hr
    · exact hs.placed r hr p
    · obtain ⟨w, hw, rfl⟩ := List.mem_map.mp hr
      refine ⟨fun h => (by cases h), ?_⟩
      rintro ⟨n, hn, -, hmem⟩
      exact absurd (mem_ords.mpr ⟨n, hn, p.seq, hmem⟩)
        (hs.fresh w.2 (hmine.subset (List.mem_map_of_mem hw))).2
  · rw [hmap]
    exact (hs.kept o ho).imp_left (List.mem_append_left _)
  · rcases List.mem_append.mp hr with hr | hr
    · exact hs.marked r hr hmarked
    · obtain ⟨w, -, rfl⟩ := List.mem_map.mp hr
      cases hmarked
  · rw [hmap, List.mem_append, not_or]
    exact ⟨⟨(hs.fresh o (hothers.subset ho)).1, hdisjoint o ho⟩, (hs.fresh o (hothers.subset ho)).2⟩
  · rw [hmap, List.mem_append] at ho
    rcases ho with ho | (ho | ho) | ho
    · exact hs.drawn o (.inl (hothers.subset ho))
    · exact hs.drawn o (.inr (.inl ho))
    · exact hs.drawn o (.inl (hmine.subset ho))
    · exact hs.drawn o (.inr (.inr ho))

/-- The forwarder marks rows. -/
theorem Rows.publish {notes : List Note} {s : State} (hs : Rows notes s) {f : Row →
    Row} (hord : ∀ r, (f r).ord = r.ord) (hplace : ∀ r, (f r).place = r.place)
    (hmarked : ∀ r, (f r).published = true → r.published = true ∨ r.place.isSome = true) :
    Rows notes { s with rows := s.rows.map f } := by
  have hmap : (s.rows.map f).map Row.ord = s.rows.map Row.ord := by
    rw [List.map_map]
    exact List.map_congr_left fun r _ => hord r
  refine ⟨by rw [hmap]; exact hs.nodup, hs.once,
    fun r hr p => ?_, by rw [hmap]; exact hs.kept, hs.ascending,
    fun r hr hpublished => ?_, hs.written, by rw [hmap]; exact hs.fresh, by
    rw [hmap]; exact hs.drawn⟩
  · obtain ⟨r, hmem, rfl⟩ := List.mem_map.mp hr
    rw [hplace, hord]
    exact hs.placed r hmem p
  · obtain ⟨r, hmem, rfl⟩ := List.mem_map.mp hr
    rw [hplace]
    exact (hmarked r hpublished).elim (hs.marked r hmem) id

/-- A purge takes rows out and notes each of them. -/
theorem Rows.purge {notes : List Note} {s : State} (hs : Rows notes s) (p : Row → Bool) :
    Rows ((s.rows.filter p).map (fun r => .purged r.ord) ++ notes)
    { s with rows := s.rows.filter fun r => !p r } := by
  have hnew : numberings ((s.rows.filter p).map (fun r => .purged r.ord) ++ notes) =
    numberings notes := by
    have heq := (notes_purged ((s.rows.filter p).map Row.ord) notes).2
    rwa [List.map_map] at heq
  have hsub := (List.filter_sublist (l := s.rows) (p := fun r => !p r)).map Row.ord
  refine ⟨hsub.nodup hs.nodup, hnew ▸ hs.once, fun r hr => ?_, fun o ho => ?_, hnew ▸ hs.ascending,
    fun r hr => hs.marked r (List.mem_of_mem_filter hr), hs.written, fun o ho => ?_, fun o ho => ?_⟩
  · rw [hnew]
    exact hs.placed r (List.mem_of_mem_filter hr)
  · rw [hnew] at ho
    rcases hs.kept o ho with hmem | hpurged
    · obtain ⟨r, hr, rfl⟩ := List.mem_map.mp hmem
      cases hp : p r with
      | false => exact .inl (List.mem_map_of_mem (List.mem_filter.mpr ⟨hr, by rw [hp]; rfl⟩))
      | true =>
          exact .inr (List.mem_append_left _
            (List.mem_map.mpr ⟨r, List.mem_filter.mpr ⟨hr, hp⟩, rfl⟩))
    · exact .inr (List.mem_append_right _ hpurged)
  · rw [hnew]
    exact ⟨fun h => (hs.fresh o ho).1 (hsub.subset h), (hs.fresh o ho).2⟩
  · rw [hnew] at ho
    exact hs.drawn o (ho.imp_right (Or.imp_left fun h => hsub.subset h))

/-! ### A numbering commits -/

section
variable {notes : List Note} {s : State} {w : Work} {os : List Nat}

theorem counterOf_nil (h : numberings notes = []) : (counterOf notes).getD {} = {} := by
  unfold counterOf
  rw [h]
  dsimp only
  split <;> rfl

theorem counterOf_cons {n : Numbering} {ns : List Numbering} (h : numberings notes = n :: ns) :
    counterOf notes = some ⟨some n.epoch, (numbers n.epoch (n :: ns)).length⟩ := by
  unfold counterOf
  rw [h]

theorem Work.Ok.last_eq (hw : w.Ok s os) : w.last = ((s.counter.getD {}).fork w.now).last := by
  have heq := congrArg Work.last hw.eq
  exact heq

theorem Work.Ok.fork_eq (hw : w.Ok s os) : w.fork = ((s.counter.getD {}).fork w.now).fork := by
  have heq := congrArg Work.fork hw.eq
  exact heq

theorem Work.Ok.rows_eq (hw : w.Ok s os) : w.rows = os.zipIdx (w.last + 1) := by
  rw [hw.last_eq]
  have heq := congrArg Work.rows hw.eq
  exact heq

/-- The epochs so far are at most the one read. -/
theorem Work.Ok.numberings_le (hw : w.Ok s os) (hs : Positions notes s) :
    ∀ n ∈ numberings notes, n.epoch ≤ w.now := by
  have hforward := hw.forward
  rw [hs.counter] at hforward
  have hpairwise := hs.forward
  cases hns : numberings notes with
  | nil => simp
  | cons m ns =>
      rw [hns] at hpairwise
      rw [counterOf_cons hns] at hforward
      have hm : m.epoch ≤ w.now := hforward m.epoch rfl
      intro n hn
      rcases List.mem_cons.mp hn with rfl | hn
      · exact hm
      · exact ((List.pairwise_cons.mp hpairwise).1 n hn).trans hm

/-- The last number given in the epoch read, or none in a new one. -/
theorem Work.Ok.last (hw : w.Ok s os) (hs : Positions notes s) :
    w.last = (numbers w.now (numberings notes)).length := by
  have hle := hw.numberings_le hs
  rw [hw.last_eq, hs.counter]
  have hpairwise := hs.forward
  cases hns : numberings notes with
  | nil =>
      rw [counterOf_nil hns]
      rfl
  | cons m ns =>
      rw [hns] at hle hpairwise
      rw [counterOf_cons hns, Option.getD_some, Counter.fork]
      split
      · next heq => rw [← Option.some.inj heq]
      · next hne =>
        have hlt : m.epoch < w.now := lt_of_le_of_ne (hle m List.mem_cons_self) fun heq =>
          hne (congrArg some heq)
        have hnone : ∀ n ∈ m :: ns, n.epoch ≠ w.now := by
          intro n hn heq
          rcases List.mem_cons.mp hn with rfl | hn
          · exact absurd heq (ne_of_lt hlt)
          · exact absurd (heq ▸ (List.pairwise_cons.mp hpairwise).1 n hn) (not_le.mpr hlt)
        rw [numbers_eq_nil hnone]
        rfl

theorem getLast_range' (n : Nat) : (List.range' 1 n).getLast?.getD 0 = n := by
  rw [List.getLast?_range']
  split
  · next h => rw [h]; rfl
  · rw [Option.getD_some]
    omega

/-- The history row is that of the change of epoch. -/
theorem Work.Ok.forks (hw : w.Ok s os) (hs : Positions notes s) (i : Nat) :
    s.history ++ w.fork.toList = Outbox.forks (⟨i, w.now, w.rows⟩ :: numberings notes) := by
  rw [hs.history, Outbox.forks, hw.fork_eq, hs.counter]
  congr 1
  cases hns : numberings notes with
  | nil =>
      rw [counterOf_nil hns]
      rfl
  | cons m ns =>
      have hdense := hs.dense m.epoch
      rw [hns] at hdense
      rw [counterOf_cons hns, Option.getD_some, Counter.fork]
      by_cases heq : m.epoch = w.now
      · rw [if_pos (congrArg some heq), forkOf, if_pos heq]
        rfl
      · rw [if_neg fun h => heq (Option.some.inj h), forkOf, if_neg heq, hdense,
          getLast_range', List.length_range']
        rfl

/-- The numbers follow those given before. -/
theorem Work.Ok.numbers (hw : w.Ok s os) (hs : Positions notes s) (i : Nat) :
    Outbox.numbers w.now (⟨i, w.now, w.rows⟩ :: numberings notes) = List.range' 1
    (w.last + w.rows.length) := by
  rw [numbers_cons, if_pos rfl, hs.dense w.now, ← hw.last hs]
  dsimp only
  rw [hw.rows_eq, List.zipIdx_map_snd, List.length_zipIdx, Nat.add_comm w.last 1,
    List.range'_append_1]

/-- A numbering that is committed keeps the positions dense. -/
theorem Positions.number (hs : Positions notes s) (hw : w.Ok s os) (i : Nat) :
    Positions (.numbering ⟨i, w.now, w.rows⟩ :: notes) (s.apply w) where
  counter := by
    rw [counterOf_cons (numberings_numbering _ _), hw.numbers hs i, List.length_range']
    rfl
  dense e := by
    rw [numberings_numbering]
    by_cases heq : w.now = e
    · subst heq
      rw [hw.numbers hs i, List.length_range']
    · rw [numbers_cons, if_neg heq, List.append_nil]
      exact hs.dense e
  forward := List.pairwise_cons.mpr ⟨hw.numberings_le hs, hs.forward⟩
  reached := by
    intro n hn
    rcases List.mem_cons.mp hn with rfl | hn
    · exact hw.reached
    · exact hs.reached n hn
  history := hw.forks hs i

theorem placed_ord (w : Work) (r : Row) : (w.placed r).ord = r.ord := by
  unfold Work.placed
  split <;> rfl

/-- A numbering that is committed gives each row its place. -/
theorem Rows.number (hs : Rows notes s) (hw : w.Ok s os) (i : Nat) :
    Rows (.numbering ⟨i, w.now, w.rows⟩ :: notes) (s.apply w) := by
  have hfst : w.rows.map Prod.fst = os := by rw [hw.rows_eq, List.zipIdx_map_fst]
  have hmap : (s.apply w).rows.map Row.ord = s.rows.map Row.ord := by
    rw [State.apply, List.map_map]
    exact List.map_congr_left fun r _ => placed_ord w r
  have hnodup : os.Nodup := hw.ascending.imp ne_of_lt
  have hpicked : ∀ o ∈ os, o ∈ s.rows.map Row.ord := by
    intro o ho
    obtain ⟨r, hr, rfl, -⟩ := hw.unnumbered o ho
    exact List.mem_map_of_mem hr
  -- no row was given a position twice
  have hfirst : ∀ o ∈ os, o ∉ ords (numberings notes) := by
    intro o ho hmem
    obtain ⟨r, hr, rfl, hnone⟩ := hw.unnumbered o ho
    obtain ⟨n, hn, q, hq⟩ := mem_ords.mp hmem
    rw [(hs.placed r hr ⟨n.epoch, q⟩).mpr ⟨n, hn, rfl, hq⟩] at hnone
    cases hnone
  have hords : ords (numberings (.numbering ⟨i, w.now, w.rows⟩ :: notes)) = os ++
    ords (numberings notes) := by
    rw [numberings_numbering, ords_cons, hfst]
  refine ⟨hmap ▸ hs.nodup, ?_, fun r' hr' p => ?_, fun o ho => ?_, fun n hn => ?_,
    fun r' hr' hmarked => ?_, hs.written, fun o ho => ?_, fun o ho => ?_⟩
  · rw [hords, List.nodup_append']
    exact ⟨hnodup, hs.once, hfirst⟩
  · obtain ⟨r, hr, rfl⟩ := List.mem_map.mp hr'
    rw [placed_ord, numberings_numbering]
    constructor
    · intro hplace
      unfold Work.placed at hplace
      split at hplace
      · next q seq hfind =>
        obtain rfl : q = r.ord := by simpa using List.find?_some hfind
        obtain rfl := Option.some.inj hplace
        exact ⟨_, List.mem_cons_self, rfl, List.mem_of_find?_eq_some hfind⟩
      · obtain ⟨n, hn, heq⟩ := (hs.placed r hr p).mp hplace
        exact ⟨n, List.mem_cons_of_mem _ hn, heq⟩
    · rintro ⟨n, hn, hepoch, hmem⟩
      rcases List.mem_cons.mp hn with rfl | hn
      · unfold Work.placed
        split
        · next q seq hfind =>
          obtain rfl : q = r.ord := by simpa using List.find?_some hfind
          have heq := List.inj_on_of_nodup_map (hfst ▸ hnodup)
            (List.mem_of_find?_eq_some hfind) hmem rfl
          cases heq
          exact congrArg some (congrArg (fun e => (⟨e, p.seq⟩ : Place)) hepoch)
        · next hnone => exact absurd (List.find?_eq_none.mp hnone _ hmem) (by simp)
      · have hold : r.ord ∈ ords (numberings notes) := mem_ords.mpr ⟨n, hn, p.seq, hmem⟩
        unfold Work.placed
        split
        · next q seq hfind =>
          obtain rfl : q = r.ord := by simpa using List.find?_some hfind
          exact absurd hold
            (hfirst _ (hfst ▸ List.mem_map_of_mem (List.mem_of_find?_eq_some hfind)))
        · exact (hs.placed r hr p).mpr ⟨n, hn, hepoch, hmem⟩
  · rw [hords, List.mem_append] at ho
    rw [hmap]
    rcases ho with ho | ho
    · exact .inl (hpicked o ho)
    · exact (hs.kept o ho).imp_right (List.mem_cons_of_mem _)
  · rcases List.mem_cons.mp hn with rfl | hn
    · dsimp only
      have hsnd : w.rows.map Prod.snd = List.range' (w.last + 1) os.length := by
        rw [hw.rows_eq, List.zipIdx_map_snd]
      refine List.Pairwise.and (List.pairwise_map.mp (hfst ▸ hw.ascending))
        (List.pairwise_map.mp ?_)
      rw [hsnd]
      exact List.pairwise_lt_range'
    · exact hs.ascending n hn
  · obtain ⟨r, hr, rfl⟩ := List.mem_map.mp hr'
    unfold Work.placed at hmarked ⊢
    split at hmarked
    · rfl
    · exact hs.marked r hr hmarked
  · rw [hmap, hords, List.mem_append, not_or]
    exact ⟨(hs.fresh o ho).1, fun h => (hs.fresh o ho).1 (hpicked o h), (hs.fresh o ho).2⟩
  · rw [hmap, hords, List.mem_append] at ho
    rcases ho with ho | ho | ho | ho
    · exact hs.drawn o (.inl ho)
    · exact hs.drawn o (.inr (.inl ho))
    · exact hs.drawn o (.inr (.inl (hpicked o ho)))
    · exact hs.drawn o (.inr (.inr ho))

end

/-! ### Runs -/

/-- A numberer that is not active has nothing to know. -/
theorem Numberer.Ok.of_inactive {n : Numberer} (s : State) (h : n.active = false) : n.Ok s := by
  refine ⟨fun hactive => ?_, ?_⟩
  · rw [h] at hactive
    cases hactive
  obtain ⟨b, phase⟩ := n
  cases phase with
  | began | ensured | committed | aborted => trivial
  | locked | read | forked | numbered | counted => cases h

/-- Only where no numberer holds the lock does another one come to hold it. -/
theorem Turns.holds {s : State} {n n' : Numberer} (h : Turns s n n') (hholds : n'.holds = true) :
    n.holds = true ∨ ∀ m ∈ s.numberers, m.holds = false := by
  cases h with
  | locks hfree _ => exact .inr hfree
  | reads | forks | numbers | counts => exact .inl rfl
  | finds | inserts | ends | aborts => cases hholds

/-- Only where no numberer inserts the counter does another one begin to. -/
theorem Turns.inserting {s : State} {n n' : Numberer} (h : Turns s n n')
    (hinserting : n'.inserting = true) :
    n.inserting = true ∨ ∀ m ∈ s.numberers, m.inserting = false := by
  cases h with
  | inserts _ hfree => exact .inr hfree
  | locks | reads | forks | numbers | counts => exact .inl hinserting
  | finds | ends | aborts => cases hinserting

theorem Turns.running {s : State} {n n' : Numberer} (h : Turns s n n') (b : Bool) :
    n ≠ ⟨b, .committed⟩ := by
  cases h with
  | aborts hopen => exact hopen b
  | finds | inserts | locks | reads | forks | numbers | counts | ends => simp

/-- Everything at once. -/
structure Sound (notes : List Note) (s : State) : Prop where
  positions : Positions notes s
  rows : Rows notes s
  locks : Locks notes s

/-- The outbox starts sound. -/
theorem sound_start : Sound [] start where
  positions := ⟨rfl, fun _ => rfl, .nil, by simp [numberings], rfl⟩
  rows := ⟨.nil, .nil, by simp [start], by simp [numberings, ords], by simp [numberings], by
    simp [start], .nil, by simp [start], by simp [start, numberings, ords]⟩
  locks := ⟨by simp [start], fun i j n m hn => by simp [start] at hn,
    fun i j n m hn => by simp [start] at hn, by simp⟩

/-- The counter's epoch is not ahead of the database's. -/
theorem Positions.counter_le {notes : List Note} {s : State} (hs : Positions notes s) :
    ∀ e, (s.counter.getD {}).epoch = some e → e ≤ s.epoch := by
  intro e he
  rw [hs.counter] at he
  cases hns : numberings notes with
  | nil =>
      rw [counterOf_nil hns] at he
      cases he
  | cons n ns =>
      rw [counterOf_cons hns] at he
      obtain rfl := Option.some.inj he
      exact hs.reached n (hns ▸ List.mem_cons_self)

/-- A numberer's turn keeps the outbox sound. -/
theorem Sound.turn {notes : List Note} {s : State} (hs : Sound notes s) {i : Nat} {n n' : Numberer}
    (hn : s.numberers[i]? = some n) (h : Turns s n n') : Sound notes (s.to_ i n') where
  positions := ⟨hs.positions.counter, hs.positions.dense, hs.positions.forward,
    hs.positions.reached, hs.positions.history⟩
  rows := hs.rows.same [] rfl rfl rfl rfl
  locks := by
    have hsame : ∀ {m : Numberer}, m.Ok s → m.Ok (s.to_ i n') := fun hm => hm.same rfl rfl rfl
    have hok := h.ok (hs.locks.ok n (List.mem_of_getElem? hn)) hs.rows.nodup hs.positions.counter_le
    exact hs.locks.goes [] hn rfl (hsame hok)
      (fun j m _ hm => hsame (hs.locks.ok m (List.mem_of_getElem? hm)))
      h.holds h.inserting h.running (by simp)

/-- So does the insertion of the counter. -/
theorem Sound.create {notes : List Note} {s : State} (hs : Sound notes s) {i : Nat}
    (hn : s.numberers[i]? = some ⟨true, .ensured⟩) :
    Sound (.created i :: notes) ({ s with counter := some {} }.to_ i ⟨true, .committed⟩) where
  positions := by
    have hnone := ((hs.locks.ok _ (List.mem_of_getElem? hn)).counter rfl).mp rfl
    have hnil : numberings notes = [] := by
      cases hns : numberings notes with
      | nil => rfl
      | cons n ns =>
          rw [hs.positions.counter, counterOf_cons hns] at hnone
          cases hnone
    refine ⟨?_, hs.positions.dense, hs.positions.forward, hs.positions.reached,
      hs.positions.history⟩
    unfold counterOf
    rw [numberings_created, hnil]
    rfl
  rows := hs.rows.same [.created i] rfl rfl rfl rfl
  locks := by
    refine hs.locks.goes [.created i] hn rfl (.of_inactive _ rfl) (fun j m hij hm => ?_)
      (fun h => by cases h) (fun h => by cases h) (by simp) fun note hnote j hj => ?_
    · exact .of_inactive _ (hs.locks.inserter_alone hn hm hij rfl)
    · rw [List.mem_singleton.mp hnote] at hj
      exact ⟨(Option.some.inj hj).symm, true, rfl⟩

/-- So does a numbering that is committed. -/
theorem Sound.number {notes : List Note} {s : State} (hs : Sound notes s)
    {i : Nat} {b : Bool} {w : Work} (hn : s.numberers[i]? = some ⟨b, .counted w⟩) :
    Sound (.numbering ⟨i, w.now, w.rows⟩ :: notes) ((s.apply w).to_ i ⟨b, .committed⟩) := by
  obtain ⟨os, hw⟩ : ∃ os, w.Ok s os := (hs.locks.ok _ (List.mem_of_getElem? hn)).phase
  have hpositions := hs.positions.number hw i
  have hrows : Rows (.numbering ⟨i, w.now, w.rows⟩ :: notes) ((s.apply w).to_ i ⟨b, .committed⟩) :=
    (hs.rows.number hw i).same [] rfl rfl rfl rfl
  refine ⟨⟨hpositions.counter, hpositions.dense, hpositions.forward, hpositions.reached,
    hpositions.history⟩, hrows, ?_⟩
  refine hs.locks.goes [.numbering ⟨i, w.now, w.rows⟩] hn rfl (.of_inactive _ rfl)
    (fun j m hij hm => ?_) (fun h => by cases h) (fun h => by cases h)
    (by simp) fun note hnote j hj => ?_
  · rcases hs.locks.holder_alone hn hm hij rfl with hinactive | ⟨hphase, hinserted⟩
    · exact .of_inactive _ hinactive
    · refine ⟨fun _ => ⟨fun h => ?_, fun h => (by cases h)⟩, ?_⟩
      · rw [hinserted] at h
        cases h
      · rw [hphase]
        trivial
  · rw [List.mem_singleton.mp hnote] at hj
    exact ⟨(Option.some.inj hj).symm, b, rfl⟩

/-- Every step keeps the outbox sound. -/
theorem Sound.step {notes : List Note} {s : State} (hs : Sound notes s) (o : Op) :
    Sound ((step s o).2 ++ notes) (step s o).1 := by
  have hgoes := step_goes s o
  generalize (Outbox.step s o).1 = s', (Outbox.step s o).2 = new at hgoes
  have hkeep : ∀ {s' : State} (new : List Note), s'.numberers = s.numberers →
    s'.counter = s.counter → s.epoch ≤ s'.epoch →
      (∀ r ∈ s.rows, r.place = none → r ∈ s'.rows) → (∀ note ∈ new, note.numberer = none) →
      Locks (new ++ notes) s' :=
    fun new hnumberers hcounter hepoch hrows => hs.locks.same new hnumberers fun n hn =>
      (hs.locks.ok n hn).mono hcounter hepoch fun r hr hnone => ⟨r, hrows r hr hnone, rfl, hnone⟩
  have hp := hs.positions
  cases hgoes with
  | stays => exact hs
  | turns i n n' hn h => exact hs.turn hn h
  | creates i hn => exact hs.create hn
  | numbers i b w hn => exact hs.number hn
  | emits t =>
      exact ⟨⟨hp.counter, hp.dense, hp.forward, hp.reached, hp.history⟩, hs.rows.emit t,
        hkeep [] rfl rfl (le_refl _) (fun r hr _ => hr) (by simp)⟩
  | commits t =>
      exact ⟨⟨hp.counter, hp.dense, hp.forward, hp.reached, hp.history⟩, hs.rows.commit t,
        hkeep [] rfl rfl (le_refl _) (fun r hr _ => List.mem_append_left _ hr) (by simp)⟩
  | drops t =>
      exact ⟨⟨hp.counter, hp.dense, hp.forward, hp.reached, hp.history⟩, hs.rows.drop t,
        hkeep [] rfl rfl (le_refl _) (fun r hr _ => hr) (by simp)⟩
  | begins =>
      refine ⟨⟨hp.counter, hp.dense, hp.forward, hp.reached, hp.history⟩,
        hs.rows.same [] rfl rfl rfl rfl, ⟨fun n hn => ?_, hs.locks.holder.push rfl,
          hs.locks.inserter.push rfl, fun note hnote j hj => ?_⟩⟩
      · rcases List.mem_append.mp hn with hn | hn
        · exact (hs.locks.ok n hn).same rfl rfl rfl
        · rw [List.mem_singleton.mp hn]
          exact .of_inactive _ rfl
      · obtain ⟨b, hb⟩ := hs.locks.ended note hnote j hj
        exact ⟨b, getElem?_join hb⟩
  | publishes ords =>
      refine ⟨⟨hp.counter, hp.dense, hp.forward, hp.reached, hp.history⟩,
        hs.rows.publish (fun r => ?_) (fun r => ?_) (fun r h => ?_),
        hkeep [] rfl rfl (le_refl _) (fun r hr hnone => ?_) (by simp)⟩
      · split <;> rfl
      · split <;> rfl
      · split at h
        · next hsome => exact .inr hsome.1
        · exact .inl h
      · refine List.mem_map.mpr ⟨r, hr, if_neg ?_⟩
        rw [hnone]
        rintro ⟨h, -⟩
        cases h
  | purges ords =>
      have hnone : ∀ note ∈ (s.rows.filter fun r => r.published && ords.contains r.ord).map
        fun r => Note.purged r.ord,
          note.numberer = none := by
        intro note hnote
        obtain ⟨r, -, rfl⟩ := List.mem_map.mp hnote
        rfl
      obtain ⟨hcounter, hnumberings⟩ :=
        notes_purged ((s.rows.filter fun r => r.published && ords.contains r.ord).map Row.ord) notes
      rw [List.map_map] at hcounter hnumberings
      refine ⟨?_, hs.rows.purge _, hkeep _ rfl rfl (le_refl _) (fun r hr hplace => ?_) hnone⟩
      · exact ⟨hp.counter.trans hcounter.symm, hnumberings ▸ hp.dense,
          hnumberings ▸ hp.forward, hnumberings ▸ hp.reached, hnumberings ▸ hp.history⟩
      · refine List.mem_filter.mpr ⟨hr, ?_⟩
        have hmarked := hs.rows.marked r hr
        rw [hplace] at hmarked
        cases hpub : r.published with
        | false => rfl
        | true => cases hmarked hpub
  | moves e =>
      exact ⟨⟨hp.counter, hp.dense, hp.forward,
        fun n hn => (hp.reached n hn).trans (le_max_left _ _), hp.history⟩,
        hs.rows.same [] rfl rfl rfl rfl, hkeep [] rfl rfl (le_max_left _ _) (fun r hr _ => hr)
        (by simp)⟩

theorem sound_reach {h : List (List Note)} {s : State} (hr : Reach step anyOp start h s) :
    Sound h.flatten s := by
  induction hr with
  | nil => exact sound_start
  | snoc o _ _ ih => exact ih.step o

/-! ## The law -/

/-- A fork begins the epoch of one of the numberings. -/
theorem forks_new {ns : List Numbering} : ∀ f ∈ forks ns, ∃ n ∈ ns, f.new = n.epoch := by
  induction ns with
  | nil => simp [forks]
  | cons n ns ih =>
      intro f hf
      rcases List.mem_append.mp hf with hf | hf
      · obtain ⟨m, hm, heq⟩ := ih f hf
        exact ⟨m, List.mem_cons_of_mem _ hm, heq⟩
      · refine ⟨n, List.mem_cons_self, ?_⟩
        unfold forkOf at hf
        split at hf
        · cases hf
        · split at hf
          · cases hf
          · rw [List.mem_singleton.mp hf]

/-- An epoch is new once. -/
theorem forks_nodup {ns : List Numbering} (h : ns.Pairwise fun n m => m.epoch ≤ n.epoch) :
    ((forks ns).map Fork.new).Nodup := by
  induction ns with
  | nil => exact .nil
  | cons n ns ih =>
      obtain ⟨hle, htail⟩ := List.pairwise_cons.mp h
      rw [forks, List.map_append, List.nodup_append']
      refine ⟨ih htail, ?_, fun e he he' => ?_⟩
      · unfold forkOf
        split
        · exact .nil
        · split
          · exact .nil
          · exact List.nodup_singleton _
      · obtain ⟨f, hf, rfl⟩ := List.mem_map.mp he
        obtain ⟨k, hk, hfk⟩ := forks_new f hf
        cases ns with
        | nil => cases hf
        | cons m rest =>
            rw [forkOf] at he'
            split at he'
            · cases he'
            · next hne =>
              -- the epoch of every earlier numbering is less
              have hkm : k.epoch ≤ m.epoch := by
                rcases List.mem_cons.mp hk with rfl | hk
                · exact le_refl _
                · exact (List.pairwise_cons.mp htail).1 k hk
              have hfn : f.new = n.epoch := List.mem_singleton.mp he'
              exact hne (le_antisymm (hle m List.mem_cons_self) (hfn ▸ hfk ▸ hkm))

/-- **Outbox positions are dense, unique and fork-recorded.** In every run of any
number of emitters and numberers, with epochs that only move forward: the numbers given
in an epoch are 1, …, n, and the counter has n for the current one; each row is numbered
at most once, the table has the positions that were given, and a position stays; the
rows of one call are in insertion order; the history has one row for each change of
epoch, with the last number of the old one; and the tables have nothing of a numberer
that has not committed. -/
theorem outbox_positions {h : List (List Note)} {s : State} (hr : Reach step anyOp start h s) :
    let ns := numberings h.flatten
    (∀ e, ∃ n, numbers e ns = List.range' 1 n ∧ ∀ c, s.counter = some c → c.epoch = some e →
      c.lastSeq = n) ∧ ((ords ns).Nodup ∧
      (∀ r ∈ s.rows, ∀ p, r.place = some p ↔ Placed ns r.ord p) ∧
        (∀ o ∈ ords ns, o ∈ s.rows.map Row.ord ∨ .purged o ∈ h.flatten) ∧
        ∀ o, ∀ r ∈ s.rows, ∀ p, r.place = some p → ∀ r' ∈ (step s o).1.rows, r'.ord = r.ord →
        r'.place = some p) ∧
      (∀ n ∈ ns, n.rows.Pairwise fun a b => a.1 < b.1 ∧ a.2 < b.2) ∧
      (s.history = forks ns ∧ (s.history.map Fork.new).Nodup) ∧
      s.counter = counterOf h.flatten ∧
        ∀ i n, s.numberers[i]? = some n → n.phase ≠ .committed →
        ∀ note ∈ h.flatten, note.numberer ≠ some i := by
  have hs := sound_reach hr
  refine ⟨fun e => ⟨_, hs.positions.dense e, fun c hc he => ?_⟩,
    ⟨hs.rows.once, hs.rows.placed, hs.rows.kept, fun o r hr' p hp r' hmem hord => ?_⟩,
    hs.rows.ascending, ⟨hs.positions.history, ?_⟩, hs.positions.counter,
    fun i n hn hopen note hnote hby => ?_⟩
  · rw [hs.positions.counter] at hc
    cases hns : numberings h.flatten with
    | nil =>
        have hnil := counterOf_nil hns
        rw [hc, Option.getD_some] at hnil
        rw [hnil] at he
        cases he
    | cons n ns =>
        rw [counterOf_cons hns] at hc
        obtain rfl := Option.some.inj hc
        obtain rfl := Option.some.inj he
        rfl
  · obtain ⟨n, hn, hplaced⟩ := (hs.rows.placed r hr' p).mp hp
    refine ((hs.step o).rows.placed r' hmem p).mpr ⟨n, ?_, ?_⟩
    · rw [numberings, List.filterMap_append]
      exact List.mem_append_right _ hn
    · rw [hord]
      exact hplaced
  · rw [hs.positions.history]
    exact forks_nodup hs.positions.forward
  · obtain ⟨b, hb⟩ := hs.locks.ended note hnote i hby
    obtain rfl := Option.some.inj (hn.symm.trans hb)
    exact hopen rfl

/-- The statements of one call. -/
def call (i : Nat) (batch : Int) : List Op :=
  [.insert i, .lock i, .read i, .fork i, .number i batch, .count i]

/-- Two numberers at a time, of which the second is aborted and starts again; a row that
was inserted first commits last, and is numbered in the next epoch. -/
def twoNumberers : List Op :=
  [.emit 0, .emit 1, .emit 1, .emitted 1, .begin_, .begin_, .begin_] ++ call 0 1 ++
    call 1 5 ++ [.commit 0] ++ call 1 5 ++ [.abort 1] ++ call 2 5 ++
    [.commit 2, .moves (epoch 2 1), .emitted 0, .begin_] ++ call 3 5 ++ [.commit 3]

theorem outbox_positions_two :
    let run := runOps step start twoNumberers
    (∃ n, numbers (epoch 1 1) (numberings run.1.flatten) = List.range' 1 n) ∧
      run.2.rows.map (fun r => (r.ord, r.place)) =
        [(2, some ⟨epoch 1 1, 1⟩), (3, some ⟨epoch 1 1, 2⟩), (1, some ⟨epoch 2 1, 1⟩)] ∧
      run.2.history = [⟨epoch 1 1, 2, epoch 2 1⟩] := by
  have hlaw := outbox_positions (reach_runOps step twoNumberers start)
  obtain ⟨n, hn, -⟩ := hlaw.1 (epoch 1 1)
  exact ⟨⟨n, hn⟩, by decide +kernel, by decide +kernel⟩

end BeSdk.Events.Outbox
