/-
BeSdk.Events.ConsumerTheorems — handlers take effect once.

The inbox row and the handler's writes are of one transaction, and the inbox key is
unique: while a transaction that inserted a key is open the others wait for it
(`Inbox.apart`), and once it committed they find the row (`PhaseOk`). So what is in
the tables is what the committed transactions put there (`Inbox.keys`,
`Inbox.effects`), each event's once.

An acknowledgement says less than that. `handle` takes a call that returns for a
committed one; but after a failed statement `COMMIT` rolls back and reports no
error, so a handler that swallows the failure is acknowledged without its effects.
Where no handler does (`careful`), every acknowledged event was applied.

* `handlers_take_effect_once`: at most one commit for each event, nothing left by a
  failed call, and an acknowledgement only for an applied event.
-/
import BeSdk.Events.Consumer
import BeSdk.Lib.Fallible
import BeSdk.Lib.History

namespace BeSdk.Events.Consumer

/-! ## What committed -/

/-- The events whose business transactions committed, newest first. -/
def keysOf (notes : List Note) : List Nat :=
  notes.filterMap fun | .committed _ key _ => some key | .lost _ => none

/-- What those transactions wrote. -/
def effectsOf (notes : List Note) : List (Nat × Write) :=
  notes.flatMap fun | .committed _ key writes => writes.map (key, ·) | .lost _ => []

/-- A call that ended without a failure. -/
def Phase.ended : Phase → Bool
  | .answered .ack => true
  | .gone => true
  | _ => false

section
variable [Interp]

/-- A transaction's inbox row is of its delivery's event, and new exactly where no
committed one is there. -/
def PhaseOk (inbox : List Nat) (d : Delivery) : Phase → Prop
  | .processing r _ tx => r.id = d.id ∧
      ∀ key isNew, tx.inserted = some (key, isNew) → uuidOf r.id = some key ∧
      (isNew = true ↔ key ∉ inbox)
  | _ => True

/-- An acknowledged event was applied. -/
def Acked (inbox : List Nat) (d : Delivery) : Phase → Prop
  | .answered .ack => ∃ key, uuidOf d.id = some key ∧ key ∈ inbox
  | _ => True

structure Inbox (notes : List Note) (s : State) : Prop where
  keys : s.inbox = keysOf notes
  effects : s.effects = effectsOf notes
  nodup : s.inbox.Nodup
  runs : ∀ r ∈ s.runs, PhaseOk s.inbox r.delivery r.phase
  apart : ∀ (i j : Nat) (r r' : Run), s.runs[i]? = some r → s.runs[j]? = some r' → i ≠ j →
    ∀ key, r.fresh = some key → r'.fresh ≠ some key
  ended : ∀ i key writes, .committed i key writes ∈ notes →
    .lost i ∈ notes ∨ ∃ r, s.runs[i]? = some r ∧ r.phase.ended = true

end

/-! ### Runs -/

/-- A run whose phase changes stays in its place. -/
theorem getElem?_to_ {s : State} {i j : Nat} {phase : Phase} {r' : Run}
    (h : (s.to_ i phase).runs[j]? = some r') :
    ∃ r, s.runs[j]? = some r ∧ r' = if i = j then { r with phase } else r := by
  rw [State.to_, List.getElem?_modify] at h
  obtain ⟨r, hr, rfl⟩ := Option.map_eq_some_iff.mp h
  exact ⟨r, hr, rfl⟩

theorem getElem?_to_self {s : State} {i : Nat} {r : Run} (h : s.runs[i]? = some r) (phase : Phase) :
    (s.to_ i phase).runs[i]? = some { r with phase } := by
  simp [State.to_, h]

theorem getElem?_to_ne {s : State} {i j : Nat} (hij : i ≠ j) (phase : Phase) :
    (s.to_ i phase).runs[j]? = s.runs[j]? := by
  simp [State.to_, hij]

/-- A run holds a fresh key while it processes the delivery of that key. -/
theorem fresh_eq_some {r : Run} {key : Nat} :
    r.fresh = some key ↔ ∃ rec attempt writes aborted, r.phase = .processing rec attempt
    ⟨some (key, true), writes, aborted⟩ := by
  constructor
  · intro h
    unfold Run.fresh at h
    split at h
    · next rec attempt key' writes aborted heq =>
      cases h
      exact ⟨rec, attempt, writes, aborted, heq⟩
    · cases h
  · rintro ⟨rec, attempt, writes, aborted, heq⟩
    rw [Run.fresh, heq]

section
variable [Interp]

/-- A run goes on, and nothing commits. -/
theorem Inbox.turns {notes : List Note} {s : State} (hs : Inbox notes s)
    {i : Nat} {r : Run} {phase : Phase} (hr : s.runs[i]? = some r)
    (hok : PhaseOk s.inbox r.delivery phase)
    (hfresh : ∀ key, Run.fresh { r with phase } = some key → r.fresh = some key ∨
      ∀ r' ∈ s.runs, r'.fresh ≠ some key)
    (hended : r.phase.ended = true → phase.ended = true) : Inbox notes (s.to_ i phase) := by
  refine ⟨hs.keys, hs.effects, hs.nodup, fun r' hr' => ?_, fun j k r₁ r₂ h₁ h₂ hjk key hkey => ?_,
    fun j key writes hmem => ?_⟩
  · obtain ⟨j, hj⟩ := List.mem_iff_getElem?.mp hr'
    obtain ⟨r₀, h₀, rfl⟩ := getElem?_to_ hj
    split
    · next hij =>
      subst hij
      obtain rfl := Option.some.inj (hr.symm.trans h₀)
      exact hok
    · exact hs.runs r₀ (List.mem_of_getElem? h₀)
  · obtain ⟨q₁, hq₁, rfl⟩ := getElem?_to_ h₁
    obtain ⟨q₂, hq₂, rfl⟩ := getElem?_to_ h₂
    by_cases hj : i = j
    · subst hj
      rw [if_pos rfl] at hkey
      rw [if_neg hjk]
      obtain rfl := Option.some.inj (hr.symm.trans hq₁)
      rcases hfresh key hkey with hold | hnone
      · exact hs.apart i k r q₂ hr hq₂ hjk key hold
      · exact hnone q₂ (List.mem_of_getElem? hq₂)
    · rw [if_neg hj] at hkey
      by_cases hk : i = k
      · subst hk
        rw [if_pos rfl]
        obtain rfl := Option.some.inj (hr.symm.trans hq₂)
        intro hkey'
        rcases hfresh key hkey' with hold | hnone
        · exact hs.apart j i q₁ r hq₁ hr hjk key hkey hold
        · exact hnone q₁ (List.mem_of_getElem? hq₁) hkey
      · rw [if_neg hk]
        exact hs.apart j k q₁ q₂ hq₁ hq₂ hjk key hkey
  · refine (hs.ended j key writes hmem).imp_right fun ⟨r', hr', hend⟩ => ?_
    by_cases hij : i = j
    · subst hij
      obtain rfl := Option.some.inj (hr.symm.trans hr')
      exact ⟨_, getElem?_to_self hr phase, hended hend⟩
    · exact ⟨r', (getElem?_to_ne hij phase).trans hr', hend⟩

/-- A business transaction commits, heard or not. -/
theorem Inbox.commits {notes : List Note} {s : State} (hs : Inbox notes s)
    {i : Nat} {r : Run} {rec : Received} {attempt key : Nat} {writes : List Write}
    {aborted : Bool} (hr : s.runs[i]? = some r)
    (hphase : r.phase = .processing rec attempt ⟨some (key, true), writes, aborted⟩)
    {phase : Phase} {new : List Note}
    (hnew : (new = [.committed i key writes] ∧ phase = .answered .ack) ∨
      (new = [.lost i, .committed i key writes] ∧ phase = .failed)) :
    Inbox (new ++ notes)
      ({ s with inbox := key :: s.inbox, effects := writes.map (key, ·) ++ s.effects }.to_ i
        phase) := by
  have hfresh : r.fresh = some key := fresh_eq_some.mpr ⟨rec, attempt, writes, aborted, hphase⟩
  have hrok := hs.runs r (List.mem_of_getElem? hr)
  rw [hphase] at hrok
  have hkey : key ∉ s.inbox := ((hrok.2 key true rfl).2).mp rfl
  have hnone : ∀ d, PhaseOk (key :: s.inbox) d phase ∧ Run.fresh { r with phase } = none := by
    rcases hnew with ⟨-, rfl⟩ | ⟨-, rfl⟩ <;> exact fun _ => ⟨trivial, rfl⟩
  refine ⟨?_, ?_, List.nodup_cons.mpr ⟨hkey, hs.nodup⟩, fun r' hr' => ?_,
    fun j k r₁ r₂ h₁ h₂ hjk key' hkey' => ?_, fun j key' writes' hmem => ?_⟩
  · rcases hnew with ⟨rfl, -⟩ | ⟨rfl, -⟩ <;> exact congrArg (key :: ·) hs.keys
  · rcases hnew with ⟨rfl, -⟩ | ⟨rfl, -⟩ <;> exact congrArg (writes.map (key, ·) ++ ·) hs.effects
  · obtain ⟨j, hj⟩ := List.mem_iff_getElem?.mp hr'
    obtain ⟨r₀, h₀, rfl⟩ := getElem?_to_ hj
    split
    · exact (hnone _).1
    · next hij =>
      -- another open transaction has another key
      have hold := hs.runs r₀ (List.mem_of_getElem? h₀)
      cases hp : r₀.phase with
      | processing rec' attempt' tx =>
          rw [hp] at hold
          refine ⟨hold.1, fun key' isNew hins => ⟨(hold.2 key' isNew hins).1, ?_⟩⟩
          have hiff := (hold.2 key' isNew hins).2
          constructor
          · rintro rfl
            obtain ⟨ins, ws, ab⟩ := tx
            cases hins
            have hfresh' : r₀.fresh = some key' := fresh_eq_some.mpr ⟨rec', attempt', ws, ab, hp⟩
            rintro (_ | ⟨_, hmem⟩)
            · exact hs.apart i j r r₀ hr h₀ hij _ hfresh hfresh'
            · exact hiff.mp rfl hmem
          · exact fun hnot => hiff.mpr fun hmem => hnot (List.mem_cons_of_mem _ hmem)
      | called | failed | answered out | gone => exact trivial
  · obtain ⟨q₁, hq₁, rfl⟩ := getElem?_to_ h₁
    obtain ⟨q₂, hq₂, rfl⟩ := getElem?_to_ h₂
    have hself : ∀ q, s.runs[i]? = some q → Run.fresh { q with phase } = none := by
      intro q hq
      obtain rfl := Option.some.inj (hr.symm.trans hq)
      exact (hnone r.delivery).2
    by_cases hj : i = j
    · subst hj
      rw [if_pos rfl, hself q₁ hq₁] at hkey'
      cases hkey'
    · rw [if_neg hj] at hkey'
      by_cases hk : i = k
      · subst hk
        rw [if_pos rfl, hself q₂ hq₂]
        simp
      · rw [if_neg hk]
        exact hs.apart j k q₁ q₂ hq₁ hq₂ hjk key' hkey'
  · by_cases hij : i = j
    · subst hij
      rcases hnew with ⟨rfl, rfl⟩ | ⟨rfl, rfl⟩
      · exact .inr ⟨_, getElem?_to_self hr _, rfl⟩
      · exact .inl List.mem_cons_self
    · have hold : .committed j key' writes' ∈ notes := by
        rcases hnew with ⟨rfl, -⟩ | ⟨rfl, -⟩ <;> simpa [Ne.symm hij] using hmem
      refine (hs.ended j key' writes' hold).imp (List.mem_append_right _) fun ⟨r', hr', hend⟩ => ?_
      exact ⟨r', (getElem?_to_ne hij phase).trans hr', hend⟩

/-! ### Steps -/

/-- What is received has the delivery's ID. -/
theorem received_id {d : Delivery} {r : Received} (h : received d = .ok r) : r.id = d.id := by
  simp only [received] at h
  split at h
  · cases h
  · simp only [bind_eq_ok_iff, pure_eq_ok_iff] at h
    obtain ⟨_, -, _, -, _, -, _, -, rfl⟩ := h
    rfl

/-- So has what is prepared. -/
theorem prepare_id {d : Delivery} {fetched : Except Exc Bytes} {r : Received}
    (h : prepare d fetched = .ok r) : r.id = d.id := by
  simp only [prepare, bind_eq_ok_iff] at h
  obtain ⟨r', hr', h⟩ := h
  split at h
  · simp only [bind_eq_ok_iff] at h
    obtain ⟨_, hthrow, -⟩ := h
    cases hthrow
  · simp only [bind_eq_ok_iff, pure_eq_ok_iff] at h
    obtain ⟨_, -, _, -, rfl⟩ := h
    have hid := received_id hr'
    exact hid

/-- A lost run leaves the inbox. -/
theorem Inbox.lost {notes : List Note} {s : State} (hs : Inbox notes s) (i : Nat) :
    Inbox (.lost i :: notes) s :=
  ⟨hs.keys, hs.effects, hs.nodup, hs.runs, hs.apart, fun j key writes hmem =>
    (hs.ended j key writes (by simpa using hmem)).imp_left (List.mem_cons_of_mem _)⟩

/-- So does a dead letter. -/
theorem Inbox.bury {notes : List Note} {s : State} (hs : Inbox notes s) (d : Delivery) :
    Inbox notes (s.bury d) := by
  unfold State.bury
  split
  · exact hs
  · exact ⟨hs.keys, hs.effects, hs.nodup, hs.runs, hs.apart, hs.ended⟩

/-- So does a delivery. -/
theorem Inbox.deliver {notes : List Note} {s : State} (hs : Inbox notes s) (d : Delivery)
    (limit : Int) : Inbox notes { s with runs := s.runs ++ [{ delivery := d, limit }] } := by
  have hcases : ∀ {j : Nat} {r : Run}, (s.runs ++ [{ delivery := d, limit }])[j]? = some r →
      s.runs[j]? = some r ∨ r.fresh = none := by
    intro j r hj
    rcases getElem?_join_cases hj with hj | ⟨-, rfl⟩
    · exact .inl hj
    · exact .inr rfl
  refine ⟨hs.keys, hs.effects, hs.nodup, fun r hr => ?_, fun i j r r' hi hj hij key hkey => ?_,
    fun i key writes hmem => ?_⟩
  · rcases List.mem_append.mp hr with hr | hr
    · exact hs.runs r hr
    · rw [List.mem_singleton.mp hr]
      trivial
  · rcases hcases hi with hi | hnone
    · rcases hcases hj with hj | hnone
      · exact hs.apart i j r r' hi hj hij key hkey
      · rw [hnone]
        simp
    · rw [hnone] at hkey
      cases hkey
  · exact (hs.ended i key writes hmem).imp_right fun ⟨r, hr, hend⟩ => ⟨r, getElem?_join hr, hend⟩

omit [Interp] in
/-- `apply` returns and nothing of it is new, or the transaction is aborted. -/
theorem commit_none {s : State} {i : Nat} {inserted : Nat × Bool} {writes : List Write}
    {aborted : Bool} (h : inserted.2 = false ∨ aborted = true) :
    s.commit i ⟨some inserted, writes, aborted⟩ = (s, []) := by
  obtain ⟨key, isNew⟩ := inserted
  rcases h with h | h <;> cases h
  · rfl
  · cases isNew <;> rfl

/-- Every step keeps the inbox. -/
theorem Inbox.step {notes : List Note} {s : State} (hs : Inbox notes s) (o : Op) :
    Inbox ((step s o).2 ++ notes) (step s o).1 := by
  cases o with
  | deliver d limit => exact hs.deliver d limit
  | begin_ i fetched =>
      simp only [Consumer.step]
      split
      · next d limit hr =>
        split
        · next r hprep =>
          exact hs.turns hr ⟨prepare_id hprep, by simp⟩ (fun key h => by cases h)
            (fun h => by cases h)
        · exact hs.turns hr trivial (fun key h => by cases h) (fun h => by cases h)
      · exact hs
  | insert i =>
      simp only [Consumer.step]
      split
      · next d limit r attempt writes aborted hr =>
        have hrok := hs.runs _ (List.mem_of_getElem? hr)
        split
        · exact hs.turns hr trivial (fun key h => by cases h) (fun h => by cases h)
        · next key hkey =>
          split
          · exact hs
          · next hfree =>
            refine hs.turns hr ⟨hrok.1, ?_⟩ (fun key' h => .inr ?_) (fun h => by cases h)
            · rintro _ _ ⟨⟩
              exact ⟨hkey, by simp⟩
            · obtain ⟨_, _, _, _, heq⟩ := fresh_eq_some.mp h
              simp only [Phase.processing.injEq, Tx.mk.injEq, Option.some.injEq,
                Prod.mk.injEq] at heq
              obtain ⟨-, -, ⟨rfl, -⟩, -⟩ := heq
              simpa using hfree
      · exact hs
  | write i w =>
      simp only [Consumer.step]
      split
      · next d limit r attempt key writes hr =>
        have hrok := hs.runs _ (List.mem_of_getElem? hr)
        exact hs.turns hr ⟨hrok.1, hrok.2⟩ (fun _ h => .inl h) (fun h => by cases h)
      · exact hs
  | fails i =>
      simp only [Consumer.step]
      split
      · next d limit r attempt key writes aborted hr =>
        have hrok := hs.runs _ (List.mem_of_getElem? hr)
        exact hs.turns hr ⟨hrok.1, hrok.2⟩ (fun _ h => .inl h) (fun h => by cases h)
      · exact hs
  | raises i retry =>
      simp only [Consumer.step]
      split
      · next d limit r attempt tx hr =>
        have hrok := hs.runs _ (List.mem_of_getElem? hr)
        unfold afterFailure
        split
        · exact hs.turns hr ⟨hrok.1, by simp⟩ (fun key h => by cases h) (fun h => by cases h)
        · exact hs.turns hr trivial (fun key h => by cases h) (fun h => by cases h)
      · exact hs
  | returns i =>
      simp only [Consumer.step]
      split
      · next d limit r attempt inserted writes aborted hr =>
        by_cases hnew : inserted.2 = false ∨ aborted = true
        · rw [commit_none hnew]
          refine hs.turns hr ?_ (fun key h => by cases h) (fun _ => rfl)
          trivial
        · obtain ⟨key, isNew⟩ := inserted
          simp only [not_or, Bool.not_eq_false, Bool.not_eq_true] at hnew
          obtain ⟨rfl, rfl⟩ := hnew
          exact hs.commits hr rfl (.inl ⟨rfl, rfl⟩)
      · exact hs
  | loses i =>
      simp only [Consumer.step]
      split
      · next d limit r attempt inserted writes aborted hr =>
        by_cases hnew : inserted.2 = false ∨ aborted = true
        · rw [commit_none hnew]
          refine (hs.turns hr ?_ (fun key h => by cases h) (fun h => by cases h)).lost i
          trivial
        · obtain ⟨key, isNew⟩ := inserted
          simp only [not_or, Bool.not_eq_false, Bool.not_eq_true] at hnew
          obtain ⟨rfl, rfl⟩ := hnew
          exact hs.commits hr rfl (.inr ⟨rfl, rfl⟩)
      · exact hs
  | answer i letter =>
      simp only [Consumer.step]
      split
      · next d limit hr =>
        have hbury : (s.bury d).runs = s.runs := by
          unfold State.bury
          split <;> rfl
        unfold State.answer
        split
        · exact hs.turns hr trivial (fun key h => by cases h) (fun h => by cases h)
        · split
          · exact (hs.bury d).turns (hbury ▸ hr) trivial (fun key h => by cases h)
              (fun h => by cases h)
          · exact (hs.bury d).turns (hbury ▸ hr) trivial (fun key h => by cases h)
              (fun h => by cases h)
          · exact hs.turns hr trivial (fun key h => by cases h) (fun h => by cases h)
      · exact hs
  | crash i =>
      cases hr : s.runs[i]? with
      | none =>
          have hsame : s.to_ i .gone = s := by
            rw [State.to_, List.modify_eq_self (by simpa using hr)]
          simp only [Consumer.step, hsame]
          exact hs
      | some r => exact hs.turns hr trivial (fun key h => by cases h) (fun _ => rfl)

/-- The inbox is kept in every run. -/
theorem inbox_reach {ok : State → Op → Prop} {h : List (List Note)} {s : State}
    (hr : Reach step ok start h s) : Inbox h.flatten s := by
  induction hr with
  | nil => exact ⟨rfl, rfl, .nil, by simp [start], by simp [start], by simp⟩
  | snoc o _ _ ih =>
      rw [List.flatten_cons]
      exact ih.step o

/-! ## Acknowledgements -/

/-- Every acknowledged event is in the inbox. -/
def AllAcked (s : State) : Prop := ∀ r ∈ s.runs, Acked s.inbox r.delivery r.phase

/-- What is acknowledged stays so while the inbox grows. -/
theorem Acked.mono {inbox inbox' : List Nat} (hsub : inbox ⊆ inbox') {d : Delivery} {phase : Phase}
    (h : Acked inbox d phase) : Acked inbox' d phase := by
  cases phase with
  | answered out =>
      cases out with
      | ack =>
          obtain ⟨key, hkey, hmem⟩ := h
          exact ⟨key, hkey, hsub hmem⟩
      | nak | term => trivial
  | called | processing | failed | gone => trivial

/-- A run goes on while the inbox grows. -/
theorem AllAcked.to_ {s s' : State} (hs : AllAcked s) (hruns : s'.runs = s.runs)
    (hsub : s.inbox ⊆ s'.inbox) {i : Nat} {phase : Phase} (hok : ∀ r, s.runs[i]? = some r →
      Acked s'.inbox r.delivery phase) : AllAcked (s'.to_ i phase) := by
  intro r' hr'
  obtain ⟨j, hj⟩ := List.mem_iff_getElem?.mp hr'
  obtain ⟨r, hr, rfl⟩ := getElem?_to_ hj
  rw [hruns] at hr
  split
  · next hij =>
    subst hij
    exact hok r hr
  · exact (hs r (List.mem_of_getElem? hr)).mono hsub

omit [Interp] in
/-- A commit changes no run and takes nothing out of the inbox. -/
theorem commit_runs (s : State) (i : Nat) (tx : Tx) :
    (s.commit i tx).1.runs = s.runs ∧ s.inbox ⊆ (s.commit i tx).1.inbox := by
  unfold State.commit
  split
  · exact ⟨rfl, List.subset_cons_self ..⟩
  · exact ⟨rfl, List.Subset.refl _⟩

omit [Interp] in
/-- Nor does a dead letter. -/
theorem bury_runs (s : State) (d : Delivery) :
    (s.bury d).runs = s.runs ∧ s.inbox ⊆ (s.bury d).inbox := by
  unfold State.bury
  split <;> exact ⟨rfl, List.Subset.refl _⟩

/-- Every careful step acknowledges only what took effect. -/
theorem AllAcked.step {notes : List Note} {s : State} (hs : AllAcked s) (hin : Inbox notes s)
    (o : Op) (hok : careful s o = true) : AllAcked (step s o).1 := by
  have hstay : ∀ {i : Nat} {phase : Phase}, (∀ d, Acked s.inbox d phase) →
    AllAcked (s.to_ i phase) :=
    fun h => hs.to_ rfl (List.Subset.refl _) fun r _ => h r.delivery
  cases o with
  | deliver d limit =>
      intro r hr
      rcases List.mem_append.mp hr with hr | hr
      · exact hs r hr
      · rw [List.mem_singleton.mp hr]
        trivial
  | begin_ i fetched =>
      simp only [Consumer.step]
      split
      · split <;> exact hstay fun _ => trivial
      · exact hs
  | insert i =>
      simp only [Consumer.step]
      split
      · split
        · exact hstay fun _ => trivial
        · split
          · exact hs
          · exact hstay fun _ => trivial
      · exact hs
  | write i w | fails i =>
      simp only [Consumer.step]
      split
      · exact hstay fun _ => trivial
      · exact hs
  | raises i retry =>
      simp only [Consumer.step]
      split
      · unfold afterFailure
        split <;> exact hstay fun _ => trivial
      · exact hs
  | returns i =>
      simp only [Consumer.step]
      split
      · next d limit r attempt inserted writes aborted hr =>
        obtain ⟨hruns, hsub⟩ := commit_runs s i ⟨some inserted, writes, aborted⟩
        refine hs.to_ hruns hsub fun r' hr' => ?_
        obtain rfl := Option.some.inj (hr.symm.trans hr')
        obtain ⟨key, isNew⟩ := inserted
        obtain ⟨hid, hkey⟩ := hin.runs _ (List.mem_of_getElem? hr)
        obtain ⟨huuid, hiff⟩ := hkey key isNew rfl
        have hclean : aborted = false := by simpa [careful, hr] using hok
        refine ⟨key, by rw [← hid]; exact huuid, ?_⟩
        -- the row is new, or it was there
        subst hclean
        cases isNew with
        | true => exact List.mem_cons_self
        | false => exact not_not.mp fun hnot => by simpa using hiff.mpr hnot
      · exact hs
  | loses i =>
      simp only [Consumer.step]
      split
      · next d limit r attempt inserted writes aborted hr =>
        obtain ⟨hruns, hsub⟩ := commit_runs s i ⟨some inserted, writes, aborted⟩
        exact hs.to_ hruns hsub fun _ _ => trivial
      · exact hs
  | answer i letter =>
      simp only [Consumer.step]
      split
      · next d limit hr =>
        obtain ⟨hruns, hinbox⟩ := bury_runs s d
        unfold State.answer
        split
        · exact hstay fun _ => trivial
        · split
          · exact hs.to_ hruns hinbox fun _ _ => trivial
          · exact hs.to_ hruns hinbox fun _ _ => trivial
          · exact hstay fun _ => trivial
      · exact hs
  | crash i => exact hstay fun _ => trivial

/-- So does every careful run. -/
theorem acked_reach {h : List (List Note)} {s : State}
    (hr : Reach step (fun s o => careful s o = true) start h s) :
    AllAcked s := by
  induction hr with
  | nil => exact fun r hr => by simp [start] at hr
  | snoc o hok hr ih => exact ih.step (inbox_reach hr) o hok

/-! ## The law -/

/-- **Handlers take effect once.** In every run of any number of calls: each event's
business transaction commits at most once, the inbox and the effects are those of the
committed transactions and nothing else, and a call that has not ended, or that failed
and heard its transactions end, committed nothing. In every run in which no handler
returns after a statement of its transaction failed, an acknowledged event's business
transaction has committed. -/
theorem handlers_take_effect_once :
    (∀ h s, Reach step anyOp start h s →
      (keysOf h.flatten).Nodup ∧ s.inbox = keysOf h.flatten ∧ s.effects = effectsOf h.flatten ∧
        ∀ (i : Nat) (r : Run), s.runs[i]? = some r → r.phase.ended = false → .lost i ∉ h.flatten →
          ∀ key writes, .committed i key writes ∉ h.flatten) ∧
      ∀ h s, Reach step (fun s o => careful s o = true) start h s →
        ∀ r ∈ s.runs, r.phase = .answered .ack → ∃ key, uuidOf r.delivery.id = some key ∧
        key ∈ keysOf h.flatten := by
  refine ⟨fun h s hr => ?_, fun h s hr => ?_⟩
  · have hs := inbox_reach hr
    refine ⟨hs.keys ▸ hs.nodup, hs.keys, hs.effects, fun i r hi hend hlost key writes hmem => ?_⟩
    obtain hl | ⟨r', hr', hend'⟩ := hs.ended i key writes hmem
    · exact hlost hl
    · obtain rfl := Option.some.inj (hi.symm.trans hr')
      rw [hend] at hend'
      cases hend'
  · intro r hmem hack
    have hacked := acked_reach hr r hmem
    rw [hack] at hacked
    rwa [← (inbox_reach hr).keys]

end

/-- An event of the examples. -/
def movedEvent : Delivery :=
  { subject := str "be.stock.0.moved",
    headers := ⟨[(str "ce-id", str "0197f000-0000-7000-8000-000000000001"),
      (str "ce-type", str "stock.moved.v1")], by decide⟩,
    data := [1] }

/-- A statement of the handler fails, and the handler goes on and returns. -/
def swallowed : List Op := [.deliver movedEvent 3, .begin_ 0 (.ok []), .insert 0,
    .write 0 (str "w"), .fails 0, .returns 0]

/-- Whether a call is acknowledged. -/
def Phase.acked : Phase → Bool
  | .answered .ack => true
  | _ => false

theorem Phase.acked_iff {phase : Phase} : phase.acked = true ↔ phase = .answered .ack := by
  cases phase with
  | answered out => cases out <;> simp [Phase.acked]
  | called | processing | failed | gone => simp [Phase.acked]

/-- The event is acknowledged, and nothing was committed. -/
theorem acknowledged_unapplied :
    ¬ ∀ h s, Reach (@step Interp.ascii) anyOp start h s → ∀ r ∈ s.runs, r.phase = .answered .ack →
      ∃ key, @uuidOf Interp.ascii r.delivery.id = some key ∧ key ∈ keysOf h.flatten := by
  intro hall
  have hkeys : keysOf (runOps (@step Interp.ascii) start swallowed).1.flatten = [] := by
    decide +kernel
  have hany : ((runOps (@step Interp.ascii) start swallowed).2.runs.any
    fun r => r.phase.acked) = true := by decide +kernel
  obtain ⟨r, hr, hacked⟩ := List.any_eq_true.mp hany
  obtain ⟨key, -, hmem⟩ := hall _ _ (reach_runOps _ swallowed start) r hr
    (Phase.acked_iff.mp hacked)
  rw [hkeys] at hmem
  cases hmem

/-- Two instances get the same event at a time: the second one waits until the first
one's transaction ends, which fails once and is retried; a third call finds the row. -/
def redelivered : List Op :=
  [.deliver movedEvent 3, .deliver movedEvent 3, .begin_ 0 (.ok []), .begin_ 1 (.ok []),
    .insert 0, .insert 1, .write 0 (str "w"), .raises 0 true, .insert 1, .insert 0,
    .write 1 (str "w"), .returns 1, .insert 0, .returns 0]

theorem handlers_take_effect_once_redelivered :
    let run := runOps (@step Interp.ascii) start redelivered
    (keysOf run.1.flatten).Nodup ∧ run.2.effects.length = 1 ∧
    (run.2.runs.map fun r => r.phase.acked) = [true, true] ∧
      ∀ r ∈ run.2.runs, r.phase = .answered .ack →
        ∃ key, @uuidOf Interp.ascii r.delivery.id = some key ∧ key ∈ keysOf run.1.flatten := by
  have hlaw := @handlers_take_effect_once Interp.ascii
  have hok : allAllowed (@step Interp.ascii) (fun s o => careful s o = true) start
    redelivered = true := by decide +kernel
  exact ⟨(hlaw.1 _ _ (reach_runOps _ redelivered start)).1, by decide +kernel, by decide +kernel,
    hlaw.2 _ _ (reach_of_allAllowed redelivered hok)⟩

end BeSdk.Events.Consumer
