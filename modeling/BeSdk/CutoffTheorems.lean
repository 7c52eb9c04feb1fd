/-
BeSdk.CutoffTheorems — no transaction commits past what was decided before it waited.

A cell is at most every cutoff bound or decided in it, and a waiting transaction holds
a value that is at most all of them but the late ones (`Bounded`). So a transaction that
reaches COMMIT is within every cutoff of its request where no late decision had passed
already (`Prompt`); a task that decides while the transaction waits is not seen.
-/
import BeSdk.Cutoff
import BeSdk.Authz.ViewTheorems

namespace BeSdk.Cutoff

/-! ## Cutoffs of a request -/

/-- The cutoffs an event brings into a request. -/
def Event.cutoffs (k : Nat) : Event → List Seconds
  | .admitted j token grant => if j = k then [token, grant] else []
  | .decided j at_ => if j = k then [at_] else []
  | _ => []

/-- The cutoffs of a request: its token's, the admission's grant and what was decided. -/
def cutoffs (k : Nat) (h : List Event) : List Seconds := h.flatMap (Event.cutoffs k)

theorem cutoffs_cons (k : Nat) (e : Event) (h : List Event) :
    cutoffs k (e :: h) = e.cutoffs k ++ cutoffs k h := rfl

/-- A transaction of a request reaches COMMIT only if at its check the clock was below
every cutoff of the request so far. -/
def WithinCutoffs (h : List Event) : Prop :=
  ∀ k checked older, .commit (some k) checked :: older <:+ h →
    ∃ now, checked = some now ∧ ∀ at_ ∈ cutoffs k older, now < at_

/-- A commit in time keeps the history in time. -/
theorem WithinCutoffs.cons {h : List Event} (hh : WithinCutoffs h) {e : Event}
    (he : ∀ k checked, e = .commit (some k) checked → ∃ now, checked = some now ∧
      ∀ at_ ∈ cutoffs k h, now < at_) :
    WithinCutoffs (e :: h) := by
  intro k checked older hsuffix
  rcases List.suffix_cons_iff.mp hsuffix with heq | hold
  · obtain ⟨rfl, rfl⟩ := List.cons.inj heq
    exact he k checked rfl
  · exact hh k checked older hold

/-! ## The invariant -/

/-- A task's cells exist, and what its transaction read misses only the late decisions. -/
structure TaskBounded (h : List Event) (cells : List Seconds) (t : Task) : Prop where
  cell : ∀ k, t.cell = some k → k < cells.length
  saved : ∀ k, some k ∈ t.saved → k < cells.length
  waiting : ∀ n c late, t.phase = .waiting n c late →
    ∃ k, t.cell = some k ∧ ∀ at_ ∈ cutoffs k h, c ≤ at_ ∨ at_ ∈ late

structure Bounded (h : List Event) (s : State) : Prop where
  cells : ∀ k v, s.cells[k]? = some v → ∀ at_ ∈ cutoffs k h, v ≤ at_
  fresh : ∀ k, s.cells.length ≤ k → cutoffs k h = []
  tasks : ∀ t ∈ s.tasks, TaskBounded h s.cells t
  commits : WithinCutoffs h

section
variable {h : List Event} {s : State}

/-- An event that brings no cutoff: the history may grow by it. -/
theorem TaskBounded.event {cells : List Seconds} {t : Task} (ht : TaskBounded h cells t) {e : Event}
    (he : ∀ k, e.cutoffs k = []) : TaskBounded (e :: h) cells t := by
  refine ⟨ht.cell, ht.saved, fun n c late hphase => ?_⟩
  obtain ⟨k, hk, hall⟩ := ht.waiting n c late hphase
  refine ⟨k, hk, ?_⟩
  rw [cutoffs_cons, he k, List.nil_append]
  exact hall

/-- The tasks change, and the event brings no cutoff. -/
theorem Bounded.tasks_change (hs : Bounded h s)
    {tasks : List Task} (htasks : ∀ t ∈ tasks, TaskBounded h s.cells t)
    {e : Event} (he : ∀ k, e.cutoffs k = [])
    (hcommit : ∀ k checked, e = .commit (some k) checked →
      ∃ now, checked = some now ∧ ∀ at_ ∈ cutoffs k h, now < at_) :
    Bounded (e :: h) { s with tasks } := by
  refine ⟨fun k v hv => ?_, fun k hk => ?_, fun t ht => (htasks t ht).event he,
    hs.commits.cons hcommit⟩
  · rw [cutoffs_cons, he k, List.nil_append]
    exact hs.cells k v hv
  · rw [cutoffs_cons, he k, List.nil_append]
    exact hs.fresh k hk

theorem Bounded.quiet (hs : Bounded h s) : Bounded (.quiet :: h) s :=
  hs.tasks_change hs.tasks (fun _ => rfl) fun _ _ heq => (by cases heq)

/-- One task changes. -/
theorem Bounded.put (hs : Bounded h s) (i : Nat) {t : Task} (ht : TaskBounded h s.cells t)
    {e : Event} (he : ∀ k, e.cutoffs k = [])
    (hcommit : ∀ k checked, e = .commit (some k) checked →
      ∃ now, checked = some now ∧ ∀ at_ ∈ cutoffs k h, now < at_) :
    Bounded (e :: h) (s.put i t) := by
  refine hs.tasks_change (fun u hu => ?_) he hcommit
  rcases List.mem_or_eq_of_mem_set hu with hold | rfl
  · exact hs.tasks u hold
  · exact ht

theorem Bounded.put_quiet (hs : Bounded h s) (i : Nat) {t : Task} (ht : TaskBounded h s.cells t) :
    Bounded (.quiet :: h) (s.put i t) :=
  hs.put i ht (fun _ => rfl) fun _ _ heq => (by cases heq)

/-- A task joins. -/
theorem Bounded.join (hs : Bounded h s) {t : Task} (ht : TaskBounded h s.cells t) :
    Bounded (.quiet :: h) { s with tasks := s.tasks ++ [t] } := by
  refine hs.tasks_change (fun u hu => ?_) (fun _ => rfl) fun _ _ heq => (by cases heq)
  rcases List.mem_append.mp hu with hold | hnew
  · exact hs.tasks u hold
  · rwa [List.mem_singleton.mp hnew]

/-- A task that does not wait. -/
theorem TaskBounded.phase {cells : List Seconds} {t : Task} (ht : TaskBounded h cells t) {p : Phase}
    (hp : ∀ n c late, p ≠ .waiting n c late) (inTx : Bool) :
    TaskBounded h cells { t with phase := p, inTx } :=
  ⟨ht.cell, ht.saved, fun n c late heq => absurd heq (hp n c late)⟩

/-- The cells are kept, and those of the history have all its cutoffs. -/
theorem TaskBounded.admitted {cells : List Seconds} {t : Task} (ht : TaskBounded h cells t)
    (at_ token grant : Seconds) : TaskBounded (.admitted cells.length token grant :: h)
    (cells ++ [at_]) t := by
  have hlt : ∀ {k}, k < cells.length → k < (cells ++ [at_]).length := fun hk =>
    List.length_append .. ▸ Nat.lt_of_lt_of_le hk (Nat.le_add_right ..)
  refine ⟨fun k hk => hlt (ht.cell k hk), fun k hk => hlt (ht.saved k hk),
    fun n c late hphase => ?_⟩
  obtain ⟨k, hk, hall⟩ := ht.waiting n c late hphase
  refine ⟨k, hk, ?_⟩
  rw [cutoffs_cons, Event.cutoffs, if_neg (Nat.ne_of_gt (ht.cell k hk)), List.nil_append]
  exact hall

theorem cutoffScope_le (current : Option Seconds) (at_ : Seconds) :
    cutoffScope current at_ ≤ at_ := by
  cases current with
  | none => exact le_refl at_
  | some c => exact min_le_right c at_

/-- An admission bounds its task. -/
theorem Bounded.admit_ (hs : Bounded h s) {i : Nat} {t : Task} (hi : s.tasks[i]? = some t)
    (hactive : t.active = true) (token grant : Seconds) :
    Bounded ((s.admit_ i t token grant).2 :: h) (s.admit_ i t token grant).1 := by
  have ht : t ∈ s.tasks := List.mem_of_getElem? hi
  have hle := cutoffScope_le (s.cutoff t) (min token grant)
  rw [State.admit_]
  generalize cutoffScope (s.cutoff t) (min token grant) = at_ at hle ⊢
  refine ⟨fun k v hv => ?_, fun k hk => ?_, fun u hu => ?_,
    hs.commits.cons fun k checked heq => (by cases heq)⟩
  · rw [cutoffs_cons, Event.cutoffs]
    rcases getElem?_join_cases hv with hold | ⟨rfl, rfl⟩
    · have hlt := (List.getElem?_eq_some_iff.mp hold).1
      rw [if_neg (Nat.ne_of_gt hlt), List.nil_append]
      exact hs.cells k v hold
    · rw [if_pos rfl, hs.fresh _ (Nat.le_refl _), List.append_nil]
      intro x hmem
      rcases List.mem_pair.mp hmem with rfl | rfl
      · exact hle.trans (min_le_left _ _)
      · exact hle.trans (min_le_right _ _)
  · rw [List.length_append, List.length_singleton] at hk
    rw [cutoffs_cons, Event.cutoffs, if_neg (by omega), List.nil_append]
    exact hs.fresh k (by omega)
  · rcases List.mem_or_eq_of_mem_set hu with hold | rfl
    · exact (hs.tasks u hold).admitted _ _ _
    · have hself := (hs.tasks t ht).admitted at_ token grant
      refine ⟨fun k hk => ?_, fun k hk => ?_, fun n c late hphase => ?_⟩
      · cases hk
        rw [List.length_append, List.length_singleton]
        exact Nat.lt_succ_self _
      · rcases List.mem_cons.mp hk with heq | hmem
        · exact hself.cell k heq.symm
        · exact hself.saved k hmem
      · rw [Task.active, show t.phase = _ from hphase] at hactive
        cases hactive

/-- A decision: the waiting transactions of the request miss it. -/
theorem TaskBounded.miss {cells : List Seconds} {t : Task} (ht : TaskBounded h cells t)
    (k : Nat) (at_ : Seconds) : TaskBounded (.decided k at_ :: h) (cells.modify k (min · at_))
    (t.miss k at_) := by
  rw [Task.miss]
  split
  · next n c late hphase =>
    obtain ⟨j, hj, hall⟩ := ht.waiting n c late hphase
    split
    · next hk =>
      refine ⟨fun j hj => ?_, fun j hj => ?_, fun n' c' late' heq => ?_⟩
      · rw [List.length_modify]
        exact ht.cell j hj
      · rw [List.length_modify]
        exact ht.saved j hj
      · cases heq
        refine ⟨k, hk, fun x hx => ?_⟩
        rw [cutoffs_cons, Event.cutoffs, if_pos rfl] at hx
        obtain rfl : j = k := Option.some.inj (hj.symm.trans hk)
        rcases List.mem_cons.mp hx with rfl | hold
        · exact .inr (List.mem_cons_self ..)
        · exact (hall x hold).imp_right (List.mem_cons_of_mem _)
    · next hk =>
      refine ⟨fun j hj => ?_, fun j hj => ?_, fun n' c' late' heq => ?_⟩
      · rw [List.length_modify]
        exact ht.cell j hj
      · rw [List.length_modify]
        exact ht.saved j hj
      · obtain ⟨rfl, rfl, rfl⟩ := Phase.waiting.inj (hphase.symm.trans heq)
        refine ⟨j, hj, ?_⟩
        rw [cutoffs_cons, Event.cutoffs, if_neg fun hkj : k = j => hk (hkj ▸ hj), List.nil_append]
        exact hall
  · next hphase =>
    refine ⟨fun j hj => ?_, fun j hj => ?_, fun n c late heq => absurd heq (hphase n c late)⟩
    · rw [List.length_modify]
      exact ht.cell j hj
    · rw [List.length_modify]
      exact ht.saved j hj

/-- Tightening keeps the bounds. -/
theorem Bounded.tighten (hs : Bounded h s) {t : Task} (ht : t ∈ s.tasks) (at_ : Seconds) :
    Bounded ((s.tighten t at_).2 :: h) (s.tighten t at_).1 := by
  rw [State.tighten]
  split
  · exact hs.quiet
  · next k hk =>
    refine ⟨fun j v hv => ?_, fun j hj => ?_, fun u hu => ?_,
      hs.commits.cons fun k checked heq => (by cases heq)⟩
    · rw [cutoffs_cons, Event.cutoffs]
      rw [List.getElem?_modify] at hv
      obtain ⟨w, hw, rfl⟩ := Option.map_eq_some_iff.mp hv
      split
      · intro x hx
        rcases List.mem_cons.mp hx with rfl | hold
        · exact min_le_right _ _
        · exact (min_le_left _ _).trans (hs.cells j w hw x hold)
      · exact hs.cells j w hw
    · rw [List.length_modify] at hj
      have hlt := (hs.tasks t ht).cell k hk
      rw [cutoffs_cons, Event.cutoffs, if_neg (by omega), List.nil_append]
      exact hs.fresh j hj
    · obtain ⟨v, hv, rfl⟩ := List.mem_map.mp hu
      exact (hs.tasks v hv).miss k at_

/-! ## Runs -/

/-- At a check no late decision of the request had passed, unless the transaction is
refused anyway. -/
def Task.Prompt (now : Seconds) (t : Task) : Prop :=
  match t.phase with
  | .waiting _ c late => now < c → ∀ at_ ∈ late, now < at_
  | _ => True

def Prompt (s : State) : Op → Prop
  | .task i (.check now) => ∀ t ∈ s.tasks[i]?, t.Prompt now
  | _ => True

/-- Every prompt act of a task keeps the bounds. -/
theorem Bounded.act (hs : Bounded h s) {i : Nat} {t : Task} (hi : s.tasks[i]? = some t) {a : Act}
    (ha : Prompt s (.task i a)) : Bounded ((s.act i t a).2 :: h) (s.act i t a).1 := by
  have ht : TaskBounded h s.cells t := hs.tasks t (List.mem_of_getElem? hi)
  cases a with
  | spawn =>
      simp only [State.act]
      split
      · exact hs.join ⟨ht.cell, fun k hk => (by cases hk), fun n c late heq => (by cases heq)⟩
      · exact hs.quiet
  | admit_ a =>
      simp only [State.act]
      split
      · next hactive _ => exact hs.admit_ hi hactive _ _
      · exact hs.quiet
  | leave =>
      simp only [State.act]
      split
      · next cell saved hactive hsaved =>
        refine hs.put_quiet i ⟨fun k hk => ?_, fun k hk => ?_, fun n c late hphase => ?_⟩
        · exact ht.saved k (hsaved ▸ hk ▸ List.mem_cons_self ..)
        · exact ht.saved k (hsaved ▸ List.mem_cons_of_mem _ hk)
        · rw [Task.active, show t.phase = _ from hphase] at hactive
          cases hactive
      · exact hs.quiet
  | decide subject clock op =>
      simp only [State.act]
      split
      · exact hs.tighten (List.mem_of_getElem? hi) _
      · exact hs.quiet
  | begin_ =>
      simp only [State.act]
      split
      · exact hs.put_quiet i (ht.phase (fun _ _ _ => Phase.noConfusion) _)
      · exact hs.quiet
  | finish =>
      simp only [State.act]
      split
      · next n hphase =>
        split
        · next hnone =>
          refine hs.put i (ht.phase (fun _ _ _ => Phase.noConfusion) _) (fun _ => rfl)
            fun k checked heq => ?_
          obtain ⟨hk, -⟩ := Event.commit.inj heq
          rw [State.cutoff, hk, Option.bind_some, List.getElem?_eq_none_iff] at hnone
          exact absurd (ht.cell k hk) (Nat.not_lt.mpr hnone)
        · next c hc =>
          obtain ⟨k, hk, hv⟩ := Option.bind_eq_some_iff.mp hc
          refine hs.put_quiet i ⟨ht.cell, ht.saved, fun n' c' late heq => ?_⟩
          cases heq
          exact ⟨k, hk, fun at_ hat => .inl (hs.cells k c hv at_ hat)⟩
      · exact hs.quiet
  | check now =>
      simp only [State.act]
      split
      · next n c late hphase =>
        split
        · exact hs.put_quiet i (ht.phase (fun _ _ _ => Phase.noConfusion) _)
        · next hnow =>
          refine hs.put i (ht.phase (fun _ _ _ => Phase.noConfusion) _) (fun _ => rfl)
            fun k checked heq => ?_
          obtain ⟨hk, rfl⟩ := Event.commit.inj heq
          obtain ⟨j, hj, hall⟩ := ht.waiting n c late hphase
          obtain rfl : j = k := Option.some.inj (hj.symm.trans hk)
          have hprompt : t.Prompt now := ha t hi
          rw [Task.Prompt, hphase] at hprompt
          refine ⟨now, rfl, fun at_ hat => ?_⟩
          rcases hall at_ hat with hle | hlate
          · exact lt_of_lt_of_le (not_le.mp hnow) hle
          · exact hprompt (not_le.mp hnow) at_ hlate
      · exact hs.quiet
  | conflict =>
      simp only [State.act]
      split
      · refine hs.put_quiet i (ht.phase (fun _ _ _ => ?_) _)
        split <;> exact Phase.noConfusion
      · exact hs.quiet
  | retry =>
      simp only [State.act]
      split
      · exact hs.put_quiet i (ht.phase (fun _ _ _ => Phase.noConfusion) _)
      · exact hs.quiet
  | fail =>
      simp only [State.act]
      split
      · exact hs.quiet
      · exact hs.put_quiet i (ht.phase (fun _ _ _ => Phase.noConfusion) _)
  | committed =>
      simp only [State.act]
      split
      · exact hs.put_quiet i (ht.phase (fun _ _ _ => Phase.noConfusion) _)
      · exact hs.quiet

/-- So does every prompt step. -/
theorem Bounded.step (hs : Bounded h s) {o : Op} (ho : Prompt s o) :
    Bounded ((Cutoff.step s o).2 :: h) (Cutoff.step s o).1 := by
  cases o with
  | start => exact hs.join ⟨fun k hk => (by cases hk), fun k hk => (by cases hk),
      fun n c late heq => (by cases heq)⟩
  | task i a =>
      simp only [Cutoff.step]
      split
      · exact hs.quiet
      · next t hi => exact hs.act hi ho

end

/-! ## The cutoff never moves later -/

/-- Every cell stays, and its value does not rise. -/
def Falls (s s' : State) : Prop := ∀ (k : Nat) v, s.cells[k]? = some v → ∃ v', s'.cells[k]? =
    some v' ∧ v' ≤ v

theorem Falls.refl (s : State) : Falls s s := fun _ v hv => ⟨v, hv, le_refl v⟩

theorem Falls.trans {a b c : State} (hab : Falls a b) (hbc : Falls b c) : Falls a c := by
  intro k v hv
  obtain ⟨v', hv', hle⟩ := hab k v hv
  obtain ⟨v'', hv'', hle'⟩ := hbc k v' hv'
  exact ⟨v'', hv'', hle'.trans hle⟩

/-- No act moves a cutoff back. -/
theorem act_falls (s : State) (i : Nat) (t : Task) (a : Act) : Falls s (s.act i t a).1 := by
  cases a with
  | admit_ a =>
      simp only [State.act]
      split
      · exact fun k v hv => ⟨v, getElem?_join hv, le_refl v⟩
      · exact .refl s
  | decide subject clock op =>
      simp only [State.act]
      split
      · rw [State.tighten]
        split
        · exact .refl s
        · intro k v hv
          refine ⟨_, by rw [List.getElem?_modify, hv]; rfl, ?_⟩
          dsimp only
          split
          · exact min_le_left _ _
          · exact le_refl v
      · exact .refl s
  | spawn => simp only [State.act]; split <;> exact .refl s
  | leave => simp only [State.act]; split <;> exact .refl s
  | begin_ => simp only [State.act]; split <;> exact .refl s
  | finish =>
      simp only [State.act]
      split
      · split <;> exact .refl s
      · exact .refl s
  | check now =>
      simp only [State.act]
      split
      · split <;> exact .refl s
      · exact .refl s
  | conflict => simp only [State.act]; split <;> exact .refl s
  | retry => simp only [State.act]; split <;> exact .refl s
  | fail => simp only [State.act]; split <;> exact .refl s
  | committed => simp only [State.act]; split <;> exact .refl s

/-- Nor does any step. -/
theorem step_falls (s : State) (o : Op) : Falls s (step s o).1 := by
  cases o with
  | start => exact .refl s
  | task i a =>
      simp only [step]
      split
      · exact .refl s
      · exact act_falls s i _ a

/-- **No transaction commits past its request's cutoffs** in any run in which no late
decision had passed at a check; and a cutoff only ever moves earlier. -/
theorem commits_within {h : List Event} {s : State} (hr : Reach step Prompt {} h s) :
    WithinCutoffs h ∧ ∀ h' s', Reach step anyOp s h' s' → Falls s s' := by
  have hinit : Bounded [] {} := by
    refine ⟨fun k v hv => ?_, fun _ _ => rfl, fun t ht => ?_, fun k checked older hsuffix => ?_⟩
    · cases hv
    · cases ht
    · cases List.suffix_nil.mp hsuffix
  have hs : Bounded h s :=
    @Reach.invariant State Op Event step Prompt {} Bounded hinit
      (fun _ _ _ ho hs => hs.step ho) h s hr
  refine ⟨hs.commits, fun h' s' hr' => ?_⟩
  exact @Reach.invariant State Op Event step anyOp s (fun _ s' => Falls s s') (.refl s)
    (fun _ s' o _ hfalls => hfalls.trans (step_falls s' o)) h' s' hr'

/-! ## A transaction that waits -/

instance (now : Seconds) (t : Task) : Decidable (t.Prompt now) :=
  match h : t.phase with
  | .waiting _ c late =>
      decidable_of_iff (now < c → ∀ at_ ∈ late, now < at_) (by rw [Task.Prompt, h])
  | .idle => isTrue (by rw [Task.Prompt, h]; trivial)
  | .running _ => isTrue (by rw [Task.Prompt, h]; trivial)
  | .committing _ => isTrue (by rw [Task.Prompt, h]; trivial)
  | .resting _ => isTrue (by rw [Task.Prompt, h]; trivial)

instance (s : State) : (o : Op) → Decidable (Prompt s o)
  | .start => isTrue trivial
  | .task i a =>
      match a with
      | .check now => inferInstanceAs (Decidable (∀ t ∈ s.tasks[i]?, t.Prompt now))
      | .spawn => isTrue trivial
      | .admit_ _ => isTrue trivial
      | .leave => isTrue trivial
      | .decide _ _ _ => isTrue trivial
      | .begin_ => isTrue trivial
      | .finish => isTrue trivial
      | .conflict => isTrue trivial
      | .retry => isTrue trivial
      | .fail => isTrue trivial
      | .committed => isTrue trivial

/-- An ordinary operation and a high-risk one, whose evidence is good for less. -/
def docIndex : Index where
  resources := ⟨[(str "doc", sampleResource)], sampleIndex_nodup⟩
  operations :=
    ⟨[(str "doc.view", { key := str "doc.view", resourceType := str "doc", purpose := str "read",
                                     riskClass := str "low" }),
    (str "doc.close", { key := str "doc.close", resourceType := str "doc", purpose := str "write",
                        riskClass := str "high" })], by decide⟩

/-- A request for the ordinary operation, at 1 on the boot clock. -/
def arrival : Arrival where
  defs := docIndex
  holder := heldAt "1.1"
  clock := ⟨1, 1, 1001⟩
  user := ⟨str "p", 0, 2000⟩
  operation := str "doc.view"
  boot := 1
  now := 1001

/-- A task decides the high-risk operation at 4; its evidence is good until 4.995. -/
def close : Act := .decide ⟨str "p", docIndex, heldAt "1.1", 0⟩ ⟨4, 4, 1004⟩ (str "doc.close")

/-- The decision is made in the transaction, which then commits in time. -/
def inTime : List Op :=
  [.start, .task 0 (.admit_ arrival), .task 0 .begin_, .task 0 close, .task 0 .finish,
    .task 0 (.check (9 / 2)), .task 0 .committed]

theorem commits_within_inTime : ∃ h s, Reach step Prompt {} h s ∧ .commit (some 0)
    (some (9 / 2)) ∈ h ∧ WithinCutoffs h := by
  have hall : allAllowed step Prompt {} inTime = true := by decide +kernel
  have hr := reach_of_allAllowed inTime hall
  exact ⟨_, _, hr, by decide +kernel, (commits_within hr).1⟩

/-- While the transaction of the one task waits, another task of the request decides. -/
def late : List Op :=
  [.start, .task 0 (.admit_ arrival), .task 0 .spawn, .task 0 .begin_, .task 0 .finish,
    .task 1 close, .task 0 (.check 5)]

/-- **A late decision**: the transaction reaches COMMIT at 5, past the cutoff 4.995 of a
decision made before the check. -/
theorem late_committed : ∃ h s, Reach step anyOp {} h s ∧ ¬ WithinCutoffs h := by
  refine ⟨_, _, reach_runOps step late {}, fun hwithin => ?_⟩
  have hhead : ∃ older, (runOps step {} late).1 = .commit (some 0) (some 5) :: older ∧
      4995 / 1000 ∈ cutoffs 0 older :=
      ⟨(runOps step {} late).1.tail, by decide +kernel, by decide +kernel⟩
  obtain ⟨older, heq, hmem⟩ := hhead
  obtain ⟨now, hnow, hall⟩ := hwithin 0 (some 5) older (heq ▸ List.suffix_refl _)
  obtain rfl := Option.some.inj hnow
  exact absurd (hall _ hmem) (by norm_num)

end BeSdk.Cutoff
