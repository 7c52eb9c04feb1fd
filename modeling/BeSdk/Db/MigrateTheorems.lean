/-
BeSdk.Db.MigrateTheorems — files take effect once, in order, and an unknown outcome
stops.

What took effect is a prefix of what was released (`Sound.effects`), and the state table
says which: it holds the last version that took effect, or is dirty at that version or
the one after it (`Sound.table`). Only the session with the lock is past the lock
(`Sound.holder`), so what it read of the table is still there when it writes, and the
files it goes on with follow what took effect (`Stage.Ok`). A lost session keeps the lock
until its statement is through.

A dirty table with no session still to record an outcome (`Stage.midway`) is `Stuck`: a
run that gets the lock refuses, so nothing changes the table again.

* `migrated_once`: the law of every run.
-/
import BeSdk.Db.Migrate
import Mathlib.Data.List.Nodup

namespace BeSdk.Db.Migrate

/-! ## Steps -/

/-- A session's own step, which writes nothing. -/
inductive Turns (s : State) (p : Session) : Stage → Prop
  | granted : p.stage = .locked → Turns s p .created
  | reads : p.stage = .created → (∀ v, s.table ≠ some ⟨v, true⟩) →
      Turns s p (loop (s.table.elim (-1) Entry.version) p.files)
  | errs : Turns s p p.stage.fails
  | loses (sent : Bool) : Turns s p (.lost (if sent then p.stage.statement else none))
  | undone (w : Write) : p.stage = .lost (some w) → Turns s p (.lost none)

/-- A statement that takes effect, and the stage after it. -/
inductive Writes (p : Session) : Write → Stage → Prop
  | own (w : Write) : p.stage.statement = some w → Writes p w p.stage.succeeds
  | late (w : Write) : p.stage = .lost (some w) → Writes p w (.lost none)

/-- A session that is through. -/
def Stage.over (st : Stage) : Prop := st = .closing ∨ st = .connected ∨ st = .lost none

/-- What a step can do. -/
inductive Goes (s : State) : State → List Note → Prop
  | stays : Goes s s []
  | releases (v : Int) : 0 ≤ v → (∀ u ∈ s.released, u < v) →
      Goes s { s with released := s.released ++ [v] } []
  | connects (files : List Int) : files.Perm (s.released.take files.length) →
      Goes s { s with sessions := s.sessions ++ [{ files := versions files }] } []
  | locks (i : Nat) (p : Session) : s.sessions[i]? = some p → p.stage = .connected → s.lock = none →
      Goes s ({ s with lock := some i }.to_ i p .locked) []
  | turns (i : Nat) (p : Session) (st : Stage) : s.sessions[i]? = some p → Turns s p st →
      Goes s (s.to_ i p st) []
  | refuses (i : Nat) (p : Session) (v : Int) : s.sessions[i]? = some p → p.stage = .created →
      s.table = some ⟨v, true⟩ → Goes s (s.to_ i p .closing) [.refused i v]
  | writes (i : Nat) (p : Session) (w : Write) (st : Stage) : s.sessions[i]? = some p →
      Writes p w st → Goes s ((s.write i w).1.to_ i p st) (s.write i w).2
  | ends (i : Nat) (p : Session) : s.sessions[i]? = some p → p.stage.over →
      Goes s ((s.free i).to_ i p .ended) []

/-- A statement that succeeds goes one of the ways. -/
theorem succeed_goes {s : State} {i : Nat} {p : Session} (hp : s.sessions[i]? = some p) :
    Goes s (s.succeed i p).1 (s.succeed i p).2 := by
  unfold State.succeed
  split
  · next w hw => exact .writes i p w _ hp (.own w hw)
  · split
    · next h => exact .turns i p _ hp (.granted h)
    · next h =>
      split
      · next v hv => exact .refuses i p v hp h hv
      · next hv => exact .turns i p _ hp (.reads h hv)
    · exact .stays

/-- So does every step. -/
theorem step_goes (s : State) (o : Op) : Goes s (step s o).1 (step s o).2 := by
  cases o with
  | release version =>
      simp only [step]
      split
      · next h => exact .releases version h.1 h.2
      · exact .stays
  | connect files =>
      simp only [step]
      split
      · next h => exact .connects files (List.isPerm_iff.mp h)
      · exact .stays
  | lock i =>
      simp only [step]
      split
      · next p hp =>
        split
        · next h => exact .locks i p hp h.1 h.2
        · exact .stays
      · exact .stays
  | run i ok =>
      simp only [step]
      split
      · next p hp =>
        split
        · exact succeed_goes hp
        · exact .turns i p _ hp .errs
      · exact .stays
  | close i =>
      simp only [step]
      split
      · next p hp =>
        split
        · next h => exact .ends i p hp (h.imp_right .inl)
        · exact .stays
      · exact .stays
  | lose i sent =>
      simp only [step]
      split
      · next p hp =>
        split
        · exact .stays
        · exact .stays
        · exact .turns i p _ hp (.loses sent)
      · exact .stays
  | finish i commits =>
      simp only [step]
      split
      · next p hp =>
        split
        · next w h =>
          split
          · exact .writes i p w _ hp (.late w h)
          · exact .turns i p _ hp (.undone w h)
        · exact .stays
      · exact .stays
  | drop i =>
      simp only [step]
      split
      · next p hp =>
        split
        · next h => exact .ends i p hp (.inr (.inr h))
        · exact .stays
      · exact .stays

/-! ## The files -/

/-- The last version that took effect. -/
def State.current (s : State) : Int := s.effects.getLast?.getD (-1)

/-- When a statement may commit. -/
def Write.Ok (s : State) : Write → Prop
  | .set version true => s.table = entry s.current false ∧ s.effects ++ [version] <+: s.released
  | .set version false => (∃ v, s.table = some ⟨v, true⟩) ∧ version = s.current
  | .file version => s.table = some ⟨version, true⟩ ∧ s.effects ++ [version] <+: s.released

/-- What a stage says of the table and of the files to come. -/
def Stage.Ok (s : State) : Stage → Prop
  | .ready current version rest =>
      s.table = entry s.current false ∧ current = s.current ∧ s.effects ++ version ::
        rest <+: s.released
  | .marked current version rest =>
      s.table = some ⟨version, true⟩ ∧ current = s.current ∧ s.effects ++ version ::
        rest <+: s.released
  | .applied version rest =>
      s.table = some ⟨version, true⟩ ∧ version = s.current ∧ s.effects ++ rest <+: s.released
  | .failed current version =>
      s.table = some ⟨version, true⟩ ∧ current = s.current ∧ s.effects ++ [version] <+: s.released
  | .lost (some w) => w.Ok s
  | .connected | .locked | .created | .closing | .ended | .lost none => True

/-- The session has the lock. -/
def Stage.holding : Stage → Bool
  | .locked | .created | .ready _ _ _ | .marked _ _ _ | .applied _ _ | .failed _
      _ | .closing | .lost (some _) => true
  | .connected | .ended | .lost none => false

structure Sound (s : State) : Prop where
  ascending : s.released.Pairwise (· < ·)
  positive : ∀ v ∈ s.released, 0 ≤ v
  effects : s.effects <+: s.released
  table : s.table = entry s.current false ∨
    ∃ v, s.table = some ⟨v, true⟩ ∧ (v = s.current ∨ s.effects ++ [v] <+: s.released)
  files : ∀ p ∈ s.sessions, p.files <+: s.released
  holder : ∀ i p, s.sessions[i]? = some p → p.stage.holding = true → s.lock = some i
  ok : ∀ p ∈ s.sessions, p.stage.Ok s

theorem entry_of_nonneg {v : Int} (h : 0 ≤ v) (dirty : Bool) :
    entry v dirty = some ⟨v, dirty⟩ := if_pos h

theorem entry_clean {v w : Int} : entry v false ≠ some ⟨w, true⟩ := by
  unfold entry
  split <;> simp

/-- A session without the lock has nothing to know. -/
theorem Stage.Ok.of_not_holding {st : Stage} (h : st.holding = false) (s : State) : st.Ok s := by
  cases st with
  | connected | ended => trivial
  | lost w =>
      cases w with
      | none => trivial
      | some w => cases h
  | locked | created | ready _ _ _ | marked _ _ _ | applied _ _ | failed _ _ | closing => cases h

/-- A write stays right while table and effects do. -/
theorem Write.Ok.mono {w : Write} {s s' : State} (h : w.Ok s) (htable : s'.table = s.table)
    (heffects : s'.effects = s.effects) (hreleased : s.released <+: s'.released) : w.Ok s' := by
  have hcur : s'.current = s.current := by rw [State.current, State.current, heffects]
  match w, h with
  | .set version true, h => exact ⟨by rw [htable, hcur]; exact h.1, heffects ▸ h.2.trans hreleased⟩
  | .set version false, h => exact ⟨htable ▸ h.1, by rw [hcur]; exact h.2⟩
  | .file version, h => exact ⟨htable.trans h.1, heffects ▸ h.2.trans hreleased⟩

/-- The files released may grow. -/
theorem Stage.Ok.mono {st : Stage} {s s' : State} (h : st.Ok s) (htable : s'.table = s.table)
    (heffects : s'.effects = s.effects) (hreleased : s.released <+: s'.released) : st.Ok s' := by
  have hcur : s'.current = s.current := by rw [State.current, State.current, heffects]
  cases st with
  | connected | ended | locked | created | closing => trivial
  | ready current version rest =>
      exact ⟨by rw [htable, hcur]; exact h.1, by rw [hcur]; exact h.2.1,
        heffects ▸ h.2.2.trans hreleased⟩
  | marked current version rest =>
      exact ⟨htable.trans h.1, by rw [hcur]; exact h.2.1, heffects ▸ h.2.2.trans hreleased⟩
  | applied version rest =>
      exact ⟨htable.trans h.1, by rw [hcur]; exact h.2.1, heffects ▸ h.2.2.trans hreleased⟩
  | failed current version =>
      exact ⟨htable.trans h.1, by rw [hcur]; exact h.2.1, heffects ▸ h.2.2.trans hreleased⟩
  | lost w =>
      cases w with
      | none => trivial
      | some w => exact Write.Ok.mono h htable heffects hreleased

section
variable {s : State} (hs : Sound s)
include hs

/-- The version of a file that took effect is the last of those up to it. -/
theorem Sound.mem_effects_iff {v : Int} (hv : s.effects.getLast? = some v)
    {x : Int} (hx : x ∈ s.released) : x ∈ s.effects ↔ x ≤ v := by
  obtain ⟨later, hlater⟩ := hs.effects
  obtain ⟨before, hbefore⟩ := List.getLast?_eq_some_iff.mp hv
  have hasc := hs.ascending
  rw [← hlater, hbefore] at hasc
  rw [← hlater] at hx
  have hle : ∀ y ∈ s.effects, y ≤ v := by
    intro y hy
    rw [hbefore, List.mem_append, List.mem_singleton] at hy
    rcases hy with hy | rfl
    · exact Int.le_of_lt ((List.pairwise_append.mp (List.pairwise_append.mp hasc).1).2.2 y hy
        v (by simp))
    · exact Int.le_refl _
  have hgt : ∀ y ∈ later, v < y := fun y hy => (List.pairwise_append.mp hasc).2.2 v (by simp) y hy
  refine ⟨hle x, fun hxv => ?_⟩
  rcases List.mem_append.mp hx with hx | hx
  · exact hx
  · exact absurd hxv (Int.not_le.mpr (hgt x hx))

/-- What comes next is after everything that took effect. -/
theorem Sound.current_lt {v : Int} (hv : s.effects ++ [v] <+: s.released) : s.current < v := by
  obtain ⟨later, hlater⟩ := hv
  have hasc := hs.ascending
  rw [← hlater] at hasc
  have hpos := hs.positive v (by rw [← hlater]; simp)
  unfold State.current
  cases hlast : s.effects.getLast? with
  | none => simp only [Option.getD_none]; omega
  | some u =>
      exact (List.pairwise_append.mp (List.pairwise_append.mp hasc).1).2.2 u
        (List.mem_of_getLast? hlast) v (by simp)

/-- No effect is later than the version. -/
theorem Sound.le_current {v : Int} (hv : v ∈ s.effects) : v ≤ s.current := by
  unfold State.current
  cases hlast : s.effects.getLast? with
  | none =>
      rw [List.getLast?_eq_none_iff.mp hlast] at hv
      cases hv
  | some u => exact (hs.mem_effects_iff hlast (hs.effects.subset hv)).mp hv

/-- The loop goes over what took effect. -/
theorem Sound.loop_ok (htable : s.table = entry s.current false)
    {files : List Int} (hfiles : files <+: s.released) :
    (loop s.current files).Ok s := by
  have hskip : ∀ done todo : List Int, (∀ v ∈ done, v ≤ s.current) →
    loop s.current (done ++ todo) = loop s.current todo := by
    intro done todo hdone
    induction done with
    | nil => rfl
    | cons v done ih =>
        rw [List.cons_append, loop, if_pos (hdone v List.mem_cons_self),
          ih fun u hu => hdone u (List.mem_cons_of_mem _ hu)]
  rcases List.prefix_or_prefix_of_prefix hfiles hs.effects with hle | ⟨todo, rfl⟩
  · have hend : loop s.current files = .closing := by
      have h := hskip files [] fun v hv => hs.le_current (hle.subset hv)
      rwa [List.append_nil] at h
    rw [hend]
    trivial
  · rw [hskip _ _ fun v hv => hs.le_current hv]
    cases todo with
    | nil => trivial
    | cons v rest =>
        have hnext : s.effects ++ [v] <+: s.released := (List.prefix_append_right_inj _).mpr
          ⟨rest, rfl⟩ |>.trans hfiles
        rw [loop, if_neg (Int.not_le.mpr (hs.current_lt hnext))]
        exact ⟨htable, rfl, hfiles⟩

/-! ## Every step -/

theorem Sound.files_set {i : Nat} {p : Session} (hp : s.sessions[i]? = some p) (st : Stage) :
    ∀ q ∈ s.sessions.set i { p with stage := st }, q.files <+: s.released := by
  intro q hq
  rcases List.mem_or_eq_of_mem_set hq with hq | rfl
  · exact hs.files q hq
  · exact hs.files p (List.mem_of_getElem? hp)

/-- A session goes on, and the tables stay. -/
theorem Sound.turn {i : Nat} {p : Session} (hp : s.sessions[i]? = some p) {st : Stage}
    (hhold : st.holding = true → p.stage.holding = true) (hok : st.Ok s) :
    Sound (s.to_ i p st) := by
  refine ⟨hs.ascending, hs.positive, hs.effects, hs.table, hs.files_set hp _,
    fun j q hq hqh => ?_, fun q hq => ?_⟩
  · rcases getElem?_set_cases hq with ⟨rfl, rfl⟩ | ⟨-, hq⟩
    · exact hs.holder j p hp (hhold hqh)
    · exact hs.holder j q hq hqh
  · rcases List.mem_or_eq_of_mem_set hq with hq | rfl
    · exact (hs.ok q hq).mono rfl rfl (List.prefix_refl _)
    · exact hok.mono rfl rfl (List.prefix_refl _)

/-- The session with the lock writes: the others are not past the lock. -/
theorem Sound.act {i : Nat} {p : Session} (hp : s.sessions[i]? = some p)
    (hhold : p.stage.holding = true) {table : Option Entry} {effects : List Int} {st : Stage}
    (heffects : effects <+: s.released) (htable : table = entry (effects.getLast?.getD (-1)) false ∨
      ∃ v, table = some ⟨v, true⟩ ∧ (v = effects.getLast?.getD (-1) ∨ effects ++ [v] <+:
        s.released))
    (hok : st.Ok { s with table := table, effects := effects }) :
    Sound (({ s with table := table, effects := effects } : State).to_ i p st) := by
  have hlock := hs.holder i p hp hhold
  refine ⟨hs.ascending, hs.positive, heffects, htable, hs.files_set hp _,
    fun j q hq hqh => ?_, fun q hq => ?_⟩
  · rcases getElem?_set_cases hq with ⟨rfl, -⟩ | ⟨-, hq⟩
    · exact hlock
    · exact hs.holder j q hq hqh
  · obtain ⟨j, hj⟩ := List.getElem?_of_mem hq
    rcases getElem?_set_cases hj with ⟨-, rfl⟩ | ⟨hne, hj⟩
    · exact hok.mono rfl rfl (List.prefix_refl _)
    · refine .of_not_holding (Bool.eq_false_iff.mpr fun hqh => hne ?_) _
      exact Option.some.inj ((hs.holder j q hj hqh).symm.trans hlock)

/-- Taking a free lock keeps the migration sound. -/
theorem Sound.lock {i : Nat} {p : Session} (hp : s.sessions[i]? = some p) (hfree : s.lock = none) :
    Sound ({ s with lock := some i }.to_ i p .locked) := by
  refine ⟨hs.ascending, hs.positive, hs.effects, hs.table, hs.files_set hp _,
    fun j q hq hqh => ?_, fun q hq => ?_⟩
  · rcases getElem?_set_cases hq with ⟨rfl, -⟩ | ⟨-, hq⟩
    · rfl
    · exact absurd ((hs.holder j q hq hqh).symm.trans hfree) nofun
  · rcases List.mem_or_eq_of_mem_set hq with hq | rfl
    · exact (hs.ok q hq).mono rfl rfl (List.prefix_refl _)
    · trivial

/-- So does the end of a session. -/
theorem Sound.end_ {i : Nat} {p : Session} (hp : s.sessions[i]? = some p) :
    Sound ((s.free i).to_ i p .ended) := by
  have hcore : (s.free i).released = s.released ∧ (s.free i).table = s.table ∧
    (s.free i).effects = s.effects ∧
      (s.free i).sessions = s.sessions := by
    unfold State.free
    split <;> exact ⟨rfl, rfl, rfl, rfl⟩
  obtain ⟨hreleased, htable, heffects, hsessions⟩ := hcore
  have hcur : (s.free i).current = s.current := by rw [State.current, State.current, heffects]
  refine ⟨hreleased ▸ hs.ascending, hreleased ▸ hs.positive, heffects ▸ hreleased ▸
    hs.effects, ?_, fun q hq => ?_, fun j q hq hqh => ?_, fun q hq => ?_⟩
  · change (s.free i).table = entry (s.free i).current false ∨ ∃ v, (s.free i).table =
      some ⟨v, true⟩ ∧ (v = (s.free i).current ∨ (s.free i).effects ++ [v] <+: (s.free i).released)
    rw [htable, hcur, heffects, hreleased]
    exact hs.table
  · change q.files <+: (s.free i).released
    rw [hreleased]
    rw [State.to_, hsessions] at hq
    exact hs.files_set hp _ q hq
  · rw [State.to_, hsessions] at hq
    rcases getElem?_set_cases hq with ⟨rfl, rfl⟩ | ⟨hne, hq⟩
    · cases hqh
    · -- the lock is not the one that goes
      have hlock := hs.holder j q hq hqh
      have hother : s.lock ≠ some i := fun h => hne (Option.some.inj (hlock.symm.trans h))
      change (s.free i).lock = some j
      rw [State.free, if_neg hother, hlock]
  · rw [State.to_, hsessions] at hq
    rcases List.mem_or_eq_of_mem_set hq with hq | rfl
    · exact (hs.ok q hq).mono htable heffects (hreleased ▸ List.prefix_refl _)
    · trivial

/-- So does a release with newer files. -/
theorem Sound.release {v : Int} (hpos : 0 ≤ v) (hnew : ∀ u ∈ s.released, u < v) :
    Sound { s with released := s.released ++ [v] } := by
  have hgrow : s.released <+: s.released ++ [v] := List.prefix_append ..
  refine ⟨List.pairwise_append.mpr ⟨hs.ascending, List.pairwise_singleton .., ?_⟩, ?_,
    hs.effects.trans hgrow, ?_, fun p hp => (hs.files p hp).trans hgrow, hs.holder,
    fun p hp => (hs.ok p hp).mono rfl rfl hgrow⟩
  · intro u hu w hw
    rw [List.mem_singleton.mp hw]
    exact hnew u hu
  · intro u hu
    rcases List.mem_append.mp hu with hu | hu
    · exact hs.positive u hu
    · rw [List.mem_singleton.mp hu]
      exact hpos
  · rcases hs.table with h | ⟨w, hw, h | h⟩
    · exact .inl h
    · exact .inr ⟨w, hw, .inl h⟩
    · exact .inr ⟨w, hw, .inr (h.trans hgrow)⟩

/-- The files of a build are sorted back to the first that were released. -/
theorem Sound.versions_eq {files : List Int} {n : Nat} (h : files.Perm (s.released.take n)) :
    versions files = s.released.take n := by
  have hperm : (versions files).Perm (s.released.take n) := (List.perm_insertionSort _ _).trans h
  have hascending : (s.released.take n).Pairwise (· ≤ ·) :=
    (hs.ascending.sublist (List.take_sublist _ _)).imp fun hlt => Int.le_of_lt hlt
  exact hperm.eq_of_pairwise' (List.pairwise_insertionSort _ _) hascending

/-- So does a new session. -/
theorem Sound.connect {files : List Int} (h : files.Perm (s.released.take files.length)) :
    Sound { s with sessions := s.sessions ++ [{ files := versions files }] } := by
  refine ⟨hs.ascending, hs.positive, hs.effects, hs.table, fun p hp => ?_,
    fun j p hp hph => ?_, fun p hp => ?_⟩
  · rcases List.mem_append.mp hp with hp | hp
    · exact hs.files p hp
    · rw [List.mem_singleton.mp hp]
      exact hs.versions_eq h ▸ List.take_prefix ..
  · rcases getElem?_join_cases hp with hp | ⟨-, rfl⟩
    · exact hs.holder j p hp hph
    · cases hph
  · rcases List.mem_append.mp hp with hp | hp
    · exact (hs.ok p hp).mono rfl rfl (List.prefix_refl _)
    · rw [List.mem_singleton.mp hp]
      trivial

end

/-- One more file ahead, of several. -/
theorem prefix_first {l r : List Int} {v : Int} {rest : List Int} (h : l ++ v :: rest <+: r) :
    l ++ [v] <+: r :=
  ((List.prefix_append_right_inj l).mpr ⟨rest, rfl⟩).trans h

/-- The statement that a session waits for is right. -/
theorem Stage.Ok.statement {s : State} {st : Stage} (h : st.Ok s)
    {w : Write} (hw : st.statement = some w) : w.Ok s := by
  cases st with
  | ready current version rest =>
      obtain rfl := Option.some.inj hw
      exact ⟨h.1, prefix_first h.2.2⟩
  | marked current version rest =>
      obtain rfl := Option.some.inj hw
      exact ⟨h.1, prefix_first h.2.2⟩
  | applied version rest =>
      obtain rfl := Option.some.inj hw
      exact ⟨⟨_, h.1⟩, h.2.1⟩
  | failed current version =>
      obtain rfl := Option.some.inj hw
      exact ⟨⟨_, h.1⟩, h.2.1⟩
  | connected | locked | created | closing | ended | lost _ => cases hw

/-- A session that waits for a statement holds the lock. -/
theorem holding_of_statement {st : Stage} {w : Write} (hw : st.statement = some w) :
    st.holding = true := by
  cases st with
  | ready _ _ _ | marked _ _ _ | applied _ _ | failed _ _ => rfl
  | connected | locked | created | closing | ended | lost _ => cases hw

/-- A statement takes effect, and the session goes on. -/
theorem Sound.write {s : State} (hs : Sound s) {i : Nat} {p : Session} {w : Write} {st : Stage}
    (hp : s.sessions[i]? = some p) (hhold : p.stage.holding = true) (hw : w.Ok s)
    (hst : st.Ok (s.write i w).1) : Sound ((s.write i w).1.to_ i p st) := by
  match w, hw with
  | .set version true, hw =>
      have hpos : 0 ≤ version := hs.positive version (hw.2.subset (by simp))
      exact hs.act hp hhold hs.effects (.inr ⟨version, entry_of_nonneg hpos true, .inr hw.2⟩) hst
  | .set version false, hw =>
      exact hs.act hp hhold hs.effects (.inl (congrArg (entry · false) hw.2)) hst
  | .file version, hw => exact hs.act hp hhold hw.2 (.inr ⟨version, hw.1, .inl (by simp)⟩) hst

/-- The stage after a session's own statement. -/
theorem Sound.succeeds_ok {s : State} (hs : Sound s) (i : Nat) {st : Stage} (h : st.Ok s)
    {w : Write} (hw : st.statement = some w) : st.succeeds.Ok (s.write i w).1 := by
  cases st with
  | ready current version rest =>
      obtain rfl := Option.some.inj hw
      have hpos : 0 ≤ version := hs.positive version (h.2.2.subset (by simp))
      exact ⟨entry_of_nonneg hpos true, h.2⟩
  | marked current version rest =>
      obtain rfl := Option.some.inj hw
      refine ⟨h.1, by simp [State.current, State.write], ?_⟩
      simpa [State.write] using h.2.2
  | applied version rest =>
      obtain rfl := Option.some.inj hw
      obtain ⟨-, hcur, hrest⟩ := h
      cases rest with
      | nil => trivial
      | cons v rest =>
          rw [Stage.succeeds, loop, if_neg
            (Int.not_le.mpr (hcur ▸ hs.current_lt (prefix_first hrest)))]
          exact ⟨congrArg (entry · false) hcur, hcur, hrest⟩
  | failed current version => trivial
  | connected | locked | created | closing | ended | lost _ => cases hw

/-- A session whose statement failed knows what it knew. -/
theorem Stage.Ok.fails {s : State} {st : Stage} (h : st.Ok s) : st.fails.Ok s := by
  cases st with
  | marked current version rest => exact ⟨h.1, h.2.1, prefix_first h.2.2⟩
  | locked | created | ready _ _ _ | applied _ _ | failed _ _ => trivial
  | connected | closing | ended | lost _ => exact h

theorem holding_of_fails {st : Stage} (h : st.fails.holding = true) : st.holding = true := by
  cases st with
  | locked | created | ready _ _ _ | marked _ _ _ | applied _ _ | failed _ _ => rfl
  | connected | closing | ended | lost _ => exact h

/-- The row of the table, when it is not dirty. -/
theorem Sound.entry_current {s : State} (hs : Sound s) :
    entry s.current false = s.effects.getLast?.map fun v => ⟨v, false⟩ := by
  unfold State.current
  cases hlast : s.effects.getLast? with
  | none => rfl
  | some v => exact entry_of_nonneg (hs.positive v
      (hs.effects.subset (List.mem_of_getLast? hlast))) false

/-- Every step keeps the migration sound. -/
theorem Sound.step {s : State} (hs : Sound s) (o : Op) : Sound (Migrate.step s o).1 := by
  have hgoes := step_goes s o
  generalize (Migrate.step s o).1 = s', (Migrate.step s o).2 = new at hgoes
  cases hgoes with
  | stays => exact hs
  | releases v hpos hnew => exact hs.release hpos hnew
  | connects files h => exact hs.connect h
  | locks i p hp hstage hfree => exact hs.lock hp hfree
  | refuses i p v hp hstage hv => exact hs.turn hp (fun _ => hstage ▸ rfl) trivial
  | ends i p hp hover => exact hs.end_ hp
  | writes i p w st hp hw =>
      have hok := hs.ok p (List.mem_of_getElem? hp)
      cases hw with
      | own hw =>
          exact hs.write hp (holding_of_statement hw) (hok.statement hw) (hs.succeeds_ok i hok hw)
      | late hw =>
          rw [hw] at hok
          exact hs.write hp (hw ▸ rfl) hok trivial
  | turns i p st hp hturn =>
      have hok := hs.ok p (List.mem_of_getElem? hp)
      cases hturn with
      | granted h => exact hs.turn hp (fun _ => h ▸ rfl) trivial
      | reads h hclean =>
          have htable := hs.table.resolve_right fun ⟨v, hv, _⟩ => hclean v hv
          have hcur : s.table.elim (-1) Entry.version = s.current := by
            rw [htable, hs.entry_current, State.current]
            cases s.effects.getLast? <;> rfl
          rw [hcur]
          exact hs.turn hp (fun _ => h ▸ rfl)
            (hs.loop_ok htable (hs.files p (List.mem_of_getElem? hp)))
      | errs => exact hs.turn hp holding_of_fails hok.fails
      | loses sent =>
          cases hw : if sent then p.stage.statement else none with
          | none => exact hs.turn hp nofun trivial
          | some w =>
              have hstatement : p.stage.statement = some w := by
                cases sent with
                | true => exact hw
                | false => cases hw
              exact hs.turn hp (fun _ => holding_of_statement hstatement) (hok.statement hstatement)
      | undone w h => exact hs.turn hp nofun trivial

theorem sound_start : Sound start :=
  ⟨.nil, nofun, List.prefix_refl _, .inl rfl, nofun, nofun, nofun⟩

theorem sound_reach {h : List (List Note)} {s : State}
    (hr : Reach Migrate.step anyOp start h s) : Sound s := by
  induction hr with
  | nil => exact sound_start
  | snoc o _ _ ih => exact ih.step o

/-! ## An unknown outcome -/

/-- The version is marked, and the session is still to record the outcome. -/
def Stage.midway : Stage → Bool
  | .marked _ _ _ | .applied _ _ | .failed _ _ | .lost (some (.set _ false)) => true
  | .connected | .locked | .created | .ready _ _ _ | .closing | .ended | .lost none | .lost
      (some (.set _ true))
  | .lost (some (.file _)) => false

/-- The table is dirty, and nobody is going to record an outcome. -/
def Stuck (s : State) (v : Int) : Prop :=
  s.table = some ⟨v, true⟩ ∧ ∀ p ∈ s.sessions, p.stage.midway = false

/-- A session in the middle of a version holds the lock. -/
theorem holding_of_midway {st : Stage} (h : st.midway = true) : st.holding = true := by
  cases st with
  | marked _ _ _ | applied _ _ | failed _ _ => rfl
  | connected | locked | created | ready _ _ _ | closing | ended => cases h
  | lost w =>
      cases w with
      | none => cases h
      | some w => rfl

/-- In a stuck state no statement of the client's own is ahead. -/
theorem Stuck.statement {s : State} {v : Int} (h : Stuck s v)
    {p : Session} (hp : p ∈ s.sessions) (hok : p.stage.Ok s) :
    p.stage.statement = none := by
  have hmid := h.2 p hp
  cases hstage : p.stage with
  | ready current version rest =>
      rw [hstage] at hok
      exact absurd (hok.1.symm.trans h.1) entry_clean
  | marked _ _ _ | applied _ _ | failed _ _ => rw [hstage] at hmid; cases hmid
  | connected | locked | created | closing | ended | lost _ => rfl

/-- A turn that is not in the middle of a version leaves the database stuck. -/
theorem Stuck.turn {s : State} {v : Int} (h : Stuck s v) {i : Nat} {p : Session} {st : Stage}
    (hst : st.midway = false) : Stuck (s.to_ i p st) v := by
  refine ⟨h.1, fun q hq => ?_⟩
  rcases List.mem_or_eq_of_mem_set hq with hq | rfl
  · exact h.2 q hq
  · exact hst

/-- A failure begins no version. -/
theorem midway_of_fails {st : Stage} (h : st.midway = false) : st.fails.midway = false := by
  cases st with
  | marked _ _ _ => cases h
  | locked | created | ready _ _ _ | applied _ _ | failed _ _ => rfl
  | connected | closing | ended | lost _ => exact h

/-- A session that was lost with its file running. -/
def Running (s : State) (i : Nat) (v : Int) : Prop :=
  ∃ p, s.sessions[i]? = some p ∧ p.stage = .lost (some (.file v))

/-- A stuck state stays stuck; a file that runs in it was running before. -/
theorem Stuck.step {s : State} (hs : Sound s) {v : Int} (h : Stuck s v) (o : Op) :
    Stuck (Migrate.step s o).1 v ∧ (∀ i w, .took i w ∈ (Migrate.step s o).2 → Running s i w) ∧
      ∀ i w, Running (Migrate.step s o).1 i w → Running s i w := by
  have hgoes := step_goes s o
  generalize (Migrate.step s o).1 = s', (Migrate.step s o).2 = new at hgoes
  -- a session that goes on, and is not lost with its file running
  have hset : ∀ {i : Nat} {p : Session} {st : Stage} {t : State}, t.sessions = s.sessions →
    (∀ w, st ≠ .lost (some (.file w))) →
      ∀ j w, Running (t.to_ i p st) j w → Running s j w := by
    rintro i p st t ht hst j w ⟨q, hq, hstage⟩
    rw [State.to_, ht] at hq
    rcases getElem?_set_cases hq with ⟨-, rfl⟩ | ⟨-, hq⟩
    · exact absurd hstage (hst w)
    · exact ⟨q, hq, hstage⟩
  cases hgoes with
  | stays => exact ⟨h, nofun, fun _ _ => id⟩
  | releases u hpos hnew => exact ⟨h, nofun, fun _ _ => id⟩
  | connects files _ =>
      refine ⟨⟨h.1, fun q hq => ?_⟩, nofun, fun j w ⟨q, hq, hstage⟩ => ?_⟩
      · rcases List.mem_append.mp hq with hq | hq
        · exact h.2 q hq
        · rw [List.mem_singleton.mp hq]
          rfl
      · rcases getElem?_join_cases hq with hq | ⟨-, rfl⟩
        · exact ⟨q, hq, hstage⟩
        · cases hstage
  | locks i p hp hstage hfree =>
      have hstuck : Stuck { s with lock := some i } v := h
      exact ⟨hstuck.turn rfl, nofun, hset rfl nofun⟩
  | refuses i p u hp hstage hu => exact ⟨h.turn rfl, by simp, hset rfl nofun⟩
  | ends i p hp hover =>
      have hsessions : (s.free i).sessions = s.sessions := by unfold State.free; split <;> rfl
      have htable : (s.free i).table = s.table := by unfold State.free; split <;> rfl
      have hstuck : Stuck (s.free i) v := ⟨htable.trans h.1, hsessions ▸ h.2⟩
      exact ⟨hstuck.turn rfl, nofun, hset hsessions nofun⟩
  | writes i p w st hp hw =>
      have hok := hs.ok p (List.mem_of_getElem? hp)
      cases hw with
      | own hw => exact absurd ((h.statement (List.mem_of_getElem? hp) hok).symm.trans hw) nofun
      | late hw =>
          have hmid := h.2 p (List.mem_of_getElem? hp)
          rw [hw] at hok hmid
          match w, hok, hmid with
          | .set u true, hok, _ => exact absurd (hok.1.symm.trans h.1) entry_clean
          | .file u, hok, _ =>
              have hstuck : Stuck { s with effects := s.effects ++ [u] } v := h
              refine ⟨hstuck.turn rfl, fun j w hnote => ?_, hset rfl nofun⟩
              obtain ⟨rfl, rfl⟩ := Note.took.inj (List.mem_singleton.mp hnote)
              exact ⟨p, hp, hw⟩
  | turns i p st hp hturn =>
      have hok := hs.ok p (List.mem_of_getElem? hp)
      have hmid := h.2 p (List.mem_of_getElem? hp)
      cases hturn with
      | granted hstage => exact ⟨h.turn rfl, nofun, hset rfl nofun⟩
      | reads hstage hclean => exact absurd h.1 (hclean v)
      | undone w hstage => exact ⟨h.turn rfl, nofun, hset rfl nofun⟩
      | loses sent =>
          have hnone : (if sent then p.stage.statement else none) = none := by
            rw [h.statement (List.mem_of_getElem? hp) hok, ite_self]
          rw [hnone]
          exact ⟨h.turn rfl, nofun, hset rfl nofun⟩
      | errs =>
          refine ⟨h.turn (midway_of_fails hmid), nofun, fun j w ⟨q, hq, hstage⟩ => ?_⟩
          rcases getElem?_set_cases hq with ⟨rfl, rfl⟩ | ⟨-, hq⟩
          · refine ⟨p, hp, ?_⟩
            cases hp' : p.stage with
            | locked | created | ready _ _ _ | marked _ _ _ | applied _ _ | failed _ _ =>
                rw [hp'] at hstage
                cases hstage
            | connected | closing | ended | lost _ =>
                rw [hp'] at hstage
                exact hstage
          · exact ⟨q, hq, hstage⟩

/-- A stuck state stays stuck in every run. -/
theorem Stuck.reach {s : State} (hs : Sound s) {v : Int} (h : Stuck s v)
    {later : List (List Note)} {s' : State} (hr : Reach Migrate.step anyOp s later s') :
    Sound s' ∧ Stuck s' v ∧ (∀ i w, .took i w ∈ later.flatten → Running s i w) ∧
    ∀ i w, Running s' i w → Running s i w := by
  induction hr with
  | nil => exact ⟨hs, h, nofun, fun _ _ => id⟩
  | snoc o _ _ ih =>
      obtain ⟨hs', hstuck, htook, hrunning⟩ := ih
      obtain ⟨hstuck', htook', hrunning'⟩ := hstuck.step hs' o
      refine ⟨hs'.step o, hstuck', fun i w hnote => ?_,
        fun i w hrun => hrunning i w (hrunning' i w hrun)⟩
      rcases List.mem_append.mp (List.flatten_cons ▸ hnote) with hnote | hnote
      · exact hrunning i w (htook' i w hnote)
      · exact htook i w hnote

/-- Only the session with the lock is midway. -/
theorem Sound.stuck_of_leaves {s : State} (hs : Sound s)
    {i : Nat} {p : Session} (hp : s.sessions[i]? = some p)
    (hmid : p.stage.midway = true) {st : Stage} (hst : st.midway = false) :
    ∃ v, Stuck (s.to_ i p st) v := by
  have hok := hs.ok p (List.mem_of_getElem? hp)
  have htable : ∃ v, s.table = some ⟨v, true⟩ := by
    cases hstage : p.stage with
    | marked _ _ _ | applied _ _ | failed _ _ => rw [hstage] at hok; exact ⟨_, hok.1⟩
    | connected | locked | created | ready _ _ _ | closing | ended =>
        rw [hstage] at hmid; cases hmid
    | lost w =>
        rw [hstage] at hmid hok
        match w, hmid, hok with
        | some (.set u false), _, hok => exact hok.1
  obtain ⟨v, hv⟩ := htable
  refine ⟨v, hv, fun q hq => ?_⟩
  obtain ⟨j, hj⟩ := List.getElem?_of_mem hq
  rcases getElem?_set_cases hj with ⟨-, rfl⟩ | ⟨hne, hj⟩
  · exact hst
  · refine Bool.eq_false_iff.mpr fun hqm => hne ?_
    exact Option.some.inj ((hs.holder j q hj (holding_of_midway hqm)).symm.trans
      (hs.holder i p hp (holding_of_midway hmid)))

/-- What becomes of a session that is midway. -/
theorem Sound.midway_step {s : State} (hs : Sound s)
    {i : Nat} {p : Session} (hp : s.sessions[i]? = some p)
    (hmid : p.stage.midway = true) (o : Op) :
    (∃ q, (Migrate.step s o).1.sessions[i]? = some q ∧ q.stage.midway = true) ∨
      (∃ u, .set i u false ∈ (Migrate.step s o).2) ∨ ∃ v, Stuck (Migrate.step s o).1 v := by
  have hgoes := step_goes s o
  generalize (Migrate.step s o).1 = s', (Migrate.step s o).2 = new at hgoes
  -- another session goes on
  have hother : ∀ {j : Nat} {q : Session} {st : Stage} {t : State}, t.sessions = s.sessions →
    j ≠ i →
      ∃ r, (t.to_ j q st).sessions[i]? = some r ∧ r.stage.midway = true := by
    intro j q st t ht hne
    refine ⟨p, ?_, hmid⟩
    rw [State.to_, ht, List.getElem?_set_ne hne]
    exact hp
  -- the session itself goes on
  have hown : ∀ st : Stage, (∃ r, (s.to_ i p st).sessions[i]? = some r ∧ r.stage.midway = true) ∨
      (∃ u, .set i u false ∈ ([] : List Note)) ∨ ∃ v, Stuck (s.to_ i p st) v := by
    intro st
    cases hst : st.midway with
    | true =>
        refine .inl ⟨{ p with stage := st }, ?_, hst⟩
        rw [State.to_, List.getElem?_set_self' , hp]
        rfl
    | false => exact .inr (.inr (hs.stuck_of_leaves hp hmid hst))
  cases hgoes with
  | stays => exact .inl ⟨p, hp, hmid⟩
  | releases v hpos hnew => exact .inl ⟨p, hp, hmid⟩
  | connects files _ => exact .inl ⟨p, getElem?_join hp, hmid⟩
  | locks j q hq hstage hfree =>
      by_cases hji : j = i
      · subst hji
        obtain rfl := Option.some.inj (hp.symm.trans hq)
        rw [hstage] at hmid
        cases hmid
      · exact .inl (hother rfl hji)
  | refuses j q u hq hstage hu =>
      by_cases hji : j = i
      · subst hji
        obtain rfl := Option.some.inj (hp.symm.trans hq)
        rw [hstage] at hmid
        cases hmid
      · exact .inl (hother rfl hji)
  | ends j q hq hover =>
      by_cases hji : j = i
      · subst hji
        obtain rfl := Option.some.inj (hp.symm.trans hq)
        rcases hover with h | h | h <;> rw [h] at hmid <;> cases hmid
      · refine .inl (hother ?_ hji)
        unfold State.free
        split <;> rfl
  | turns j q st hq hturn =>
      by_cases hji : j = i
      · subst hji
        obtain rfl := Option.some.inj (hp.symm.trans hq)
        exact hown st
      · exact .inl (hother rfl hji)
  | writes j q w st hq hw =>
      by_cases hji : j = i
      · subst hji
        obtain rfl := Option.some.inj (hp.symm.trans hq)
        cases hw with
        | late hw =>
            rw [hw] at hmid
            match w, hmid with
            | .set u false, _ => exact .inr (.inl ⟨u, List.mem_singleton_self _⟩)
        | own hw =>
            cases hstage : p.stage with
            | marked current version rest =>
                rw [hstage] at hw
                obtain rfl := Option.some.inj hw
                refine .inl ⟨{ p with stage := .applied version rest }, ?_, rfl⟩
                change (s.sessions.set j _)[j]? = _
                rw [List.getElem?_set_self', hp]
                rfl
            | applied version rest =>
                rw [hstage] at hw
                obtain rfl := Option.some.inj hw
                exact .inr (.inl ⟨version, List.mem_singleton_self _⟩)
            | failed current version =>
                rw [hstage] at hw
                obtain rfl := Option.some.inj hw
                exact .inr (.inl ⟨current, List.mem_singleton_self _⟩)
            | connected | locked | created | ready _ _ _ | closing | ended =>
                rw [hstage] at hmid; cases hmid
            | lost _ => rw [hstage] at hw; cases hw
      · refine .inl (hother ?_ hji)
        cases w <;> rfl

/-! ## The law -/

theorem Sound.ascends {s : State} (hs : Sound s) :
    s.effects.Pairwise (· < ·) := hs.ascending.sublist hs.effects.sublist

/-- The files before one that did not take effect. -/
theorem Sound.effects_eq_filter {s : State} (hs : Sound s)
    {v : Int} (hv : s.effects ++ [v] <+: s.released) :
    s.effects = s.released.filter fun u => decide (u < v) := by
  obtain ⟨later, hlater⟩ := hv
  have hasc := hs.ascending
  rw [← hlater] at hasc ⊢
  have hbefore : ∀ u ∈ s.effects, decide (u < v) = true := fun u hu =>
    decide_eq_true ((List.pairwise_append.mp (List.pairwise_append.mp hasc).1).2.2 u hu v (by simp))
  have hafter : ∀ u ∈ later, ¬ decide (u < v) = true := fun u hu => by
    have := (List.pairwise_append.mp hasc).2.2 v (by simp) u hu
    simp only [decide_eq_true_eq]
    omega
  rw [List.filter_append, List.filter_append, List.filter_eq_self.mpr hbefore,
    List.filter_eq_nil_iff.mpr hafter]
  simp

/-- **Migrations are applied once, in order, and an unknown outcome stops.** In every run
of any number of sessions, with losses at any statement: no file takes effect twice, and
the files do in ascending order; a table that is clean at a version says exactly which
files did, and one that is empty that none did; a session that is between marking a
version and recording its outcome goes on, records it, or leaves the table dirty with
nobody to record it; such a table stays so in every later run, where every session that
reads it refuses and nothing takes effect but a file that was running; and a file that
failed is recorded as the file before it. -/
theorem migrated_once {h : List (List Note)} {s : State} (hr : Reach step anyOp start h s) :
    (s.effects.Nodup ∧ s.effects.Pairwise (· < ·)) ∧
      (∀ v, s.table = some ⟨v, false⟩ → v ∈ s.effects ∧ ∀ x ∈ s.released, x ∈ s.effects ↔ x ≤ v) ∧
      (s.table = none → s.effects = []) ∧
      (∀ i p, s.sessions[i]? = some p → p.stage.midway = true → ∀ o,
        (∃ q, (step s o).1.sessions[i]? = some q ∧ q.stage.midway = true) ∨
          (∃ u, .set i u false ∈ (step s o).2) ∨ ∃ v, Stuck (step s o).1 v) ∧
      (∀ v, Stuck s v → ∀ later s', Reach step anyOp s later s' →
        s'.table = some ⟨v, true⟩ ∧ (∀ i w, .took i w ∈ later.flatten → Running s i w) ∧
          ∀ i p, s'.sessions[i]? = some p → p.stage = .created →
            step s' (.run i true) = (s'.to_ i p .closing, [.refused i v])) ∧
      (∀ i p current v, s.sessions[i]? = some p → p.stage = .failed current v →
        v ∉ s.effects ∧ (step s (.run i true)).1.effects = s.effects ∧
          (step s (.run i true)).1.table =
          (s.released.filter fun u => decide (u < v)).getLast?.map fun u => ⟨u, false⟩) := by
  have hs := sound_reach hr
  refine ⟨⟨hs.ascends.imp fun hlt => Int.ne_of_lt hlt, hs.ascends⟩, fun v hv => ?_, fun hnone => ?_,
    fun i p hp hmid o => hs.midway_step hp hmid o, fun v hstuck later s' hr' => ?_,
    fun i p current v hp hstage => ?_⟩
  · have hclean := hs.table.resolve_right fun ⟨u, hu, _⟩ => absurd (hv.symm.trans hu) (by simp)
    rw [hs.entry_current, hv] at hclean
    obtain ⟨u, hu, heq⟩ := Option.map_eq_some_iff.mp hclean.symm
    obtain rfl : u = v := congrArg Entry.version heq
    exact ⟨List.mem_of_getLast? hu, fun x hx => hs.mem_effects_iff hu hx⟩
  · have hclean := hs.table.resolve_right fun ⟨u, hu, _⟩ => absurd (hnone.symm.trans hu) (by simp)
    rw [hs.entry_current, hnone] at hclean
    exact List.getLast?_eq_none_iff.mp (Option.map_eq_none_iff.mp hclean.symm)
  · obtain ⟨-, hstuck', htook, -⟩ := hstuck.reach hs hr'
    refine ⟨hstuck'.1, htook, fun i p hp hstage => ?_⟩
    have hnext : s'.succeed i p = (s'.to_ i p .closing, [.refused i v]) := by
      simp only [State.succeed, hstage, Stage.statement, hstuck'.1]
    simp only [step, hp, if_true, hnext]
  · have hok := hs.ok p (List.mem_of_getElem? hp)
    rw [hstage] at hok
    obtain ⟨-, rfl, hahead⟩ := hok
    have hnext : step s (.run i true) =
      ((s.write i (.set s.current false)).1.to_ i p .closing, [.set i s.current false]) := by
      simp only [step, hp, if_true, State.succeed, hstage, Stage.statement, Stage.succeeds,
        State.write]
    refine ⟨fun hmem => ?_, by rw [hnext]; rfl, ?_⟩
    · exact absurd (hs.le_current hmem) (Int.not_le.mpr (hs.current_lt hahead))
    · rw [hnext, ← hs.effects_eq_filter hahead, ← hs.entry_current]
      rfl

/-- Two files. The second fails in the first session; the second session has the first
file only; the third is lost while the second file runs, and the fourth refuses. -/
def lostRun : List Op :=
  [.release 1, .release 2, .connect [2, 1], .connect [1], .lock 0] ++ List.replicate 6
    (.run 0 true) ++ [.run 0 false, .run 0 true, .close 0, .lock 1, .run 1 true, .run 1 true,
      .close 1, .connect [1, 2], .lock 2, .run 2 true, .run 2 true, .run 2 true, .lose 2 true,
      .connect [2, 1], .lock 3, .finish 2 true, .drop 2, .lock 3, .run 3 true, .run 3 true]

theorem migrated_once_lost :
    let run := runOps step start lostRun
    (run.2.effects.Nodup ∧ run.2.effects.Pairwise (· < ·)) ∧ run.2.effects = [1, 2] ∧
    run.2.table = some ⟨2, true⟩ ∧
      run.1.head? = some [.refused 3 2] := by
  have hlaw := migrated_once (reach_runOps step lostRun start)
  exact ⟨hlaw.1, by decide +kernel, by decide +kernel, by decide +kernel⟩

end BeSdk.Db.Migrate
