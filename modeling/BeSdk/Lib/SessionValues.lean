/-
BeSdk.Lib.SessionValues — the settings of a database session, and what its transactions
do to them.

A session has a value for every setting. Inside a transaction a setting is set for the
session, which lasts when the transaction commits, or LOCALLY, for the rest of the
transaction. A level holds both: the values in force, and those that a `COMMIT` would
leave. A savepoint opens a level that starts with the values of the one around it, to
which it gives them when it is released, and a return to a savepoint starts its level
anew. A statement that fails takes back what its level has set, and nothing but a return
to a savepoint or the end of the transaction is done after it.

* `keeps_acts`: a setting that no action sets for the session is as it was, whatever
  the transactions do.
-/
import Mathlib.Logic.Function.Basic

namespace BeSdk.SessionValues

variable {κ ν : Type}

/-- What a transaction or a savepoint has come to. -/
structure Level (κ ν : Type) where
  now : κ → ν
  kept : κ → ν

/-- `levels` are those of an open transaction, the innermost first. -/
structure Session (κ ν : Type) where
  values : κ → ν
  levels : List (Level κ ν) := []
  broken : Bool := false

inductive Action (κ ν : Type) where
  | begin_
  | set (k : κ) (v : ν)
  | setLocal (k : κ) (v : ν)
  | savepoint
  /-- Levels are counted from the innermost. -/
  | release (n : Nat)
  | rollbackTo (n : Nat)
  | fail
  | commit
  | rollback

/-- The setting that an action sets for the session. -/
def Action.lasting : Action κ ν → Option κ
  | .set k _ => some k
  | _ => none

namespace Session

/-- The values in force. -/
def now (s : Session κ ν) : κ → ν :=
  match s.levels with
  | [] => s.values
  | l :: _ => l.now

/-- The levels when the innermost one starts anew. -/
def anew (values : κ → ν) : List (Level κ ν) → List (Level κ ν)
  | [] => []
  | [_] => [⟨values, values⟩]
  | _ :: l :: ls => l :: l :: ls

/-- No end of the transaction changes the setting. -/
def Settled (s : Session κ ν) (k : κ) : Prop := ∀ l ∈ s.levels, l.kept k = s.values k

theorem settled_anew {s : Session κ ν} {k : κ} (h : s.Settled k) :
    ∀ l ∈ anew s.values s.levels, l.kept k = s.values k := by
  intro l hl
  unfold anew at hl
  split at hl
  · cases hl
  · rw [List.mem_singleton.mp hl]
  · next heq =>
    rw [Settled, heq] at h
    rcases List.mem_cons.mp hl with rfl | hl
    · exact h _ (List.mem_cons_of_mem _ List.mem_cons_self)
    · exact h l (List.mem_cons_of_mem _ hl)

variable [DecidableEq κ]

def act (s : Session κ ν) : Action κ ν → Session κ ν
  | .begin_ => if s.levels.isEmpty then { s with levels := [⟨s.values, s.values⟩] } else s
  | .set k v =>
      if s.broken then s
      else
        match s.levels with
        | [] => { s with values := Function.update s.values k v }
        | l :: ls =>
            { s with levels := ⟨Function.update l.now k v, Function.update l.kept k v⟩ :: ls }
  | .setLocal k v =>
      if s.broken then s
      else
        match s.levels with
        | [] => s
        | l :: ls => { s with levels := ⟨Function.update l.now k v, l.kept⟩ :: ls }
  | .savepoint =>
      if s.broken then s
      else
        match s.levels with
        | [] => s
        | l :: ls => { s with levels := l :: l :: ls }
  | .release n =>
      if s.broken then s
      else
        match s.levels with
        | [] => s
        | l :: ls => if n < ls.length then { s with levels := l :: ls.drop (n + 1) } else s
  | .rollbackTo n =>
      match s.levels.drop (n + 1) with
      | [] => s
      | l :: ls => { s with levels := l :: l :: ls, broken := false }
  | .fail => { s with levels := anew s.values s.levels, broken := !s.levels.isEmpty }
  | .commit =>
      match s.levels with
      | [] => s
      | l :: _ => { values := if s.broken then s.values else l.kept }
  | .rollback => { values := s.values }

def acts (s : Session κ ν) (as : List (Action κ ν)) : Session κ ν := as.foldl act s

@[simp] theorem acts_nil (s : Session κ ν) : s.acts [] = s := rfl

@[simp] theorem acts_cons (s : Session κ ν) (a : Action κ ν) (as : List (Action κ ν)) :
    s.acts (a :: as) = (s.act a).acts as := rfl

/-! ## Local settings -/

/-- The last value that a setting was given, or the one it had. -/
def assigned (values : κ → ν) (l : List (κ × ν)) : κ → ν :=
  l.foldl (fun f x => Function.update f x.1 x.2) values

theorem assigned_of_not_mem {k : κ} : ∀ {l : List (κ × ν)} {values : κ → ν}, k ∉ l.map Prod.fst →
    assigned values l k = values k
  | [], _, _ => rfl
  | x :: l, values, h => by
      rw [List.map_cons, List.mem_cons, not_or] at h
      show assigned (Function.update values x.1 x.2) l k = values k
      rw [assigned_of_not_mem h.2, Function.update_of_ne h.1]

/-- Settings that are given one value each have it. -/
theorem assigned_of_mem {x : κ × ν} :
    ∀ {l : List (κ × ν)} {values : κ → ν}, (l.map Prod.fst).Nodup → x ∈ l →
    assigned values l x.1 = x.2
  | y :: l, values, hnodup, hx => by
      rw [List.map_cons, List.nodup_cons] at hnodup
      show assigned (Function.update values y.1 y.2) l x.1 = x.2
      rcases List.mem_cons.mp hx with rfl | hx
      · rw [assigned_of_not_mem hnodup.1, Function.update_self]
      · exact assigned_of_mem hnodup.2 hx

/-- Local settings of a sound transaction are in force, and nothing else changes. -/
theorem acts_setLocal (l : List (κ × ν)) :
    ∀ (s : Session κ ν) (level : Level κ ν) (ls : List (Level κ ν)),
    s.levels = level :: ls → s.broken = false →
    s.acts (l.map fun x => .setLocal x.1 x.2) =
    { s with levels := ⟨assigned level.now l, level.kept⟩ :: ls } := by
  induction l with
  | nil =>
      intro s level ls hlevels _
      show s = _
      rw [assigned, List.foldl_nil, ← hlevels]
  | cons x l ih =>
      intro s level ls hlevels hsound
      have hact : s.act (.setLocal x.1 x.2) =
        { s with levels := ⟨Function.update level.now x.1 x.2, level.kept⟩ :: ls } := by
        simp [act, hsound, hlevels]
      rw [List.map_cons, acts_cons, hact]
      exact ih { s with levels := _ } ⟨Function.update level.now x.1 x.2, level.kept⟩ ls rfl hsound

/-! ## What lasts -/

/-- A step lemma: an action that does not set a settled setting for the session leaves
it settled at its value. -/
theorem keeps_act {s : Session κ ν} {k : κ} (h : s.Settled k) (a : Action κ ν)
    (ha : a.lasting ≠ some k) : (s.act a).Settled k ∧ (s.act a).values k = s.values k := by
  cases a with
  | begin_ =>
      simp only [act]
      split
      · exact ⟨fun l hl => by rw [List.mem_singleton.mp hl], rfl⟩
      · exact ⟨h, rfl⟩
  | set k' v =>
      have hne : k ≠ k' := fun heq => ha (congrArg some heq.symm)
      simp only [act]
      split
      · exact ⟨h, rfl⟩
      split
      · next heq => exact ⟨by simp [Settled, heq], Function.update_of_ne hne _ _⟩
      · next l ls heq =>
        refine ⟨fun l' hl' => ?_, rfl⟩
        rcases List.mem_cons.mp hl' with rfl | hl'
        · exact (Function.update_of_ne hne _ _).trans (h l (by simp [heq]))
        · exact h l' (by simp [heq, hl'])
  | setLocal k' v =>
      simp only [act]
      split
      · exact ⟨h, rfl⟩
      split
      · exact ⟨h, rfl⟩
      · next l ls heq =>
        refine ⟨fun l' hl' => ?_, rfl⟩
        rcases List.mem_cons.mp hl' with rfl | hl'
        · exact h l (by simp [heq])
        · exact h l' (by simp [heq, hl'])
  | savepoint =>
      simp only [act]
      split
      · exact ⟨h, rfl⟩
      split
      · exact ⟨h, rfl⟩
      · next l ls heq =>
        refine ⟨fun l' hl' => h l' ?_, rfl⟩
        rw [heq]
        rcases List.mem_cons.mp hl' with rfl | hl'
        · exact List.mem_cons_self
        · exact hl'
  | release n =>
      simp only [act]
      split
      · exact ⟨h, rfl⟩
      split
      · exact ⟨h, rfl⟩
      · next l ls heq =>
        split
        · refine ⟨fun l' hl' => h l' ?_, rfl⟩
          rw [heq]
          rcases List.mem_cons.mp hl' with rfl | hl'
          · exact List.mem_cons_self
          · exact List.mem_cons_of_mem _ (List.mem_of_mem_drop hl')
        · exact ⟨h, rfl⟩
  | rollbackTo n =>
      simp only [act]
      split
      · exact ⟨h, rfl⟩
      · next l ls heq =>
        have hmem : ∀ l' ∈ l :: ls, l' ∈ s.levels := fun l' hl' => List.mem_of_mem_drop (heq ▸ hl')
        refine ⟨fun l' hl' => h l' (hmem l' ?_), rfl⟩
        rcases List.mem_cons.mp hl' with rfl | hl'
        · exact List.mem_cons_self
        · exact hl'
  | fail => exact ⟨settled_anew h, rfl⟩
  | commit =>
      simp only [act]
      split
      · exact ⟨h, rfl⟩
      · next l ls heq =>
        refine ⟨nofun, ?_⟩
        show (if s.broken then s.values else l.kept) k = s.values k
        split
        · rfl
        · exact h l (by simp [heq])
  | rollback => exact ⟨nofun, rfl⟩

/-- The run lemma. -/
theorem keeps_acts {k : κ} (as : List (Action κ ν)) :
    ∀ {s : Session κ ν}, s.Settled k → k ∉ as.filterMap Action.lasting →
    (s.acts as).Settled k ∧ (s.acts as).values k = s.values k := by
  induction as with
  | nil =>
      intro s h _
      exact ⟨h, rfl⟩
  | cons a as ih =>
      intro s h hnot
      have ha : a.lasting ≠ some k :=
        fun heq => hnot (List.mem_filterMap.mpr ⟨a, List.mem_cons_self, heq⟩)
      obtain ⟨hsettled, hvalue⟩ := keeps_act h a ha
      have hrest := ih hsettled fun hmem =>
        let ⟨b, hb, heq⟩ := List.mem_filterMap.mp hmem
        hnot (List.mem_filterMap.mpr ⟨b, List.mem_cons_of_mem _ hb, heq⟩)
      rw [acts_cons]
      exact ⟨hrest.1, hrest.2.trans hvalue⟩

end Session

end BeSdk.SessionValues
