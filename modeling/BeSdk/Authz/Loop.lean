/-
BeSdk.Authz.Loop — the holder's loop: tick, verification, rest, sleep, again and
again; and which movements of the two clocks it notices.

The loop is the holder with where `run` is in it (`Stage`), which carries the
readings the last tick and the last rest took. They are what statements speak of;
the code does not read them: it keeps one baseline, `lastTick` and `lastSkew`,
which both `tick` and `rest` write. An answer may be applied at any time, so a
verification of another caller is covered, and one that fails applies none.

* `stall_invalidates`: a jump of one clock against the other between two ticks, or a
  wait that took too long, invalidates every shard held, in the runs whose ticks are
  `Noticed`. A jump during the verification is not: `rest` takes the baseline anew
  after it (`stall_unnoticed`).
-/
import BeSdk.Authz.ViewTheorems

namespace BeSdk

/-! ## The loop -/

/-- A reading of the suspend-aware clock and of the wall clock. -/
structure Reading where
  boot : Seconds
  wall : Seconds

def Reading.skew (r : Reading) : Seconds := r.wall - r.boot

/-- Where the loop is. -/
inductive Stage where
  /-- Before its first tick. -/
  | started
  /-- In the verification after a tick. -/
  | verifying (tick : Reading)
  /-- In the wait after a rest, which followed a tick. -/
  | waiting (tick rest : Reading)

structure Loop where
  holder : Holder
  stage : Stage := .started

/-- What the loop does. -/
inductive LoopOp where
  | tick (r : Reading)
  | answer (ans : Answer) (gen : Int) (sent : Seconds)
  | rest (r : Reading)

/-- What a step of the loop is to the holder. -/
def LoopOp.op : LoopOp → Op
  | .tick r => .tick r.boot r.wall
  | .answer ans gen sent => .apply ans gen sent
  | .rest r => .rest r.boot r.wall

/-- Where the loop is after a step. -/
def Stage.next : Stage → LoopOp → Stage
  | _, .tick r => .verifying r
  | stage, .answer .. => stage
  | .verifying t, .rest r => .waiting t r
  | .waiting t _, .rest r => .waiting t r
  | .started, .rest _ => .started

def Loop.step [Interp] (defs : Option Index) (l : Loop) (o : LoopOp) : Loop × List Note :=
  (⟨(l.holder.step defs o.op).1, l.stage.next o⟩, (l.holder.step defs o.op).2)

/-- The order of the loop: a tick at its start and after each wait, a rest after each
verification. -/
def Loop.inOrder (l : Loop) : LoopOp → Prop
  | .tick _ => match l.stage with
    | .verifying _ => False
    | _ => True
  | .answer .. => True
  | .rest _ => match l.stage with
    | .verifying _ => True
    | _ => False

/-- The clocks moved against each other by more than the bound since the tick before,
or the wait took too long. -/
def Jumped (tick rest now : Reading) : Prop :=
  tStall < |now.skew - tick.skew| ∨ interval + tStall < now.boot - rest.boot

/-- The same since the rest: what a tick compares. -/
def Jolted (rest now : Reading) : Prop :=
  tStall < |now.skew - rest.skew| ∨ interval + tStall < now.boot - rest.boot

instance (tick rest now : Reading) :
    Decidable (Jumped tick rest now) := inferInstanceAs (Decidable (_ ∨ _))

instance (rest now : Reading) : Decidable (Jolted rest now) := inferInstanceAs (Decidable (_ ∨ _))

/-- A tick that finds the clocks moved since the tick before finds them moved since the
rest. -/
def Loop.Noticed (l : Loop) : LoopOp → Prop
  | .tick now => match l.stage with
    | .waiting tick rest => Jumped tick rest now → Jolted rest now
    | _ => True
  | _ => True

/-- The runs of the loop whose ticks are noticed. -/
def Loop.noticing (l : Loop) (o : LoopOp) : Prop := l.inOrder o ∧ l.Noticed o

instance (l : Loop) : DecidablePred l.inOrder := fun o => by
  cases o <;> cases hs : l.stage <;> simp only [Loop.inOrder, hs] <;> infer_instance

instance (l : Loop) : DecidablePred l.Noticed := fun o => by
  cases o <;> cases hs : l.stage <;> simp only [Loop.Noticed, hs] <;> infer_instance

instance (l : Loop) (o : LoopOp) : Decidable (l.noticing o) := inferInstanceAs (Decidable (_ ∧ _))

/-! ## Baselines -/

section
variable [Interp] {defs : Option Index}

/-- An answer leaves the baseline as it is. -/
theorem Holder.apply_baseline (s : Holder) (ans : Answer) (gen : Int) (sent : Seconds) :
    (s.apply defs ans gen sent).1.lastTick = s.lastTick ∧
    (s.apply defs ans gen sent).1.lastSkew = s.lastSkew := by
  rw [Holder.apply]
  split
  · exact ⟨rfl, rfl⟩
  · split <;> exact ⟨rfl, rfl⟩

/-- In the wait the baseline is the rest's. -/
def Loop.Based (l : Loop) : Prop :=
  ∀ t r, l.stage = .waiting t r → l.holder.lastTick = some r.boot ∧ l.holder.lastSkew = r.skew

theorem Loop.based_step {l : Loop} (hl : l.Based) (o : LoopOp) : (l.step defs o).1.Based := by
  intro t r hstage
  cases o with
  | tick now => cases hstage
  | answer ans gen sent =>
      have hsame := @Holder.apply_baseline _ defs l.holder ans gen sent
      exact ⟨hsame.1.trans (hl t r hstage).1, hsame.2.trans (hl t r hstage).2⟩
  | rest now =>
      have hnow : now = r := by
        revert hstage
        cases hs : l.stage <;> simp [Loop.step, Stage.next, hs]
      exact hnow ▸ ⟨rfl, rfl⟩

theorem Loop.based_run {ok : Loop → LoopOp → Prop} {s₀ : Holder} {h : List (List Note)} {l : Loop}
    (hr : Reach (Loop.step defs) ok ⟨s₀, .started⟩ h l) : l.Based :=
  @Reach.invariant _ _ _ _ _ _ (fun _ l => l.Based) (by rintro t r ⟨⟩)
    (fun _ _ o _ hl => Loop.based_step hl o) _ _ hr

omit [Interp] in
/-- **What a tick notices**: the clocks moved since the rest. -/
theorem Loop.stalled_iff {l : Loop} (hl : l.Based) {tick rest now : Reading}
    (hstage : l.stage = .waiting tick rest) : l.holder.stalled now.boot now.wall = true ↔
    Jolted rest now := by
  obtain ⟨htick, hskew⟩ := hl tick rest hstage
  rw [Holder.stalled, htick, hskew, Option.any_some, Bool.or_eq_true, decide_eq_true_eq,
    decide_eq_true_eq, Jolted, or_comm]
  rfl

/-! ## What is held after a stall -/

/-- Every held view was adopted for its shard. -/
def AdoptedShards (log : List Note) (shards : Dict (Option Str) Held) : Prop :=
  ∀ name h, shards.get? name = some h → h.shard ∈ adoptedViews name log

omit [Interp] in
theorem mem_adoptedViews_cons {name : Option Str} {log : List Note} {v : Shard} (n : Note)
    (h : v ∈ adoptedViews name log) : v ∈ adoptedViews name (n :: log) := by
  unfold adoptedViews
  split
  · contradiction
  · next hn =>
      obtain ⟨rfl, rfl⟩ := List.cons.inj hn
      split
      · exact List.mem_cons_of_mem _ h
      · exact h
  · next hn =>
      obtain ⟨rfl, rfl⟩ := List.cons.inj hn
      exact h

theorem adoptedShards_preserved (defs : Option Index) : Preserved defs anyOp AdoptedShards where
  rolledBack log shards hI name h hget := by
    rw [Dict.get?_map, Option.map_eq_some_iff] at hget
    obtain ⟨x, hx, rfl⟩ := hget
    exact mem_adoptedViews_cons _ (hI name x hx)
  newer _ _ _ _ name h hget := by simp at hget
  accepted _ _ _ hI name h hget := mem_adoptedViews_cons _ (hI name h hget)
  invalidated _ _ _ _ _ _ _ name h hget := by simp at hget
  answered s ans gen sent _ a _ log shards newer h effect hacc hI hans name held hget := by
    rcases hans.get?_store hget with ⟨rfl, rfl⟩ | ⟨-, hold⟩
    · generalize hx : shards.get? a.shard = old at hans
      cases hans with
      | kept => exact mem_adoptedViews_cons _ (hI _ _ hx)
      | renewed x => exact mem_adoptedViews_cons _ (hI _ x hx)
      | stopped x => exact mem_adoptedViews_cons _ (hI _ x hx)
      | closed x => exact mem_adoptedViews_cons _ (hI _ x hx)
      | adopted => simp [adoptedViews]
    · exact mem_adoptedViews_cons _ (hI name held hold)

/-- A run of the loop is a run of the holder. -/
theorem Loop.holder_run {ok : Loop → LoopOp → Prop} {l₀ l : Loop} {h : List (List Note)}
    (hr : Reach (Loop.step defs) ok l₀ h l) :
    Reach (Holder.step defs) anyOp l₀.holder h l.holder := by
  induction hr with
  | nil => exact .nil
  | snoc o _ _ ih => exact .snoc o.op trivial ih

/-- Neither lookup is answered. -/
def Holder.Refuses (s : Holder) : Prop :=
  (∀ resourceType risk now, s.answering resourceType risk now = none) ∧
    ∀ resourceType, s.answeringStale resourceType = none

omit [Interp] in
theorem Holder.refuses_of_empty {s : Holder} (h : s.shards = Dict.empty) : s.Refuses := by
  constructor <;> intros
  · rw [Holder.answering, h]
    rfl
  · rw [Holder.answeringStale, h]
    rfl

/-- **A stall invalidates the view.** Where the clocks jumped against each other between
two ticks, or the wait before the later one took too long, the later tick leaves nothing
a lookup is answered from, and whatever is held afterwards was adopted afterwards; in
every run of the loop whose ticks are noticed. -/
theorem stall_invalidates {s₀ : Holder} {h : List (List Note)} {l : Loop}
    (hr : Reach (Loop.step defs) Loop.noticing ⟨s₀, .started⟩ h l) {tick rest now : Reading}
    (hok : l.noticing (.tick now)) (hstage : l.stage = .waiting tick rest)
    (hjump : Jumped tick rest now) : (l.step defs (.tick now)).1.holder.Refuses ∧
      ∀ h' l', Reach (Loop.step defs) Loop.inOrder (l.step defs (.tick now)).1 h' l' →
        AdoptedShards h'.flatten l'.holder.shards := by
  have hjolt : Jolted rest now := by
    have hnoticed := hok.2
    rw [Loop.Noticed, hstage] at hnoticed
    exact hnoticed hjump
  have hstalled := (Loop.stalled_iff (Loop.based_run hr) hstage).mpr hjolt
  have hempty : (l.step defs (.tick now)).1.holder.shards = Dict.empty := by
    simp only [Loop.step, LoopOp.op, Holder.step, Holder.tick, hstalled, if_true]
  refine ⟨Holder.refuses_of_empty hempty, fun h' l' hr' => ?_⟩
  refine (adoptedShards_preserved defs).run (Loop.holder_run hr') ?_
  rw [hempty]
  intro name held hget
  simp at hget

end

/-- An answer that changes the sample shard. -/
def sampleAnswer : Answer where
  shards :=
    [{ shard := some (str "s"), status := .changed,
       view := some (.shard (sampleShard [revision "5"] [])) }]

/-- A cycle of the loop, from the reading of its tick to that of its rest. -/
def cycleOps (tick rest : Reading) : List LoopOp :=
  [.tick tick, .answer sampleAnswer 1 tick.boot, .rest rest]

/-- A wall clock that jumps during the wait. -/
theorem stall_invalidates_wait : ∃ l :
    Loop, (∃ h, Reach (@Loop.step Interp.ascii none) Loop.noticing
      ⟨Holder.start, .started⟩ h l) ∧ l.holder.shards.entries ≠ [] ∧
    (@Loop.step Interp.ascii none l (.tick ⟨3, 23⟩)).1.holder.Refuses :=
  have hr := @reach_of_allAllowed _ _ _ (@Loop.step Interp.ascii none) Loop.noticing _
    (cycleOps ⟨0, 10⟩ ⟨1 / 2, 21 / 2⟩) ⟨Holder.start, .started⟩ (by decide +kernel)
  ⟨_, ⟨_, hr⟩, by decide +kernel,
    (@stall_invalidates Interp.ascii none _ _ _ hr ⟨0, 10⟩ ⟨1 / 2, 21 / 2⟩ ⟨3, 23⟩
      (by decide +kernel) rfl (by decide +kernel)).1⟩

/-- **A stall goes unnoticed**: the wall clock jumps by ten seconds during the
verification, and the view is served after the next tick. -/
theorem stall_unnoticed : ∃ (h : List (List Note)) (l : Loop) (tick rest now : Reading),
    Reach (@Loop.step Interp.ascii none) Loop.inOrder ⟨Holder.start, .started⟩ h l ∧
    l.inOrder (.tick now) ∧ l.stage = .waiting tick rest ∧ tStall < |now.skew - tick.skew| ∧
    ((@Loop.step Interp.ascii none l (.tick now)).1.holder.answering (str "doc")
      (str "low") now.boot).isSome = true :=
  ⟨_, _, ⟨0, 10⟩, ⟨1 / 2, 41 / 2⟩, ⟨3, 23⟩,
    @reach_of_allAllowed _ _ _ (@Loop.step Interp.ascii none) Loop.inOrder _
    (cycleOps ⟨0, 10⟩ ⟨1 / 2, 41 / 2⟩) ⟨Holder.start, .started⟩
    (by decide +kernel), by decide +kernel, rfl, by decide +kernel, by decide +kernel⟩

end BeSdk
