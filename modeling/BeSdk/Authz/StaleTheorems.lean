/-
BeSdk.Authz.StaleTheorems — when a lookup is answered from a stale source.

A held shard that is not stopped carries in `sourceStale` what the last accepted
answer that mentions it said, and in `highAt` the send time of the last renewal that
was not read-only since the shards were last cleared (`Traced`). Both survive every
way an answer changes a shard, so a stale grant says what the log says.

* `stale_lookup_traced`: a stale grant is for a tightening operation the ordinary
  lookup found no shard for; its shard was last mentioned read-only or closed, and was
  fully renewed once. `since` is that renewal's send time on the suspend-aware clock,
  carried over to the wall clock by the difference the two have NOW.
* `since_moved`: where the clocks moved against each other in between, within what a
  tick lets pass, `since` is not what the wall clock showed at the renewal.
-/
import BeSdk.Authz.Loop

namespace BeSdk

/-! ## What the log says of a shard -/

/-- The last word of an accepted answer on a shard. -/
def lastMention (name : Option Str) : List Note → Option ShardAnswer
  | [] => none
  | .answered _ a _ :: log => if a.shard = name ∧ a.speaks = true then some a
      else lastMention name log
  | _ :: log => lastMention name log

/-- The member says that its source is stale. -/
def ShardAnswer.saysStale (a : ShardAnswer) : Prop := a.readOnly = true ∨ a.status = .closed

/-- The note is no renewal of the shard that is not read-only. -/
def Note.notFull (name : Option Str) : Note → Prop
  | .answered sent a effect => ¬ (Note.answered sent a effect).renewsAt name sent true
  | _ => True

/-- Nothing takes the shard's evidence away, and nothing fully renews it. -/
def Note.leaves (name : Option Str) (n : Note) : Prop := n.undisturbing name ∧ n.notFull name

/-- The last renewal of the shard that was not read-only was sent at `S`, and the shard
was neither cleared nor stopped since. -/
def LastFull (name : Option Str) (S : Seconds) (log : List Note) : Prop :=
  Since (Note.leaves name) (Note.renewsAt name S true) log

instance (name : Option Str) (S : Seconds) (high : Bool) :
    DecidablePred fun n => Note.renewsAt name S high n
  | .answered _ _ effect => by cases effect <;> simp only [Note.renewsAt] <;> infer_instance
  | .rolledBack => inferInstanceAs (Decidable False)
  | .accepted _ _ => inferInstanceAs (Decidable False)
  | .invalidated => inferInstanceAs (Decidable False)

instance (name : Option Str) : DecidablePred (Note.leaves name)
  | .answered sent a effect => by cases effect <;>
      simp only [Note.leaves, Note.undisturbing, Note.notFull] <;> infer_instance
  | .rolledBack => inferInstanceAs (Decidable (True ∧ True))
  | .accepted _ newer => inferInstanceAs (Decidable (newer = false ∧ True))
  | .invalidated => inferInstanceAs (Decidable (False ∧ True))

instance (name : Option Str) (S : Seconds) (log : List Note) : Decidable (LastFull name S log) :=
  inferInstanceAs (Decidable (Since _ _ _))

/-- What the log says of a held shard that is not stopped. -/
structure Traced (name : Option Str) (log : List Note) (h : Held) : Prop where
  mention : ∃ a, lastMention name log = some a ∧ (h.sourceStale = true ↔ a.saysStale)
  full : ∀ S, h.highAt = some S → LastFull name S log

def TracedShards (log : List Note) (shards : Dict (Option Str) Held) : Prop :=
  ∀ name h, shards.get? name = some h → h.stopped = false → Traced name log h

/-- A note that says nothing of the shard leaves what the log says of it. -/
theorem Traced.cons {name : Option Str} {log : List Note} {h : Held} {n : Note}
    (ht : Traced name log h) (hleaves : n.leaves name)
    (hmention : lastMention name (n :: log) = lastMention name log) :
    Traced name (n :: log) h where
  mention := by rw [hmention]; exact ht.mention
  full S hS := (ht.full S hS).cons hleaves

section
variable [Interp]

theorem tracedShards_preserved (defs : Option Index) : Preserved defs anyOp TracedShards where
  rolledBack log shards hI name h hget hst := by
    rw [Dict.get?_map, Option.map_eq_some_iff] at hget
    obtain ⟨x, hx, rfl⟩ := hget
    have ht := hI name x hx hst
    exact ⟨ht.mention, fun S hS => (ht.full S hS).cons ⟨trivial, trivial⟩⟩
  newer _ _ _ _ name h hget := by simp at hget
  accepted _ _ _ hI name h hget hst := (hI name h hget hst).cons ⟨rfl, trivial⟩ rfl
  invalidated _ _ _ _ _ _ _ name h hget := by simp at hget
  answered s ans gen sent _ a _ log shards newer h effect hacc hI hans name held hget hst := by
    rcases hans.get?_store hget with ⟨rfl, rfl⟩ | ⟨hne, hold⟩
    · generalize hx : shards.get? a.shard = old at hans
      cases hans with
      | kept _ hsilent =>
          exact (hI _ held hx hst).cons ⟨trivial, fun hr => hr.2.2.2.2⟩
            (by simp [lastMention, hsilent held rfl hst])
      | closed x hstatus =>
          have ht := hI _ x hx hst
          refine ⟨⟨a, by simp [lastMention, ShardAnswer.speaks, hstatus], by
            simp [ShardAnswer.saysStale, hstatus]⟩,
              fun S hS => (ht.full S hS).cons ⟨trivial, fun hr => hr.2.2.2.2⟩⟩
      | stopped => cases hst
      | renewed x hstop hstatus =>
          have ht := hI _ x hx hstop
          refine ⟨⟨a, by simp [lastMention, ShardAnswer.speaks, hstatus], by
            simp [ShardAnswer.saysStale, hstatus]⟩, fun S hS => ?_⟩
          cases hro : a.readOnly with
          | true =>
              exact (ht.full S (by simpa [hro] using hS)).cons ⟨trivial,
                fun hr => by simpa [hro] using hr.2.2.2.1 rfl⟩
          | false =>
              obtain rfl : sent = S := by simpa [hro] using hS
              exact Or.inl ⟨rfl, rfl, Or.inl hstatus, fun _ => hro, trivial⟩
      | adopted _ v view hstop hstatus hview =>
          refine ⟨⟨a, by simp [lastMention, ShardAnswer.speaks, hstatus, hview],
            by simp [ShardAnswer.saysStale, hstatus]⟩, fun S hS => ?_⟩
          cases hro : a.readOnly with
          | false =>
              obtain rfl : sent = S := by simpa [hro] using hS
              exact Or.inl ⟨rfl, rfl, Or.inr hstatus, fun _ => hro, trivial⟩
          | true =>
              -- the high-risk validity is the replaced shard's
              obtain ⟨x, rfl, hxS⟩ := Option.bind_eq_some_iff.mp (by simpa [hro] using hS)
              exact ((hI _ x hx (hstop x rfl)).full S hxS).cons ⟨trivial,
                fun hr => by simpa [hro] using hr.2.2.2.1 rfl⟩
    · refine (hI name held hold hst).cons ⟨?_, fun hr => hne hr.2.1.symm⟩
        (by simp [lastMention, Ne.symm hne])
      cases effect with
      | stopped => exact Ne.symm hne
      | _ => trivial

/-! ## Stale grants -/

omit [Interp] in
theorem Held.answersStale_iff {h : Held} {resourceType : Str} :
    h.answersStale resourceType = true ↔ h.sourceStale = true ∧ (∃ S, h.highAt = some S) ∧
    h.stopped = false ∧
      h.suspended = false ∧ resourceType ∈ h.shard.applicability := by
  simp [Held.answersStale, Option.isSome_iff_exists, and_assoc]

omit [Interp] in
theorem Holder.of_lookupStale {s : Holder} {now wall : Seconds} {resourceType principal : Str}
    {g : Grant} (hg : s.lookupStale now wall resourceType principal = .ok g) :
    ∃ name h S, s.answeringStale resourceType = some (name, h) ∧ h.highAt = some S ∧
      g.since = some (wall + (S - now)) ∧ g.segments = h.shard.segmentsFor resourceType
      principal := by
  rw [Holder.lookupStale] at hg
  split at hg
  · cases hg
  next name h ha =>
    obtain ⟨-, ⟨S, hS⟩, -⟩ := Held.answersStale_iff.mp (s.of_answeringStale ha).2
    refine ⟨name, h, S, ha, hS, ?_⟩
    cases hg
    simp [hS]

omit [Interp] in
/-- A stale grant of a lookup for an operation is the stale lookup's, where the ordinary
one finds no shard. -/
theorem Holder.of_lookupFor_stale {s : Holder} {now nowStale wall : Seconds}
    {resourceType principal risk : Str} {tighteningOnly : Bool} {g : Grant}
    (hg : s.lookupFor now nowStale wall resourceType principal risk tighteningOnly = .ok g)
    (hstale : g.stale = true) : tighteningOnly = true ∧ s.answering resourceType risk now = none ∧
      s.lookupStale nowStale wall resourceType principal = .ok g := by
  rw [Holder.lookupFor] at hg
  split at hg
  · next g' hl =>
      obtain rfl := Except.ok.inj hg
      rw [Holder.lookup] at hl
      split at hl
      · cases hl
      · obtain rfl := Except.ok.inj hl
        cases hstale
  · next e hl =>
      split at hg
      · next hfall =>
          refine ⟨(Bool.and_eq_true_iff.mp hfall).1, ?_, hg⟩
          rw [Holder.lookup] at hl
          split at hl
          · assumption
          · cases hl
      · cases hg
  · cases hg

/-- What a stale lookup's grant says of the past. -/
structure StaleGrant (s : Holder) (log : List Note) (now wall : Seconds)
    (resourceType principal : Str) (g : Grant) : Prop where
  /-- The shard it comes from, and that shard's last full renewal. -/
  source : ∃ name h S, s.shards.get? name = some h ∧ resourceType ∈ h.shard.applicability ∧
    h.stopped = false ∧ h.suspended = false ∧
    g.segments = h.shard.segmentsFor resourceType principal ∧
    (∃ a, lastMention name log = some a ∧ a.saysStale) ∧ LastFull name S log ∧
    g.since = some (wall + (S - now))

/-- **A stale lookup's grant** comes from a shard that was last mentioned read-only or
closed. -/
theorem staleGrant_of_lookupStale {defs : Option Index} {h : List (List Note)} {s : Holder}
    (hr : Reach (Holder.step defs) anyOp Holder.start h s)
    {now wall : Seconds} {resourceType principal : Str}
    {g : Grant} (hg : s.lookupStale now wall resourceType principal = .ok g) :
    StaleGrant s h.flatten now wall resourceType principal g := by
  have hinv := (tracedShards_preserved defs).run hr
    (by intro name h hget; simp [Holder.start] at hget)
  obtain ⟨name, held, S, ha, hS, hsince, hsegs⟩ := s.of_lookupStale hg
  obtain ⟨hget, hans⟩ := s.of_answeringStale ha
  obtain ⟨hstale, -, hstop, hsusp, happ⟩ := Held.answersStale_iff.mp hans
  have ht := hinv name held hget hstop
  obtain ⟨a, hmention, hsays⟩ := ht.mention
  exact ⟨name, held, S, hget, happ, hstop, hsusp, hsegs, ⟨a, hmention, hsays.mp hstale⟩,
    ht.full S hS, hsince⟩

/-- **The stale fallback serves only tightening operations on a source the member itself
called stale.** A shard whose last mention was a full renewal refuses. -/
theorem stale_lookup_traced {defs : Option Index} {h : List (List Note)} {s : Holder}
    (hr : Reach (Holder.step defs) anyOp Holder.start h s) (resourceType principal : Str) :
    (∀ now nowStale wall risk tighteningOnly g,
      s.lookupFor now nowStale wall resourceType principal risk tighteningOnly = .ok g →
      g.stale = true → tighteningOnly = true ∧ s.answering resourceType risk now = none ∧
        StaleGrant s h.flatten nowStale wall resourceType principal g) ∧
    (∀ now wall g, s.lookupStale now wall resourceType principal = .ok g →
      StaleGrant s h.flatten now wall resourceType principal g) ∧
    ∀ name held a, s.answeringStale resourceType = some (name, held) → lastMention name
    h.flatten = some a →
      ¬ (a.readOnly = false ∧ a.status ≠ .closed) := by
  refine ⟨fun now nowStale wall risk tighteningOnly g hg hstale => ?_,
    fun now wall g hg => staleGrant_of_lookupStale hr hg, fun name held a ha hmention hfull => ?_⟩
  · obtain ⟨htight, hnone, hg⟩ := s.of_lookupFor_stale hg hstale
    exact ⟨htight, hnone, staleGrant_of_lookupStale hr hg⟩
  · obtain ⟨hget, hans⟩ := s.of_answeringStale ha
    obtain ⟨hstale, -, hstop, -⟩ := Held.answersStale_iff.mp hans
    have ht := (tracedShards_preserved defs).run hr
      (by intro name h hget; simp [Holder.start] at hget)
    obtain ⟨b, hb, hsays⟩ := (ht name held hget hstop).mention
    rw [hmention] at hb
    obtain rfl := Option.some.inj hb
    rcases hsays.mp hstale with hro | hclosed
    · rw [hro] at hfull
      cases hfull.1
    · exact hfull.2 hclosed

end

/-- A wall clock that steps forward by one second at 2. -/
def steppedWall (t : Seconds) : Seconds := 1000 + t + if 2 ≤ t then 1 else 0

/-- A full renewal at 0, two ticks, and the word that the shard is closed. -/
def closedOps : List Op :=
  [.tick 0 (steppedWall 0), .apply sampleAnswer 1 0, .rest 1 (steppedWall 1),
    .tick 3 (steppedWall 3), .apply { shards :=
      [{ shard := some (str "s"), status := .closed }] } 1 3]

/-- The holder after them. -/
def closedHolder : Holder := (runOps (@Holder.step Interp.ascii none) Holder.start closedOps).2

theorem closedHolder_stale : ∃ g, closedHolder.lookupFor 40 40 (steppedWall 40) (str "doc")
    (str "p") (str "low") true = .ok g ∧ g.stale = true ∧ g.since = some 1001 := by
  have hg : (closedHolder.lookupFor 40 40 (steppedWall 40) (str "doc") (str "p") (str "low")
    true).toOption.any
      (fun g => g.stale && decide (g.since = some 1001)) = true := by decide +kernel
  obtain ⟨g, hsome, hany⟩ := Option.any_eq_true .. |>.mp hg
  rw [Bool.and_eq_true, decide_eq_true_eq] at hany
  refine ⟨g, ?_, hany⟩
  revert hsome
  cases closedHolder.lookupFor 40 40 (steppedWall 40) (str "doc") (str "p") (str "low") true with
  | error e => intro h; cases h
  | ok g' => intro h; cases h; rfl

/-- The tightening operation is decided on the closed shard. -/
theorem stale_lookup_traced_closed : ∃ (h : List (List Note)) (g : Grant),
    closedHolder.lookupFor 40 40 (steppedWall 40) (str "doc") (str "p")
    (str "low") true = .ok g ∧ g.stale = true ∧ StaleGrant closedHolder h.flatten 40
    (steppedWall 40) (str "doc") (str "p") g := by
  obtain ⟨g, hg, hstale, -⟩ := closedHolder_stale
  have hr := reach_runOps (@Holder.step Interp.ascii none) closedOps Holder.start
  exact ⟨_, g, hg, hstale,
    ((@stale_lookup_traced Interp.ascii none _ _ hr (str "doc") (str "p")).1 40 40 _ _ true g hg
    hstale).2.2⟩

/-- **`since` moved**: the wall clock stepped after the last full renewal, by less than a
stall, and `since` is not what it showed then. -/
theorem since_moved : ∃ (h : List (List Note)) (s : Holder) (g : Grant) (S : Seconds),
    Reach (@Holder.step Interp.ascii none) anyOp Holder.start h s ∧
    s.lookupFor 40 40 (steppedWall 40) (str "doc") (str "p") (str "low") true = .ok g ∧
    g.stale = true ∧ LastFull (some (str "s")) S h.flatten ∧ g.since ≠ some (steppedWall S) := by
  obtain ⟨g, hg, hstale, hsince⟩ := closedHolder_stale
  refine ⟨_, closedHolder, g, 0, reach_runOps _ closedOps _, hg, hstale, by decide +kernel, ?_⟩
  rw [hsince]
  decide +kernel

end BeSdk
