/-
BeSdk.Authz.AnswerTheorems — an answer is all or nothing: an answer that raises leaves
the view as it was, another is processed whole.

The acceptance table is a relation of its own here: `Takes` says what an accepted
answer's word on one shard makes of what is held, `Processed` takes the shards of the
answer in turn, `Settled` is the whole table. The code computes it
(`takes_iff_answered`) as long as nothing raises, and what raises is one thing: a
comparison with a revision whose epoch or value is no number (`goesBack_raises`). The
shards before it have been processed by then, so the answer is torn where they were
not left as they were (`Holder.Torn`).
-/
import BeSdk.Authz.ViewTheorems

namespace BeSdk

/-! ## What raises -/

section
variable [Interp]

/-- A part of an epoch is a number; an empty one stands for zero. -/
def NumberReads (s : Str) : Prop := s = [] ∨ (toInt s).isSome = true

/-- Both parts of an epoch are numbers. -/
def EpochReads (e : Str) : Prop :=
  NumberReads (partitionDot (if e = [] then str "0.0" else e)).1 ∧
    NumberReads (partitionDot (if e = [] then str "0.0" else e)).2

/-- The comparison of two revisions of a domain meets a text that is no number: an
epoch, or, under one epoch, a value with more digits than the integer parser takes. -/
def RevisionRef.Incomparable (new held : RevisionRef) : Prop :=
  ¬ EpochReads new.epoch ∨ ¬ EpochReads held.epoch ∨
    (new.epoch = held.epoch ∧ isInteger new.value = true ∧ isInteger held.value = true ∧
      (¬ NumberReads new.value ∨ ¬ NumberReads held.value))

/-- The same of the revisions of a view, which are compared in turn until one goes back. -/
def Incomparable (held new : List RevisionRef) : Prop :=
  ∃ pre r post o, new = pre ++ r :: post ∧ revisionOf held r.domain = some o ∧ r.Incomparable o ∧
    ∀ q ∈ pre, ∀ p, revisionOf held q.domain = some p → q.goesBack p = .ok false

theorem intOrZero_raises (s : Str) : Raises .valueError (intOrZero s) (¬ NumberReads s) := by
  unfold intOrZero NumberReads
  by_cases hs : s = []
  · rw [if_pos hs]
    exact (Raises.of_ok rfl).congr (by simp [hs])
  · rw [if_neg hs]
    cases hn : toInt s with
    | none => exact .inl ⟨by simp [hs], rfl⟩
    | some n => exact (Raises.of_ok rfl).congr (by simp)

theorem readEpoch_raises (e : Str) : Raises .valueError (readEpoch e) (¬ EpochReads e) := by
  unfold readEpoch EpochReads
  have hparts := (intOrZero_raises (partitionDot (if e = [] then str "0.0" else e)).1).bind
    fun g _ =>
    (intOrZero_raises (partitionDot (if e = [] then str "0.0" else e)).2).bind fun t _ =>
      Raises.of_ok (a := (toLex (g, t) : Int ×ₗ Int)) rfl
  exact hparts.congr (by rw [or_false, not_and_or])

/-- Two equal epochs are compared as equal, so nothing is read of the values elsewhere. -/
theorem RevisionRef.goesBack_raises (new held : RevisionRef) :
    Raises .valueError (new.goesBack held) (new.Incomparable held) := by
  unfold RevisionRef.goesBack RevisionRef.Incomparable
  refine (readEpoch_raises new.epoch).bind fun n hn => (readEpoch_raises held.epoch).bind
    fun o ho => ?_
  by_cases hearlier : n < o
  · have hne : new.epoch ≠ held.epoch := by
      intro heq
      rw [heq, ho] at hn
      exact absurd hearlier (Except.ok.inj hn ▸ lt_irrefl _)
    rw [if_pos hearlier]
    exact (Raises.of_ok rfl).congr (by simp [hne])
  rw [if_neg hearlier]
  by_cases hsame : new.epoch = held.epoch ∧ isInteger new.value = true ∧ isInteger held.value = true
  · obtain ⟨hepoch, hnew, hheld⟩ := hsame
    rw [if_pos ⟨hepoch, hnew, hheld⟩]
    have hvalues := (intOrZero_raises new.value).bind fun a _ =>
      (intOrZero_raises held.value).bind fun b _ => Raises.of_ok (a := decide (a < b)) rfl
    exact hvalues.congr (by simp [hepoch, hnew, hheld])
  · rw [if_neg hsame]
    exact (Raises.of_ok rfl).congr ⟨False.elim, fun h => hsame ⟨h.1, h.2.1, h.2.2.1⟩⟩

theorem incomparable_cons {held rest : List RevisionRef} {r : RevisionRef} :
    Incomparable held (r :: rest) ↔ (∃ o, revisionOf held r.domain = some o ∧ r.Incomparable o) ∨
      ((∀ p, revisionOf held r.domain = some p → r.goesBack p = .ok false) ∧
        Incomparable held rest) := by
  constructor
  · intro h
    obtain ⟨pre, q, post, o, heq, ho, hq, hpre⟩ := h
    cases pre with
    | nil =>
      obtain ⟨rfl, rfl⟩ := List.cons.inj heq
      exact .inl ⟨o, ho, hq⟩
    | cons p pre =>
      obtain ⟨rfl, rfl⟩ := List.cons.inj heq
      rw [List.forall_mem_cons] at hpre
      exact .inr ⟨hpre.1, pre, q, post, o, rfl, ho, hq, hpre.2⟩
  · intro h
    rcases h with ⟨o, ho, hr⟩ | ⟨hr, pre, q, post, o, rfl, ho, hq, hpre⟩
    · exact ⟨[], r, rest, o, rfl, ho, hr, by simp⟩
    · exact ⟨r :: pre, q, post, o, rfl, ho, hq, List.forall_mem_cons.mpr ⟨hr, hpre⟩⟩

theorem goesBack_raises (held new : List RevisionRef) :
    Raises .valueError (goesBack held new) (Incomparable held new) := by
  induction new with
  | nil => exact (Raises.of_ok rfl).congr (by simp [Incomparable])
  | cons r rest ih =>
    rw [goesBack]
    cases ho : revisionOf held r.domain with
    | none => exact ih.congr (by simp [incomparable_cons, ho])
    | some o =>
      have hr := (r.goesBack_raises o).bind (Q := r.goesBack o = .ok false ∧ Incomparable held rest)
        (f := fun back => if back then pure true else goesBack held rest) fun back hback => by
          cases back with
          | true => exact (Raises.of_ok rfl).congr (by simp [hback])
          | false => exact ih.congr (by simp [hback])
      exact hr.congr (by simp [incomparable_cons, ho])

end

/-! ## The acceptance table -/

section
variable [Interp] (defs : Option Index) (newer : Bool) (sent : Seconds)

/-- What an accepted answer's word on one shard makes of what is held of it. -/
inductive Takes (a : ShardAnswer) : Option Held → Option Held → Prop
  /-- The word is none of the table. -/
  | unspoken (h : Option Held) : a.speaks = false → Takes a h h
  /-- Nothing is held that could be renewed or closed. -/
  | unheld : a.status = .unchanged ∨ a.status = .closed → Takes a none none
  /-- A stopped shard is neither renewed nor replaced. -/
  | stopped (x : Held) : x.stopped = true → a.speaks = true → a.status ≠ .closed →
      Takes a (some x) (some x)
  | renewed (x : Held) : x.stopped = false → a.status = .unchanged →
      Takes a (some x)
        (some { x with sentAt := sent, suspended := false, sourceStale := a.readOnly,
                       highAt := if a.readOnly then x.highAt else some sent })
  /-- The view goes back against the held one: the shard is stopped. -/
  | back (x : Held) (v : View) (view : Shard) : x.stopped = false → a.status = .changed →
      a.view = some v → v.asShard = .ok view → regresses newer x.shard (view.fitting defs) =
      .ok true → Takes a (some x) (some { x with stopped := true })
  /-- The view is adopted. A read-only one has no high-risk validity of its own. -/
  | adopted (h : Option Held) (v : View) (view : Shard) : (∀ x, h = some x → x.stopped = false) →
      a.status = .changed → a.view = some v → v.asShard = .ok view →
      (∀ x, h = some x → regresses newer x.shard (view.fitting defs) = .ok false) →
      Takes a h
        (some { shard := view.fitting defs, sentAt := sent,
                highAt := if a.readOnly then h.bind Held.highAt else some sent,
                sourceStale := a.readOnly })
  | closed (x : Held) : a.status = .closed → Takes a (some x) (some { x with sourceStale := true })

/-- The shards of an answer processed by the table, in turn. -/
inductive Processed : List ShardAnswer → Dict (Option Str) Held → Dict (Option Str) Held → Prop
  | nil (shards : Dict (Option Str) Held) : Processed [] shards shards
  | cons {a : ShardAnswer} {rest : List ShardAnswer} {shards shards' : Dict (Option Str) Held}
      {h : Option Held} : Takes defs newer sent a (shards.get? a.shard) h →
      Processed rest (store a.shard h shards) shards' → Processed (a :: rest) shards shards'

/-- A shard's view cannot be compared with what is held of the shard. -/
def ShardAnswer.Incomparable (a : ShardAnswer) (h : Option Held) : Prop :=
  newer = false ∧ a.status = .changed ∧ ∃ x v view, h = some x ∧ x.stopped = false ∧
    a.view = some v ∧ v.asShard = .ok view ∧ BeSdk.Incomparable x.shard.securityRevisions
    (view.fitting defs).securityRevisions

end

section
variable [Interp] {defs : Option Index} {newer : Bool} {sent : Seconds}

theorem regresses_raises (newer : Bool) (held view : Shard) :
    Raises .valueError (regresses newer held view)
    (newer = false ∧ Incomparable held.securityRevisions view.securityRevisions) := by
  unfold regresses
  cases newer with
  | true => exact (Raises.of_ok rfl).congr (by simp)
  | false => exact (goesBack_raises _ _).congr (by simp)

/-- The view of a shard's answer decodes. -/
def ShardAnswer.Decodes (a : ShardAnswer) : Prop :=
  ∀ v, a.view = some v → ∃ view, v.asShard = .ok view

/-- A changed shard that is not held stopped is processed, or cannot be compared. -/
theorem changed_takes {a : ShardAnswer} {v : View} {view : Shard} {h : Option Held}
    (hst : a.status = .changed) (hview : a.view = some v) (hshard : v.asShard = .ok view)
    (hopen : ∀ x, h = some x → x.stopped = false) :
    (∃ h', Takes defs newer sent a h h') ∨ a.Incomparable defs newer h := by
  cases h with
  | none => exact .inl ⟨_, .adopted none v view hopen hst hview hshard (by simp)⟩
  | some x =>
    rcases regresses_raises newer x.shard (view.fitting defs) with ⟨hinc, -⟩ | ⟨-, back, hback⟩
    · exact .inr ⟨hinc.1, hst, x, v, view, rfl, hopen x rfl, hview, hshard, hinc.2⟩
    · cases back with
      | true => exact .inl ⟨_, .back x v view (hopen x rfl) hst hview hshard hback⟩
      | false =>
        refine .inl ⟨_, .adopted (some x) v view hopen hst hview hshard ?_⟩
        intro y hy
        rw [← Option.some.inj hy, hback]

/-- The table says something of every shard, unless it cannot be compared. -/
theorem takes_or_incomparable (sent : Seconds) {a : ShardAnswer} (ha : a.Decodes)
    (h : Option Held) : (∃ h', Takes defs newer sent a h h') ∨ a.Incomparable defs newer h := by
  by_cases hspeaks : a.speaks = true
  case neg => exact .inl ⟨h, .unspoken h (by simpa using hspeaks)⟩
  cases hst : a.status with
  | unchanged =>
    cases h with
    | none => exact .inl ⟨_, .unheld (.inl hst)⟩
    | some x =>
      cases hx : x.stopped with
      | true => exact .inl ⟨_, .stopped x hx hspeaks (by simp [hst])⟩
      | false => exact .inl ⟨_, .renewed x hx hst⟩
  | closed =>
    cases h with
    | none => exact .inl ⟨_, .unheld (.inr hst)⟩
    | some x => exact .inl ⟨_, .closed x hst⟩
  | other text => simp [ShardAnswer.speaks, hst] at hspeaks
  | changed =>
    cases hview : a.view with
    | none => simp [ShardAnswer.speaks, hst, hview] at hspeaks
    | some v =>
      obtain ⟨view, hshard⟩ := ha v hview
      cases h with
      | none => exact changed_takes hst hview hshard (by simp)
      | some x =>
        cases hx : x.stopped with
        | true => exact .inl ⟨_, .stopped x hx hspeaks (by simp [hst])⟩
        | false =>
          refine changed_takes hst hview hshard ?_
          intro y hy
          rw [← Option.some.inj hy, hx]

/-- The code computes the table. -/
theorem answered_of_takes {a : ShardAnswer} {h h' : Option Held} (ha : a.Decodes)
    (ht : Takes defs newer sent a h h') :
    ∃ effect, Held.answered defs newer sent a h = .ok (h', effect) := by
  cases ht with
  | unspoken h hspeaks =>
    rw [ShardAnswer.speaks] at hspeaks
    cases hst : a.status with
    | other text => exact ⟨.kept, by simp [Held.answered, hst]⟩
    | changed =>
      have hview : a.view = none := by simpa [hst] using hspeaks
      exact ⟨.kept, by simp [Held.answered, hst, hview]⟩
    | unchanged => simp [hst] at hspeaks
    | closed => simp [hst] at hspeaks
  | unheld hst => rcases hst with hst | hst <;> exact ⟨.kept, by simp [Held.answered, hst]⟩
  | stopped x hx hspeaks hclosed =>
    cases hst : a.status with
    | unchanged => exact ⟨.kept, by simp [Held.answered, hst, hx]⟩
    | closed => exact absurd hst hclosed
    | other text => simp [ShardAnswer.speaks, hst] at hspeaks
    | changed =>
      cases hview : a.view with
      | none => simp [ShardAnswer.speaks, hst, hview] at hspeaks
      | some v =>
        obtain ⟨view, hshard⟩ := ha v hview
        exact ⟨.kept, by simp [Held.answered, hst, hview, hshard, hx, bind, Except.bind, pure,
          Except.pure]⟩
  | renewed x hx hst =>
    refine ⟨.renewed, ?_⟩
    cases hro : a.readOnly <;> simp [Held.answered, hst, hx, hro]
  | back x v view hx hst hview hshard hback =>
    exact ⟨.stopped, by simp [Held.answered, hst, hview, hshard, hx, hback, bind, Except.bind,
      pure, Except.pure]⟩
  | adopted h v view hopen hst hview hshard hforward =>
    refine ⟨.adopted (view.fitting defs), ?_⟩
    cases h with
    | none => cases hro : a.readOnly <;>
        simp [Held.answered, hst, hview, hshard, hro, bind, Except.bind, pure, Except.pure]
    | some x =>
      have hback := hforward x rfl
      cases hro : a.readOnly <;>
        simp [Held.answered, hst, hview, hshard, hopen x rfl, hback, hro, bind, Except.bind,
          pure, Except.pure]
  | closed x hst => exact ⟨.closed, by simp [Held.answered, hst]⟩

/-- A shard that cannot be compared raises. -/
theorem answered_of_incomparable {a : ShardAnswer} {h : Option Held}
    (ha : a.Incomparable defs newer h) :
    Held.answered defs newer sent a h = .error .valueError := by
  obtain ⟨hnewer, hst, x, v, view, rfl, hx, hview, hshard, hinc⟩ := ha
  have hraise := (regresses_raises newer x.shard (view.fitting defs)).error_iff.mpr
    ⟨rfl, hnewer, hinc⟩
  simp [Held.answered, hst, hview, hshard, hx, hraise, bind, Except.bind]

/-! ## The shards of an answer -/

/-- The shards before the rest of an answer, processed. -/
theorem answerShards_append {pre : List ShardAnswer} {shards shards' : Dict (Option Str) Held}
    (hpre : ∀ a ∈ pre, a.Decodes) (hp : Processed defs newer sent pre shards shards')
    (rest : List ShardAnswer) (notes : List Note) :
    ∃ notes', answerShards defs newer sent (pre ++ rest) shards notes =
      answerShards defs newer sent rest shards' notes' := by
  induction hp generalizing notes with
  | nil shards => exact ⟨notes, rfl⟩
  | @cons a pre shards shards' h ht hp ih =>
    rw [List.forall_mem_cons] at hpre
    obtain ⟨effect, heffect⟩ := answered_of_takes hpre.1 ht
    obtain ⟨notes', hnotes⟩ := ih hpre.2 (.answered sent a effect :: notes)
    refine ⟨notes', ?_⟩
    rw [List.cons_append, answerShards, heffect]
    exact hnotes

/-- An answer's shards are all processed, or those before one that cannot be compared. -/
theorem processed_or_incomparable (defs : Option Index) (newer : Bool) (sent : Seconds)
    {l : List ShardAnswer} (hl : ∀ a ∈ l, a.Decodes) (shards : Dict (Option Str) Held) :
    (∃ shards', Processed defs newer sent l shards shards') ∨
      ∃ pre a post shards', l = pre ++ a :: post ∧ Processed defs newer sent pre shards shards' ∧
        a.Incomparable defs newer (shards'.get? a.shard) := by
  induction l generalizing shards with
  | nil => exact .inl ⟨shards, .nil shards⟩
  | cons a l ih =>
    rw [List.forall_mem_cons] at hl
    rcases takes_or_incomparable sent hl.1 (shards.get? a.shard) with ⟨h, ht⟩ | hinc
    · rcases ih hl.2 (store a.shard h shards) with ⟨shards', hp⟩ | ⟨pre, b, post, shards',
        rfl, hp, hinc⟩
      · exact .inl ⟨shards', .cons ht hp⟩
      · exact .inr ⟨a :: pre, b, post, shards', rfl, .cons ht hp, hinc⟩
    · exact .inr ⟨[], a, l, shards, rfl, .nil shards, hinc⟩

/-- All shards processed: the code returns what the table leaves. -/
theorem answerShards_of_processed {l : List ShardAnswer} {shards shards' : Dict (Option Str) Held}
    (hl : ∀ a ∈ l, a.Decodes) (hp : Processed defs newer sent l shards shards')
    (notes : List Note) : ∃ notes', answerShards defs newer sent l shards notes =
    (shards', notes', none) := by
  obtain ⟨notes', hnotes⟩ := answerShards_append hl hp [] notes
  exact ⟨notes', by rw [List.append_nil] at hnotes; exact hnotes⟩

/-- A shard that cannot be compared: the code raises with the shards before it
processed. -/
theorem answerShards_of_incomparable {pre : List ShardAnswer} (post : List ShardAnswer)
    {a : ShardAnswer} {shards shards' : Dict (Option Str) Held} (hpre : ∀ b ∈ pre, b.Decodes)
    (hp : Processed defs newer sent pre shards shards')
    (ha : a.Incomparable defs newer (shards'.get? a.shard))
    (notes : List Note) : ∃ notes',
      answerShards defs newer sent (pre ++ a :: post) shards notes =
      (shards', notes', some .valueError) := by
  obtain ⟨notes', hnotes⟩ := answerShards_append hpre hp (a :: post) notes
  refine ⟨notes', ?_⟩
  rw [hnotes, answerShards, answered_of_incomparable ha]

end

/-! ## All or nothing -/

section
variable [Interp]

/-- The views of an answer, in order. -/
def Answer.views (ans : Answer) : Except Exc (List Shard) :=
  (ans.shards.filterMap ShardAnswer.view).mapM View.asShard

/-- What a settled answer made of the holder: a rollback suspends what is held, and
another answer has been processed by the table under its recovery generation. -/
def Holder.Settled (defs : Option Index) (s : Holder) (ans : Answer) (gen : Int) (sent : Seconds)
    (s' : Holder) : Prop :=
  ∃ views, ans.views = .ok views ∧
    if s.rollback ans gen views = true then
      s'.shards = s.shards.map (fun h => { h with suspended := true }) ∧ s'.recovery = s.recovery ∧
        s'.instance_ = s.instance_
    else
      Processed defs (s.newer gen) sent ans.shards (if s.newer gen then Dict.empty
        else s.shards) s'.shards ∧ s'.recovery = some gen ∧ s'.instance_ = ans.instance_

/-- What is held, the recovery generation and the instance are as before. -/
def Holder.Unchanged (s s' : Holder) : Prop :=
  s'.shards = s.shards ∧ s'.recovery = s.recovery ∧ s'.instance_ = s.instance_

/-- All or nothing: what raised left the holder unchanged, and what returned settled
the answer. -/
def Holder.AllOrNothing (defs : Option Index) (s : Holder) (ans : Answer) (gen : Int)
    (sent : Seconds) (result : Holder × List Note × Outcome) : Prop :=
  match result.2.2 with
  | .raised _ => s.Unchanged result.1
  | .returned _ => s.Settled defs ans gen sent result.1

/-- An answer that is torn: it is accepted under the recorded recovery generation, one of
its shards cannot be compared, and by then a shard before it has changed what is
held, or the answer's instance what is recorded. -/
def Holder.Torn (defs : Option Index) (s : Holder) (ans : Answer) (gen : Int)
    (sent : Seconds) : Prop :=
  (∃ views, ans.views = .ok views ∧ s.rollback ans gen views = false) ∧ s.recovery = some gen ∧
    ∃ pre a post shards, ans.shards = pre ++ a :: post ∧
    Processed defs false sent pre s.shards shards ∧
      a.Incomparable defs false (shards.get? a.shard) ∧
      (shards ≠ s.shards ∨ ans.instance_ ≠ s.instance_)

omit [Interp] in
theorem Answer.decodes_of_views {ans : Answer} {views : List Shard} (h : ans.views = .ok views) :
    ∀ a ∈ ans.shards, a.Decodes := by
  intro a ha v hv
  exact exists_ok_of_mapM h v (List.mem_filterMap.mpr ⟨a, ha, hv⟩)

omit [Interp] in
/-- Under the recorded generation or a lower one, not a rollback: it is the recorded. -/
theorem Holder.recovery_of_not_newer {s : Holder} {ans : Answer} {gen : Int} {views : List Shard}
    (hroll : s.rollback ans gen views = false) (hnewer : s.newer gen = false) :
    s.recovery = some gen := by
  rw [Holder.rollback, Bool.or_eq_false_iff] at hroll
  rw [Holder.newer] at hnewer
  cases hs : s.recovery with
  | none => simp [hs] at hnewer
  | some held =>
    have hge : held ≤ gen := by simpa [hs] using hroll.1
    have hle : gen ≤ held := by simpa [hs] using hnewer
    rw [le_antisymm hge hle]

variable {defs : Option Index} {s : Holder} {ans : Answer} {gen : Int} {sent : Seconds}

/-- `apply` of an answer with a view that does not decode. -/
theorem Holder.apply_undecoded {e : Exc} (hviews : ans.views = .error e) :
    s.apply defs ans gen sent = (s, [], .raised e) := by
  rw [Answer.views] at hviews
  rw [Holder.apply, hviews]

/-- `apply` of a rollback. -/
theorem Holder.apply_rollback {views : List Shard} (hviews : ans.views = .ok views)
    (hroll : s.rollback ans gen views = true) :
    s.apply defs ans gen sent =
      ({ s with shards := s.shards.map fun h => { h with suspended := true } }, [.rolledBack],
        .returned false) := by
  rw [Answer.views] at hviews
  rw [Holder.apply, hviews]
  dsimp only
  rw [if_pos hroll]

/-- `apply` past its rejections. -/
theorem Holder.apply_accepted {views : List Shard} (hviews : ans.views = .ok views)
    (hroll : s.rollback ans gen views = false)
    {shards : Dict (Option Str) Held} {notes : List Note} {raised : Option Exc}
    (hrun : answerShards defs (s.newer gen) sent ans.shards (if s.newer gen then Dict.empty
      else s.shards) [.accepted gen (s.newer gen)] = (shards, notes, raised)) :
    s.apply defs ans gen sent =
      ({ s with shards, recovery := some gen, instance_ := ans.instance_ }, notes,
        raised.elim (.returned true) .raised) := by
  rw [Answer.views] at hviews
  rw [Holder.apply, hviews]
  dsimp only
  rw [if_neg (by simp [hroll]), hrun]
  cases raised <;> rfl

/-- The run of a torn answer's shards stops at the one that cannot be compared. -/
theorem Holder.Torn.run (ht : s.Torn defs ans gen sent) : s.newer gen = false ∧ ∃ shards notes,
    answerShards defs false sent ans.shards s.shards [.accepted gen false] =
    (shards, notes, some .valueError) ∧
      (shards ≠ s.shards ∨ ans.instance_ ≠ s.instance_) := by
  obtain ⟨⟨views, hviews, -⟩, hrec, pre, a, post, shards, hsplit, hp, hinc, hchanged⟩ := ht
  have hdec : ∀ b ∈ pre, b.Decodes := by
    intro b hb
    exact Answer.decodes_of_views hviews b (by rw [hsplit]; exact List.mem_append_left _ hb)
  obtain ⟨notes, hrun⟩ := answerShards_of_incomparable post hdec hp hinc [.accepted gen false]
  rw [← hsplit] at hrun
  exact ⟨by simp [Holder.newer, hrec], shards, notes, hrun, hchanged⟩

/-- What `apply` does is all or nothing exactly where the answer is not torn. -/
theorem Holder.apply_all_or_nothing :
    s.AllOrNothing defs ans gen sent (s.apply defs ans gen sent) ↔ ¬ s.Torn defs ans gen sent := by
  cases hviews : ans.views with
  | error e =>
    rw [Holder.apply_undecoded hviews]
    refine iff_of_true ⟨rfl, rfl, rfl⟩ ?_
    intro htorn
    obtain ⟨⟨views, hviews', -⟩, -⟩ := htorn
    simp [hviews] at hviews'
  | ok views =>
  cases hroll : s.rollback ans gen views with
  | true =>
    rw [Holder.apply_rollback hviews hroll]
    refine iff_of_true ⟨views, hviews, ?_⟩ ?_
    · rw [if_pos hroll]
      exact ⟨rfl, rfl, rfl⟩
    · intro htorn
      obtain ⟨⟨views', hviews', hroll'⟩, -⟩ := htorn
      obtain rfl := Except.ok.inj (hviews.symm.trans hviews')
      simp [hroll] at hroll'
  | false =>
  have hdec := Answer.decodes_of_views hviews
  rcases processed_or_incomparable defs (s.newer gen) sent hdec
      (if s.newer gen then Dict.empty else s.shards) with
    ⟨shards', hp⟩ | ⟨pre, a, post, shards', hsplit, hp, hinc⟩
  · obtain ⟨notes, hrun⟩ := answerShards_of_processed hdec hp [.accepted gen (s.newer gen)]
    rw [Holder.apply_accepted hviews hroll hrun]
    refine iff_of_true ⟨views, hviews, ?_⟩ ?_
    · rw [if_neg (by simp [hroll])]
      exact ⟨hp, rfl, rfl⟩
    · intro htorn
      obtain ⟨hnewer, held, notes', hraised, -⟩ := htorn.run
      simp [hnewer, hraised] at hrun
  · have hnewer : s.newer gen = false := hinc.1
    have hrec := Holder.recovery_of_not_newer hroll hnewer
    have hdecpre : ∀ b ∈ pre, b.Decodes := by
      intro b hb
      exact hdec b (by rw [hsplit]; exact List.mem_append_left _ hb)
    obtain ⟨notes, hrun⟩ := answerShards_of_incomparable post hdecpre hp hinc
      [.accepted gen (s.newer gen)]
    rw [← hsplit] at hrun
    rw [Holder.apply_accepted hviews hroll hrun]
    simp only [hnewer, Bool.false_eq_true, if_false] at hp hinc hrun
    constructor
    · intro hunchanged htorn
      obtain ⟨hshards, -, hinstance⟩ := hunchanged
      obtain ⟨-, held, notes', hraised, hchanged⟩ := htorn.run
      obtain ⟨rfl, -⟩ := Prod.mk.inj (hraised.symm.trans hrun)
      exact hchanged.elim (fun h => h hshards) (fun h => h hinstance)
    · intro hwhole
      by_contra hchanged
      refine hwhole ⟨⟨views, hviews, hroll⟩, hrec, pre, a, post, shards', hsplit, hp, hinc, ?_⟩
      by_contra hsame
      rw [not_or, not_ne_iff, not_ne_iff] at hsame
      exact hchanged ⟨hsame.1, hrec.symm, hsame.2⟩

/-- The same of `verify`: a reply that names no recovery generation of this request
raises before anything is applied. -/
def Holder.VerifiedAllOrNothing (defs : Option Index) (s : Holder) (nonce : Str) (sent : Seconds)
    (reply : Except Exc Reply) (result : Holder × List Note × Outcome) : Prop :=
  match result.2.2 with
  | .raised _ => s.Unchanged result.1
  | .returned _ => ∃ r gen, reply = .ok r ∧ r.generation nonce = .ok gen ∧
      s.Settled defs r.answer gen sent result.1

theorem Holder.verify_all_or_nothing {nonce : Str} {reply : Except Exc Reply} :
    s.VerifiedAllOrNothing defs nonce sent reply (s.verify defs nonce sent reply) ↔
      ∀ r gen, reply = .ok r → r.generation nonce = .ok gen → ¬ s.Torn defs r.answer gen sent := by
  cases reply with
  | error e => exact iff_of_true ⟨rfl, rfl, rfl⟩ (by simp)
  | ok r =>
    cases hgen : r.generation nonce with
    | error e =>
      simp only [Holder.verify, hgen]
      refine iff_of_true ⟨rfl, rfl, rfl⟩ ?_
      intro r' gen' hr hgen'
      obtain rfl := Except.ok.inj hr
      simp [hgen] at hgen'
    | ok gen =>
      have hcond : (∀ r' gen', Except.ok r = (.ok r' : Except Exc Reply) →
        r'.generation nonce = .ok gen' →
          ¬ s.Torn defs r'.answer gen' sent) ↔ ¬ s.Torn defs r.answer gen sent := by
        constructor
        · intro h
          exact h r gen rfl hgen
        · intro h r' gen' hr hgen'
          obtain rfl := Except.ok.inj hr
          obtain rfl := Except.ok.inj (hgen.symm.trans hgen')
          exact h
      rw [hcond, ← Holder.apply_all_or_nothing]
      simp only [Holder.verify, hgen]
      unfold Holder.VerifiedAllOrNothing Holder.AllOrNothing
      cases (s.apply defs r.answer gen sent).2.2 with
      | raised e => exact Iff.rfl
      | returned accepted =>
        constructor
        · intro h
          obtain ⟨r', gen', hr, hgen', hsettled⟩ := h
          obtain rfl := Except.ok.inj hr
          obtain rfl := Except.ok.inj (hgen.symm.trans hgen')
          exact hsettled
        · intro h
          exact ⟨r, gen, rfl, hgen, h⟩

/-- **An answer is all or nothing**, exactly where it is not torn: `apply` raises and
leaves what is held, the recovery generation and the instance as they were, or it
returns and every shard of the answer has been processed by the acceptance table;
`verify` likewise, for the generation the reply names. -/
theorem answers_all_or_nothing (defs : Option Index) (s : Holder) (sent : Seconds) :
    (∀ (ans : Answer) (gen : Int),
      s.AllOrNothing defs ans gen sent (s.apply defs ans gen sent) ↔ ¬ s.Torn defs ans gen sent) ∧
    ∀ (nonce : Str) (reply : Except Exc Reply),
      s.VerifiedAllOrNothing defs nonce sent reply (s.verify defs nonce sent reply) ↔
        ∀ r gen, reply = .ok r → r.generation nonce = .ok gen → ¬ s.Torn defs r.answer gen sent :=
  ⟨fun _ _ => Holder.apply_all_or_nothing, fun _ _ => Holder.verify_all_or_nothing⟩

end

/-- An answer for two shards, each changed to a view with one revision. -/
def twoShards (epoch : String) : Answer where
  instance_ := str "i"
  shards := [
    { shard := some (str "s"), status := .changed, view := some (.shard (sampleShard [] [])) },
    { shard := some (str "t"), status := .changed,
      view := some (.shard (sampleShard [⟨some (str "d"), str "1", str epoch, str "i"⟩] [])) }]

/-- **A torn answer**: the second shard's epoch is no number, and the first is renewed by
the verification that fails. -/
theorem answer_torn :
    let s := (runOps (@Holder.step Interp.ascii none) Holder.start [.apply (twoShards "1.1") 1 0]).2
    let reply : Reply := ⟨some (str "n"), some (.str (str "1")), twoShards "one"⟩
    let failed := @Holder.verify Interp.ascii none s (str "n") 5 (.ok reply)
    failed.2.2 = .raised .valueError ∧
    (failed.1.shards.get? (some (str "s"))).map Held.sentAt = some 5 ∧
      (s.shards.get? (some (str "s"))).map Held.sentAt = some 0 ∧
      ¬ @Holder.VerifiedAllOrNothing Interp.ascii none s (str "n") 5 (.ok reply) failed := by
  have hraised : (@Holder.verify Interp.ascii none
      (runOps (@Holder.step Interp.ascii none) Holder.start [.apply (twoShards "1.1") 1 0]).2
      (str "n") 5 (.ok ⟨some (str "n"), some (.str (str "1")), twoShards "one"⟩)).2.2 =
      .raised .valueError := by decide +kernel
  refine ⟨hraised, by decide +kernel, by decide +kernel, ?_⟩
  intro h
  simp only [Holder.VerifiedAllOrNothing, hraised] at h
  have hsame := congrArg (fun d => (Dict.get? d (some (str "s"))).map Held.sentAt) h.1
  exact absurd hsame (by decide +kernel)

end BeSdk
