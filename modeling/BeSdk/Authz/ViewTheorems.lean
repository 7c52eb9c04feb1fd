/-
BeSdk.Authz.ViewTheorems — what holds of the authorization view in every run.

A step of the holder is one of five things to what it holds: a rollback suspends
everything, a higher recovery generation or a stall empties it, another accepted
answer leaves it, and an answer's word on one shard changes that shard
(`Answered`, with one constructor for each way). `Preserved` collects these five
obligations, and `Preserved.run` is the induction over runs: every invariant below
is proved once per obligation, never by unfolding `apply`.

The history of a run is the holder's log, newest note first. "The shard was renewed
at `S` and nothing disturbed it since" is `Since` over the log.

* `lookup_backed`: a grant is backed by fresh accepted evidence.
* `lookup_checked`: no unchecked segment is served, in the runs whose views carry
  no unfit segment without a resource type. Such a segment IS served
  (`unchecked_segment_served`): adoption looks the resource up by the segment's
  resource type and keeps what it does not find, a lookup takes a segment without
  one for every type.
* `stopped_unusable`: a stopped shard stays unusable, in the runs in which no stall
  is detected while one is held. The stall forgets the stop with the shard
  (`stopped_shard_served`).
* `revisions_forward`: revisions move forward over views that all carry the domain.
  A view that lacks it is compared with nothing, and so is the next one
  (`revision_went_back`).
-/
import BeSdk.Authz.View
import BeSdk.Authz.SegmentTheorems
import BeSdk.Lib.Fallible

namespace BeSdk

section
variable [Interp]

/-! ## What an answer does to a shard -/

/-- Whether an answer's word on a shard is one of the protocol: unchanged, changed with
its view, or closed. -/
def ShardAnswer.speaks (a : ShardAnswer) : Bool :=
  match a.status with
  | .unchanged => true
  | .changed => a.view.isSome
  | .closed => true
  | .other _ => false

/-- The ways an accepted answer's word on one shard changes what is held of it. -/
inductive Answered (defs : Option Index) (newer : Bool) (sent : Seconds) (a : ShardAnswer) :
    Option Held → Option Held → Effect → Prop
  | kept (h : Option Held) : (∀ x, h = some x → x.stopped = false → a.speaks = false) →
      Answered defs newer sent a h h .kept
  | renewed (h : Held) : h.stopped = false → a.status = .unchanged →
      Answered defs newer sent a (some h)
        (some { h with sentAt := sent, suspended := false, sourceStale := a.readOnly,
                       highAt := if a.readOnly then h.highAt else some sent }) .renewed
  | stopped (h : Held) (v : View) (view : Shard) : h.stopped = false → a.status = .changed →
      a.view = some v → v.asShard = .ok view →
      regresses newer h.shard (view.fitting defs) = .ok true →
      Answered defs newer sent a (some h) (some { h with stopped := true }) .stopped
  | adopted (h : Option Held) (v : View) (view : Shard) : (∀ x, h = some x → x.stopped = false) →
      a.status = .changed → a.view = some v → v.asShard = .ok view →
      (∀ x, h = some x → regresses newer x.shard (view.fitting defs) = .ok false) →
      Answered defs newer sent a h
        (some { shard := view.fitting defs, sentAt := sent,
                highAt := if a.readOnly then h.bind Held.highAt else some sent,
                sourceStale := a.readOnly }) (.adopted (view.fitting defs))
  | closed (h : Held) : a.status = .closed →
      Answered defs newer sent a (some h) (some { h with sourceStale := true }) .closed

/-- What an answer does to a shard. -/
theorem answered_spec {defs : Option Index} {newer : Bool} {sent : Seconds} {a : ShardAnswer}
    {h h' : Option Held} {effect : Effect}
    (hr : Held.answered defs newer sent a h = .ok (h', effect)) :
    Answered defs newer sent a h h' effect := by
  unfold Held.answered at hr
  split at hr
  · next hst =>
    cases h with
    | none => cases hr; exact .kept _ (by simp)
    | some x =>
      dsimp only at hr
      split at hr
      · next hx => cases hr; exact .kept _ (by simp [hx])
      · next hx =>
        cases hr
        have hx' : x.stopped = false := by simpa using hx
        cases hro : a.readOnly with
        | true => simpa [hro] using Answered.renewed (a := a) x hx' hst
        | false => simpa [hro] using Answered.renewed (a := a) x hx' hst
  · next v hst hview =>
    obtain ⟨view, hshard, hr⟩ := bind_eq_ok_iff.mp hr
    cases h with
    | none =>
      have hadopt := @Answered.adopted _ defs newer sent a none v view (by simp) hst hview
        hshard (by simp)
      dsimp only at hr
      cases hro : a.readOnly <;> simp only [hro, if_true, Bool.false_eq_true, if_false,
        pure_eq_ok_iff, Prod.mk.injEq] at hr hadopt <;> obtain ⟨rfl, rfl⟩ := hr <;> exact hadopt
    | some x =>
      dsimp only at hr
      split at hr
      · next hx => cases hr; exact .kept _ (by simp [hx])
      next hx =>
      have hx' : x.stopped = false := by simpa using hx
      obtain ⟨back, hback, hr⟩ := bind_eq_ok_iff.mp hr
      cases back with
      | true =>
        cases hr
        exact .stopped x v view hx' hst hview hshard hback
      | false =>
        have hadopt := @Answered.adopted _ defs newer sent a (some x) v view
          (by rintro _ ⟨⟩; exact hx') hst hview hshard (by rintro _ ⟨⟩; exact hback)
        simp only [Bool.false_eq_true, if_false] at hr
        cases hro : a.readOnly <;> simp only [hro, if_true, Bool.false_eq_true, if_false,
          pure_eq_ok_iff, Prod.mk.injEq, Option.bind_some] at hr hadopt <;>
          obtain ⟨rfl, rfl⟩ := hr <;>
          exact hadopt
  · next hst =>
    cases h with
    | none => cases hr; exact .kept _ (by simp)
    | some x => cases hr; exact .closed x hst
  · next hunchanged hclosed hchanged =>
    cases hr
    refine .kept _ fun _ _ _ => ?_
    rw [ShardAnswer.speaks]
    split
    · next hst => exact absurd hst hunchanged
    · next hst =>
      cases hview : a.view with
      | none => rfl
      | some v => exact (hchanged v hst hview).elim
    · next hst => exact absurd hst hclosed
    · rfl

/-! ## Invariants of the log and the shards -/

/-- What an invariant of the log and the held shards has to survive, in the runs
whose operations the guard allows. -/
structure Preserved (defs : Option Index) (ok : Holder → Op → Prop)
    (I : List Note → Dict (Option Str) Held → Prop) : Prop where
  rolledBack : ∀ log shards, I log shards →
    I (.rolledBack :: log) (shards.map fun h => { h with suspended := true })
  newer : ∀ log shards gen, I log shards → I (.accepted gen true :: log) Dict.empty
  accepted : ∀ log shards gen, I log shards → I (.accepted gen false :: log) shards
  answered : ∀ s ans gen sent, ok s (.apply ans gen sent) → ∀ a ∈ ans.shards,
    ∀ log shards newer h effect, .accepted gen newer ∈ log → I log shards →
      Answered defs newer sent a (shards.get? a.shard) h effect →
      I (.answered sent a effect :: log) (store a.shard h shards)
  invalidated : ∀ s now wall, ok s (.tick now wall) → s.stalled now wall = true →
    ∀ log, I log s.shards → I (.invalidated :: log) Dict.empty

variable {defs : Option Index} {ok : Holder → Op → Prop}
  {I : List Note → Dict (Option Str) Held → Prop}

/-- The invariant through the shards of one answer. -/
theorem Preserved.answerShards (hp : Preserved defs ok I) {s : Holder} {ans : Answer} {gen : Int}
    {sent : Seconds} (hok : ok s (.apply ans gen sent)) {newer : Bool} {base : List Note} :
    ∀ {as : List ShardAnswer} {shards : Dict (Option Str) Held} {notes : List Note},
      (∀ a ∈ as, a ∈ ans.shards) → .accepted gen newer ∈ notes ++ base → I (notes ++ base) shards →
      I ((answerShards defs newer sent as shards notes).2.1 ++ base)
        (answerShards defs newer sent as shards notes).1
  | [], _, _, _, _, hI => hI
  | a :: as, shards, notes, hmem, hacc, hI => by
      rw [List.forall_mem_cons] at hmem
      rw [BeSdk.answerShards]
      cases hr : Held.answered defs newer sent a (shards.get? a.shard) with
      | error e => exact hI
      | ok p =>
          exact hp.answerShards hok hmem.2 (List.mem_cons_of_mem _ hacc)
            (hp.answered s ans gen sent hok a hmem.1 _ _ newer p.1 p.2 hacc hI (answered_spec hr))

/-- The invariant through one step. -/
theorem Preserved.step (hp : Preserved defs ok I) {s : Holder} {o : Op} (hok : ok s o)
    {log : List Note} (hI : I log s.shards) :
    I ((s.step defs o).2 ++ log) (s.step defs o).1.shards := by
  cases o with
  | rest now wall => exact hI
  | tick now wall =>
      simp only [Holder.step, Holder.tick]
      split
      · next hstall => exact hp.invalidated s now wall hok hstall log hI
      · exact hI
  | apply ans gen sent =>
      simp only [Holder.step, Holder.apply]
      split
      · exact hI
      split
      · exact hp.rolledBack log s.shards hI
      · -- the whole answer is accepted; then shard by shard
        have hstart : I ([.accepted gen (s.newer gen)] ++ log)
            (if s.newer gen then Dict.empty else s.shards) := by
          cases hn : s.newer gen with
          | true => exact hp.newer log s.shards gen hI
          | false => exact hp.accepted log s.shards gen hI
        exact hp.answerShards hok (fun _ h => h) (List.mem_cons_self ..) hstart

/-- **The invariant through a run**, from any state it holds in. -/
theorem Preserved.run (hp : Preserved defs ok I) {s₀ s : Holder} {h : List (List Note)}
    (hr : Reach (Holder.step defs) ok s₀ h s) (h₀ : I [] s₀.shards) : I h.flatten s.shards := by
  refine @Reach.invariant _ _ _ _ _ s₀ (fun h s => I h.flatten s.shards) h₀
    (fun h s o hok hI => ?_) _ _ hr
  rw [List.flatten_cons]
  exact hp.step hok hI

omit [Interp] in
/-- An answer's word on one shard changes nothing else. -/
theorem get?_store (name key : Option Str) (h : Option Held) (shards : Dict (Option Str) Held) :
    (store name h shards).get? key
      = if key = name then h.or (shards.get? key) else shards.get? key := by
  cases h with
  | none => simp [store]
  | some h => rw [store, Dict.get?_set]; simp

/-- After an answer, what is held under a name is what it made of the shard, or what
was held before. -/
theorem Answered.get?_store {newer : Bool} {sent : Seconds} {a : ShardAnswer} {h : Option Held}
    {effect : Effect} {shards : Dict (Option Str) Held} {name : Option Str} {held : Held}
    (hans : Answered defs newer sent a (shards.get? a.shard) h effect)
    (hget : (store a.shard h shards).get? name = some held) :
    (name = a.shard ∧ h = some held) ∨ (name ≠ a.shard ∧ shards.get? name = some held) := by
  rw [BeSdk.get?_store] at hget
  by_cases hname : name = a.shard
  · rw [if_pos hname, hname] at hget
    refine Or.inl ⟨hname, ?_⟩
    cases h with
    | some x => exact hget
    | none =>
        -- nothing is kept of a shard only where nothing was held of it
        have hold : shards.get? a.shard = none := by
          generalize hx : shards.get? a.shard = old at hans
          cases hans
          rfl
        rw [hold] at hget
        cases hget
  · exact Or.inr ⟨hname, by rwa [if_neg hname] at hget⟩

/-! ## What a lookup reads -/

omit [Interp] in
theorem Holder.get?_of_mem {s : Holder} {p : Option Str × Held} (h : p ∈ s.shards.entries) :
    s.shards.get? p.1 = some p.2 := Dict.get?_eq_some_iff.mpr h

omit [Interp] in
/-- A grant comes from a held shard that answers, under its name. -/
theorem Holder.of_answering {s : Holder} {resourceType risk : Str} {now : Seconds}
    {name : Option Str} {h : Held} (ha : s.answering resourceType risk now = some (name, h)) :
    s.shards.get? name = some h ∧ h.answers resourceType risk now = true := by
  rw [Holder.answering] at ha
  exact ⟨s.get?_of_mem (List.mem_of_find?_eq_some ha), by simpa using List.find?_some ha⟩

omit [Interp] in
/-- A shard that answers stale lookups is one that is held. -/
theorem Holder.of_answeringStale {s : Holder} {resourceType : Str} {name : Option Str} {h : Held}
    (ha : s.answeringStale resourceType = some (name, h)) :
    s.shards.get? name = some h ∧ h.answersStale resourceType = true := by
  rw [Holder.answeringStale] at ha
  exact ⟨s.get?_of_mem (List.mem_of_find?_eq_some ha), by simpa using List.find?_some ha⟩

omit [Interp] in
/-- When a held shard answers. -/
theorem Held.answers_iff {h : Held} {resourceType risk : Str} {now : Seconds} :
    h.answers resourceType risk now = true ↔ h.stopped = false ∧ h.suspended = false ∧
      resourceType ∈ h.shard.applicability ∧
      ∃ start, h.startFor risk = some start ∧ now < start + validity risk := by
  simp [Held.answers, Option.any_eq_true, and_assoc]

omit [Interp] in
/-- Where the grant of a lookup comes from. -/
theorem Holder.of_lookup {s : Holder} {now : Seconds} {resourceType principal risk : Str}
    {g : Grant} (hg : s.lookup now resourceType principal risk = .ok g) :
    ∃ name h start, s.answering resourceType risk now = some (name, h) ∧
      h.startFor risk = some start ∧ now < start + validity risk ∧
      g.cutoff = start + validity risk ∧ g.segments = h.shard.segmentsFor resourceType
      principal := by
  rw [Holder.lookup] at hg
  split at hg
  · cases hg
  next name h ha =>
    obtain ⟨-, -, -, start, hstart, hlt⟩ := Held.answers_iff.mp (s.of_answering ha).2
    refine ⟨name, h, start, ha, hstart, hlt, ?_⟩
    cases hg
    simp [hstart]

/-- Where the segments of a grant come from. -/
def Holder.Grants (s : Holder) (resourceType principal : Str) (g : Grant) : Prop :=
  ∃ name h, s.shards.get? name = some h ∧ resourceType ∈ h.shard.applicability ∧
    g.segments = h.shard.segmentsFor resourceType principal

omit [Interp] in
/-- A lookup gives what a held shard grants. -/
theorem Holder.grants_of_lookup {s : Holder} {now : Seconds} {resourceType principal risk : Str}
    {g : Grant} (hg : s.lookup now resourceType principal risk = .ok g) :
    s.Grants resourceType principal g := by
  obtain ⟨name, h, start, ha, -, -, -, hsegs⟩ := s.of_lookup hg
  obtain ⟨hget, hans⟩ := s.of_answering ha
  exact ⟨name, h, hget, (Held.answers_iff.mp hans).2.2.1, hsegs⟩

omit [Interp] in
/-- So does a stale lookup. -/
theorem Holder.grants_of_lookupStale {s : Holder} {now wall : Seconds}
    {resourceType principal : Str} {g : Grant}
    (hg : s.lookupStale now wall resourceType principal = .ok g) :
    s.Grants resourceType principal g := by
  rw [Holder.lookupStale] at hg
  split at hg
  · cases hg
  next name h ha =>
    obtain ⟨hget, hans⟩ := s.of_answeringStale ha
    cases hg
    exact ⟨name, h, hget, by simp [Held.answersStale] at hans; exact hans.2, rfl⟩

omit [Interp] in
/-- So does a lookup of either kind. -/
theorem Holder.grants_of_lookupFor {s : Holder} {now nowStale wall : Seconds}
    {resourceType principal risk : Str} {tighteningOnly : Bool} {g : Grant}
    (hg : s.lookupFor now nowStale wall resourceType principal risk tighteningOnly = .ok g) :
    s.Grants resourceType principal g := by
  rw [Holder.lookupFor] at hg
  split at hg
  · next g' hl =>
      cases hg
      exact s.grants_of_lookup hl
  · split at hg
    · exact s.grants_of_lookupStale hg
    · cases hg
  · cases hg

end

/-! ## Samples -/

/-- A component with documents. -/
def sampleDefinitions : Definitions where
  component := str "test/docs"
  resources := [sampleResource]
  operations := [{ key := str "doc.view", resourceType := str "doc", purpose := str "read",
                   riskClass := str "low" }]

theorem sampleIndex_nodup : ([(str "doc", sampleResource)].map Prod.fst).Nodup := by simp

def sampleIndex : Index :=
  ⟨⟨[(str "doc", sampleResource)], sampleIndex_nodup⟩, ⟨[(str "doc.view",
    { key := str "doc.view", resourceType := str "doc", purpose := str "read",
      riskClass := str "low" })], by simp⟩⟩

/-- A view for documents that gives one principal the segments. -/
def sampleShard (revisions : List RevisionRef) (segments : List Segment) : Shard where
  shard := str "s"
  applicability := [str "doc"]
  subjects := ⟨[(str "p", { segments })], by simp⟩
  digest := str "sha256:1"
  securityRevisions := revisions

/-- An answer that changes the shard to a view. -/
def changedTo (v : Shard) (sent : Seconds) : Op :=
  .apply { shards :=
    [{ shard := some (str "s"), status := .changed, view := some (.shard v) }] } 1 sent

def revision (value : String) : RevisionRef where
  domain := some (str "d")
  value := str value
  epoch := str "1.1"

/-- The holder after a view with one revision was adopted at 0. -/
def heldAt (value : String) : Holder :=
  (@Holder.step Interp.ascii none Holder.start (changedTo (sampleShard [revision value] []) 0)).1

section
variable [Interp]

/-! ## Checked segments -/

/-- A view no lookup can take an unfit segment from: a segment without a resource
type fits every declared resource the view applies to, unless its principal's
accounts are disabled. -/
def Shard.UntypedFit (defs : Index) (v : Shard) : Prop :=
  ∀ p e, v.subjects.get? p = some e → e.accountsDisabled = false → ∀ s ∈ e.segments,
    s.resourceType = [] → ∀ type ∈ v.applicability, ∀ r, defs.resource type = some r →
      s.check r = .ok ()

/-- The answers whose views are like that. -/
def untypedFit (defs : Index) : Op → Prop
  | .apply ans _ _ => ∀ a ∈ ans.shards, a.status = .changed → ∀ v, a.view = some v →
      ∀ view, v.asShard = .ok view → view.UntypedFit defs
  | _ => True

/-- A held view: typed segments fit their resource, the others every resource they
are served for. -/
def Shard.Checked (defs : Index) (v : Shard) : Prop :=
  v.UntypedFit defs ∧ ∀ p e, v.subjects.get? p = some e → ∀ s ∈ e.segments,
    ∀ r, defs.resource s.resourceType = some r → s.check r = .ok ()

omit [Interp] in
/-- What is kept of a shard is checked. -/
theorem Shard.checked_fitting {defs : Index} {v : Shard} (hv : v.UntypedFit defs) :
    (v.fitting (some defs)).Checked defs := by
  have hentry : ∀ p e, (v.fitting (some defs)).subjects.get? p = some e →
      ∃ e₀, v.subjects.get? p = some e₀ ∧
        e = { e₀ with segments := e₀.segments.filter (fits defs) } := by
    intro p e he
    rw [Shard.fitting, Dict.get?_map, Option.map_eq_some_iff] at he
    obtain ⟨e₀, he₀, rfl⟩ := he
    exact ⟨e₀, he₀, rfl⟩
  constructor
  · intro p e he hdis s hs
    obtain ⟨e₀, he₀, rfl⟩ := hentry p e he
    exact hv p e₀ he₀ hdis s (List.mem_of_mem_filter hs)
  · intro p e he s hs r hr
    obtain ⟨e₀, he₀, rfl⟩ := hentry p e he
    have hfits := (List.mem_filter.mp hs).2
    rw [fits, hr] at hfits
    dsimp only at hfits
    split at hfits
    · assumption
    · cases hfits

/-- Every held view is checked. -/
def CheckedShards (defs : Index) (_ : List Note) (shards : Dict (Option Str) Held) : Prop :=
  ∀ name h, shards.get? name = some h → h.shard.Checked defs

/-- Every step keeps held shards checked. -/
theorem checkedShards_preserved (defs : Index) :
    Preserved (some defs) (fun _ => untypedFit defs) (CheckedShards defs) where
  rolledBack log shards hI name h hget := by
    rw [Dict.get?_map, Option.map_eq_some_iff] at hget
    obtain ⟨x, hx, rfl⟩ := hget
    exact hI name x hx
  newer _ _ _ _ name h hget := by simp at hget
  accepted _ _ _ hI := hI
  invalidated _ _ _ _ _ _ _ name h hget := by simp at hget
  answered s ans gen sent hok a ha log shards newer h effect hacc hI hans name held hget := by
    rcases hans.get?_store hget with ⟨-, rfl⟩ | ⟨-, hold⟩
    · generalize hx : shards.get? a.shard = old at hans
      cases hans with
      | kept => exact hI a.shard held hx
      | renewed x => exact hI a.shard x hx
      | stopped x => exact hI a.shard x hx
      | closed x => exact hI a.shard x hx
      | adopted _ v view _ hst hview hshard _ =>
          exact Shard.checked_fitting (hok a ha hst v hview view hshard)
    · exact hI name held hold

/-- **Served segments are checked**, in every run whose views carry no unfit segment
without a resource type. -/
theorem lookup_checked {defs : Index} {h : List (List Note)} {s : Holder}
    (hr : Reach (Holder.step (some defs)) (fun _ => untypedFit defs) Holder.start h s)
    {resourceType : Str} {r : Resource} (hres : defs.resource resourceType = some r)
    (principal : Str) {g : Grant}
    (hg : (∃ now risk, s.lookup now resourceType principal risk = .ok g) ∨
      (∃ now wall, s.lookupStale now wall resourceType principal = .ok g) ∨
      (∃ now nowStale wall risk tighteningOnly,
        s.lookupFor now nowStale wall resourceType principal risk tighteningOnly = .ok g)) :
    ∀ seg ∈ g.segments, seg.check r = .ok () := by
  have hinv := (checkedShards_preserved defs).run hr
    (by intro name h hget; simp [Holder.start] at hget)
  obtain ⟨name, h, hget, happ, hsegs⟩ : s.Grants resourceType principal g := by
    rcases hg with ⟨_, _, hg⟩ | ⟨_, _, hg⟩ | ⟨_, _, _, _, _, hg⟩
    · exact s.grants_of_lookup hg
    · exact s.grants_of_lookupStale hg
    · exact s.grants_of_lookupFor hg
  obtain ⟨huntyped, htyped⟩ := hinv name h hget
  intro seg hseg
  rw [hsegs, Shard.segmentsFor] at hseg
  split at hseg
  · simp at hseg
  next hdis =>
    obtain ⟨hmem, htype⟩ := List.mem_filter.mp hseg
    have hentry : h.shard.subjects.get? principal = some (h.shard.entry principal) := by
      rw [Shard.entry] at hmem ⊢
      cases hsub : h.shard.subjects.get? principal with
      | none => simp [hsub] at hmem
      | some e => rfl
    simp only [Bool.or_eq_true, decide_eq_true_eq] at htype
    rcases htype with hnone | hsame
    · exact huntyped principal _ hentry (by simpa using hdis) seg hmem hnone resourceType happ
        r hres
    · exact htyped principal _ hentry seg hmem r (by rw [hsame]; exact hres)

end

/-- Viewing one's own documents of a department, typed. -/
def typedSegment : Segment := { sampleSegment with resourceType := str "doc" }

theorem lookup_checked_sample : ∃ (s : Holder) (g : Grant),
    s.lookup 1 (str "doc") (str "p") (str "low") = .ok g ∧ g.segments ≠ [] ∧
    ∀ seg ∈ g.segments, seg.check sampleResource = .ok () := by
  have hr : Reach (@Holder.step Interp.ascii (some sampleIndex)) (fun _ =>
    untypedFit sampleIndex) Holder.start
      _ _ := .snoc (changedTo (sampleShard [] [typedSegment]) 0) (by
        intro a ha _ v hv view hview p e he _ s hs htype
        obtain rfl := List.mem_singleton.mp ha
        cases hv
        cases hview
        rw [Dict.get?_eq_some_iff] at he
        obtain ⟨⟩ := List.mem_singleton.mp he
        obtain rfl := List.mem_singleton.mp hs
        cases htype) .nil
  have hserved : ((@Holder.step Interp.ascii (some sampleIndex) Holder.start
      (changedTo (sampleShard [] [typedSegment]) 0)).1.lookup 1 (str "doc") (str "p")
        (str "low")).toOption.any (fun g => !g.segments.isEmpty) = true := by decide +kernel
  cases hg : (@Holder.step Interp.ascii (some sampleIndex) Holder.start
      (changedTo (sampleShard [] [typedSegment]) 0)).1.lookup 1 (str "doc") (str "p")
      (str "low") with
  | error e => rw [hg] at hserved; cases hserved
  | ok g =>
      rw [hg] at hserved
      refine ⟨_, g, hg, fun hnil => ?_, @lookup_checked Interp.ascii sampleIndex _ _
        hr _ sampleResource rfl (str "p") g (Or.inl ⟨1, str "low", hg⟩)⟩
      simp [Except.toOption, hnil] at hserved

/-- A segment with neither a resource type nor an atom. -/
def untypedSegment : Segment where
  operation := str "doc.view"
  atoms := Dict.empty
  readFields := []
  validFrom := str "2026-01-01T00:00:00Z"

/-- **An unchecked segment is served**: adoption finds no resource for it and keeps it,
a lookup takes it for every resource type. -/
theorem unchecked_segment_served : ∃ (d : Definitions) (defs : Index) (h : List (List Note))
    (s : Holder) (r : Resource) (g : Grant) (seg : Segment), d.validate = .ok defs ∧
    Reach (@Holder.step Interp.ascii (some defs)) anyOp Holder.start h s ∧
    defs.resource (str "doc") = some r ∧ s.lookup 1 (str "doc") (str "p") (str "low") = .ok g ∧
    seg ∈ g.segments ∧ seg.check r ≠ .ok () := by
  have hserved : ((runOps (@Holder.step Interp.ascii (some sampleIndex)) Holder.start
      [changedTo (sampleShard [] [untypedSegment]) 0]).2.lookup 1 (str "doc") (str "p")
        (str "low")).toOption.any (fun g => g.segments.any fun seg =>
          !(seg.check sampleResource).toBool) = true := by decide +kernel
  obtain ⟨g, hg, hany⟩ := Option.any_eq_true .. |>.mp hserved
  obtain ⟨seg, hseg, hbad⟩ := List.any_eq_true.mp hany
  refine ⟨sampleDefinitions, sampleIndex, _, _, sampleResource, g, seg, rfl,
    reach_runOps _ [changedTo (sampleShard [] [untypedSegment]) 0] _, rfl, ?_, hseg, ?_⟩
  · revert hg
    cases Holder.lookup _ 1 (str "doc") (str "p") (str "low") with
    | error e => intro hg; cases hg
    | ok g' => intro hg; cases hg; rfl
  · intro hok
    rw [hok] at hbad
    cases hbad

section
variable [Interp]

/-! ## Evidence -/

/-- The note that an accepted answer with send time `S` listed the shard as
unchanged or changed, renewing it or adopting its view; for the high-risk validity
only when not read-only. -/
def Note.renewsAt (name : Option Str) (S : Seconds) (high : Bool) : Note → Prop
  | .answered sent a effect => sent = S ∧ a.shard = name ∧
      (a.status = .unchanged ∨ a.status = .changed) ∧ (high = true → a.readOnly = false) ∧
      (match effect with
        | .renewed => True
        | .adopted _ => True
        | _ => False)
  | _ => False

/-- The same at any time and for any validity. -/
def Note.renews (name : Option Str) (n : Note) : Prop := ∃ S, n.renewsAt name S false

/-- Nothing takes the shard's evidence away: no stall invalidates the shards, no
higher recovery generation is accepted, the shard is not stopped. -/
def Note.undisturbing (name : Option Str) : Note → Prop
  | .invalidated => False
  | .accepted _ newer => newer = false
  | .answered _ a .stopped => a.shard ≠ name
  | _ => True

/-- The whole answer was no rollback. -/
def Note.noRollback : Note → Prop
  | .rolledBack => False
  | _ => True

/-- The view last adopted for a shard. -/
def lastAdopted (name : Option Str) : List Note → Option Shard
  | [] => none
  | .answered _ a (.adopted v) :: log => if a.shard = name then some v else lastAdopted name log
  | _ :: log => lastAdopted name log

/-- What the log says of a held shard that is not stopped. -/
structure Backed (name : Option Str) (log : List Note) (h : Held) : Prop where
  sentAt : Since (Note.undisturbing name) (Note.renewsAt name h.sentAt false) log
  highAt : ∀ t, h.highAt = some t →
    Since (Note.undisturbing name) (Note.renewsAt name t true) log
  resumed : h.suspended = false → Since Note.noRollback (Note.renews name) log
  view : lastAdopted name log = some h.shard

def BackedShards (log : List Note) (shards : Dict (Option Str) Held) : Prop :=
  ∀ name h, shards.get? name = some h → h.stopped = false → Backed name log h

omit [Interp] in
/-- A note that neither disturbs the shard, nor rolls back, nor adopts a view for it
leaves its evidence as it is. -/
theorem Backed.cons {name : Option Str} {log : List Note} {h : Held} {n : Note}
    (hb : Backed name log h) (hundist : n.undisturbing name) (hroll : n.noRollback)
    (hview : lastAdopted name (n :: log) = lastAdopted name log) : Backed name (n :: log) h where
  sentAt := hb.sentAt.cons hundist
  highAt t ht := (hb.highAt t ht).cons hundist
  resumed hs := (hb.resumed hs).cons hroll
  view := hview.trans hb.view

/-- Every step keeps held shards backed by an answer. -/
theorem backedShards_preserved (defs : Option Index) : Preserved defs anyOp BackedShards where
  rolledBack log shards hI name h hget hst := by
    rw [Dict.get?_map, Option.map_eq_some_iff] at hget
    obtain ⟨x, hx, rfl⟩ := hget
    have hb := hI name x hx hst
    exact ⟨hb.sentAt.cons trivial, fun t ht => (hb.highAt t ht).cons trivial,
      fun hs => by simp at hs, hb.view⟩
  newer _ _ _ _ name h hget := by simp at hget
  accepted _ _ _ hI name h hget hst := (hI name h hget hst).cons rfl trivial rfl
  invalidated _ _ _ _ _ _ _ name h hget := by simp at hget
  answered s ans gen sent _ a _ log shards newer h effect hacc hI hans name held hget hst := by
    rcases hans.get?_store hget with ⟨rfl, rfl⟩ | ⟨hne, hold⟩
    · generalize hx : shards.get? a.shard = old at hans
      cases hans with
      | kept => exact (hI _ held hx hst).cons trivial trivial rfl
      | closed x => exact
          let hb := hI _ x hx hst
          ⟨hb.sentAt.cons trivial, fun t ht => (hb.highAt t ht).cons trivial,
            fun hs => (hb.resumed hs).cons trivial, hb.view⟩
      | stopped => cases hst
      | renewed x hstop hstatus =>
          have hb := hI _ x hx hstop
          refine ⟨Or.inl ⟨rfl, rfl, Or.inl hstatus, by simp, trivial⟩, fun t ht => ?_,
            fun _ => Or.inl ⟨sent, rfl, rfl, Or.inl hstatus, by simp, trivial⟩, hb.view⟩
          cases hro : a.readOnly with
          | true => exact (hb.highAt t (by simpa [hro] using ht)).cons trivial
          | false =>
              obtain rfl : sent = t := by simpa [hro] using ht
              exact Or.inl ⟨rfl, rfl, Or.inl hstatus, fun _ => hro, trivial⟩
      | adopted _ v view hstop hstatus =>
          refine ⟨Or.inl ⟨rfl, rfl, Or.inr hstatus, by simp, trivial⟩, fun t ht => ?_,
            fun _ => Or.inl ⟨sent, rfl, rfl, Or.inr hstatus, by simp, trivial⟩,
            by simp [lastAdopted]⟩
          cases hro : a.readOnly with
          | false =>
              obtain rfl : sent = t := by simpa [hro] using ht
              exact Or.inl ⟨rfl, rfl, Or.inr hstatus, fun _ => hro, trivial⟩
          | true =>
              -- the high-risk validity is the replaced shard's
              obtain ⟨x, rfl, hxt⟩ := Option.bind_eq_some_iff.mp (by simpa [hro] using ht)
              exact ((hI _ x hx (hstop x rfl)).highAt t hxt).cons trivial
    · have hb := hI name held hold hst
      have hview : lastAdopted name (.answered sent a effect :: log) = lastAdopted name log := by
        cases effect <;> simp [lastAdopted, Ne.symm hne]
      refine hb.cons ?_ trivial hview
      cases effect with
      | stopped => exact Ne.symm hne
      | _ => trivial

/-- **A grant is backed by fresh accepted evidence.** The granting shard was renewed
at the time its cutoff counts from, for high risk not read-only, and nothing
disturbed it since; it was renewed after the latest rollback; its segments are those
of the view last adopted for it. -/
theorem lookup_backed {defs : Option Index} {h : List (List Note)} {s : Holder}
    (hr : Reach (Holder.step defs) anyOp Holder.start h s) {now : Seconds}
    {resourceType principal risk : Str} {g : Grant}
    (hg : s.lookup now resourceType principal risk = .ok g) :
    ∃ name S view,
      now < g.cutoff ∧
      g.cutoff = S + (if risk = str "high" then wHigh else wRead) * (1 - drift) ∧
      Since (Note.undisturbing name) (Note.renewsAt name S (risk = str "high")) h.flatten ∧
      Since Note.noRollback (Note.renews name) h.flatten ∧
      lastAdopted name h.flatten = some view ∧
      resourceType ∈ view.applicability ∧
      g.segments = view.segmentsFor resourceType principal := by
  have hinv := (backedShards_preserved defs).run hr
    (by intro name h hget; simp [Holder.start] at hget)
  obtain ⟨name, held, start, ha, hstart, hlt, hcut, hsegs⟩ := s.of_lookup hg
  obtain ⟨hget, hans⟩ := s.of_answering ha
  obtain ⟨hstop, hsusp, happ, -⟩ := Held.answers_iff.mp hans
  have hb := hinv name held hget hstop
  refine ⟨name, start, held.shard, hcut ▸ hlt, hcut, ?_, hb.resumed hsusp, hb.view, happ, hsegs⟩
  rw [Held.startFor] at hstart
  split at hstart
  · next hrisk => simpa [hrisk] using hb.highAt start hstart
  · next hrisk =>
      obtain rfl := Option.some.inj hstart
      simpa [hrisk] using hb.sentAt

end

theorem lookup_backed_sample : ∃ (s : Holder) (g : Grant) (S : Seconds),
    s.lookup 1 (str "doc") (str "p") (str "low") = .ok g ∧ 1 < g.cutoff ∧
    g.cutoff = S + wRead * (1 - drift) := by
  have hok : ((heldAt "5").lookup 1 (str "doc") (str "p") (str "low")).toOption.isSome = true := by
    decide +kernel
  cases hg : (heldAt "5").lookup 1 (str "doc") (str "p") (str "low") with
  | error e => rw [hg] at hok; cases hok
  | ok g =>
      obtain ⟨_, S, _, hlt, hcut, _⟩ := @lookup_backed Interp.ascii none _ _
        (reach_runOps _ [changedTo (sampleShard [revision "5"] []) 0] Holder.start) _ _ _ _ _ hg
      exact ⟨_, g, S, hg, hlt, hcut⟩

section
variable [Interp]

/-! ## Stopped shards -/

/-- No higher recovery generation is accepted. -/
def Note.notNewer : Note → Prop
  | .accepted _ newer => newer = false
  | _ => True

instance : DecidablePred Note.notNewer
  | .accepted _ newer => inferInstanceAs (Decidable (newer = false))
  | .answered _ _ _ => inferInstanceAs (Decidable True)
  | .rolledBack => inferInstanceAs (Decidable True)
  | .invalidated => inferInstanceAs (Decidable True)

/-- The shard is stopped: its revisions went back under the current generation. -/
def Note.stops (name : Option Str) : Note → Prop
  | .answered _ a .stopped => a.shard = name
  | _ => False

instance (name : Option Str) : DecidablePred (Note.stops name)
  | .answered _ a .stopped => inferInstanceAs (Decidable (a.shard = name))
  | .answered _ _ .renewed => inferInstanceAs (Decidable False)
  | .answered _ _ (.adopted _) => inferInstanceAs (Decidable False)
  | .answered _ _ .closed => inferInstanceAs (Decidable False)
  | .answered _ _ .kept => inferInstanceAs (Decidable False)
  | .rolledBack => inferInstanceAs (Decidable False)
  | .accepted _ _ => inferInstanceAs (Decidable False)
  | .invalidated => inferInstanceAs (Decidable False)

/-- A stall is detected only while no held shard is stopped. -/
def noStallWhileStopped (s : Holder) : Op → Prop
  | .tick now wall => s.stalled now wall = true → ∀ name h, s.shards.get? name = some h →
      h.stopped = false
  | _ => True

/-- A shard stopped since the last higher recovery generation is held stopped. -/
def StoppedShards (log : List Note) (shards : Dict (Option Str) Held) : Prop :=
  ∀ name, Since Note.notNewer (Note.stops name) log →
    ∃ h, shards.get? name = some h ∧ h.stopped = true

/-- An answer leaves a stopped shard stopped. -/
theorem Answered.stopped_of {defs : Option Index} {newer : Bool} {sent : Seconds} {a : ShardAnswer}
    {x : Held} {h : Option Held} {effect : Effect}
    (hans : Answered defs newer sent a (some x) h effect)
    (hst : x.stopped = true) : ∃ y, h = some y ∧ y.stopped = true := by
  cases hans with
  | kept => exact ⟨x, rfl, hst⟩
  | renewed _ hx => rw [hx] at hst; cases hst
  | stopped => exact ⟨_, rfl, rfl⟩
  | closed => exact ⟨_, rfl, hst⟩
  | adopted _ _ _ hstop => rw [hstop x rfl] at hst; cases hst

/-- Without a stall a stopped shard stays stopped. -/
theorem stoppedShards_preserved (defs : Option Index) :
    Preserved defs noStallWhileStopped StoppedShards where
  rolledBack log shards hI name hs := by
    obtain ⟨h, hget, hst⟩ := hI name (hs.resolve_left id).2
    exact ⟨{ h with suspended := true }, by rw [Dict.get?_map, hget]; rfl, hst⟩
  newer _ _ _ _ name hs := absurd (hs.resolve_left id).1 (by simp [Note.notNewer])
  accepted _ _ _ hI name hs := hI name (hs.resolve_left id).2
  invalidated s now wall hok hstall log hI name hs := by
    obtain ⟨h, hget, hst⟩ := hI name (hs.resolve_left id).2
    rw [hok hstall name h hget] at hst
    cases hst
  answered s ans gen sent _ a _ log shards newer h effect hacc hI hans name hs := by
    -- a shard that was held stopped still is
    have keep : (∃ x, shards.get? name = some x ∧ x.stopped = true) →
        ∃ x, (store a.shard h shards).get? name = some x ∧ x.stopped = true := by
      rintro ⟨x, hx, hst⟩
      rw [get?_store]
      by_cases hname : name = a.shard
      · subst hname
        rw [hx] at hans
        obtain ⟨y, rfl, hy⟩ := hans.stopped_of hst
        exact ⟨y, by rw [if_pos rfl]; rfl, hy⟩
      · exact ⟨x, by rw [if_neg hname, hx], hst⟩
    rcases hs with hstops | ⟨-, hs⟩
    · generalize hx : shards.get? a.shard = old at hans
      cases hans with
      | stopped x =>
          obtain rfl : a.shard = name := hstops
          exact ⟨{ x with stopped := true }, by rw [get?_store, if_pos rfl]; rfl, rfl⟩
      | _ => exact hstops.elim
    · exact keep (hI name hs)

/-- **A stopped shard stays unusable** until a higher recovery generation is accepted:
no lookup, ordinary or stale, is answered from it, in every run in which no stall is
detected while a shard is stopped. `lookupFor` is one lookup or the other. -/
theorem stopped_unusable {defs : Option Index} {h : List (List Note)} {s : Holder}
    (hr : Reach (Holder.step defs) noStallWhileStopped Holder.start h s) {name : Option Str}
    (hstopped : Since Note.notNewer (Note.stops name) h.flatten)
    (resourceType : Str) (held : Held) : (∀ risk now, s.answering resourceType risk now ≠
      some (name, held)) ∧ s.answeringStale resourceType ≠ some (name, held) := by
  obtain ⟨x, hx, hst⟩ := (stoppedShards_preserved defs).run hr (fun _ hs => hs.elim) name hstopped
  have hfalse : s.shards.get? name = some held → held.stopped = true := by
    intro hget
    rw [hx] at hget
    exact Option.some.inj hget ▸ hst
  constructor
  · intro risk now ha
    obtain ⟨hget, hans⟩ := s.of_answering ha
    rw [(Held.answers_iff.mp hans).1] at hfalse
    exact absurd (hfalse hget) (by decide)
  · intro ha
    obtain ⟨hget, hans⟩ := s.of_answeringStale ha
    have hstop : held.stopped = false := by simp [Held.answersStale] at hans; exact hans.1.1.2
    rw [hstop] at hfalse
    exact absurd (hfalse hget) (by decide)

end

theorem stopped_unusable_sample : ∃ (h : List (List Note)) (s : Holder),
    Reach (@Holder.step Interp.ascii none) noStallWhileStopped Holder.start h s ∧
    ∀ risk now held, s.answering (str "doc") risk now ≠ some (some (str "s"), held) := by
  have hr : Reach (@Holder.step Interp.ascii none) noStallWhileStopped Holder.start _ _ :=
    .snoc (changedTo (sampleShard [revision "20"] []) 2) trivial
      (.snoc (changedTo (sampleShard [revision "5"] []) 1) trivial
        (.snoc (changedTo (sampleShard [revision "10"] []) 0) trivial .nil))
  exact ⟨_, _, hr, fun risk now held =>
    (@stopped_unusable Interp.ascii none _ _ hr
      (some (str "s")) (by decide +kernel) (str "doc") held).1
      risk now⟩

/-- A view that went back, a stall, and the same view again. -/
def stallOps : List Op := [changedTo (sampleShard [revision "10"] []) 0,
    changedTo (sampleShard [revision "5"] []) 1, .tick 2 2, .tick 100 100,
    changedTo (sampleShard [revision "5"] []) 100]

/-- **A stopped shard is served again** after a stall, under the same recovery
generation. -/
theorem stopped_shard_served : ∃ (h : List (List Note)) (s : Holder) (held : Held),
    Reach (@Holder.step Interp.ascii none) anyOp Holder.start h s ∧
    Since Note.notNewer (Note.stops (some (str "s"))) h.flatten ∧
    s.answering (str "doc") (str "low") 101 = some (some (str "s"), held) := by
  have hname : ((runOps (@Holder.step Interp.ascii none) Holder.start
    stallOps).2.answering (str "doc")
      (str "low") 101).map Prod.fst = some (some (str "s")) := by decide +kernel
  obtain ⟨⟨name, held⟩, hans, hfst⟩ := Option.map_eq_some_iff.mp hname
  obtain rfl : name = some (str "s") := hfst
  exact ⟨_, _, held, reach_runOps _ stallOps _, by decide +kernel, hans⟩

section
variable [Interp]

/-! ## Revisions -/

/-- Nothing happens but answers under one recovery generation. -/
def Note.calm : Note → Prop
  | .invalidated => False
  | .accepted _ newer => newer = false
  | _ => True

instance : DecidablePred Note.calm
  | .accepted _ newer => inferInstanceAs (Decidable (newer = false))
  | .answered _ _ _ => inferInstanceAs (Decidable True)
  | .rolledBack => inferInstanceAs (Decidable True)
  | .invalidated => inferInstanceAs (Decidable False)

/-- The views adopted for a shard, newest first. -/
def adoptedViews (name : Option Str) : List Note → List Shard
  | [] => []
  | .answered _ a (.adopted v) :: log =>
      if a.shard = name then v :: adoptedViews name log else adoptedViews name log
  | _ :: log => adoptedViews name log

/-- The position of a revision: its epoch as a pair of integers, then its integer
value; none when either is not of that form. -/
def RevisionRef.position (r : RevisionRef) : Option ((Int ×ₗ Int) ×ₗ Int) :=
  match readEpoch r.epoch, intOrZero r.value with
  | .ok e, .ok n => if isInteger r.value then some (toLex (e, n)) else none
  | _, _ => none

def Shard.position (v : Shard) (domain : Option Str) : Option ((Int ×ₗ Int) ×ₗ Int) :=
  (revisionOf v.securityRevisions domain).bind RevisionRef.position

/-- The two views spell the epoch of a domain alike where it is the same. -/
def SpelledAlike (domain : Option Str) (v w : Shard) : Prop :=
  ∀ r o, revisionOf v.securityRevisions domain = some r →
    revisionOf w.securityRevisions domain = some o →
    readEpoch r.epoch = readEpoch o.epoch → r.epoch = o.epoch

/-- When a revision has a position. -/
theorem RevisionRef.position_eq_some_iff {r : RevisionRef} {p : (Int ×ₗ Int) ×ₗ Int} :
    r.position = some p ↔ ∃ e n, readEpoch r.epoch = .ok e ∧ intOrZero r.value = .ok n ∧
      isInteger r.value = true ∧ p = toLex (e, n) := by
  rw [RevisionRef.position]
  constructor
  · intro h
    split at h
    · next e n he hn =>
        split at h
        · next hint => exact ⟨e, n, he, hn, hint, (Option.some.inj h).symm⟩
        · cases h
    · cases h
  · rintro ⟨e, n, he, hn, hint, rfl⟩
    rw [he, hn]
    simp [hint]

/-- A revision that does not go back is not before the held one. -/
theorem RevisionRef.position_le {r o : RevisionRef} {p q : (Int ×ₗ Int) ×ₗ Int}
    (hback : r.goesBack o = .ok false) (hp : r.position = some p) (hq : o.position = some q)
    (hspell : readEpoch r.epoch = readEpoch o.epoch → r.epoch = o.epoch) : q ≤ p := by
  obtain ⟨e, n, he, hn, hint, rfl⟩ := RevisionRef.position_eq_some_iff.mp hp
  obtain ⟨e', n', he', hn', hint', rfl⟩ := RevisionRef.position_eq_some_iff.mp hq
  simp only [RevisionRef.goesBack, he, he', hn, hn', hint, hint', bind_eq_ok_iff, Except.ok.injEq,
    exists_eq_left', and_true] at hback
  rw [Prod.Lex.toLex_le_toLex]
  by_cases hlt : e < e'
  · simp [hlt, pure, Except.pure] at hback
  · rcases (not_lt.mp hlt).lt_or_eq with hgt | heq
    · exact Or.inl hgt
    · refine Or.inr ⟨heq, ?_⟩
      have hsame : r.epoch = o.epoch := hspell (by rw [he, he', heq])
      simpa [hlt, hsame, pure, Except.pure, bind, Except.bind] using hback

/-- What a list that does not go back says of each of its revisions. -/
theorem goesBack_eq_false {held : List RevisionRef} : ∀ {new : List RevisionRef},
    goesBack held new = .ok false → ∀ r ∈ new, ∀ o, revisionOf held r.domain = some o →
      r.goesBack o = .ok false
  | [], _, _, hr => by simp at hr
  | x :: new, h, r, hr => by
      rw [goesBack] at h
      cases hx : revisionOf held x.domain with
      | none =>
          rw [hx] at h
          intro o ho
          rcases List.mem_cons.mp hr with rfl | hr
          · rw [hx] at ho; cases ho
          · exact goesBack_eq_false h r hr o ho
      | some y =>
          rw [hx] at h
          obtain ⟨b, hb, h⟩ := bind_eq_ok_iff.mp h
          cases b with
          | true => cases h
          | false =>
              intro o ho
              rcases List.mem_cons.mp hr with rfl | hr
              · rw [hx] at ho; exact Option.some.inj ho ▸ hb
              · exact goesBack_eq_false h r hr o ho

omit [Interp] in
/-- The revision of a domain is one of the list. -/
theorem revisionOf_eq_some {revisions : List RevisionRef} {domain : Option Str} {r : RevisionRef}
    (h : revisionOf revisions domain = some r) : r ∈ revisions ∧ r.domain = domain := by
  rw [revisionOf] at h
  exact ⟨List.mem_reverse.mp (List.mem_of_find?_eq_some h), by simpa using List.find?_some h⟩

omit [Interp] in
@[simp] theorem Shard.securityRevisions_fitting (defs : Option Index) (v : Shard) :
    (v.fitting defs).securityRevisions = v.securityRevisions := by
  cases defs <;> rfl

/-- A view that is adopted over another one is not before it. -/
theorem Shard.position_le {held view : Shard} {domain : Option Str} {p q : (Int ×ₗ Int) ×ₗ Int}
    (hback : goesBack held.securityRevisions view.securityRevisions = .ok false)
    (hp : view.position domain = some p) (hq : held.position domain = some q)
    (hspell : SpelledAlike domain view held) : q ≤ p := by
  obtain ⟨r, hr, hrp⟩ := Option.bind_eq_some_iff.mp hp
  obtain ⟨o, ho, hoq⟩ := Option.bind_eq_some_iff.mp hq
  obtain ⟨hmem, hdom⟩ := revisionOf_eq_some hr
  exact RevisionRef.position_le (goesBack_eq_false hback r hmem o (by rw [hdom]; exact ho)) hrp hoq
    (hspell r o hr ho)

/-- What is held of a shard after calm notes: a view adopted since, or the one held
before them, and not before that one. -/
def ForwardShard (name domain : Option Str) (v₀ : Shard) (p₀ : (Int ×ₗ Int) ×ₗ Int)
    (log : List Note) (shards : Dict (Option Str) Held) : Prop :=
  (∀ n ∈ log, n.calm) → (∀ v ∈ adoptedViews name log, v.position domain ≠ none) →
  (∀ v ∈ v₀ :: adoptedViews name log, ∀ w ∈ v₀ :: adoptedViews name log, SpelledAlike domain v w) →
  ∃ h p, shards.get? name = some h ∧ h.shard ∈ v₀ :: adoptedViews name log ∧
    h.shard.position domain = some p ∧ p₀ ≤ p

/-- Every step takes the revisions of a shard forward. -/
theorem forwardShard_preserved (defs : Option Index) (name domain : Option Str) (v₀ : Shard)
    (p₀ : (Int ×ₗ Int) ×ₗ Int) : Preserved defs anyOp (ForwardShard name domain v₀ p₀) where
  rolledBack log shards hI hcalm hcarry hspell := by
    obtain ⟨h, p, hget, hmem, hp, hle⟩ := hI (fun n hn => hcalm n (List.mem_cons_of_mem _ hn))
      hcarry hspell
    exact ⟨{ h with suspended := true }, p, by rw [Dict.get?_map, hget]; rfl, hmem, hp, hle⟩
  newer _ _ _ _ hcalm _ _ := absurd (hcalm _ (List.mem_cons_self ..)) (by simp [Note.calm])
  accepted _ _ _ hI hcalm := hI fun n hn => hcalm n (List.mem_cons_of_mem _ hn)
  invalidated _ _ _ _ _ _ _ hcalm := absurd (hcalm _ (List.mem_cons_self ..)) (by simp [Note.calm])
  answered s ans gen sent _ a _ log shards newer h effect hacc hI hans hcalm hcarry hspell := by
    have hcalm' : ∀ n ∈ log, n.calm := fun n hn => hcalm n (List.mem_cons_of_mem _ hn)
    -- the view held before the answer is one of the views still spoken of
    have hsub : ∀ v, v ∈ adoptedViews name log →
      v ∈ adoptedViews name (.answered sent a effect :: log) := by
      intro v hv
      cases effect with
      | adopted w =>
          rw [adoptedViews]
          split
          · exact List.mem_cons_of_mem _ hv
          · exact hv
      | _ => exact hv
    have hsub₀ : ∀ v, v ∈ v₀ :: adoptedViews name log →
        v ∈ v₀ :: adoptedViews name (.answered sent a effect :: log) := by
      intro v hv
      rcases List.mem_cons.mp hv with rfl | hv
      · exact List.mem_cons_self ..
      · exact List.mem_cons_of_mem _ (hsub v hv)
    obtain ⟨x, p, hget, hmem, hp, hle⟩ := hI hcalm' (fun v hv => hcarry v (hsub v hv))
      (fun v hv w hw => hspell v (hsub₀ v hv) w (hsub₀ w hw))
    have hmem' := hsub₀ x.shard hmem
    rw [get?_store]
    by_cases hname : name = a.shard
    · subst hname
      rw [if_pos rfl]
      rw [hget] at hans ⊢
      cases hans with
      | kept => exact ⟨x, p, rfl, hmem', hp, hle⟩
      | renewed => exact ⟨_, p, rfl, hmem', hp, hle⟩
      | stopped => exact ⟨_, p, rfl, hmem', hp, hle⟩
      | closed => exact ⟨_, p, rfl, hmem', hp, hle⟩
      | adopted _ v view _ _ _ _ hback =>
          have hnew : view.fitting defs ∈ adoptedViews a.shard
              (.answered sent a (.adopted (view.fitting defs)) :: log) := by
            simp [adoptedViews]
          obtain ⟨q, hq⟩ := Option.ne_none_iff_exists'.mp (hcarry _ hnew)
          have hsame : newer = false := hcalm' _ hacc
          have hforward : goesBack x.shard.securityRevisions (view.fitting defs).securityRevisions
              = .ok false := by simpa [regresses, hsame] using hback x rfl
          exact ⟨_, q, rfl, List.mem_cons_of_mem _ hnew, hq,
            hle.trans (Shard.position_le hforward hq hp
              (hspell _ (List.mem_cons_of_mem _ hnew) _ hmem'))⟩
    · exact ⟨x, p, by rw [if_neg hname, hget], hmem', hp, hle⟩

/-- A view the holder serves for a shard: some lookup is answered from it. -/
def Holder.Serves (s : Holder) (name : Option Str) (v : Shard) : Prop :=
  ∃ resourceType risk now h, s.answering resourceType risk now = some (name, h) ∧ h.shard = v

/-- **Revisions move forward** under one recovery generation: from any served view of
a shard to any later one, where every view adopted in between carries the domain
with an integer value, and equal epochs are spelled alike. -/
theorem revisions_forward {defs : Option Index} {s₀ s₁ : Holder} {h : List (List Note)}
    (hr : Reach (Holder.step defs) anyOp s₀ h s₁) (hcalm : ∀ n ∈ h.flatten, n.calm)
    {name domain : Option Str} {v₀ v₁ : Shard} (h₀ : s₀.Serves name v₀) (h₁ : s₁.Serves name v₁)
    {p₀ p₁ : (Int ×ₗ Int) ×ₗ Int} (hp₀ : v₀.position domain = some p₀)
    (hp₁ : v₁.position domain = some p₁)
    (hcarry : ∀ v ∈ adoptedViews name h.flatten, v.position domain ≠ none)
    (hspell : ∀ v ∈ v₀ :: adoptedViews name h.flatten, ∀ w ∈ v₀ :: adoptedViews name h.flatten,
      SpelledAlike domain v w) : p₀ ≤ p₁ := by
  obtain ⟨_, _, _, held₀, ha₀, rfl⟩ := h₀
  obtain ⟨_, _, _, held₁, ha₁, rfl⟩ := h₁
  have hstart : ForwardShard name domain held₀.shard p₀ [] s₀.shards := fun _ _ _ =>
    ⟨held₀, p₀, (s₀.of_answering ha₀).1, List.mem_cons_self .., hp₀, le_rfl⟩
  obtain ⟨x, p, hget, -, hp, hle⟩ :=
    (forwardShard_preserved defs name domain held₀.shard p₀).run hr hstart hcalm hcarry hspell
  rw [(s₁.of_answering ha₁).1] at hget
  obtain rfl := Option.some.inj hget
  rw [hp₁] at hp
  exact Option.some.inj hp ▸ hle

end

/-- A holder that holds one shard and answers serves that shard's view. -/
theorem Holder.serves_of_single {s : Holder} {name : Option Str} {h : Held}
    {resourceType risk : Str} {now : Seconds} (hs : s.shards.entries = [(name, h)])
    (ha : (s.answering resourceType risk now).isSome = true) : s.Serves name h.shard := by
  obtain ⟨x, hx⟩ := Option.isSome_iff_exists.mp ha
  have hmem := List.mem_of_find?_eq_some hx
  rw [hs, List.mem_singleton] at hmem
  exact ⟨resourceType, risk, now, h, by rw [hx, hmem], rfl⟩

theorem heldAt_serves (value : String) (h : ((heldAt value).answering (str "doc")
    (str "low") 1).isSome = true) : (heldAt value).Serves
    (some (str "s")) (sampleShard [revision value] []) :=
  (heldAt value).serves_of_single rfl h

theorem spelledAlike_sample (a b : String) : @SpelledAlike Interp.ascii (some (str "d"))
    (sampleShard [revision a] []) (sampleShard [revision b] []) := by
  intro r o hr ho _
  cases hr
  cases ho
  rfl

theorem revisions_forward_sample :
    ∃ (h : List (List Note)) (s₁ : Holder) (p₀ p₁ : (Int ×ₗ Int) ×ₗ Int),
    Reach (@Holder.step Interp.ascii none) anyOp (heldAt "5") h s₁ ∧
    s₁.Serves (some (str "s")) (sampleShard [revision "10"] []) ∧ p₀ ≤ p₁ :=
  let ops : List Op := [changedTo (sampleShard [revision "10"] []) 1]
  have hserves : (runOps (@Holder.step Interp.ascii none)
    (heldAt "5") ops).2.Serves (some (str "s"))
      (sampleShard [revision "10"] []) :=
    Holder.serves_of_single rfl
      (show ((runOps (@Holder.step Interp.ascii none) (heldAt "5") ops).2.answering (str "doc")
        (str "low") 3).isSome = true by decide +kernel)
  ⟨_, _, toLex (toLex (1, 1), 5), toLex (toLex (1, 1), 10), reach_runOps _ ops (heldAt "5"),
    hserves, @revisions_forward Interp.ascii none _ _
    _ (reach_runOps _ ops (heldAt "5")) (by decide +kernel)
      (some (str "s")) (some (str "d")) _ _ (heldAt_serves "5" (by decide +kernel)) hserves
      _ _ rfl rfl
        (fun v hv => by obtain rfl := List.mem_singleton.mp hv; exact Option.some_ne_none _)
      (fun v hv w hw => by
        have hsample : ∀ v ∈ [sampleShard [revision "5"] [], sampleShard [revision "10"] []],
            ∃ a, v = sampleShard [revision a] [] := by
          intro v hv
          rcases List.mem_pair.mp hv with rfl | rfl
          · exact ⟨"5", rfl⟩
          · exact ⟨"10", rfl⟩
        obtain ⟨a, rfl⟩ := hsample v hv
        obtain ⟨b, rfl⟩ := hsample w hw
        exact spelledAlike_sample a b)⟩

/-- **A revision went back**: after a view without the domain any revision of it is
accepted. -/
theorem revision_went_back : ∃ (h₀ h : List (List Note)) (s₀ s₁ : Holder) (v₀ v₁ : Shard)
    (p₀ p₁ : (Int ×ₗ Int) ×ₗ Int), Reach (@Holder.step Interp.ascii none) anyOp Holder.start h₀ s₀ ∧
    Reach (@Holder.step Interp.ascii none) anyOp s₀ h s₁ ∧ (∀ n ∈ h.flatten, n.calm) ∧
    s₀.Serves (some (str "s")) v₀ ∧ s₁.Serves (some (str "s")) v₁ ∧
    @Shard.position Interp.ascii v₀ (some (str "d")) = some p₀ ∧
    @Shard.position Interp.ascii v₁ (some (str "d")) = some p₁ ∧ p₁ < p₀ :=
  let ops : List Op :=
    [changedTo (sampleShard [] []) 1, changedTo (sampleShard [revision "5"] []) 2]
  ⟨_, _, _, _, sampleShard [revision "10"] [], sampleShard [revision "5"] [],
    toLex (toLex (1, 1), 10), toLex (toLex (1, 1), 5), .snoc _ trivial .nil,
    reach_runOps _ ops (heldAt "10"),
    by decide +kernel, heldAt_serves "10" (by decide +kernel),
    (runOps (@Holder.step Interp.ascii none) (heldAt "10") ops).2.serves_of_single rfl
      (show ((runOps (@Holder.step Interp.ascii none) (heldAt "10") ops).2.answering (str "doc")
        (str "low") 3).isSome = true by decide +kernel), rfl, rfl, by decide⟩

end BeSdk
