/-
BeSdk.Calls.ClientTheorems — what holds of a dependency in every interleaving of its
calls.

A step moves one call from one place to another, or does nothing. `Goes` says, once,
the ways a call goes and what each does to the breaker and the budget; `Moved` says
that the other calls stay where they are. The invariants speak of places and notes
only and are carried along the cases of `Goes`.

* `retries_bounded`: the retry budget. The tokens and a thousand for each retry sent
  or still backing off stay below what the successes paid for, because a retry
  follows a failure that took a whole thousand: with more than half of the tokens
  left, the counter was not at its floor.
* `permits_ended`: no permit leaks, in the runs in which no attempt that holds one is
  left by an exception other than a timeout. Such an attempt keeps its permit for
  ever: `trial_leaked` is a dependency that is refused for good.
-/
import BeSdk.Calls.Client
import BeSdk.Calls.BreakerTheorems
import Mathlib.Tactic.Linarith

namespace BeSdk.Calls

/-! ## Places -/

/-- Where call `i` is, once it began. -/
def State.place (s : State) (i : Nat) : Option Place := s.calls[i]?.map Call.place

def Place.asleep : Place → Bool
  | .backingOff _ _ _ => true
  | _ => false

/-- One for a call in its backoff. -/
def weight : Option Place → Nat
  | some (.backingOff _ _ _) => 1
  | _ => 0

@[simp] theorem weight_none : weight none = 0 := rfl
@[simp] theorem weight_attempting (n : Nat) (permit : Option Nat) :
    weight (some (.attempting n permit)) = 0 := rfl
@[simp] theorem weight_finished (how : Finish) : weight (some (.finished how)) = 0 := rfl

theorem weight_some (p : Place) : weight (some p) = if p.asleep then 1 else 0 := by
  cases p <;> rfl

/-- The calls in their backoff. -/
def State.asleep (s : State) : Nat := s.calls.countP fun c => c.place.asleep

/-- A call is in flight: it awaits an attempt or a backoff. -/
def Place.live : Place → Bool
  | .finished _ => false
  | _ => true

/-- Call `i` awaits an attempt that was admitted with the permit. -/
def State.Holds (s : State) (i permit : Nat) : Prop :=
  ∃ n, s.place i = some (.attempting n (some permit))

/-- Attempt `n` follows what is at the place: the first a call that begins, another a
backoff. -/
def Awaits (n : Nat) : Option Place → Prop
  | none => n = 1
  | some (.backingOff m _ _) => n = m + 1
  | some _ => False

/-- The ways call `i` goes, with what happens to the dependency. -/
inductive Goes (d : Dependency) (i : Nat) :
    Op → Option Place → Dependency → Place → List Note → Prop
  /-- It was not sent, was refused or was interrupted. -/
  | left {o : Op} {at_ : Option Place} {d' : Dependency} (how : Finish) :
      (∀ n permit, at_ ≠ some (.attempting n permit)) → d'.budget = d.budget →
      (d'.breaker = d.breaker ∨ ∃ now, d.breaker.start now = (d'.breaker, none)) →
      Goes d i o at_ d' (.finished how) []
  | admitted {o : Op} {at_ : Option Place} {d' : Dependency} {n permit : Nat} {now : Seconds}
      {remaining : Option Seconds} {timeout : Seconds} :
      Awaits n at_ → d'.budget = d.budget → d.breaker.start now = (d'.breaker, some permit) →
      Goes d i o at_ d' (.attempting n (some permit)) [.sent i n remaining timeout,
        .issued i permit]
  | unguarded {o : Op} {at_ : Option Place} {n : Nat} {remaining : Option Seconds}
      {timeout : Seconds} : Awaits n at_ → ∀ {d' : Dependency}, d'.budget = d.budget →
      d'.breaker = d.breaker → Goes d i o at_ d' (.attempting n none) [.sent i n remaining timeout]
  /-- The result of its attempt came in. -/
  | settled {o : Op} {n : Nat} {permit : Option Nat} {d' : Dependency} {place : Place}
      {now : Seconds} (outcome : BreakerOutcome) (budget : BudgetOutcome) :
      d'.budget = d.budget.record budget →
      d'.breaker = (endPermit d.breaker i permit now outcome).1 →
      place.live = place.asleep →
      (place.asleep = true → budget = .unavailable ∧ d'.budget.allowsRetry = true) →
      Goes d i o (some (.attempting n permit)) d' place
        (.recorded budget :: (endPermit d.breaker i permit now outcome).2)
  /-- An exception left its attempt. -/
  | raised {n : Nat} {permit : Option Nat} {d' : Dependency} (e : Raised)
      (remaining : Option Seconds) (now backoff : Seconds) : e ≠ .timeout →
      d'.budget = d.budget → d'.breaker = d.breaker →
      Goes d i (.attempted i (.raised e) remaining now backoff) (some (.attempting n permit)) d'
        (.finished (.raised e)) []

/-- Call `i`, and no other, went from one place to another. -/
structure Moved (s s' : State) (i : Nat) (at_ : Option Place) (place : Place) : Prop where
  before : s.place i = at_
  after : s'.place i = some place
  others : ∀ j, j ≠ i → s'.place j = s.place j
  asleep : s'.asleep + weight at_ = s.asleep + weight (some place)

/-- A call that changes its place moves. -/
theorem moved_set {s : State} {i : Nat} {c : Call} (hc : s.calls[i]? = some c) (d : Dependency)
    (place : Place) : Moved s { dep := d, calls := s.calls.set i { c with place } } i
    (some c.place) place := by
  obtain ⟨hi, hget⟩ := List.getElem?_eq_some_iff.mp hc
  refine ⟨by simp [State.place, hc], by simp [State.place, hi], fun j hj => ?_, ?_⟩
  · simp [State.place, List.getElem?_set_ne hj.symm]
  · have hpos : s.calls[i].place.asleep = true → 0 < s.calls.countP fun c => c.place.asleep :=
      fun h =>
      List.countP_pos_iff.mpr ⟨_, List.getElem_mem hi, h⟩
    simp only [State.asleep, List.countP_set hi, weight_some]
    subst hget
    split
    · next h =>
      have := hpos h
      omega
    · omega

/-- A new call moves to its first place. -/
theorem moved_add (s : State) (c : Call) (r : Dependency × Place × List Note) :
    Moved s (s.add c r).1 s.calls.length none r.2.1 := by
  refine ⟨by simp [State.place], by simp [State.place, State.add], fun j hj => ?_, ?_⟩
  · rcases Nat.lt_or_gt_of_ne hj with h | h
    · simp [State.place, State.add, List.getElem?_append_left h]
    · have hpos : j - s.calls.length ≠ 0 := by omega
      simp [State.place, State.add, List.getElem?_append_right (Nat.le_of_lt h),
        Nat.le_of_lt h, hpos]
  · simp [State.asleep, State.add, List.countP_append, List.countP_singleton, weight_some]

/-! ## The ways a call goes -/

/-- Where a stretch of code takes the call is a way it goes. -/
def Went (d : Dependency) (i : Nat) (o : Op) (at_ : Option Place)
    (r : Dependency × Place × List Note) : Prop :=
  Goes d i o at_ r.1 r.2.1 r.2.2

/-- What the start of an attempt does. -/
theorem attempt_spec (d : Dependency) (i : Nat) (c : Call) {o : Op} {at_ : Option Place} {n : Nat}
    (hn : Awaits n at_) (last : Result) (lastClass : Class) (remaining : Option Seconds)
    (now : Seconds) : Went d i o at_ (attempt d i c n last lastClass remaining now) := by
  have hat : ∀ n permit, at_ ≠ some (.attempting n permit) := by
    rintro m permit rfl
    exact hn
  unfold attempt
  cases attemptTimeout remaining with
  | none => exact .left _ hat rfl (.inl rfl)
  | some _ =>
      dsimp only
      split
      · rcases hstart : d.breaker.start now with ⟨b, _ | permit⟩
        · exact .left _ hat rfl (.inr ⟨now, hstart⟩)
        · exact .admitted hn rfl hstart
      · exact .unguarded hn rfl rfl

/-- What the end of an attempt does. -/
theorem settle_spec (d : Dependency) (i : Nat) (c : Call) {o : Op} (n : Nat)
    (permit : Option Nat) (r : Result) (remaining : Option Seconds) (now backoff : Seconds) :
    Went d i o (some (.attempting n permit)) (settle d i c n permit r remaining now backoff) := by
  unfold settle
  dsimp only
  split
  · exact .settled _ _ rfl rfl rfl (by simp [Place.asleep, leave])
  · split
    · next hretry =>
      refine .settled _ _ rfl rfl rfl fun _ => ?_
      unfold shouldRetry at hretry
      split at hretry
      · cases hretry
      · next hout =>
        split at hretry
        · cases hretry
        · next hallow =>
          simp only [Bool.or_eq_true, decide_eq_true_eq, not_or, Bool.not_eq_true',
            Bool.not_eq_false] at hout hallow
          exact ⟨Class.budget_of_retryOutcome hout.2, hallow.2⟩
    · exact .settled _ _ rfl rfl rfl (by simp [Place.asleep, leave])

/-- Only the breaker and the budget matter to where a call goes. -/
theorem Goes.congr {d e d' : Dependency} {i : Nat} {o : Op} {at_ : Option Place} {place : Place}
    {notes : List Note} (h : Goes d i o at_ d' place notes) (hbreaker : d.breaker = e.breaker)
    (hbudget : d.budget = e.budget) : Goes e i o at_ d' place notes := by
  cases h with
  | left how hat hb hbr => exact .left how hat (hbudget ▸ hb) (hbreaker ▸ hbr)
  | admitted hn hb hstart => exact .admitted hn (hbudget ▸ hb) (hbreaker ▸ hstart)
  | unguarded hn hb hbr => exact .unguarded hn (hbudget ▸ hb) (hbreaker ▸ hbr)
  | settled outcome budget hb hbr hlive hasleep =>
      rw [hbreaker] at hbr ⊢
      exact .settled outcome budget (hbudget ▸ hb) hbr hlive hasleep
  | raised e remaining now backoff he hb hbr =>
      exact .raised e _ _ _ he (hbudget ▸ hb) (hbreaker ▸ hbr)

/-- A step does nothing, or one call goes. -/
def Stepped (s : State) (o : Op) (r : State × List Note) : Prop :=
  r = (s, []) ∨ ∃ i at_ place, Moved s r.1 i at_ place ∧ Goes s.dep i o at_ r.1.dep place r.2

/-- A call that runs on goes, when each of its ways is a way to go. -/
theorem resume_spec {s : State} {i : Nat} {o : Op}
    {go : Call → Option (Dependency × Place × List Note)}
    (hgo : ∀ c, ∀ r ∈ go c, Went s.dep i o (some c.place) r) :
    Stepped s o (s.resume i go) := by
  unfold State.resume
  split
  · exact .inl rfl
  · next c hc =>
    split
    · exact .inl rfl
    · next d place notes hr => exact .inr ⟨i, _, _, moved_set hc d place, hgo c _ hr⟩

/-- What any step does. -/
theorem step_spec (s : State) (o : Op) : Stepped s o (step s o) := by
  cases o with
  | do_ idempotent viaBreaker inTx remaining now =>
      rw [step, State.begin_]
      dsimp only
      split
      · exact .inr ⟨_, _, _, moved_add .., .left _ (by simp) rfl (.inl rfl)⟩
      · split
        · exact .inr ⟨_, _, _, moved_add .., .left _ (by simp) rfl (.inl rfl)⟩
        · have hfirst : Awaits 1 none := rfl
          exact .inr ⟨_, none, _, moved_add .., (attempt_spec _ _ _ hfirst ..).congr rfl rfl⟩
  | attempted i exit remaining now backoff =>
      rw [step]
      refine resume_spec fun c r hr => ?_
      split at hr
      · next n permit result hplace =>
        rw [hplace, ← Option.some_inj.mp hr]
        exact settle_spec ..
      · next n permit hplace =>
        rw [hplace, ← Option.some_inj.mp hr]
        exact settle_spec ..
      · next n permit e hexit hplace =>
        cases hr
        rw [hplace]
        exact .raised e remaining now backoff (by rintro rfl; exact hexit rfl) rfl rfl
      · cases hr
  | woke i remaining now =>
      rw [step]
      refine resume_spec fun c r hr => ?_
      split at hr
      · next n last lastClass hplace =>
        have hnext : Awaits (n + 1) (some (.backingOff n last lastClass)) := rfl
        rw [hplace, ← Option.some_inj.mp hr]
        exact attempt_spec _ _ _ hnext ..
      · cases hr
  | interrupted i e =>
      rw [step]
      refine resume_spec fun c r hr => ?_
      split at hr
      · next n last lastClass hplace =>
        cases hr
        rw [hplace]
        exact .left _ (by simp) rfl (.inl rfl)
      · cases hr

/-! ## The retry budget -/

/-- The note is a retry: an attempt after the first. -/
def Note.isRetry : Note → Bool
  | .sent _ n _ _ => decide (1 < n)
  | _ => false

/-- The retry attempts sent. -/
def retries (notes : List Note) : Nat := notes.countP Note.isRetry

/-- The successes recorded. -/
def successes (notes : List Note) : Nat := notes.count (.recorded .success)

/-- The tokens, and what the retries, sent or still backing off, took of them. -/
structure Budgeted (notes : List Note) (tokens : Int) (asleep : Nat) : Prop where
  nonneg : 0 ≤ tokens
  le_max : tokens ≤ Budget.maximum
  paid : tokens + 1000 * (retries notes + asleep) ≤ 10000 + 100 * successes notes
  bounded : 1000 * (retries notes + asleep) < 5000 + 100 * successes notes

theorem retries_append (a b : List Note) : retries (a ++ b) = retries a + retries b :=
  List.countP_append

theorem successes_append (a b : List Note) : successes (a ++ b) = successes a + successes b :=
  List.count_append

/-- Ending a permit counts no retry. -/
@[simp] theorem retries_endPermit (b : Breaker) (i : Nat) (permit : Option Nat) (now : Seconds)
    (outcome : BreakerOutcome) (budget : BudgetOutcome) :
    retries (.recorded budget :: (endPermit b i permit now outcome).2) = 0 := by
  cases permit <;> rfl

/-- Ending a permit counts the success that was recorded. -/
@[simp] theorem successes_endPermit (b : Breaker) (i : Nat) (permit : Option Nat) (now : Seconds)
    (outcome : BreakerOutcome) (budget : BudgetOutcome) :
    successes (.recorded budget :: (endPermit b i permit now outcome).2) =
      if budget = .success then 1 else 0 := by
  cases permit <;> cases budget <;> rfl

/-- An attempt that is sent is a retry only after a backoff. -/
theorem retries_sent {n : Nat} {at_ : Option Place} (hn : Awaits n at_) (i : Nat)
    (remaining : Option Seconds) (timeout : Seconds) (notes : List Note) :
    retries (.sent i n remaining timeout :: notes) ≤ retries notes + weight at_ := by
  rw [retries, List.countP_cons, ← retries]
  cases at_ with
  | none =>
      obtain rfl : n = 1 := hn
      simp [Note.isRetry]
  | some place =>
      cases place with
      | backingOff m last lastClass => simp only [weight]; split <;> simp
      | attempting m permit => exact hn.elim
      | finished how => exact hn.elim

/-- The tokens after an outcome, against the successes it is. -/
theorem record_tokens (b : Budget) (outcome : BudgetOutcome) (hnonneg : 0 ≤ b.tokens)
    (hmax : b.tokens ≤ Budget.maximum) :
    0 ≤ (b.record outcome).tokens ∧ (b.record outcome).tokens ≤ Budget.maximum ∧
      (b.record outcome).tokens ≤ b.tokens + 100 * (if outcome = .success then 1 else 0 : Nat) := by
  rw [Budget.maximum] at *
  cases outcome with
  | success => simp only [Budget.record, Budget.maximum, Budget.success, if_true]; omega
  | unavailable => simp only [Budget.record, Budget.failure, reduceCtorEq, if_false]; omega
  | other => simp only [Budget.record, reduceCtorEq, if_false]; omega

/-- **A retry is paid for**: with more than half of the tokens left after a failure,
the failure took a whole thousand. -/
theorem record_unavailable {b : Budget} (hallow : (b.record .unavailable).allowsRetry = true) :
    (b.record .unavailable).tokens = b.tokens - 1000 ∧ 5000 < (b.record .unavailable).tokens := by
  rw [Budget.allowsRetry, decide_eq_true_iff] at hallow
  simp only [Budget.record, Budget.failure, Budget.threshold] at *
  omega

theorem budgeted_idle (id : Str) : Budgeted [] (idle id).dep.budget.tokens (idle id).asleep := by
  constructor <;> simp [idle, Budget.maximum, retries, successes, State.asleep]

/-- What one way of a call does to the budget. -/
theorem Goes.budgeted {d d' : Dependency} {i : Nat} {o : Op} {at_ : Option Place} {place : Place}
    {added notes : List Note} {asleep asleep' : Nat} (hgoes : Goes d i o at_ d' place added)
    (hasleep : asleep' + weight at_ = asleep + weight (some place))
    (hs : Budgeted notes d.budget.tokens asleep) :
    Budgeted (added ++ notes) d'.budget.tokens asleep' := by
  obtain ⟨hnonneg, hmax, hpaid, hbounded⟩ := hs
  cases hgoes with
  | left how hat hb hbreaker =>
      rw [weight_finished] at hasleep
      rw [hb, List.nil_append]
      exact ⟨hnonneg, hmax, by omega, by omega⟩
  | raised e _ _ _ _ hb hbreaker =>
      rw [weight_finished] at hasleep
      rw [hb, List.nil_append]
      exact ⟨hnonneg, hmax, by omega, by omega⟩
  | admitted hn hb hstart =>
      rename_i n permit now remaining timeout
      have hsent : retries ([.sent i n remaining timeout, .issued i permit] ++ notes) ≤
          retries notes + weight at_ :=
        retries_sent hn i remaining timeout (.issued i permit :: notes)
      have hsame : successes ([.sent i n remaining timeout, .issued i permit] ++ notes) =
          successes notes := by
        simp [successes]
      rw [weight_attempting] at hasleep
      rw [hb]
      refine ⟨hnonneg, hmax, ?_, ?_⟩ <;> rw [hsame] <;> omega
  | unguarded hn hb hbreaker =>
      rename_i n remaining timeout
      have hsent : retries ([.sent i n remaining timeout] ++ notes) ≤ retries notes + weight at_ :=
        retries_sent hn i remaining timeout notes
      have hsame : successes ([.sent i n remaining timeout] ++ notes) = successes notes := by
        simp [successes]
      rw [weight_attempting] at hasleep
      rw [hb]
      refine ⟨hnonneg, hmax, ?_, ?_⟩ <;> rw [hsame] <;> omega
  | settled outcome budget hb hbreaker hlive hretry =>
      obtain ⟨hnonneg', hmax', htokens⟩ := record_tokens d.budget budget hnonneg hmax
      rw [weight_attempting, weight_some] at hasleep
      by_cases hplace : place.asleep = true
      · obtain ⟨rfl, hallow⟩ := hretry hplace
        rw [hb] at hallow ⊢
        obtain ⟨htook, hleft⟩ := record_unavailable hallow
        rw [if_pos hplace] at hasleep
        refine ⟨hnonneg', hmax', ?_, ?_⟩ <;>
          rw [retries_append, successes_append, retries_endPermit, successes_endPermit,
            if_neg (by decide)] <;> omega
      · rw [if_neg hplace] at hasleep
        rw [hb]
        refine ⟨hnonneg', hmax', ?_, ?_⟩ <;>
          rw [retries_append, successes_append, retries_endPermit, successes_endPermit] <;> omega

/-- **Retries are bounded by the successes**, whatever the calls and their results. -/
theorem retries_bounded {id : Str} {h : List (List Note)} {s : State}
    (hr : Reach step anyOp (idle id) h s) : 0 ≤ s.dep.budget.tokens ∧ s.dep.budget.tokens ≤ 10000 ∧
      1000 * retries h.flatten < 5000 + 100 * successes h.flatten := by
  have hinv : Budgeted h.flatten s.dep.budget.tokens s.asleep := by
    refine @Reach.invariant State Op (List Note) step anyOp (idle id)
      (fun h s => Budgeted h.flatten s.dep.budget.tokens s.asleep)
      (budgeted_idle id) (fun h s o _ hs => ?_) h s hr
    rcases step_spec s o with heq | ⟨i, at_, place, hmoved, hgoes⟩
    · rw [heq]
      exact hs
    · exact hgoes.budgeted hmoved.asleep hs
  exact ⟨hinv.nonneg, hinv.le_max, by have := hinv.bounded; omega⟩

/-- An idempotent call whose first attempt finds the dependency unavailable. -/
def retrying : List Op :=
  [.do_ true true false (some 10) 0,
    .attempted 0 (.returned { err := some .other, code := some .unavailable }) (some 9) 1 0,
    .woke 0 (some 8) 2]

theorem retries_bounded_retrying : ∃ h s, Reach step anyOp (idle []) h s ∧ retries h.flatten = 1 ∧
    (0 ≤ s.dep.budget.tokens ∧ s.dep.budget.tokens ≤ 10000 ∧
      1000 * retries h.flatten < 5000 + 100 * successes h.flatten) := by
  have hr := reach_runOps step retrying (idle [])
  exact ⟨_, _, hr, by decide +kernel, retries_bounded hr⟩

/-! ## Permits -/

/-- The permit a note is about. -/
def Note.about : Note → Option Nat
  | .issued _ permit => some permit
  | .ended _ permit => some permit
  | _ => none

/-- The note ends the permit. -/
def Note.ends (permit : Nat) : Note → Bool
  | .ended _ p => decide (p = permit)
  | _ => false

/-- The ends of a permit. -/
def endsOf (permit : Nat) (notes : List Note) : List Note := notes.filter (Note.ends permit)

theorem endsOf_append (permit : Nat) (a b : List Note) :
    endsOf permit (a ++ b) = endsOf permit a ++ endsOf permit b := List.filter_append ..

/-- Notes about other permits end none of it. -/
theorem endsOf_eq_nil {permit : Nat} {notes : List Note} (h : ∀ n ∈ notes, n.about ≠ some permit) :
    endsOf permit notes = [] := by
  rw [endsOf, List.filter_eq_nil_iff]
  intro n hn
  cases n with
  | ended i p => simpa [Note.ends, Note.about] using h _ hn
  | _ => simp [Note.ends]

/-- No exception but a timeout leaves an attempt that holds a permit. -/
def NoneAbandoned (s : State) : Op → Prop
  | .attempted i (.raised e) _ _ _ => e = .timeout ∨ ∀ permit, ¬ s.Holds i permit
  | _ => True

/-- Every permit is accounted for: it is held, or was ended once by the call that got
it; and the trial slot is held. -/
structure Accounted (notes : List Note) (s : State) : Prop where
  slot : s.dep.breaker.trial ≠ 0 → s.dep.breaker.state = .halfOpen
  fresh : ∀ n ∈ notes, ∀ permit ∈ n.about, permit ≤ s.dep.breaker.next
  once : ∀ i j permit, .issued i permit ∈ notes → .issued j permit ∈ notes → i = j
  held : ∀ i permit, s.Holds i permit → .issued i permit ∈ notes
  ended : ∀ i permit, .issued i permit ∈ notes →
    (endsOf permit notes = [] ∧ s.Holds i permit) ∨
      (endsOf permit notes = [.ended i permit] ∧ ¬ s.Holds i permit)
  trial : s.dep.breaker.trial ≠ 0 → ∃ i, s.Holds i s.dep.breaker.trial

/-! ### The slot -/

/-- A breaker that gives no permit keeps its state. -/
theorem start_none {b b' : Breaker} {now : Seconds} (h : b.start now = (b', none)) :
    b'.trial = b.trial ∧ b'.state = b.state ∧ b.next ≤ b'.next := by
  have hspec := Breaker.start_spec b now
  rw [h] at hspec
  cases hspec <;> exact ⟨rfl, rfl, Nat.le_succ _⟩

/-- A breaker that gives a permit gives a new one. -/
theorem start_some {b b' : Breaker} {now : Seconds} {permit : Nat}
    (h : b.start now = (b', some permit)) : permit = b.next + 1 ∧ b'.next = permit ∧
      ((b'.trial = b.trial ∧ b'.state = b.state) ∨ (b'.trial = permit ∧ b'.state = .halfOpen)) := by
  have hspec := Breaker.start_spec b now
  rw [h] at hspec
  cases hspec with
  | closed hs => exact ⟨rfl, rfl, .inl ⟨rfl, rfl⟩⟩
  | first hs hdue => exact ⟨rfl, rfl, .inr ⟨rfl, rfl⟩⟩
  | slot hs hfree => exact ⟨rfl, rfl, .inr ⟨rfl, hs⟩⟩

/-- Ending a permit frees the trial or leaves it. -/
theorem end_slot (b : Breaker) (permit : Nat) (now : Seconds) (outcome : BreakerOutcome)
    (hslot : b.trial ≠ 0 → b.state = .halfOpen) :
    (b.end_ permit now outcome).next = b.next ∧
      ((b.end_ permit now outcome).trial = 0 ∨
        ((b.end_ permit now outcome).trial = b.trial ∧ (b.end_ permit now outcome).state = b.state ∧
          b.trial ≠ permit)) := by
  have hspec := Breaker.end_spec b permit now outcome
  have hzero : b.state ≠ .halfOpen → b.trial = 0 := fun hs => by
    by_contra hne
    exact hs (hslot hne)
  generalize b.end_ permit now outcome = b' at hspec
  cases hspec with
  | late _ hs => exact ⟨rfl, .inl (hzero (by rw [hs]; decide))⟩
  | other _ hs ht => exact ⟨rfl, .inr ⟨rfl, rfl, ht⟩⟩
  | failed => exact ⟨rfl, .inl rfl⟩
  | freed => exact ⟨rfl, .inl rfl⟩
  | succeeded => exact ⟨rfl, .inl rfl⟩
  | closed => exact ⟨rfl, .inl rfl⟩
  | ignored hs => exact ⟨rfl, .inl (hzero (by rw [hs]; decide))⟩
  | counted _ hs => exact ⟨rfl, .inl (hzero (by rw [hs]; decide))⟩
  | tripped _ hs => exact ⟨rfl, .inl (hzero (by rw [hs]; decide))⟩

/-! ### Steps -/

/-- Nothing is held or given back when a call goes between places without a permit. -/
theorem Moved.holds_iff {s s' : State} {i : Nat} {at_ : Option Place} {place : Place}
    (hm : Moved s s' i at_ place) (hat : ∀ n permit, at_ ≠ some (.attempting n (some permit)))
    (hplace : ∀ n permit, place ≠ .attempting n (some permit)) (j permit : Nat) :
    s'.Holds j permit ↔ s.Holds j permit := by
  unfold State.Holds
  by_cases hj : j = i
  · subst hj
    rw [hm.after, hm.before]
    constructor
    · rintro ⟨n, h⟩
      exact absurd (Option.some_inj.mp h) (hplace n permit)
    · rintro ⟨n, h⟩
      exact absurd h (hat n permit)
  · rw [hm.others j hj]

/-- Notes about no permit, while calls hold what they held. -/
theorem Accounted.same {notes added : List Note} {s s' : State} (hs : Accounted notes s)
    (hholds : ∀ j permit, s'.Holds j permit ↔ s.Holds j permit)
    (hadded : ∀ n ∈ added, n.about = none) (htrial : s'.dep.breaker.trial = s.dep.breaker.trial)
    (hstate : s'.dep.breaker.state = s.dep.breaker.state)
    (hnext : s.dep.breaker.next ≤ s'.dep.breaker.next) : Accounted (added ++ notes) s' := by
  have hissued : ∀ i permit, .issued i permit ∈ added ++ notes ↔ .issued i permit ∈ notes :=
    fun i permit => by
    rw [List.mem_append, or_iff_right fun h => by cases hadded _ h]
  have hends : ∀ permit, endsOf permit (added ++ notes) = endsOf permit notes := fun permit => by
    rw [endsOf_append, endsOf_eq_nil fun n hn => by rw [hadded n hn]; simp, List.nil_append]
  constructor
  case slot => rw [htrial, hstate]; exact hs.slot
  case fresh =>
    intro n hn permit hpermit
    rcases List.mem_append.mp hn with hn | hn
    · rw [hadded n hn] at hpermit
      cases hpermit
    · exact (hs.fresh n hn permit hpermit).trans hnext
  case once =>
    intro i j permit hi hj
    exact hs.once i j permit ((hissued _ _).mp hi) ((hissued _ _).mp hj)
  case held =>
    intro i permit hh
    exact (hissued _ _).mpr (hs.held i permit ((hholds _ _).mp hh))
  case ended =>
    intro i permit hi
    rw [hends, hholds]
    exact hs.ended i permit ((hissued _ _).mp hi)
  case trial =>
    rw [htrial]
    intro ht
    obtain ⟨i, hi⟩ := hs.trial ht
    exact ⟨i, (hholds _ _).mpr hi⟩

/-- A new permit, held by the call that got it. -/
theorem Accounted.issue {notes : List Note} {s s' : State} {i n permit : Nat}
    {remaining : Option Seconds} {timeout : Seconds} (hs : Accounted notes s)
    (hself : ∀ q, s'.Holds i q ↔ q = permit) (hfree : ∀ q, ¬ s.Holds i q)
    (hothers : ∀ j, j ≠ i → ∀ q, s'.Holds j q ↔ s.Holds j q)
    (hnew : permit = s.dep.breaker.next + 1) (hnext : s'.dep.breaker.next = permit)
    (htrial : (s'.dep.breaker.trial = s.dep.breaker.trial ∧ s'.dep.breaker.state =
      s.dep.breaker.state) ∨ (s'.dep.breaker.trial = permit ∧ s'.dep.breaker.state = .halfOpen)) :
    Accounted ([.sent i n remaining timeout, .issued i permit] ++ notes) s' := by
  have hstale : ∀ n ∈ notes, n.about ≠ some permit := fun n hn habout => by
    have := hs.fresh n hn permit habout
    omega
  have hissued : ∀ j q, .issued j q ∈ [.sent i n remaining timeout, .issued i permit] ++ notes ↔
      (j = i ∧ q = permit) ∨ .issued j q ∈ notes := fun j q => by simp
  have hends : ∀ q, endsOf q ([.sent i n remaining timeout, .issued i permit] ++ notes) =
      endsOf q notes := fun q => rfl
  constructor
  case slot =>
    rcases htrial with ⟨ht, hstate⟩ | ⟨-, hstate⟩
    · rw [ht, hstate]
      exact hs.slot
    · exact fun _ => hstate
  case fresh =>
    intro n hn q hq
    rw [hnext]
    simp only [List.mem_append, List.mem_cons, List.not_mem_nil, or_false] at hn
    rcases hn with (rfl | rfl) | hn
    · cases hq
    · obtain rfl := Option.some_inj.mp hq
      exact le_rfl
    · have := hs.fresh n hn q hq
      omega
  case once =>
    intro j k q hj hk
    rcases (hissued j q).mp hj with ⟨hji, hq⟩ | hj' <;>
      rcases (hissued k q).mp hk with ⟨hki, hq'⟩ | hk'
    · rw [hji, hki]
    · exact absurd (congrArg some hq) (hstale _ hk')
    · exact absurd (congrArg some hq') (hstale _ hj')
    · exact hs.once j k q hj' hk'
  case held =>
    intro j q hh
    rw [hissued]
    by_cases hj : j = i
    · subst hj
      exact .inl ⟨rfl, (hself q).mp hh⟩
    · exact .inr (hs.held j q ((hothers j hj q).mp hh))
  case ended =>
    intro j q hj
    rw [hends]
    rcases (hissued j q).mp hj with ⟨rfl, rfl⟩ | hj'
    · exact .inl ⟨endsOf_eq_nil hstale, (hself q).mpr rfl⟩
    · by_cases hji : j = i
      · subst hji
        have hne : q ≠ permit := fun h => hstale _ hj' (congrArg some h)
        rcases hs.ended j q hj' with ⟨-, hh⟩ | ⟨hend, -⟩
        · exact absurd hh (hfree q)
        · exact .inr ⟨hend, fun hh => hne ((hself q).mp hh)⟩
      · rw [hothers j hji]
        exact hs.ended j q hj'
  case trial =>
    intro ht
    rcases htrial with ⟨hsame, -⟩ | ⟨hgot, -⟩
    · rw [hsame] at ht ⊢
      obtain ⟨j, hj⟩ := hs.trial ht
      have hji : j ≠ i := by
        rintro rfl
        exact hfree _ hj
      exact ⟨j, (hothers j hji _).mpr hj⟩
    · exact ⟨i, (hself _).mpr hgot⟩

/-- The permit a call holds, ended by it. -/
theorem Accounted.end_ {notes : List Note} {s s' : State} {i permit : Nat} {budget : BudgetOutcome}
    (hs : Accounted notes s) (hself : ∀ q, s.Holds i q ↔ q = permit) (hfree : ∀ q, ¬ s'.Holds i q)
    (hothers : ∀ j, j ≠ i → ∀ q, s'.Holds j q ↔ s.Holds j q)
    (hnext : s'.dep.breaker.next = s.dep.breaker.next)
    (htrial : s'.dep.breaker.trial = 0 ∨ (s'.dep.breaker.trial = s.dep.breaker.trial ∧
      s'.dep.breaker.state = s.dep.breaker.state ∧ s.dep.breaker.trial ≠ permit)) :
    Accounted ([.recorded budget, .ended i permit] ++ notes) s' := by
  have hgot : .issued i permit ∈ notes := hs.held i permit ((hself permit).mpr rfl)
  have hissued : ∀ j q, .issued j q ∈ [.recorded budget, .ended i permit] ++ notes ↔
      .issued j q ∈ notes := fun j q => by simp
  have hends : ∀ q, endsOf q ([.recorded budget, .ended i permit] ++ notes) =
      if permit = q then .ended i permit :: endsOf q notes else endsOf q notes := fun q => by
    by_cases hq : permit = q <;> simp [endsOf, Note.ends, hq]
  constructor
  case slot =>
    rcases htrial with hzero | ⟨hsame, hstate, -⟩
    · exact fun h => absurd hzero h
    · rw [hsame, hstate]
      exact hs.slot
  case fresh =>
    intro n hn q hq
    rw [hnext]
    simp only [List.mem_append, List.mem_cons, List.not_mem_nil, or_false] at hn
    rcases hn with (rfl | rfl) | hn
    · cases hq
    · exact hs.fresh _ hgot q hq
    · exact hs.fresh n hn q hq
  case once =>
    intro j k q hj hk
    exact hs.once j k q ((hissued _ _).mp hj) ((hissued _ _).mp hk)
  case held =>
    intro j q hh
    rw [hissued]
    by_cases hj : j = i
    · subst hj
      exact absurd hh (hfree q)
    · exact hs.held j q ((hothers j hj q).mp hh)
  case ended =>
    intro j q hj
    rw [hissued] at hj
    rw [hends]
    by_cases hq : permit = q
    · subst hq
      obtain rfl := hs.once j i permit hj hgot
      rw [if_pos rfl]
      rcases hs.ended j permit hj with ⟨hend, -⟩ | ⟨-, hnot⟩
      · exact .inr ⟨by rw [hend], hfree permit⟩
      · exact absurd ((hself permit).mpr rfl) hnot
    · rw [if_neg hq]
      by_cases hji : j = i
      · subst hji
        rcases hs.ended j q hj with ⟨-, hh⟩ | ⟨hend, -⟩
        · exact absurd ((hself q).mp hh).symm hq
        · exact .inr ⟨hend, hfree q⟩
      · rw [hothers j hji]
        exact hs.ended j q hj
  case trial =>
    intro ht
    rcases htrial with hzero | ⟨hsame, -, hne⟩
    · exact absurd hzero ht
    · rw [hsame] at ht ⊢
      obtain ⟨j, hj⟩ := hs.trial ht
      have hji : j ≠ i := by
        rintro rfl
        exact hne ((hself _).mp hj)
      exact ⟨j, (hothers j hji _).mpr hj⟩

/-- What call `i` holds, before and after it goes. -/
theorem Moved.holds_before {s s' : State} {i : Nat} {at_ : Option Place} {place : Place}
    (hm : Moved s s' i at_ place) (q : Nat) :
    s.Holds i q ↔ ∃ n, at_ = some (.attempting n (some q)) := by
  rw [State.Holds, hm.before]

theorem Moved.holds_after {s s' : State} {i : Nat} {at_ : Option Place} {place : Place}
    (hm : Moved s s' i at_ place) (q : Nat) :
    s'.Holds i q ↔ ∃ n, place = .attempting n (some q) := by
  simp only [State.Holds, hm.after, Option.some.injEq]

theorem Moved.holds_others {s s' : State} {i : Nat} {at_ : Option Place} {place : Place}
    (hm : Moved s s' i at_ place) (j : Nat) (hj : j ≠ i) (q : Nat) :
    s'.Holds j q ↔ s.Holds j q := by
  rw [State.Holds, State.Holds, hm.others j hj]

/-- A call that awaits an attempt is in none. -/
theorem not_attempting_of_awaits {n : Nat} {at_ : Option Place} (hn : Awaits n at_) (m : Nat)
    (permit : Option Nat) : at_ ≠ some (.attempting m permit) := by
  rintro rfl
  exact hn

/-- Nor is one that only sleeps. -/
theorem not_attempting_of_live {place : Place} (h : place.live = place.asleep) (n : Nat)
    (permit : Option Nat) : place ≠ .attempting n permit := by
  rintro rfl
  cases h

/-- What one step does to the permits. -/
theorem Accounted.step {notes : List Note} {s : State} (hs : Accounted notes s) {o : Op}
    (ho : NoneAbandoned s o) : Accounted ((Calls.step s o).2 ++ notes) (Calls.step s o).1 := by
  rcases step_spec s o with heq | ⟨i, at_, place, hm, hgoes⟩
  · rw [heq]
    exact hs
  generalize Calls.step s o = r at hm hgoes
  obtain ⟨s', added⟩ := r
  dsimp only at hm hgoes ⊢
  generalize hd : s'.dep = d' at hgoes
  cases hgoes with
  | left how hat hb hbreaker =>
      have hholds := hm.holds_iff (fun n permit => hat n (some permit)) (by simp)
      rcases hbreaker with hsame | ⟨now, hstart⟩
      · exact hs.same hholds (by simp) (by rw [hd, hsame]) (by rw [hd, hsame]) (by rw [hd, hsame])
      · obtain ⟨htrial, hstate, hnext⟩ := start_none hstart
        exact hs.same hholds (by simp) (by rw [hd, htrial]) (by rw [hd, hstate]) (by rwa [hd])
  | unguarded hn hb hbreaker =>
      have hholds := hm.holds_iff (fun n permit => not_attempting_of_awaits hn n
        (some permit)) (by simp)
      exact hs.same hholds (by simp [Note.about]) (by rw [hd, hbreaker]) (by rw [hd, hbreaker])
        (by rw [hd, hbreaker])
  | admitted hn hb hstart =>
      rename_i n permit now
      obtain ⟨hnew, hnext, htrial⟩ := start_some hstart
      refine hs.issue (fun q => ?_) (fun q => ?_) hm.holds_others hnew (by rw [hd, hnext])
        (by rwa [hd])
      · rw [hm.holds_after]
        simp [eq_comm]
      · rw [hm.holds_before]
        rintro ⟨m, h⟩
        exact not_attempting_of_awaits hn m (some q) h
  | settled outcome budget hb hbreaker hlive hretry =>
      rename_i n permit now
      have hplace := not_attempting_of_live hlive
      cases permit with
      | none =>
          have hholds := hm.holds_iff (by simp) fun m q => hplace m (some q)
          have hsame : d'.breaker = s.dep.breaker := hbreaker
          exact hs.same hholds (by simp [endPermit, Note.about]) (by rw [hd, hsame])
            (by rw [hd, hsame]) (by rw [hd, hsame])
      | some permit =>
          obtain ⟨hnext, htrial⟩ := end_slot s.dep.breaker permit now outcome hs.slot
          have hend : d'.breaker = s.dep.breaker.end_ permit now outcome := hbreaker
          refine hs.end_ (fun q => ?_) (fun q => ?_) hm.holds_others (by rw [hd, hend, hnext])
            (by rwa [hd, hend])
          · rw [hm.holds_before]
            simp [eq_comm]
          · rw [hm.holds_after]
            rintro ⟨m, h⟩
            exact hplace m (some q) h
  | raised e remaining now backoff he hb hbreaker =>
      rename_i n permit
      have hnone : ∀ q, ¬ s.Holds i q := by
        rcases ho with htimeout | hfree
        · exact absurd htimeout he
        · exact hfree
      have hholds := hm.holds_iff (fun m q h => hnone q ((hm.holds_before q).mpr ⟨m, h⟩)) (by simp)
      exact hs.same hholds (by simp) (by rw [hd, hbreaker]) (by rw [hd, hbreaker])
        (by rw [hd, hbreaker])

theorem accounted_idle (id : Str) : Accounted [] (idle id) := by
  constructor <;> simp [idle, State.Holds, State.place]

/-- Every permit is ended once by the call that got it, or held by it; a taken trial
slot is held; and with no call in flight, a call after the open period is admitted. -/
def PermitsKept (notes : List Note) (s : State) : Prop :=
  (∀ i permit, .issued i permit ∈ notes → endsOf permit notes = [.ended i permit] ∨
    (endsOf permit notes = [] ∧ s.Holds i permit)) ∧
  (s.dep.breaker.state = .halfOpen → s.dep.breaker.trial ≠ 0 → ∃ i, s.Holds i s.dep.breaker.trial) ∧
  ((∀ c ∈ s.calls, c.place.live = false) → ∀ now,
    (s.dep.breaker.state = .open_ → s.dep.breaker.openFor ≤ now - s.dep.breaker.openedAt) →
    (s.dep.breaker.start now).2.isSome)

/-- A permit is held by a call that is still going. -/
theorem State.Holds.exists_live {s : State} {i permit : Nat} (h : s.Holds i permit) :
    ∃ c ∈ s.calls, c.place.live = true := by
  obtain ⟨n, hplace⟩ := h
  obtain ⟨c, hc, hp⟩ := Option.map_eq_some_iff.mp hplace
  exact ⟨c, List.mem_of_getElem? hc, by rw [hp]; rfl⟩

/-- **No permit leaks** while no exception but a timeout leaves an attempt that holds
one. -/
theorem permits_ended {id : Str} {h : List (List Note)} {s : State}
    (hr : Reach step NoneAbandoned (idle id) h s) : PermitsKept h.flatten s := by
  have hs : Accounted h.flatten s :=
    @Reach.invariant State Op (List Note) step NoneAbandoned (idle id)
      (fun h s => Accounted h.flatten s) (accounted_idle id) (fun h s o ho hs => hs.step ho) h s hr
  refine ⟨fun i permit hi => ?_, fun _ ht => hs.trial ht, fun hidle now hdue => ?_⟩
  · rcases hs.ended i permit hi with h | ⟨h, -⟩
    · exact .inr h
    · exact .inl h
  · have hfree : s.dep.breaker.trial = 0 := by
      by_contra ht
      obtain ⟨i, hi⟩ := hs.trial ht
      obtain ⟨c, hc, hlive⟩ := hi.exists_live
      rw [hidle c hc] at hlive
      cases hlive
    have hspec := Breaker.start_spec s.dep.breaker now
    generalize s.dep.breaker.start now = r at hspec
    obtain ⟨b', permit⟩ := r
    cases hspec with
    | early hs hearly => exact absurd (hdue hs) (not_le.mpr hearly)
    | busy hs hbusy => exact absurd hfree hbusy
    | _ => rfl

/-! ## A dependency that recovers -/

/-- Calls that time out until the breaker opens. -/
def timeouts : List Op := (List.range 20).flatMap fun i =>
  [.do_ false true false (some 10) 0, .attempted i (.raised .timeout) (some 10) 1 0]

instance (s : State) (i : Nat) : Decidable (∀ permit, ¬ s.Holds i permit) :=
  match h : s.place i with
  | some (.attempting n (some permit)) => isFalse fun hfree => hfree permit ⟨n, h⟩
  | some (.attempting n none) => isTrue (by simp [State.Holds, h])
  | some (.backingOff _ _ _) => isTrue (by simp [State.Holds, h])
  | some (.finished _) => isTrue (by simp [State.Holds, h])
  | none => isTrue (by simp [State.Holds, h])

instance (s : State) : (o : Op) → Decidable (NoneAbandoned s o)
  | .attempted i (.raised e) _ _ _ =>
      inferInstanceAs (Decidable (e = .timeout ∨ ∀ permit, ¬ s.Holds i permit))
  | .attempted _ (.returned _) _ _ _ => isTrue trivial
  | .do_ .. => isTrue trivial
  | .woke .. => isTrue trivial
  | .interrupted .. => isTrue trivial

/-- After the open period the trial succeeds. -/
def recovery : List Op :=
  timeouts ++ [.do_ false true false (some 10) 6, .attempted 20 (.returned {}) (some 10) 7 0]

/-- Its permit is ended. -/
theorem permits_ended_recovery : ∃ h s, Reach step NoneAbandoned (idle []) h s ∧
    s.dep.breaker.state = .halfOpen ∧ PermitsKept h.flatten s := by
  have hall : allAllowed step NoneAbandoned (idle []) recovery = true := by decide +kernel
  have hr := reach_of_allAllowed recovery hall
  exact ⟨_, _, hr, by decide +kernel, permits_ended hr⟩

/-- After the open period the trial is cancelled. -/
def cancellation : List Op :=
  timeouts ++ [.do_ false true false (some 10) 6, .attempted 20 (.raised .cancelled) (some 10) 7 0]

/-- **A cancelled trial leaks its slot**: no call is in flight, and the dependency is
refused at every time. -/
theorem trial_leaked : ∃ h s, Reach step anyOp (idle []) h s ∧
    (∀ c ∈ s.calls, c.place.live = false) ∧ s.dep.breaker.state = .halfOpen ∧
    s.dep.breaker.trial ≠ 0 ∧ ∀ now, (s.dep.breaker.start now).2 = none := by
  have hhalf : (runOps step (idle []) cancellation).2.dep.breaker.state = .halfOpen := by
    decide +kernel
  have htrial : (runOps step (idle []) cancellation).2.dep.breaker.trial ≠ 0 := by decide +kernel
  refine ⟨_, _, reach_runOps step cancellation (idle []), by decide +kernel, hhalf, htrial,
    fun now => ?_⟩
  simp [Breaker.start, Breaker.takeSlot, hhalf, htrial]

end BeSdk.Calls
