/-
BeSdk.Calls.BreakerTheorems — the circuit breaker follows the protocol's machine.

The machine is told on the HISTORY of a breaker, newest event first: which results
were counted since it last closed, how often and when it opened, which permit holds
the trial, how many trials succeeded. `Protocol h b` says what the next call does,
in these words only; the breaker's own fields do not occur in its conditions.

`Follows` is the invariant that ties the fields to the history. What a call can do
to the fields is said once (`Starts`, `Ends`), and the invariant is carried along
these cases. Nothing is asked of the order of the readings of the clock, and a
permit may be ended more than once: only that it was handed out.
-/
import BeSdk.Calls.Policy
import Mathlib.Tactic.NormNum

namespace BeSdk.Breaker

/-! ## The protocol's machine -/

/-- The event closes the breaker. -/
def Event.closes (e : Event) : Bool := decide (e.before ≠ .closed ∧ e.after = .closed)

/-- The event opens the breaker. -/
def Event.opens (e : Event) : Bool := decide (e.before ≠ .open_ ∧ e.after = .open_)

def Op.now : Op → Seconds
  | .start now => now
  | .end_ _ now _ => now

/-- The results counted since the breaker last closed, newest first; true is a
failure. -/
def counted : List Event → List Bool
  | [] => []
  | e :: h =>
      if e.closes then []
      else
        match e.op with
        | .start _ => counted h
        | .end_ _ _ outcome =>
            if e.before = .closed ∧ outcome ≠ .ignored then decide (outcome = .failure) :: counted h
            else counted h

/-- How often the breaker opened since it last closed. -/
def openings : List Event → Nat
  | [] => 0
  | e :: h => if e.closes then 0 else if e.opens then openings h + 1 else openings h

/-- When the breaker last opened. -/
def lastOpened : List Event → Seconds
  | [] => 0
  | e :: h => if e.opens then e.op.now else lastOpened h

/-- The permit that is outstanding as the trial. -/
def outstanding : List Event → Option Nat
  | [] => none
  | e :: h =>
      match e.op with
      | .start _ => if e.permit.isSome ∧ e.after = .halfOpen then e.permit else outstanding h
      | .end_ permit _ _ => if outstanding h = some permit then none else outstanding h

/-- The successful trials since the breaker last opened. -/
def successes : List Event → Nat
  | [] => 0
  | e :: h =>
      if e.opens then 0
      else
        match e.op with
        | .start _ => successes h
        | .end_ permit _ outcome =>
            if outcome = .success ∧ outstanding h = some permit then successes h + 1
              else successes h

/-- The open periods since the breaker last closed. -/
def openPeriod : Nat → Seconds
  | 0 | 1 => 5
  | 2 => 10
  | 3 => 20
  | _ => 30

/-- The results, newest first, open a closed breaker. -/
def Trips (results : List Bool) : Prop := 20 ≤ results.length ∧ 10 < (results.take 20).count true

instance (results : List Bool) : Decidable (Trips results) :=
  inferInstanceAs (Decidable (_ ∧ _))

/-- What the protocol says of the next call after a history. -/
structure Protocol (h : List Event) (b : Breaker) : Prop where
  closed_start : b.state = .closed → ∀ now,
    (b.start now).2.isSome ∧ (b.start now).1.state = .closed
  closed_ignored : b.state = .closed → ∀ permit now, b.end_ permit now .ignored = b
  closed_end : b.state = .closed → ∀ permit now outcome, outcome ≠ .ignored →
    (b.end_ permit now outcome).state =
      if Trips (decide (outcome = .failure) :: counted h) then .open_ else .closed
  open_early : b.state = .open_ → ∀ now, now - lastOpened h < openPeriod (openings h) →
    (b.start now).2 = none ∧ (b.start now).1.state = .open_
  open_trial : b.state = .open_ → ∀ now, openPeriod (openings h) ≤ now - lastOpened h →
    (b.start now).2.isSome ∧ (b.start now).1.state = .halfOpen ∧
      outstanding ((b.step (.start now)).2 :: h) = (b.start now).2
  open_end : b.state = .open_ → ∀ permit now outcome, b.end_ permit now outcome = b
  halfOpen_start : b.state = .halfOpen → ∀ now,
    ((b.start now).2.isSome ↔ outstanding h = none) ∧ (b.start now).1.state = .halfOpen
  halfOpen_other : b.state = .halfOpen → ∀ permit now outcome, 0 < permit →
    outstanding h ≠ some permit → b.end_ permit now outcome = b
  halfOpen_failure : b.state = .halfOpen → ∀ permit now, outstanding h = some permit →
    (b.end_ permit now .failure).state = .open_
  halfOpen_ignored : b.state = .halfOpen → ∀ permit now, outstanding h = some permit →
    b.end_ permit now .ignored = { b with trial := 0 }
  halfOpen_success : b.state = .halfOpen → ∀ permit now, outstanding h = some permit →
    (b.end_ permit now .success).state = if successes h = 2 then .closed else .halfOpen
  closes_empty : b.state = .halfOpen → ∀ permit now outcome,
    (b.end_ permit now outcome).state = .closed → (b.end_ permit now outcome).window = []

/-- A result comes with a permit that was handed out. -/
def Issued (b : Breaker) : Op → Prop
  | .start _ => True
  | .end_ permit _ _ => 0 < permit ∧ permit ≤ b.next

/-! ## What a call does -/

/-- The ways `start` goes. -/
inductive Starts (b : Breaker) (now : Seconds) : Breaker → Option Nat → Prop
  | closed : b.state = .closed → Starts b now { b with next := b.next + 1 } (some (b.next + 1))
  | early : b.state = .open_ → now - b.openedAt < b.openFor →
      Starts b now { b with next := b.next + 1 } none
  | first : b.state = .open_ → b.openFor ≤ now - b.openedAt →
      Starts b now
        { b with next := b.next + 1, state := .halfOpen, trial := b.next + 1, trialOk := 0 }
        (some (b.next + 1))
  | busy : b.state = .halfOpen → b.trial ≠ 0 → Starts b now { b with next := b.next + 1 } none
  | slot : b.state = .halfOpen → b.trial = 0 →
      Starts b now { b with next := b.next + 1, trial := b.next + 1 } (some (b.next + 1))

theorem start_spec (b : Breaker) (now : Seconds) :
    Starts b now (b.start now).1 (b.start now).2 := by
  obtain ⟨state, window, openedAt, openFor, trial, trialOk, next⟩ := b
  unfold start
  cases state with
  | closed => exact .closed rfl
  | open_ =>
      dsimp only
      split
      · next hearly => exact .early rfl hearly
      · next hdue => exact .first rfl (not_lt.mp hdue)
  | halfOpen =>
      dsimp only
      unfold takeSlot
      split
      · next hbusy => exact .busy rfl hbusy
      · next hfree => exact .slot rfl (not_not.mp hfree)

/-- The window after another result. -/
def slide (b : Breaker) (failure : Bool) : List Bool := lastN breakerWindow (b.window ++ [failure])

/-- A window opens a closed breaker. -/
def Full (window : List Bool) : Prop :=
  window.length = breakerWindow ∧ breakerWindow < window.count true * 2

/-- The ways `end_` goes. -/
inductive Ends (b : Breaker) (permit : Nat) (now : Seconds) : BreakerOutcome → Breaker → Prop
  | late (outcome : BreakerOutcome) : b.state = .open_ → Ends b permit now outcome b
  | other (outcome : BreakerOutcome) : b.state = .halfOpen → b.trial ≠ permit →
      Ends b permit now outcome b
  | failed : b.state = .halfOpen → b.trial = permit →
      Ends b permit now .failure
        { b with trial := 0, state := .open_, openedAt := now, trialOk := 0,
                 openFor := min (2 * b.openFor) breakerOpenMax }
  | freed : b.state = .halfOpen → b.trial = permit →
      Ends b permit now .ignored { b with trial := 0 }
  | succeeded : b.state = .halfOpen → b.trial = permit → b.trialOk + 1 < breakerTrialsToClose →
      Ends b permit now .success { b with trial := 0, trialOk := b.trialOk + 1 }
  | closed : b.state = .halfOpen → b.trial = permit → breakerTrialsToClose ≤ b.trialOk + 1 →
      Ends b permit now .success
        { b with trial := 0, trialOk := b.trialOk + 1, state := .closed, window := [],
                 openFor := breakerOpenFirst }
  | ignored : b.state = .closed → Ends b permit now .ignored b
  | counted (outcome : BreakerOutcome) : b.state = .closed → outcome ≠ .ignored →
      ¬ Full (b.slide (decide (outcome = .failure))) →
      Ends b permit now outcome { b with window := b.slide (decide (outcome = .failure)) }
  | tripped (outcome : BreakerOutcome) : b.state = .closed → outcome ≠ .ignored →
      Full (b.slide (decide (outcome = .failure))) →
      Ends b permit now outcome { b with state := .open_, openedAt := now, window := [] }

theorem end_spec (b : Breaker) (permit : Nat) (now : Seconds) (outcome : BreakerOutcome) :
    Ends b permit now outcome (b.end_ permit now outcome) := by
  obtain ⟨state, window, openedAt, openFor, trial, trialOk, next⟩ := b
  unfold end_
  cases state with
  | open_ => exact .late outcome rfl
  | closed =>
      dsimp only
      split
      · next ho => exact ho ▸ .ignored rfl
      · next ho =>
        split
        · next hfull => exact .tripped outcome rfl ho hfull
        · next hfull => exact .counted outcome rfl ho hfull
  | halfOpen =>
      dsimp only
      split
      · next ht => exact .other outcome rfl ht
      · next ht =>
        have ht := not_not.mp ht
        cases outcome with
        | failure => exact .failed rfl ht
        | ignored => exact .freed rfl ht
        | success =>
            dsimp only
            split
            · next hclose => exact .closed rfl ht hclose
            · next hmore => exact .succeeded rfl ht (not_le.mp hmore)

/-! ## The fields and the history -/

/-- The fields of a breaker say what its history says. -/
structure Follows (h : List Event) (b : Breaker) : Prop where
  trial : outstanding h = if b.trial = 0 then none else some b.trial
  slot : b.trial ≠ 0 → b.state = .halfOpen
  window : b.state = .closed → b.window = ((counted h).take breakerWindow).reverse
  fresh : b.state = .closed → openings h = 0 ∧ b.openFor = breakerOpenFirst
  opened : b.state ≠ .closed → 0 < openings h ∧ b.openFor = openPeriod (openings h)
  since : b.state = .open_ → b.openedAt = lastOpened h ∧ successes h = 0
  good : b.state = .halfOpen → b.trialOk = successes h
  few : b.state = .halfOpen → successes h < breakerTrialsToClose

theorem lastN_reverse {α : Type} (n : Nat) (l : List α) :
    lastN n l.reverse = (l.take n).reverse := by
  rw [lastN, List.length_reverse, List.reverse_take]

/-- The window is the last results, oldest first. -/
theorem Follows.slide {h : List Event} {b : Breaker} (hf : Follows h b) (hs : b.state = .closed)
    (failure : Bool) : b.slide failure = ((failure :: counted h).take breakerWindow).reverse := by
  rw [Breaker.slide, hf.window hs, ← List.reverse_cons, lastN_reverse, breakerWindow,
    List.take_succ_cons, List.take_take, List.take_succ_cons]
  rfl

theorem full_iff_trips (results : List Bool) :
    Full (results.take breakerWindow).reverse ↔ Trips results := by
  simp only [Full, Trips, List.length_reverse, List.length_take, List.count_reverse, breakerWindow]
  omega

theorem openPeriod_succ : ∀ {n : Nat}, 0 < n → min (2 * openPeriod n) breakerOpenMax =
    openPeriod (n + 1)
  | 1, _ => by norm_num [openPeriod, breakerOpenMax]
  | 2, _ => by norm_num [openPeriod, breakerOpenMax]
  | 3, _ => by norm_num [openPeriod, breakerOpenMax]
  | n + 4, _ => by
      have h4 : openPeriod (n + 4) = 30 := rfl
      have h5 : openPeriod (n + 4 + 1) = 30 := rfl
      rw [h4, h5, breakerOpenMax]
      norm_num

/-! ### Steps -/

theorem Follows.trial_eq_zero {h : List Event} {b : Breaker} (hf : Follows h b)
    (hs : b.state ≠ .halfOpen) : b.trial = 0 := by
  by_contra hne
  exact hs (hf.slot hne)

theorem Follows.outstanding_eq {h : List Event} {b : Breaker} (hf : Follows h b) {permit : Nat}
    (hp : 0 < permit) : outstanding h = some permit ↔ b.trial = permit := by
  rw [hf.trial]
  split
  · next h0 => simp only [reduceCtorEq, false_iff]; omega
  · exact Option.some_inj

theorem Follows.trial_of_outstanding {h : List Event} {b : Breaker} (hf : Follows h b)
    {permit : Nat} (hout : outstanding h = some permit) : b.trial = permit := by
  rw [hf.trial] at hout
  split at hout
  · cases hout
  · exact Option.some_inj.mp hout

attribute [local simp] Event.closes Event.opens Op.now outstanding counted openings lastOpened
  successes

theorem Follows.start {h : List Event} {b : Breaker} (hf : Follows h b) (now : Seconds) :
    Follows ((b.step (.start now)).2 :: h) (b.step (.start now)).1 := by
  have hspec := start_spec b now
  simp only [step]
  generalize b.start now = r at hspec
  obtain ⟨b', permit⟩ := r
  have hzero := hf.trial_eq_zero
  obtain ⟨trial, slot, window, fresh, opened, since, good, few⟩ := hf
  cases hspec with
  | closed hs => constructor <;> simp_all
  | early hs hearly => constructor <;> simp_all
  | first hs hdue => constructor <;> simp_all [breakerTrialsToClose]
  | busy hs hbusy => constructor <;> simp_all
  | slot hs hfree => constructor <;> simp_all

theorem Follows.end_ {h : List Event} {b : Breaker} (hf : Follows h b)
    {permit : Nat} (hp : 0 < permit) (now : Seconds) (outcome : BreakerOutcome) :
    Follows ((b.step (.end_ permit now outcome)).2 :: h) (b.step (.end_ permit now outcome)).1 := by
  have hspec := end_spec b permit now outcome
  have hout := hf.outstanding_eq hp
  have hzero := hf.trial_eq_zero
  have hslide := fun hs => hf.slide hs (decide (outcome = .failure))
  simp only [step]
  generalize b.end_ permit now outcome = b' at hspec
  obtain ⟨trial, slot, window, fresh, opened, since, good, few⟩ := hf
  cases hspec with
  | late o hs => constructor <;> simp_all
  | other o hs ht => constructor <;> simp_all
  | failed hs ht => constructor <;> simp_all [openPeriod_succ]
  | freed hs ht => constructor <;> simp_all
  | succeeded hs ht hmore => constructor <;> simp_all
  | closed hs ht hclose => constructor <;> simp_all
  | ignored hs => constructor <;> simp_all
  | counted o hs ho hfull => constructor <;> simp_all
  | tripped o hs ho hfull => constructor <;> simp_all [openPeriod, breakerOpenFirst]

/-- A breaker follows its history. -/
theorem follows_of_reach {h : List Event} {b : Breaker} (hr : Reach step Issued {} h b) :
    Follows h b := by
  refine hr.invariant ⟨rfl, by simp, fun _ => rfl, fun _ => ⟨rfl, rfl⟩, by simp, by simp, by
    simp, by simp⟩ ?_
  rintro h b (now | ⟨permit, now, outcome⟩) hok hf
  · exact hf.start now
  · exact hf.end_ hok.1 now outcome

/-! ## The breaker is the protocol's machine -/

/-- **The breaker follows the protocol**: after every history, the next call does
what the protocol's machine says. -/
theorem breaker_protocol {h : List Event} {b : Breaker} (hr : Reach step Issued {} h b) :
    Protocol h b := by
  have hf := follows_of_reach hr
  constructor
  case closed_start => intro hs now; simp [start, hs]
  case closed_ignored => intro hs permit now; simp [end_, hs]
  case closed_end =>
    intro hs permit now outcome ho
    have hwindow := full_iff_trips (decide (outcome = .failure) :: counted h)
    rw [← hf.slide hs] at hwindow
    have hspec := end_spec b permit now outcome
    generalize b.end_ permit now outcome = b' at hspec
    cases hspec with
    | counted _ _ _ hfull => rw [if_neg (hwindow.not.mp hfull)]; exact hs
    | tripped _ _ _ hfull => rw [if_pos (hwindow.mp hfull)]
    | ignored => exact absurd rfl ho
    | _ => simp_all
  case open_early =>
    intro hs now hearly
    rw [← (hf.since hs).1, ← (hf.opened (by simp [hs])).2] at hearly
    simp [start, hs, hearly]
  case open_trial =>
    intro hs now hdue
    rw [← (hf.since hs).1, ← (hf.opened (by simp [hs])).2] at hdue
    simp [step, start, takeSlot, hs, not_lt.mpr hdue]
  case open_end => intro hs permit now outcome; simp [end_, hs]
  case halfOpen_start =>
    intro hs now
    rw [hf.trial]
    by_cases ht : b.trial = 0 <;> simp [start, takeSlot, hs, ht]
  case halfOpen_other =>
    intro hs permit now outcome hp hother
    rw [ne_eq, hf.outstanding_eq hp] at hother
    simp [end_, hs, hother]
  case halfOpen_failure =>
    intro hs permit now hout
    have ht := hf.trial_of_outstanding hout
    simp [end_, hs, ht]
  case halfOpen_ignored =>
    intro hs permit now hout
    have ht := hf.trial_of_outstanding hout
    simp [end_, hs, ht]
  case halfOpen_success =>
    intro hs permit now hout
    have ht := hf.trial_of_outstanding hout
    have hfew := hf.few hs
    rw [breakerTrialsToClose] at hfew
    by_cases htwo : successes h = 2
    · simp [end_, hs, ht, hf.good hs, htwo, breakerTrialsToClose]
    · have : ¬ 3 ≤ successes h + 1 := by omega
      simp [end_, hs, ht, hf.good hs, htwo, breakerTrialsToClose, this]
  case closes_empty =>
    intro hs permit now outcome
    have hspec := end_spec b permit now outcome
    generalize b.end_ permit now outcome = b' at hspec
    cases hspec with
    | closed => exact fun _ => rfl
    | _ => simp_all

instance (b : Breaker) : (o : Op) → Decidable (Issued b o)
  | .start _ => isTrue trivial
  | .end_ permit _ _ => inferInstanceAs (Decidable (0 < permit ∧ permit ≤ b.next))

/-- Failures that open the breaker, and a trial. -/
def outage : List Op :=
  (List.range 20).flatMap (fun i => [.start 0, .end_ (i + 1) 1 .failure]) ++ [.start 5, .start 6]

/-- A failing dependency opens the breaker, and the first call after five seconds is
the trial. -/
theorem breaker_protocol_outage : ∃ h b, Reach step Issued {} h b ∧ b.state = .halfOpen ∧
    outstanding h = some 22 ∧ Protocol h b := by
  have hr : Reach step Issued {} (runOps step {} outage).1 (runOps step {} outage).2 :=
    reach_of_allAllowed outage (by decide +kernel)
  exact ⟨_, _, hr, by decide +kernel, by decide +kernel, breaker_protocol hr⟩

end BeSdk.Breaker
