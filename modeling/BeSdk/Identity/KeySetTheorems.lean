/-
BeSdk.Identity.KeySetTheorems — what holds of the shared keys in every interleaving.

* `keys_fresh`: two refreshes made for unknown kids are made at least
  `UNKNOWN_KID_REFRESH` apart; cancelling a call leaves every refresh as it is; and a key
  that is returned is of the last fetch that succeeded, not longer ago than `KEY_MAX_AGE`.

The state remembers of the history only the time of the last refresh for an unknown kid
and the last fetch; `Inv` says that this is what it remembers, and that every call
awaits a shield.
-/
import BeSdk.Identity.KeySet
import Mathlib.Tactic.Linarith

namespace BeSdk.Identity

section
variable {κ : Type}

/-! ## Histories -/

/-- When refreshes were made for unknown kids. -/
def creations : List (Event κ) → List Seconds
  | [] => []
  | .created at_ :: h => at_ :: creations h
  | _ :: h => creations h

/-- The last fetch that succeeded: its time and its keys. -/
def lastFetch : List (Event κ) → Option (Seconds × Dict Str κ)
  | [] => none
  | .fetched at_ keys :: _ => some (at_, keys)
  | _ :: h => lastFetch h

/-- Refreshes for unknown kids stand apart. -/
def Spaced (h : List (Event κ)) : Prop :=
  (creations h).Pairwise fun later earlier => earlier + unknownKidRefresh ≤ later

/-- Each key returned is one of the last fetch before, and that is not too old. -/
def Fresh (h : List (Event κ)) : Prop :=
  ∀ after kid key at_ before, h = after ++ .returned kid key at_ :: before →
    ∃ fetchedAt keys, lastFetch before = some (fetchedAt, keys) ∧ keys.get? kid = some key ∧
    at_ - fetchedAt ≤ keyMaxAge

theorem fresh_cons {e : Event κ} {h : List (Event κ)} (hh : Fresh h)
    (he : ∀ kid key at_, e = .returned kid key at_ → ∃ fetchedAt keys, lastFetch h =
      some (fetchedAt, keys) ∧ keys.get? kid = some key ∧ at_ - fetchedAt ≤ keyMaxAge) : Fresh
      (e :: h) := by
  intro after kid key at_ before heq
  cases after with
  | nil =>
      obtain ⟨rfl, rfl⟩ := List.cons.inj heq
      exact he kid key at_ rfl
  | cons x after =>
      obtain ⟨-, heq⟩ := List.cons.inj heq
      exact hh after kid key at_ before heq

/-! ## The invariant -/

/-- What the state remembers of the events. -/
structure Inv (h : List (Event κ)) (s : State κ) : Prop where
  spaced : Spaced h
  last : s.set.lastUnknown = (creations h).head?
  past : ∀ at_ ∈ creations h, at_ ≤ s.clock
  fetched : lastFetch h = s.set.fetchedAt.map fun at_ => (at_, s.set.keys)
  fresh : Fresh h
  shielded : ∀ c ∈ s.calls, ∀ a ∈ c.awaits, ∃ i, a = .shield i
  running : ∀ t ∈ s.tasks, t.phase ≠ .cancelled

theorem inv_init (t : Seconds) : Inv [] ({ clock := t } : State κ) where
  spaced := List.Pairwise.nil
  last := rfl
  past := by simp [creations]
  fetched := rfl
  fresh := by
    intro after kid key at_ before heq
    simp at heq
  shielded := by simp
  running := by simp

variable {h : List (Event κ)} {s : State κ}

/-- The end of a call keeps to the last fetch. -/
theorem Inv.judged (hi : Inv h s) (kid : Str) : Inv (s.judged kid :: h) s := by
  have hcreations : creations (s.judged kid :: h) = creations h := by
    rw [State.judged]
    split <;> rfl
  have hfetch : lastFetch (s.judged kid :: h) = lastFetch h := by
    rw [State.judged]
    split <;> rfl
  refine ⟨?_, ?_, ?_, ?_, ?_, hi.shielded, hi.running⟩
  · rw [Spaced, hcreations]
    exact hi.spaced
  · rw [hcreations]
    exact hi.last
  · rw [hcreations]
    exact hi.past
  · rw [hfetch]
    exact hi.fetched
  · refine fresh_cons hi.fresh fun kid' key at_ heq => ?_
    rw [hi.fetched]
    rw [State.judged, KeySet.judge, KeySet.usable] at heq
    cases hfetched : s.set.fetchedAt with
    | none =>
        rw [hfetched] at heq
        cases heq
    | some fetchedAt =>
        simp only [hfetched, decide_eq_false_iff_not, not_le] at heq
        split at heq
        · next key' hjudge =>
          split at hjudge
          · cases hjudge
          · next hage =>
            cases hkey : s.set.keys.get? kid with
            | none =>
                rw [hkey] at hjudge
                cases hjudge
            | some found =>
                rw [hkey] at hjudge
                cases hjudge
                cases heq
                exact ⟨fetchedAt, s.set.keys, rfl, hkey, not_lt.mp hage⟩
        · cases heq

/-- The beginning of a call makes a refresh only when the last one is long enough ago. -/
theorem Inv.refreshed (hi : Inv h s) (kid : Str) :
    Inv ((s.refreshed kid).2 :: h) (s.refreshed kid).1 := by
  rw [State.refreshed]
  split
  · next hmay =>
    have hapart : ∀ at_ ∈ creations h, at_ + unknownKidRefresh ≤ s.clock := by
      intro at_ hat
      rw [KeySet.mayRefresh, Bool.and_eq_true, hi.last] at hmay
      have hspaced := hi.spaced
      rw [Spaced] at hspaced
      cases hc : creations h with
      | nil =>
          rw [hc] at hat
          cases hat
      | cons last earlier =>
          rw [hc] at hmay hat hspaced
          have hlast : last + unknownKidRefresh ≤ s.clock := by
            have := of_decide_eq_true hmay.2
            linarith
          rcases List.mem_cons.mp hat with rfl | hmem
          · exact hlast
          · have hbefore := (List.pairwise_cons.mp hspaced).1 at_ hmem
            have hpos : (0 : Seconds) ≤ unknownKidRefresh := by norm_num [unknownKidRefresh]
            linarith
    refine ⟨List.pairwise_cons.mpr ⟨hapart, hi.spaced⟩, rfl, ?_, hi.fetched, ?_, hi.shielded, ?_⟩
    · exact List.forall_mem_cons.mpr ⟨le_rfl, hi.past⟩
    · exact fresh_cons hi.fresh fun kid' key at_ heq => by cases heq
    · rw [List.forall_mem_append, List.forall_mem_singleton]
      exact ⟨hi.running, by simp⟩
  · refine ⟨hi.spaced, hi.last, hi.past, hi.fetched, ?_, hi.shielded, hi.running⟩
    exact fresh_cons hi.fresh fun kid' key at_ heq => by cases heq

/-- Time does not undo anything. -/
theorem Inv.later (hi : Inv h s) {t : Seconds} (ht : s.clock ≤ t) : Inv h { s with clock := t } :=
  { hi with past := fun at_ hat => (hi.past at_ hat).trans ht }

theorem mem_setPhase {p : Phase} {i : Nat} {tasks : List Refresh} {t : Refresh}
    (h : t ∈ setPhase p i tasks) : t ∈ tasks ∨ t.phase = p := by
  obtain ⟨j, hj⟩ := List.mem_iff_getElem?.mp h
  rw [setPhase, List.getElem?_modify] at hj
  obtain ⟨t', ht', rfl⟩ := Option.map_eq_some_iff.mp hj
  by_cases hij : i = j
  · exact .inr (by simp [hij])
  · exact .inl (by simpa [hij] using List.mem_of_getElem? ht')

/-- A task in another phase that is no cancellation. -/
theorem Inv.setPhase (hi : Inv h s) {p : Phase} (hp : p ≠ .cancelled) (i : Nat)
    (holder : Option Nat) : Inv h { s with tasks := Identity.setPhase p i s.tasks, holder } :=
  { hi with
    running := fun t ht => by
      rcases mem_setPhase ht with hmem | rfl
      · exact hi.running t hmem
      · exact hp }

/-- A call is over. -/
theorem Inv.over (hi : Inv h s) (j : Nat) (kid : Str) : Inv
    h { s with calls := s.calls.set j ⟨kid, none⟩ } :=
  { hi with
    shielded := fun c hc a ha => by
      rcases List.mem_or_eq_of_mem_set hc with hmem | rfl
      · exact hi.shielded c hmem a ha
      · cases ha }

/-- A call joins. -/
theorem Inv.join (hi : Inv h s) {c : Call} (hc : ∀ a ∈ c.awaits, ∃ i, a = .shield i) :
    Inv h { s with calls := s.calls ++ [c] } :=
  { hi with
    shielded := by
      rw [List.forall_mem_append, List.forall_mem_singleton]
      exact ⟨hi.shielded, hc⟩ }

/-- A cancellation stops at the shield. -/
theorem cancel_tasks (hi : Inv h s) (j : Nat) : (step s (.cancel j)).1.tasks = s.tasks := by
  rw [step]
  split
  · next kid a hcall =>
    obtain ⟨i, rfl⟩ := hi.shielded _ (List.mem_of_getElem? hcall) a rfl
    rfl
  · rfl

/-- **Each step** keeps what the state remembers. -/
theorem Inv.step (hi : Inv h s) (o : Op κ) : Inv ((step s o).2 ++ h) (step s o).1 := by
  cases o with
  | advance time => exact hi.later (le_max_left _ _)
  | schedule =>
      refine { hi with running := ?_ }
      show ∀ r ∈ s.tasks ++ [{ unknownKid := false }], r.phase ≠ .cancelled
      rw [List.forall_mem_append, List.forall_mem_singleton]
      exact ⟨hi.running, by simp⟩
  | acquire i =>
      rw [Identity.step]
      split
      · exact hi.setPhase (by decide) i _
      · exact hi
  | succeed i keys =>
      rw [Identity.step]
      split
      · refine { hi.setPhase (by decide) i
          none with last := hi.last, past := hi.past, fetched := rfl, fresh := ?_ }
        exact fresh_cons hi.fresh fun kid key at_ heq => by cases heq
      · exact hi
  | fail i =>
      rw [Identity.step]
      split
      · exact hi.setPhase (by decide) i none
      · exact hi
  | call kid later =>
      have hrefreshed := hi.refreshed kid
      rw [Identity.step]
      dsimp only
      split
      · next i hpending => exact hrefreshed.join fun a ha => ⟨i, by simpa using ha.symm⟩
      · exact ((hrefreshed.later (le_max_left _ _)).join (c := ⟨kid, none⟩) (by simp)).judged kid
  | wake j =>
      rw [Identity.step]
      split
      · next kid a hcall =>
        split
        · exact (hi.judged kid).over j kid
        split
        · exact hi.over j kid
        · exact hi
      · exact hi
  | cancel j =>
      have htasks := cancel_tasks hi j
      rw [Identity.step] at htasks ⊢
      split
      · next kid a hcall =>
        rw [hcall] at htasks
        dsimp only at htasks ⊢
        rw [htasks]
        exact hi.over j kid
      · exact hi

/-- **Every run** from an empty key set. -/
theorem inv_reach {t : Seconds} {h : List (List (Event κ))} {s : State κ}
    (hr : Reach step anyOp { clock := t } h s) : Inv h.flatten s :=
  @Reach.invariant _ _ _ step anyOp _ (fun h s => Inv h.flatten s) (inv_init t)
    (fun _ _ o _ hi => hi.step o) _ _ hr

/-- **Unknown kids and old keys.** In every interleaving of calls, refreshes and
cancellations, refreshes for unknown kids are made at least `UNKNOWN_KID_REFRESH`
apart, the cancellation of a call leaves the refreshes as they are, none of which is
ever cancelled, and each key returned is of the last fetch that succeeded, at most
`KEY_MAX_AGE` ago. -/
theorem keys_fresh {t : Seconds} {h : List (List (Event κ))} {s : State κ}
    (hr : Reach step anyOp { clock := t } h s) :
    Spaced h.flatten ∧ (∀ j, (step s (.cancel j)).1.tasks = s.tasks) ∧
    (∀ r ∈ s.tasks, r.phase ≠ .cancelled) ∧
      Fresh h.flatten := by
  have hi := inv_reach hr
  exact ⟨hi.spaced, cancel_tasks hi, hi.running, hi.fresh⟩

end

/-- Two calls ask for an unknown kid; one is cancelled, the other gets the key that the
refresh fetched. -/
def sharedRefresh : List (Op Nat) :=
  [.call (str "k") 0, .call (str "k") 0, .acquire 0, .cancel 1, .advance 5,
    .succeed 0 (Dict.empty.set (str "k") 7), .wake 0]

/-- The key an event returns, with its kid and time. -/
def Event.key? : Event Nat → Option (Str × Nat × Seconds)
  | .returned kid key at_ => some (kid, key, at_)
  | _ => none

theorem keys_fresh_shared : let r := runOps step ({ clock := 0 } : State Nat) sharedRefresh
    r.1.flatten.head?.bind Event.key? = some (str "k", 7, 5) ∧ Spaced r.1.flatten ∧
      (∀ j, (step r.2 (.cancel j)).1.tasks = r.2.tasks) ∧
      (∀ t ∈ r.2.tasks, t.phase ≠ .cancelled) ∧ Fresh r.1.flatten :=
  ⟨by decide +kernel, keys_fresh (reach_runOps step sharedRefresh _)⟩

end BeSdk.Identity
