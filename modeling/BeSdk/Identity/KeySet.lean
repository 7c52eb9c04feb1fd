/-
BeSdk.Identity.KeySet — the issuer's public keys, and what `key` and `refresh` do to
them when many requests share them.

A call of `key` runs up to its await in one step, and on from there in another: between
them the clock, the other calls and the refreshes go on. A refresh is a task; it waits
for the lock, fetches, and leaves the keys with the time it did so, or fails. What a
call awaits is a value of its own (`Awaited`), since cancelling a call cancels what it
awaits: a task, or only the shield around it.

`run` starts a refresh at any time here, and the lock goes to any of those that wait
for it. Times are readings of the one clock, which does not go back.
-/
import BeSdk.Py.Datetime
import BeSdk.Lib.Dict
import BeSdk.Lib.History

namespace BeSdk.Identity

/-- An unknown kid refreshes at most this often. -/
def unknownKidRefresh : Seconds := 30

/-- Keys older than this are not used. -/
def keyMaxAge : Seconds := 3600

/-- The issuer's keys, and the times that decide about them. -/
structure KeySet (κ : Type) where
  keys : Dict Str κ := Dict.empty
  fetchedAt : Option Seconds := none
  lastUnknown : Option Seconds := none

/-- `KeysUnavailable`, `_UnknownKID` -/
inductive KeyError where
  | keysUnavailable
  | unknownKid
  deriving DecidableEq

section
variable {κ : Type}

/-- Whether a call makes a refresh: the kid is unknown, and none was made for one lately. -/
def KeySet.mayRefresh (k : KeySet κ) (now : Seconds) (kid : Str) : Bool :=
  (k.keys.get? kid).isNone &&
    match k.lastUnknown with
    | none => true
    | some last => decide (unknownKidRefresh ≤ now - last)

/-- Whether the keys may be used. -/
def KeySet.usable (k : KeySet κ) (now : Seconds) : Bool :=
  match k.fetchedAt with
  | none => false
  | some at_ => decide (now - at_ ≤ keyMaxAge)

/-- The end of `key`: the key of a kid, judged by the keys' age. -/
def KeySet.judge (k : KeySet κ) (now : Seconds) (kid : Str) : Except KeyError κ :=
  if k.usable now = false then .error .keysUnavailable
  else
    match k.keys.get? kid with
    | none => .error .unknownKid
    | some key => .ok key

end

/-! ## Tasks and calls -/

inductive Phase where
  /-- Before the lock. -/
  | queued
  /-- Behind it. -/
  | fetching
  | done
  | cancelled
  deriving DecidableEq

/-- A task that runs `refresh`, for an unknown kid or for `run`. -/
structure Refresh where
  unknownKid : Bool
  phase : Phase := .queued

/-- What a suspended call awaits: a task, or the shield around one. -/
inductive Awaited where
  | task (i : Nat)
  | shield (i : Nat)
  deriving DecidableEq

def Awaited.index : Awaited → Nat
  | .task i => i
  | .shield i => i

def setPhase (p : Phase) (i : Nat) (tasks : List Refresh) : List Refresh :=
  tasks.modify i fun t => { t with phase := p }

/-- What a cancellation does to the tasks: it reaches the awaited task, and stops at a shield. -/
def Awaited.cancel : Awaited → List Refresh → List Refresh
  | .task i, tasks => setPhase .cancelled i tasks
  | .shield _, tasks => tasks

/-- A call of `key`; it is over where it awaits nothing. -/
structure Call where
  kid : Str
  awaits : Option Awaited

/-- The key set, its tasks, the holder of its lock, the task made for the last unknown
kid (`_unknown`) and the calls. -/
structure State (κ : Type) where
  clock : Seconds
  set : KeySet κ := {}
  tasks : List Refresh := []
  holder : Option Nat := none
  unknown : Option Nat := none
  calls : List Call := []

inductive Event (κ : Type) where
  /-- A refresh was made for an unknown kid. -/
  | created (at_ : Seconds)
  | fetched (at_ : Seconds) (keys : Dict Str κ)
  | returned (kid : Str) (key : κ) (at_ : Seconds)
  | raised (e : KeyError)
  | quiet

inductive Op (κ : Type) where
  /-- Time passes. -/
  | advance (time : Seconds)
  /-- `run` refreshes. -/
  | schedule
  /-- A task gets the lock. -/
  | acquire (i : Nat)
  /-- The fetch of a task succeeds. -/
  | succeed (i : Nat) (keys : Dict Str κ)
  | fail (i : Nat)
  /-- `key` up to its await; without one, to its end, where the clock is read again. -/
  | call (kid : Str) (later : Seconds)
  /-- A call goes on when what it awaits is done; a cancelled task cancels it. -/
  | wake (j : Nat)
  | cancel (j : Nat)

section
variable {κ : Type}

/-- The phase of a task. -/
def State.phase? (s : State κ) (i : Nat) : Option Phase := s.tasks[i]?.map Refresh.phase

/-- The end of a call. -/
def State.judged (s : State κ) (kid : Str) : Event κ :=
  match s.set.judge s.clock kid with
  | .ok key => .returned kid key s.clock
  | .error e => .raised e

/-- The beginning of `key`: it makes a refresh for an unknown kid. -/
def State.refreshed (s : State κ) (kid : Str) : State κ × Event κ :=
  if s.set.mayRefresh s.clock kid then
    ({ s with set := { s.set with lastUnknown := some s.clock },
              tasks := s.tasks ++ [{ unknownKid := true }],
              unknown := some s.tasks.length }, .created s.clock)
  else (s, .quiet)

/-- The refresh for an unknown kid that has not ended. -/
def State.pending (s : State κ) : Option Nat :=
  s.unknown.filter fun i => s.phase? i = some .queued ∨ s.phase? i = some .fetching

/-- A step, and its events, newest first. -/
def step (s : State κ) : Op κ → State κ × List (Event κ)
  | .advance time => ({ s with clock := max s.clock time }, [])
  | .schedule => ({ s with tasks := s.tasks ++ [{ unknownKid := false }] }, [])
  | .acquire i =>
      if s.phase? i = some .queued ∧ s.holder = none then
        ({ s with tasks := setPhase .fetching i s.tasks, holder := some i }, [])
      else (s, [])
  | .succeed i keys =>
      if s.phase? i = some .fetching then
        ({ s with set := { s.set with keys, fetchedAt := some s.clock },
                  tasks := setPhase .done i s.tasks,
                  holder := none }, [.fetched s.clock keys])
      else (s, [])
  | .fail i =>
      if s.phase? i = some .fetching then
        ({ s with tasks := setPhase .done i s.tasks, holder := none }, [])
      else (s, [])
  | .call kid later =>
      let (s', e) := s.refreshed kid
      match s'.pending with
      | some i => ({ s' with calls := s'.calls ++ [⟨kid, some (.shield i)⟩] }, [e])
      | none =>
          let s'' := { s' with clock := max s'.clock later, calls := s'.calls ++ [⟨kid, none⟩] }
          (s'', [s''.judged kid, e])
  | .wake j =>
      match s.calls[j]? with
      | some ⟨kid, some a⟩ =>
          if s.phase? a.index = some .done then
            ({ s with calls := s.calls.set j ⟨kid, none⟩ }, [s.judged kid])
          else if s.phase? a.index = some .cancelled then
            ({ s with calls := s.calls.set j ⟨kid, none⟩ }, [])
          else (s, [])
      | _ => (s, [])
  | .cancel j =>
      match s.calls[j]? with
      | some ⟨kid, some a⟩ =>
          ({ s with tasks := a.cancel s.tasks, calls := s.calls.set j ⟨kid, none⟩ }, [])
      | _ => (s, [])

end

end BeSdk.Identity
