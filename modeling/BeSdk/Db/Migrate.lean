/-
BeSdk.Db.Migrate — the migrate entry on one state table: the advisory lock, the dirty
mark, one file after another, and what a lost connection leaves behind.

A SESSION is one call of `_apply_once`; the retries of `_migrate_set` and the other
replicas are more sessions. Its files are those that were released when its version was
built, read in any order and sorted by `_versions`. `lint` refuses two of one version, and
names start with digits; a later version has files of higher versions only. What a file
does is its version. A statement is one step, and so is the transaction of
`_set_version`: it takes effect, or it fails. An error of the database, a lock that is
not granted in time among them, ends a session in the two `finally`s, but for the body of
a file, whose error is recorded first.

A session is LOST when its process ends, its task is cancelled or its connection breaks.
The backend may still be running the statement sent last, and holds the lock until it is
through and gone: a later statement of the client reaches nobody. The watcher, which only
reads, and the log are left out. The state table is made before it is read, and an empty
one reads like none.
-/
import BeSdk.Lib.History
import Mathlib.Data.List.Sort

namespace BeSdk.Db.Migrate

/-! ## The database -/

/-- The row of the state table. -/
structure Entry where
  version : Int
  dirty : Bool
  deriving DecidableEq

/-- What a statement commits: `_set_version`, or the body of a file. -/
inductive Write where
  | set (version : Int) (dirty : Bool)
  | file (version : Int)
  deriving DecidableEq

/-- The row that `_set_version` leaves. -/
def entry (version : Int) (dirty : Bool) : Option Entry :=
  if 0 ≤ version then some ⟨version, dirty⟩ else none

/-! ## Sessions -/

/-- Where a session is; `current` is the version before the file at hand, and `rest` the
files after it. -/
inductive Stage where
  | connected
  | locked
  | created
  /-- Next, the file is marked dirty. -/
  | ready (current version : Int) (rest : List Int)
  /-- Next, the file runs. -/
  | marked (current version : Int) (rest : List Int)
  /-- Next, the file is recorded. -/
  | applied (version : Int) (rest : List Int)
  /-- Next, the version before the file is recorded. -/
  | failed (current version : Int)
  /-- Next, the lock is given back. -/
  | closing
  | ended
  | lost (inFlight : Option Write)
  deriving DecidableEq

structure Session where
  files : List Int
  stage : Stage := .connected
  deriving DecidableEq

/-- `sorted(out)` of `_versions`. -/
def versions (files : List Int) : List Int := files.insertionSort (· ≤ ·)

/-- The `for` over the files. -/
def loop (current : Int) : List Int → Stage
  | [] => .closing
  | version :: rest => if version ≤ current then loop current rest else .ready current version rest

/-- What the next statement commits. -/
def Stage.statement : Stage → Option Write
  | .ready _ version _ => some (.set version true)
  | .marked _ version _ => some (.file version)
  | .applied version _ => some (.set version false)
  | .failed current _ => some (.set current false)
  | .connected | .locked | .created | .closing | .ended | .lost _ => none

/-- After a statement that committed. -/
def Stage.succeeds : Stage → Stage
  | .ready current version rest => .marked current version rest
  | .marked _ version rest => .applied version rest
  | .applied version rest => loop version rest
  | .failed _ _ => .closing
  | st => st

/-- After a statement that failed. -/
def Stage.fails : Stage → Stage
  | .marked current version _ => .failed current version
  | .locked | .created | .ready _ _ _ | .applied _ _ | .failed _ _ => .closing
  | st => st

/-! ## Runs -/

/-- `released` has the files there are, `effects` those that took effect, both oldest
first. -/
structure State where
  released : List Int := []
  table : Option Entry := none
  effects : List Int := []
  lock : Option Nat := none
  sessions : List Session := []
  deriving DecidableEq

/-- A schema that no file was applied to. -/
def start : State := {}

inductive Note where
  | took (session : Nat) (version : Int)
  | set (session : Nat) (version : Int) (dirty : Bool)
  | refused (session : Nat) (version : Int)
  deriving DecidableEq

/-- A session goes on to a stage. -/
def State.to_ (s : State) (i : Nat) (p : Session) (stage : Stage) : State :=
  { s with sessions := s.sessions.set i { p with stage } }

/-- A statement takes effect. -/
def State.write (s : State) (i : Nat) : Write → State × List Note
  | .set version dirty => ({ s with table := entry version dirty }, [.set i version dirty])
  | .file version => ({ s with effects := s.effects ++ [version] }, [.took i version])

/-- The next statement is done: it commits, or makes or reads the state table. -/
def State.succeed (s : State) (i : Nat) (p : Session) : State × List Note :=
  match p.stage.statement with
  | some w => ((s.write i w).1.to_ i p p.stage.succeeds, (s.write i w).2)
  | none =>
      match p.stage with
      | .locked => (s.to_ i p .created, [])
      | .created =>
          match s.table with
          | some ⟨version, true⟩ => (s.to_ i p .closing, [.refused i version])
          | row => (s.to_ i p (loop (row.elim (-1) Entry.version) p.files), [])
      | _ => (s, [])

/-- A session's lock goes with it. -/
def State.free (s : State) (i : Nat) : State :=
  if s.lock = some i then { s with lock := none } else s

inductive Op where
  /-- A file of a higher version is added. -/
  | release (version : Int)
  /-- A run connects; its build has the first files, which are read in any order. -/
  | connect (files : List Int)
  | lock (i : Nat)
  /-- A session's next statement takes effect, or fails. -/
  | run (i : Nat) (ok : Bool)
  /-- A session gives the lock back, or stops waiting for it. -/
  | close (i : Nat)
  /-- A session is lost, its next statement sent or not. -/
  | lose (i : Nat) (sent : Bool)
  /-- The backend of a lost session comes to the end of its statement. -/
  | finish (i : Nat) (commits : Bool)
  /-- The backend of a lost session ends. -/
  | drop (i : Nat)

def step (s : State) : Op → State × List Note
  | .release version =>
      if 0 ≤ version ∧ ∀ v ∈ s.released, v <
        version then ({ s with released := s.released ++ [version] }, []) else (s, [])
  | .connect files =>
      if files.isPerm (s.released.take files.length) then
        ({ s with sessions := s.sessions ++ [{ files := versions files }] }, [])
      else (s, [])
  | .lock i =>
      match s.sessions[i]? with
      | some p =>
          if p.stage = .connected ∧ s.lock =
            none then ({ s with lock := some i }.to_ i p .locked, []) else (s, [])
      | none => (s, [])
  | .run i ok =>
      match s.sessions[i]? with
      | some p => if ok then s.succeed i p else (s.to_ i p p.stage.fails, [])
      | none => (s, [])
  | .close i =>
      match s.sessions[i]? with
      | some p =>
          if p.stage = .closing ∨ p.stage = .connected then ((s.free i).to_ i p .ended, [])
            else (s, [])
      | none => (s, [])
  | .lose i sent =>
      match s.sessions[i]? with
      | some p =>
          match p.stage with
          | .ended | .lost _ => (s, [])
          | st => (s.to_ i p (.lost (if sent then st.statement else none)), [])
      | none => (s, [])
  | .finish i commits =>
      match s.sessions[i]? with
      | some p =>
          match p.stage with
          | .lost (some w) =>
              if commits then ((s.write i w).1.to_ i p (.lost none), (s.write i w).2)
                else (s.to_ i p (.lost none), [])
          | _ => (s, [])
      | none => (s, [])
  | .drop i =>
      match s.sessions[i]? with
      | some p => if p.stage = .lost none then ((s.free i).to_ i p .ended, []) else (s, [])
      | none => (s, [])

end BeSdk.Db.Migrate
