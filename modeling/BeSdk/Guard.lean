/-
BeSdk.Guard — a member that serves protected routes: `UserGuard.admit`, and the state its
requests share.

`admit` waits for one thing, the key of the token; from there on, where the key set judges,
it is one step. Its parts are those of `Identity.Token` and `Cutoff`. The machine is a
whole member: the key set with its refreshes, the holder of the view with the answers it
verifies, and the tasks of the requests, which decide on the view as it is then. Which of
them goes on is anybody's choice, and so are the clocks.

A request is the cell its admission made. The user and the subject are bound in the same
block as the cutoff, so a task's subject is that of its cell; without one it has no
subject to decide with.
-/
import BeSdk.Cutoff
import BeSdk.Identity.Token

namespace BeSdk.Guard

open Identity (Jwt Jwk KeySet Verifier)

/-- What `UserGuard` is made with, but for the view. -/
structure UserGuard where
  verifier : Verifier
  defs : Index

/-- What the clocks show in `admit`: the wall clock as the token is verified, those of the
lookup, and the suspend-aware clock and the wall clock as the cutoff is derived. -/
structure Clocks where
  verified : ℚ
  view : Clock
  boot : Seconds
  now : Seconds
  /-- `now` as a time of the calendar. -/
  at_ : Instant

/-! ## `admit` -/

def tokenInvalid : Errs.Error := Errs.new (str "TOKEN_INVALID")
    (str "the credential is missing or not valid")

/-- The token of an authorization header. -/
def credential (auth : Str) : Str := if Str.startsWith auth (str "Bearer ") then auth.drop
    (str "Bearer ").length else []

/-- What a failed verification comes to: a refused token is `TOKEN_INVALID` to the caller,
whatever its problem. -/
def refusal : Identity.Raised → Exc
  | .tokenError _ => .error tokenInvalid
  | .error e => .error e
  | .overflowError => .overflowError
  | .valueError => .valueError
  | .recursionError => .recursionError

/-- `admit` past the verification. -/
def UserGuard.arrival (g : UserGuard) (holder : Holder) (c : Clocks) (operation : Str)
    (u : Identity.User) : Cutoff.Arrival where
  defs := g.defs
  holder := holder
  clock := c.view
  user := { subject := u.subject, securityVersion := u.securityVersion, expiry := u.expiry }
  operation := operation
  boot := c.boot
  now := c.now

/-- `admit`: the user, and the cutoffs of the token and of the grant. -/
def UserGuard.admit_ [Interp] [Jwt] (g : UserGuard) (keys : KeySet Jwk) (mono : Seconds)
    (holder : Holder) (c : Clocks) (operation auth : Str) :
    Except Exc (Identity.User × Seconds × Seconds) :=
  let token := credential auth
  if token = [] then .error (.error tokenInvalid)
  else
    match Identity.verify g.verifier keys mono c.verified token with
    | .error e => .error (refusal e)
    | .ok user => (g.arrival holder c operation user).admit_.map fun cutoffs => (user, cutoffs)

/-! ## The member -/

/-- `users` has the user of each request, with the time of its decisions. -/
structure State where
  keys : Identity.State Jwk
  holder : Holder := Holder.start
  requests : Cutoff.State := {}
  users : List (Identity.User × Instant) := []

/-- After the start, with no keys and no view. -/
def started (clock : Seconds) : State := { keys := { clock } }

/-- An admission, with what it read. -/
structure Admission where
  auth : Str
  operation : Str
  clocks : Clocks
  /-- The clock of the key set. -/
  mono : Seconds
  user : Identity.User

inductive Event where
  | keys (events : List (Identity.Event Jwk))
  | view (notes : List Note)
  | admitted (k : Nat) (a : Admission)
  /-- A task of the request decides. -/
  | decided (k : Nat) (op : Str) (clock : Clock)
  /-- A transaction reads the cutoff of its request. -/
  | read (i : Nat)
  | commit (i : Nat) (k : Option Nat) (checked : Option Seconds)
  | quiet

inductive Op where
  /-- A step of the key set. -/
  | keys (o : Identity.Op Jwk)
  /-- A step of the holder. -/
  | view (o : BeSdk.Op)
  /-- A task outside any request. -/
  | start
  | admit_ (i : Nat) (auth operation : Str) (c : Clocks)
  /-- `check` or `list` of the subject. -/
  | decide (i : Nat) (op : Str) (clock : Clock)
  /-- A step of a task. -/
  | task (i : Nat) (a : Cutoff.Act)

/-- `subject()`, in a task. -/
def State.subject (g : UserGuard) (s : State) (t : Cutoff.Task) : Option Subject :=
  t.cell.bind fun k => s.users[k]?.map fun u =>
    { principal := u.1.subject, defs := g.defs, holder := s.holder, at_ := u.2 }

/-- Whether a step of a task reads the cutoff. -/
def reads (s : Cutoff.State) (t : Cutoff.Task) : Cutoff.Act → Bool
  | .finish =>
      match t.phase with
      | .running _ => (s.cutoff t).isSome
      | _ => false
  | _ => false

/-- The event of a task's step, which may have read the cutoff. -/
def Event.ofTask (i : Nat) (read : Bool) : Cutoff.Event → Event
  | .commit k checked => .commit i k checked
  | _ => if read then .read i else .quiet

def State.act (s : State) (i : Nat) (t : Cutoff.Task) (a : Cutoff.Act) : State × Event :=
  ({ s with requests := (s.requests.act i t a).1 }, .ofTask i (reads s.requests t a)
    (s.requests.act i t a).2)

def State.admit_ [Interp] [Jwt] (g : UserGuard) (s : State) (i : Nat) (t : Cutoff.Task)
    (auth operation : Str) (c : Clocks) : State × Event :=
  match t.active, g.admit_ s.keys.set s.keys.clock s.holder c operation auth with
  | true, .ok (user, token, grant) =>
      ({ s with requests := (s.requests.admit_ i t token grant).1,
                users := s.users ++ [(user, c.at_)] }, .admitted s.requests.cells.length
          { auth, operation, clocks := c, mono := s.keys.clock, user })
  | _, _ => (s, .quiet)

def State.decide (g : UserGuard) (s : State) (t : Cutoff.Task) (op : Str) (clock : Clock) :
    State × Event :=
  match t.active, t.cell, s.subject g t with
  | true, some k, some subject =>
      match subject.grant clock op with
      | .ok (_, _, grant) =>
          ({ s with requests := (s.requests.tighten t grant.cutoff).1 }, .decided k op clock)
      | .error _ => (s, .quiet)
  | _, _, _ => (s, .quiet)

def step [Interp] [Jwt] (g : UserGuard) (s : State) : Op → State × Event
  | .keys o => ({ s with keys := (Identity.step s.keys o).1 }, .keys (Identity.step s.keys o).2)
  | .view o =>
      ({ s with holder := (s.holder.step (some g.defs) o).1 },
        .view (s.holder.step (some g.defs) o).2)
  | .start => ({ s with requests := (Cutoff.step s.requests .start).1 }, .quiet)
  | .admit_ i auth operation c =>
      match s.requests.tasks[i]? with
      | some t => s.admit_ g i t auth operation c
      | none => (s, .quiet)
  | .decide i op clock =>
      match s.requests.tasks[i]? with
      | some t => s.decide g t op clock
      | none => (s, .quiet)
  | .task i a =>
      match s.requests.tasks[i]?, a with
      -- the two that need the member
      | _, .admit_ _ | _, .decide _ _ _ => (s, .quiet)
      | some t, a => s.act i t a
      | none, _ => (s, .quiet)

end BeSdk.Guard
