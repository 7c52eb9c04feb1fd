/-
BeSdk.Db.Settings — the connection keys that serve requests, and what is read from them
(`serve_keys`, `Target` and `settings_from`).

Timeouts are kept in microseconds; `total_seconds()` is not computed with here.
-/
import BeSdk.Config

namespace BeSdk.Db

open Config

def seconds (n : Nat) : Value := .duration (n * 1000000 : Nat)

def serveKeys : List Key :=
  [{ name := str "PG_HOST", type := .string, required := true },
   { name := str "PG_PORT", type := .integer, default_ := some (.int 5432) },
   { name := str "PG_DATABASE", type := .string, required := true },
   { name := str "PG_USER", type := .string, required := true },
   { name := str "PG_PASSWORD", type := .string, required := true, secret := true },
   { name := str "PG_SCHEMA", type := .string, required := true },
   { name := str "PG_POOLER_PREPARED", type := .boolean, default_ := some (.bool true) },
   { name := str "PG_STATEMENT_TIMEOUT", type := .duration, default_ := some (seconds 5) },
   { name := str "PG_LOCK_TIMEOUT", type := .duration, default_ := some (seconds 2) },
   { name := str "PG_IDLE_IN_TX_TIMEOUT", type := .duration, default_ := some (seconds 10) },
   { name := str "PG_POOL_FOREGROUND", type := .integer, default_ := some (.int 8) },
   { name := str "PG_POOL_BACKGROUND", type := .integer, default_ := some (.int 4) }]

/-- A database: members with the same target share one pool in a shell. -/
structure Target where
  host : Str
  port : Int
  database : Str
  deriving DecidableEq

/-- `str(t)` -/
def Target.text (t : Target) : Str := t.host ++ str ":" ++ intText t.port ++ str "/" ++ t.database

structure Timeouts where
  statement : Int
  lock : Int
  idleInTx : Int

structure Settings where
  target : Target
  user : Str
  password : Option Secret
  schema : Str
  prepared : Bool
  timeouts : Timeouts
  foreground : Int
  background : Int

def settingsFrom (o : Objects) (v : Values) : Except Exc Settings := do
  let target := ⟨← v.string o (str "PG_HOST"), ← v.int (str "PG_PORT"),
    ← v.string o (str "PG_DATABASE")⟩
  let user ← v.string o (str "PG_USER")
  let password ← v.secret (str "PG_PASSWORD")
  let schema ← v.string o (str "PG_SCHEMA")
  let prepared ← v.bool (str "PG_POOLER_PREPARED")
  let timeouts := ⟨← v.duration (str "PG_STATEMENT_TIMEOUT"), ← v.duration (str "PG_LOCK_TIMEOUT"),
    ← v.duration (str "PG_IDLE_IN_TX_TIMEOUT")⟩
  let foreground ← v.int (str "PG_POOL_FOREGROUND")
  let background ← v.int (str "PG_POOL_BACKGROUND")
  return { target, user, password, schema, prepared, timeouts, foreground, background }

end BeSdk.Db
