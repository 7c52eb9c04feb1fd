/-
BeSdk.Host — a component's definition and the configuration keys it is read with: its own,
the SDK's, and those of the database and the bus where it uses them (`host.keys`).
-/
import BeSdk.Db.Settings

namespace BeSdk.Host

open Config

/-- `component.Definition`, as far as hosting it is decided by it. -/
structure Definition where
  id : Str
  version : Str
  keys : List Key := []
  /-- Whether it has migrations, so owns a database. -/
  migrations : Bool := false
  /-- Whether it declares event streams. -/
  streams : Bool := false
  subscribes : Bool := false

def sdkKeys : List Key :=
  [{ name := str "LOG_LEVEL", type := .enum_, values := [str "debug", str "info", str "warn",
    str "error"],
     default_ := some (.raw (.str (str "info"))) },
   { name := str "OTEL_URL", type := .string, process := true },
   { name := str "STOP_DRAIN_DELAY", type := .duration, default_ := some (Db.seconds 2) },
   { name := str "STOP_TIMEOUT", type := .duration, default_ := some (Db.seconds 30) }]

def securityKeys : List Key :=
  [{ name := str "DEPLOYMENT_ID", type := .string, process := true },
   { name := str "IAM_ISSUER", type := .string, process := true },
   { name := str "IAM_JWKS_URL", type := .string, process := true },
   { name := str "AUTHZ_GRPC_URL", type := .string, process := true },
   { name := str "AUDIT_GRPC_URL", type := .string, process := true },
   { name := str "SERVICE_TLS_CERT_FILE", type := .string },
   { name := str "SERVICE_TLS_KEY_FILE", type := .string },
   { name := str "SERVICE_TLS_CA_FILE", type := .string }]

/-- `bus.keys` -/
def busKeys (produces : Bool) : List Key :=
  { name := str "BUS_URL", type := .string, required := true, secret := true, process := true } ::
    if produces then [{ name := str "IMPLEMENTATION_INSTANCE", type := .string,
                        required := true }] else []

/-- `objectstore.store_keys` -/
def storeKeys : List Key :=
  [{ name := str "OBJECT_STORE_URL", type := .string },
   { name := str "OBJECT_STORE_REGION", type := .string,
     default_ := some (.raw (.str (str "us-east-1"))) },
   { name := str "OBJECT_STORE_BUCKET", type := .string },
     { name := str "OBJECT_STORE_PREFIX", type := .string },
   { name := str "OBJECT_STORE_ACCESS_KEY", type := .string },
   { name := str "OBJECT_STORE_SECRET_KEY", type := .string, secret := true }]

def consumerKeys : List Key :=
  [{ name := str "BUS_SUBSCRIPTION_CONCURRENCY", type := .integer, min := some 1, max := some 64 }]

def keys (d : Definition) : List Key :=
  d.keys ++ sdkKeys ++ securityKeys ++ (if d.migrations then Db.serveKeys else []) ++
    (if d.streams ∨ d.subscribes then busKeys d.streams ++ storeKeys else []) ++
    if d.subscribes then consumerKeys else []

end BeSdk.Host
