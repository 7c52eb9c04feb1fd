/-
BeSdk.Identity.Token — user access tokens: the checks of `Verifier.verify`.

A token is any text. What `jwt.decode` does is a parameter: it returns the claims, any
JSON object, or raises one of its documented exceptions, or the `RecursionError` of the
`json.loads` inside it. The key set is as it stands
when the call of `key` judges it, `mono` the reading of its clock there.

Numbers are as Python has them: an integer of any size, or a float, held by its text. A
time becomes a float; where an integer is too large for one, `math.isfinite` raises.
-/
import BeSdk.Identity.KeySet
import BeSdk.Authz.DefinitionSchemas
import BeSdk.Py.Base64
import BeSdk.Py.Float

namespace BeSdk.Identity

def tokenType : Str := str "at+jwt"

def leeway : ℚ := 60

def algorithms : List Str := [str "RS256", str "ES256", str "EdDSA"]

/-- A verified user credential. -/
structure User where
  subject : Str
  expiry : ℚ
  securityVersion : Int := 1
  deriving DecidableEq

/-- A raised exception. -/
inductive Raised where
  | tokenError (problem : Str)
  | error (e : Errs.Error)
  | overflowError
  | valueError
  | recursionError
  deriving DecidableEq

/-- The kinds of public keys that are told apart. -/
inductive PublicKey where
  | rsa
  | ec (curve : Str)
  | ed25519
  | other

/-- `jwt.PyJWK` -/
structure Jwk where
  key : PublicKey
  algorithmName : Str := []

/-- What `jwt.decode` raises. -/
inductive DecodeError where
  | invalidSignature
  | invalidIssuer
  | invalidAudience
  | missingRequiredClaim (claim : Str)
  | invalidAlgorithm
  | invalidKey
  | invalidToken
  /-- Claims that go deeper than `json.loads` does. -/
  | recursionError

/-- `jwt.decode(token, key, algorithms=[alg], issuer=issuer, audience=audience)` without
the checks of times: the claims. -/
class Jwt where
  decode (token : Str) (key : Jwk) (alg issuer audience : Str) : Except DecodeError
    (List (Str × Json))

structure Verifier where
  issuer : Str
  audience : Str

/-! ## The header -/

/-- `token.split(".")` -/
def splitDots : Str → List Str
  | [] => [[]]
  | c :: rest =>
      if c = chr '.' then [] :: splitDots rest
      else
        match splitDots rest with
        | [] => [[c]]
        | part :: parts => (c :: part) :: parts

/-- `base64.urlsafe_b64decode(part + "=" * (-len(part) % 4))` -/
def partBytes (part : Str) : Option Bytes :=
  urlsafeB64Decode (part ++ List.replicate ((4 - part.length % 4) % 4) (chr '='))

/-- `_b64json` -/
def b64json [Interp] (part : Str) : Except LoadsError (List (Str × Json)) :=
  match partBytes part with
  | none => .error .valueError
  | some raw =>
      match loads raw with
      | .error e => .error e
      | .ok (.obj ms) => .ok ms
      | .ok _ => .error .valueError

/-- A header member that is a text, or none where it is missing or null; any other
value is refused. -/
def headerText (key : Str) (ms : List (Str × Json)) : Except Raised (Option Str) :=
  match lookup key ms with
  | none => .ok none
  | some .null => .ok none
  | some (.str s) => .ok (some s)
  | some _ => .error (.tokenError (str "format"))

/-- `_fits` -/
def fits (alg : Str) (key : PublicKey) : Bool :=
  if alg = str "RS256" then
    match key with
    | .rsa => true
    | _ => false
  else if alg = str "ES256" then
    match key with
    | .ec curve => curve = str "secp256r1"
    | _ => false
  else
    match key with
    | .ed25519 => true
    | _ => false

/-- The header of a token of three parts. -/
def header [Interp] (token : Str) : Except Raised (List (Str × Json)) :=
  match splitDots token with
  | [first, _, _] =>
      match b64json first with
      | .error .valueError => .error (.tokenError (str "format"))
      -- no ValueError
      | .error .recursionError => .error .recursionError
      | .ok h => .ok h
  | _ => .error (.tokenError (str "format"))

/-- The algorithm and the kid, where the algorithm and the type are allowed. -/
def allowed (alg typ kid : Option Str) : Except Raised (Str × Str) :=
  match alg with
  | none => .error (.tokenError (str "alg"))
  | some alg =>
      if alg ∉ algorithms then .error (.tokenError (str "alg"))
      else if typ ≠ some tokenType then .error (.tokenError (str "typ"))
      else
        match kid with
        | none => .error (.tokenError (str "kid"))
        | some kid => if kid = [] then .error (.tokenError (str "kid")) else .ok (alg, kid)

/-- The algorithm and the kid of a token. -/
def names [Interp] (token : Str) : Except Raised (Str × Str) := do
  let h ← header token
  let alg ← headerText (str "alg") h
  let typ ← headerText (str "typ") h
  let kid ← headerText (str "kid") h
  allowed alg typ kid

def keysUnavailable : Errs.Error :=
  (Errs.new (str "DEPENDENCY_UNAVAILABLE") (str "the identity keys are unavailable")).with_
    (str "dependency") (str "iam")

/-- The key of a kid, where it fits the algorithm. -/
def keyFor (keys : KeySet Jwk) (mono : Seconds) (alg kid : Str) : Except Raised Jwk :=
  match keys.judge mono kid with
  | .error .keysUnavailable => .error (.error keysUnavailable)
  | .error .unknownKid => .error (.tokenError (str "kid_unknown"))
  | .ok jwk =>
      if fits alg jwk.key = false ∨ (jwk.algorithmName ≠ [] ∧ jwk.algorithmName ≠ alg) then
        .error (.tokenError (str "alg"))
      else .ok jwk

/-! ## The claims -/

/-- What is raised of a token that is not decoded. -/
def DecodeError.raised : DecodeError → Raised
  | .invalidSignature => .tokenError (str "signature")
  | .invalidIssuer => .tokenError (str "iss")
  | .invalidAudience => .tokenError (str "aud")
  | .missingRequiredClaim claim => .tokenError (if claim = str "aud" then str "aud" else str "iss")
  | .invalidAlgorithm => .tokenError (str "alg")
  | .invalidKey => .tokenError (str "alg")
  | .invalidToken => .tokenError (str "format")
  | .recursionError => .recursionError

/-- `_decode` -/
def decode [Jwt] (v : Verifier) (token : Str) (jwk : Jwk) (alg : Str) :
    Except Raised (List (Str × Json)) :=
  match Jwt.decode token jwk alg v.issuer v.audience with
  | .ok claims => .ok claims
  | .error e => .error e.raised

/-- `num`: a time among the claims. -/
def num (claims : List (Str × Json)) (name : Str) : Except Raised (Option ℚ) :=
  match lookup name claims with
  | none => .ok none
  | some .null => .ok none
  | some (.int n) =>
      match Binary64.round n with
      | .finite q => .ok (some q)
      | _ => .error .overflowError
  | some (.float text) =>
      match floatOf text with
      | .finite q => .ok (some q)
      | _ => .error (.tokenError (str "format"))
  | some _ => .error (.tokenError (str "format"))

/-- The comparisons of `_times`; the expiry. -/
def current (now : ℚ) (exp nbf iat : Option ℚ) : Except Raised ℚ :=
  match exp with
  | none => .error (.tokenError (str "exp"))
  | some exp =>
      if (addFloat exp leeway).atMost now then .error (.tokenError (str "exp"))
      else if nbf.any fun nbf => (addFloat nbf (-leeway)).exceeds now then
        .error (.tokenError (str "nbf"))
      else if iat.any fun iat => (addFloat iat (-leeway)).exceeds now then
        .error (.tokenError (str "iat"))
      else .ok exp

/-- `_times` -/
def times (now : ℚ) (claims : List (Str × Json)) : Except Raised ℚ := do
  let exp ← num claims (str "exp")
  let nbf ← num claims (str "nbf")
  let iat ← num claims (str "iat")
  current now exp nbf iat

/-- The subject of the claims. -/
def subject (claims : List (Str × Json)) : Except Raised Str :=
  match lookup (str "sub") claims with
  | some (.str sub) => if isId sub then .ok sub else .error (.tokenError (str "sub"))
  | _ => .error (.tokenError (str "sub"))

/-- The security version of the claims. `int(sv)` of an infinity or of no number raises. -/
def version (claims : List (Str × Json)) : Except Raised Int :=
  match lookup (str "be_sv") claims with
  | some (.int n) => if n < 1 ∨ 2 ^ 53 < n then .error (.tokenError (str "sv")) else .ok n
  | some (.float text) =>
      match floatOf text with
      | .nan => .error .valueError
      | .infinite true => .error (.tokenError (str "sv"))
      | .infinite false => .error .overflowError
      | .finite q => if q < 1 ∨ q ≠ ⌊q⌋ ∨ 2 ^ 53 < q then .error (.tokenError (str "sv"))
          else .ok ⌊q⌋
  | _ => .error (.tokenError (str "sv"))

/-- The user of the claims. -/
def userOf (now : ℚ) (claims : List (Str × Json)) : Except Raised User := do
  let expiry ← times now claims
  let sub ← subject claims
  let securityVersion ← version claims
  return { subject := sub, expiry, securityVersion }

/-- `verify` -/
def verify [Interp] [Jwt] (v : Verifier) (keys : KeySet Jwk) (mono : Seconds) (now : ℚ)
    (token : Str) : Except Raised User := do
  let (alg, kid) ← names token
  let jwk ← keyFor keys mono alg kid
  let claims ← decode v token jwk alg
  userOf now claims

end BeSdk.Identity
