/-
BeSdk.System — the system surface: who a call comes from by its certificate, the
declared methods with their callers, and the chain around a method.

A certificate is what the code reads of it: the URI and DNS names of its subject
alternative name extension and its extended key usages, each extension possibly absent.
Reading a PEM is the library's; `X509.load` is none where it raises. Establishing the
connection, which only lets a certificate of the trust root through, is outside the
model, and so are metrics, traces and logs.

`Method.call` is the chain. What it runs is the method's behaviour, which is told the
caller `caller()` then reports and how long it has; the behaviour answers or raises, the
deadline's TimeoutError included. Every failure becomes a status, but an external
cancellation stays one.
-/
import BeSdk.Errwire
import BeSdk.Calls.Outcome
import Mathlib.Algebra.Order.Ring.Rat

namespace BeSdk

/-! ## Service identity -/

/-- What a certificate says. -/
structure Certificate where
  /-- The URI and DNS names, in their order; none without the extension. -/
  subjectAltName : Option (List Str × List Str) := none
  /-- The usages; none without the extension. -/
  extendedKeyUsage : Option (List Str) := none

/-- `x509.load_pem_x509_certificate`; none where it raises. -/
class X509 where
  load : Bytes → Option Certificate

/-- `ExtendedKeyUsageOID.CLIENT_AUTH` -/
def clientAuth : Str := str "1.3.6.1.5.5.7.3.2"

/-- The service identity of a component in a deployment. -/
def spiffe (deployment component : Str) : Str :=
  str "spiffe://" ++ deployment ++ str "/component/" ++ component

/-- `_sans` -/
def Certificate.sans (c : Certificate) : List Str × List Str := c.subjectAltName.getD ([], [])

/-- `_identity`: the first SPIFFE ID. -/
def Certificate.identity (c : Certificate) : Str :=
  (c.sans.1.find? fun u => Str.startsWith u (str "spiffe://")).getD []

/-- `_usable_for`: without the extension there is no restriction. -/
def Certificate.usableFor (c : Certificate) (usage : Str) : Bool :=
  c.extendedKeyUsage.all fun us => us.contains usage

/-- A member's mTLS identity, as far as a call reads it. -/
structure ServiceTLS where
  deployment : Str

/-- `ServiceTLS.caller`: the component a call came from, by the certificates of its
connection; the empty text when it is no component of this deployment. -/
def ServiceTLS.caller [X509] (t : ServiceTLS) (pem : List Bytes) : Str :=
  match pem with
  | [] => []
  | p :: _ =>
      match X509.load p with
      | none => []
      | some cert =>
          let spiffePrefix := spiffe t.deployment []
          let ident := cert.identity
          if !Str.startsWith ident spiffePrefix || !cert.usableFor clientAuth then []
            else ident.drop spiffePrefix.length

/-! ## Methods -/

def defaultDeadline : Rat := 10
def orchestrationDeadline : Rat := 15

/-- Admits any caller. -/
def anyComponent : Str := str "*"

/-- The declaration of a method. -/
structure Method where
  operation : Str
  callers : List Str := []
  orchestration : Bool := false
  timeout : Rat := 0

def Method.deadline (m : Method) : Rat :=
  if m.timeout ≠ 0 then m.timeout else if m.orchestration then orchestrationDeadline
    else defaultDeadline

/-- How a call ends. -/
inductive Ending (ρ : Type) where
  | answered (r : ρ)
  | aborted (s : Errwire.Status)
  | cancelled

/-- What a behaviour does, told its caller and how long it has. -/
abbrev Behaviour (ρ : Type) := Str → Rat → Except Raised ρ

/-- `who not in decl.callers and ANY_COMPONENT not in decl.callers`, negated. -/
def Method.admits (m : Method) (who : Str) : Bool :=
  m.callers.contains who || m.callers.contains anyComponent

def notAllowed : Errs.Error := Errs.new (str "PERMISSION_DENIED")
    (str "this component may not call this method")

/-- How a failure of the chain ends the call. -/
def Ending.ofRaised {ρ : Type} : Raised → Ending ρ
  | .cancelled => .cancelled
  | e => .aborted (Errwire.toStatus e.toError)

/-- A call's end, and the caller the behaviour was run with, if it was run. -/
structure Served (ρ : Type) where
  ran : Option Str
  ending : Ending ρ

/-- `_wrap`: the chain around a method. -/
def Method.call [X509] {ρ : Type} (m : Method) (tls : ServiceTLS) (behaviour : Behaviour ρ)
    (pem : List Bytes) (timeRemaining : Option Rat) : Served ρ :=
  -- the effective deadline is the shorter of the method's and the caller's
  let limit := match timeRemaining with
    | some left => min m.deadline left
    | none => m.deadline
  let who := tls.caller pem
  if m.admits who then
    { ran := some who, ending := match behaviour who limit with
        | .ok r => .answered r
        | .error e => .ofRaised e }
  else { ran := none, ending := .ofRaised (.error notAllowed) }

/-! ## Registration -/

/-- A registered handler. -/
structure Handler (ρ : Type) where
  requestStreaming : Bool := false
  responseStreaming : Bool := false
  behaviour : Behaviour ρ

/-- A module's services: the handlers and the declarations by full method. -/
structure Services (ρ : Type) where
  handlers : Dict Str (Handler ρ) := Dict.empty
  declared : Dict Str Method := Dict.empty

/-- The problems of one handler under its declaration. -/
def Handler.problems {ρ : Type} (h : Handler ρ) (full : Str) (d : Option Method) : List Str :=
  (match d with
    | none => [full ++ str ": no operation declared"]
    | some d =>
        if d.operation = [] then [full ++ str ": no operation declared"]
        else if d.callers.isEmpty then [full ++ str ": no callers declared"]
        else []) ++
  (if h.requestStreaming || h.responseStreaming then
    [full ++ str ": streams are not supported"] else [])

/-- `Services.validate`: the problems, none for services that may be built. -/
def Services.problems {ρ : Type} (s : Services ρ) : List Str :=
  s.handlers.entries.flatMap (fun p => p.2.problems p.1 (s.declared.get? p.1)) ++
  (s.declared.keys.filter fun full => (s.handlers.get? full).isNone).map fun full =>
    full ++ str ": declared but not a method of a registered service"

end BeSdk
