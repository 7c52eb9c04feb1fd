/-
BeSdk.Records — sealing and opening security records: the canonical bytes of a record
with their digest beside them, and the checks of a reader.

A record is a dictionary of JSON values; a tuple, which `encode` writes as a list, is
not one. The compiled JSON Schemas are a parameter: for a record type that has one, a
predicate on the value, which does not look at the order of a dictionary's members.
`openFile` is `open_` for every record type: the lookup of a schema's file may raise.
-/
import BeSdk.CanonTheorems

namespace BeSdk.Records

open Canon

def major : Nat := 1

/-- `Invalid`: a record refused. -/
inductive Invalid where
  /-- `no schema for record type {record_type}` -/
  | noSchema (recordType : Str)
  /-- `str(e)` of the parser's refusal -/
  | refused (r : Refused)
  /-- `the digest does not match the bytes` -/
  | digest
  /-- `{record_type}: {e.message}` of the validator -/
  | schema (recordType : Str)
  /-- `not an object` -/
  | notObject
  /-- `{record_type} requires the feature {f!r}, which this reader does not know` -/
  | feature (recordType : Str) (f : Json)

/-- What `open_` and `validate` raise. -/
inductive Raised where
  | invalid (i : Invalid)
  | exc (e : Exc)

/-- A compiled schema. -/
structure Schema where
  accepts : Json → Bool
  unordered : ∀ v w, v.Distinct → w.Distinct → v.same w = true → accepts v = accepts w

variable (schemas : Str → Option Schema)

def validate (recordType : Str) (v : Json) : Except Raised Unit :=
  match schemas recordType with
  | none => .error (.invalid (.noSchema recordType))
  | some s => if s.accepts v then .ok () else .error (.invalid (.schema recordType))

/-- A record for the wire. -/
def seal_ (recordType : Str) (v : Json) : Except Exc (Bytes × Str) := do
  let raw ← encode v
  let digest ← digestBytes recordType major raw
  return (raw, digest)

/-! ## Required features -/

/-- The feature names this reader understands. -/
def knownFeatures : List Str := []

/-- `bool(v)`; no float comes out of the parser. -/
def truthy : Json → Bool
  | .null => false
  | .bool b => b
  | .int n => decide (n ≠ 0)
  | .float _ => true
  | .str s => !s.isEmpty
  | .list xs => !xs.isEmpty
  | .obj ms => !ms.isEmpty

/-- `f not in KNOWN_FEATURES` raises for what has no hash. -/
def checkFeature (recordType : Str) (f : Json) : Except Raised Unit :=
  match f with
  | .list _ | .obj _ => .error (.exc .typeError)
  | .str s => if s ∈ knownFeatures then .ok () else .error (.invalid (.feature recordType f))
  | _ => .error (.invalid (.feature recordType f))

/-- The loop over `v.get("required_features") or []`. -/
def checkFeatures (recordType : Str) (ms : List (Str × Json)) : Except Raised Unit :=
  match lookup (str "required_features") ms with
  | none => .ok ()
  | some v =>
      if truthy v then
        match v with
        | .list fs => fs.forM (checkFeature recordType)
        | .str s => s.forM fun c => checkFeature recordType (.str [c])
        | .obj fs => fs.forM fun f => checkFeature recordType (.str f.1)
        | _ => .error (.exc .typeError)
      else .ok ()

/-- The checks of a received record, around the one by its schema. -/
def openWith [Interp] (validate : Json → Except Raised Unit) (recordType : Str) (raw : Bytes)
    (digest : Str) : Except Raised Json :=
  match parse raw with
  | .error (.refused r) => .error (.invalid (.refused r))
  | .error e => .error (.exc e)
  | .ok v =>
      match digestBytes recordType major raw with
      | .error e => .error (.exc e)
      | .ok own =>
          if own ≠ digest then .error (.invalid .digest)
          else do
            validate v
            match v with
            | .obj ms => do
                checkFeatures recordType ms
                return v
            | _ => throw (.invalid .notObject)

/-- Checks a received record and returns it decoded. -/
def open_ [Interp] (recordType : Str) (raw : Bytes) (digest : Str) : Except Raised Json :=
  openWith (validate schemas recordType) recordType raw digest

/-! ## Schema files -/

/-- What looking a record type's schema up gives: a schema, no file of that name, or
another exception of the file system. -/
abbrev Lookup := Str → Except Exc (Option Schema)

/-- `validate`, where the lookup may raise. -/
def validateFile (find : Lookup) (recordType : Str) (v : Json) : Except Raised Unit :=
  match find recordType with
  | .error e => .error (.exc e)
  | .ok none => .error (.invalid (.noSchema recordType))
  | .ok (some s) => if s.accepts v then .ok () else .error (.invalid (.schema recordType))

/-- `open_`, where the lookup may raise. -/
def openFile [Interp] (find : Lookup) (recordType : Str) (raw : Bytes) (digest : Str) :
    Except Raised Json :=
  openWith (validateFile find recordType) recordType raw digest

end BeSdk.Records
