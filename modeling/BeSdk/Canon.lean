/-
BeSdk.Canon — the canonical encoding of security records: normalized decimals,
instants and text, the serialization, domain-separated digests, and the strict
parser.

`encode` walks a value twice as the source does: `encodeText` builds the text and
refuses null, floats and integers of absolute value `2^53` or more; the text is
then encoded, which raises on an unpaired surrogate. An object's keys are sorted
by their UTF-16 code units, and that sort raises on a surrogate before any member
is encoded. The encodings of the members are computed ahead of the sort here;
which exception comes out is still decided in sorted order.

`parse` decodes, refuses floats and repeated keys, and then refuses everything
that is not byte for byte the encoding of what it decoded to, normalized. Its
refusals by the decoder are one value here (`Refused.unreadable`): the text of
the decoder's message is not part of the model.

Neither recursion's depth is bounded; Python's recursion limit is outside the
model.
-/
import BeSdk.Py.Json
import BeSdk.Py.Datetime
import BeSdk.Exc

namespace BeSdk.Canon

/-! ## Scalars -/

/-- `Context(prec=100)` with the default exponent range. -/
def context : Context := ⟨100, 999999, -999999⟩

/-- `s.rstrip(c)` -/
def rstrip (c : CodePoint) (s : Str) : Str := (s.reverse.dropWhile fun x => x = c).reverse

/-- No exponent, no leading `+`, no superfluous zeros, `0` for zero; at most 38
significant digits and 18 fraction digits. -/
def decimal [Interp] (s : Str) : Except Exc Str :=
  match decimalOf s with
  | .error _ => .error (.refused (.decimal s))
  | .ok (.infinity _) => .error (.refused (.decimal s))
  | .ok (.nan _) => .error (.refused (.decimal s))
  | .ok (.finite d) =>
      if d.coeff = 0 then .ok (str "0")
      else
        match d.normalize context with
        | .error e => .error (.decimal e)
        | .ok r =>
            if 38 < r.digits ∨ 18 < -r.exp then .error (.refused (.decimal s))
            else
              let out := r.format
              .ok (if chr '.' ∈ out then rstrip (chr '.') (rstrip (chr '0') out) else out)

/-- A natural number on at least `width` digits. -/
def padded (width n : Nat) : Str :=
  List.replicate (width - (natText n).length) (chr '0') ++ natText n

/-- `strftime("%Y-%m-%dT%H:%M:%S.%fZ")` -/
def strftime (d : Date) (t : Time) : Str :=
  padded 4 d.year ++ chr '-' :: (padded 2 d.month ++ chr '-' :: (padded 2 d.day ++
    chr 'T' :: (padded 2 t.hour ++ chr ':' :: (padded 2 t.minute ++ chr ':' :: (padded 2 t.second ++
      chr '.' :: (padded 6 t.micro ++ [chr 'Z']))))))

/-- An aware time as UTC with six fraction digits. -/
def time (i : Instant) : Except Exc Str :=
  match fields i with
  | none => .error .overflowError
  | some (d, t) => .ok (strftime d t)

/-- `"T" in s.upper()`: the code points whose upper case contains a `T`. -/
def upperHasT (s : Str) : Bool :=
  s.any fun c => c = chr 'T' || c = chr 't' || c.val = 0x1E97 || c.val = 0xFB05 || c.val = 0xFB06

/-- The instant of an RFC 3339 time with an offset. -/
def readInstant (s : Str) : Option Instant :=
  let utc := str "+00:00"
  match fromisoformat (Str.replace (Str.replace s (chr 'Z') utc) (chr 'z') utc) with
  | none => none
  | some t => if upperHasT s then t.instant else none

/-- An RFC 3339 time with an offset as UTC with six fraction digits. -/
def instant (s : Str) : Except Exc Str :=
  match readInstant s with
  | none => .error (.refused (.instant s))
  | some i => time i

/-- `unicodedata.normalize("NFC", s)` -/
def text [Interp] (s : Str) : Str := Interp.nfc s

/-! ## Serialization -/

def maxInt : Nat := 2 ^ 53

/-- How `_string` writes a character. -/
def escape (c : CodePoint) : Str :=
  match letterEscape c with
  | some s => s
  | none => if c.val < 0x20 then unitEscape c.val else [c]

/-- The order of object keys, `key.encode("utf-16-be")`. -/
def keyLe (a b : Str) : Prop := utf16Units a ≤ utf16Units b

instance : DecidableRel keyLe := fun a b => inferInstanceAs
    (Decidable (utf16Units a ≤ utf16Units b))

/-- Members in the order of their keys. -/
def sortMembers {α : Type} (ms : List (Str × α)) : List (Str × α) :=
  ms.insertionSort fun a b => keyLe a.1 b.1

/-- Whether `k.encode(…)` raises. -/
def hasSurrogate (s : Str) : Bool := s.any isSurrogate

mutual

/-- `_encode` -/
def encodeText : Json → Except Exc Str
  | .null => .error (.refused .null)
  | .bool b => .ok (if b then str "true" else str "false")
  | .int n => if maxInt ≤ n.natAbs then .error (.refused (.integer n)) else .ok (intText n)
  | .float _ => .error (.refused .float)
  | .str s => .ok (quoted escape s)
  | .list xs => do
      let parts ← encodeElems xs
      return chr '[' :: (Str.join (str ",") parts ++ [chr ']'])
  | .obj ms =>
      let encoded := encodeMembers ms
      if encoded.any fun m => hasSurrogate m.1 then .error .unicodeEncodeError
      else do
        let parts ← (sortMembers encoded).mapM fun m => m.2
        return chr '{' :: (Str.join (str ",") parts ++ [chr '}'])

def encodeElems : List Json → Except Exc (List Str)
  | [] => .ok []
  | x :: xs => do
      let p ← encodeText x
      let ps ← encodeElems xs
      return p :: ps

/-- Each key with its member's text, or the exception encoding the value raises. -/
def encodeMembers : List (Str × Json) → List (Str × Except Exc Str)
  | [] => []
  | (k, v) :: ms =>
      (k, (encodeText v).map fun t => quoted escape k ++ chr ':' :: t) :: encodeMembers ms

end

/-- `s.encode()` -/
def utf8 (s : Str) : Except Exc Bytes :=
  match utf8Encode s with
  | none => .error .unicodeEncodeError
  | some b => .ok b

/-- The canonical bytes of a value. -/
def encode (v : Json) : Except Exc Bytes := do utf8 (← encodeText v)

/-- The digest over bytes that are already canonical. -/
def digestBytes (recordType : Str) (major : Nat) (body : Bytes) : Except Exc Str :=
  (utf8 (recordType ++ str ".v" ++ natText major ++ [0x0A])).map fun head =>
    str "sha256:" ++ sha256Hex (head ++ body)

/-- `"sha256:"` and the SHA-256 of the record type, its version and the bytes. -/
def digest (recordType : Str) (major : Nat) (v : Json) : Except Exc Str := do
  digestBytes recordType major (← encode v)

/-! ## Parsing -/

mutual

/-- No float anywhere, and no object with a repeated key: what the hooks
`_no_float` and `_no_duplicates` let through. -/
def admitted : Json → Bool
  | .float _ => false
  | .list xs => admittedElems xs
  | .obj ms => decide (ms.map Prod.fst).Nodup && admittedMembers ms
  | _ => true

def admittedElems : List Json → Bool
  | [] => true
  | x :: xs => admitted x && admittedElems xs

def admittedMembers : List (Str × Json) → Bool
  | [] => true
  | (_, v) :: ms => admitted v && admittedMembers ms

end

mutual

/-- `_nfc`: every string and key normalized; keys that become equal merge. -/
def nfc [Interp] : Json → Json
  | .str s => .str (text s)
  | .list xs => .list (nfcElems xs)
  | .obj ms => .obj (Dict.ofPairs (nfcMembers ms)).entries
  | v => v

def nfcElems [Interp] : List Json → List Json
  | [] => []
  | x :: xs => nfc x :: nfcElems xs

def nfcMembers [Interp] : List (Str × Json) → List (Str × Json)
  | [] => []
  | (k, v) :: ms => (text k, nfc v) :: nfcMembers ms

end

/-- `json.loads` with the hooks. -/
def decode (raw : Bytes) : Option Json :=
  match (decodeJsonBytes raw).bind scanJson with
  | none => none
  | some v => if admitted v then some v else none

/-- Decodes bytes received as a canonical record, and refuses them unless they are
the canonical encoding of what they decode to. -/
def parse [Interp] (raw : Bytes) : Except Exc Json :=
  match decode raw with
  | none => .error (.refused .unreadable)
  | some v => do
      if (← encode (nfc v)) = raw then return v
      else throw (.refused .notCanonical)

/-- A set's elements ordered by their canonical bytes, duplicates dropped. -/
def sortedSet (items : List Json) : Except Exc (List Json) := do
  let seen ← items.mapM fun it => return (← encode it, it)
  return ((Dict.ofPairs seen).entries.insertionSort fun a b => a.1 ≤ b.1).map Prod.snd

end BeSdk.Canon
