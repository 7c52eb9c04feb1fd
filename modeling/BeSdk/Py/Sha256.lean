/-
BeSdk.Py.Sha256 — `hashlib.sha256(b).hexdigest()`.

The message is padded to whole blocks of 64 bytes (a one bit, zeros, the length in
bits), each block is expanded to 64 words, and the eight words of state are mixed
with them in 64 rounds. Where a result rests on two texts having different digests, it
says so of those texts; SHA-256 as a whole is never assumed to have no collisions.
-/
import BeSdk.Py.Text

namespace BeSdk

/-- The round constants. -/
def sha256Constants : List UInt32 := [
  0x428a2f98, 0x71374491, 0xb5c0fbcf, 0xe9b5dba5, 0x3956c25b, 0x59f111f1, 0x923f82a4,
  0xab1c5ed5, 0xd807aa98, 0x12835b01, 0x243185be, 0x550c7dc3, 0x72be5d74, 0x80deb1fe,
  0x9bdc06a7, 0xc19bf174, 0xe49b69c1, 0xefbe4786, 0x0fc19dc6, 0x240ca1cc, 0x2de92c6f,
  0x4a7484aa, 0x5cb0a9dc, 0x76f988da, 0x983e5152, 0xa831c66d, 0xb00327c8, 0xbf597fc7,
  0xc6e00bf3, 0xd5a79147, 0x06ca6351, 0x14292967, 0x27b70a85, 0x2e1b2138, 0x4d2c6dfc,
  0x53380d13, 0x650a7354, 0x766a0abb, 0x81c2c92e, 0x92722c85, 0xa2bfe8a1, 0xa81a664b,
  0xc24b8b70, 0xc76c51a3, 0xd192e819, 0xd6990624, 0xf40e3585, 0x106aa070, 0x19a4c116,
  0x1e376c08, 0x2748774c, 0x34b0bcb5, 0x391c0cb3, 0x4ed8aa4a, 0x5b9cca4f, 0x682e6ff3,
  0x748f82ee, 0x78a5636f, 0x84c87814, 0x8cc70208, 0x90befffa, 0xa4506ceb, 0xbef9a3f7,
  0xc67178f2]

/-- The initial state. -/
def sha256Initial : List UInt32 := [
  0x6a09e667, 0xbb67ae85, 0x3c6ef372, 0xa54ff53a, 0x510e527f, 0x9b05688c, 0x1f83d9ab,
  0x5be0cd19]

def rotateRight (x n : UInt32) : UInt32 := (x >>> n) ||| (x <<< (32 - n))

/-- A natural number as `k` big-endian bytes. -/
def bigEndian : Nat → Nat → Bytes
  | 0, _ => []
  | k + 1, n => UInt8.ofNat (n / 256 ^ k % 256) :: bigEndian k n

/-- The message with its padding, a multiple of 64 bytes long. -/
def sha256Pad (b : Bytes) : Bytes :=
  b ++ 0x80 :: List.replicate ((119 - b.length % 64) % 64) 0 ++ bigEndian 8 (8 * b.length)

/-- The 32-bit words of a block. -/
def wordsOf : Bytes → List UInt32
  | a :: b :: c :: d :: rest =>
      ((a.toUInt32 <<< 24) ||| (b.toUInt32 <<< 16) ||| (c.toUInt32 <<< 8) ||| d.toUInt32) ::
        wordsOf rest
  | _ => []

/-- Adds `n` words to the schedule, which is held newest first. -/
def expandSchedule : Nat → List UInt32 → List UInt32
  | 0, w => w
  | n + 1, w =>
      let x := w.getD 14 0
      let y := w.getD 1 0
      let s0 := rotateRight x 7 ^^^ rotateRight x 18 ^^^ (x >>> 3)
      let s1 := rotateRight y 17 ^^^ rotateRight y 19 ^^^ (y >>> 10)
      expandSchedule n ((w.getD 15 0 + s0 + w.getD 6 0 + s1) :: w)

/-- One round on the state `[a, …, h]`. -/
def sha256Round (state : List UInt32) (kw : UInt32 × UInt32) : List UInt32 :=
  match state with
  | [a, b, c, d, e, f, g, h] =>
      let s1 := rotateRight e 6 ^^^ rotateRight e 11 ^^^ rotateRight e 25
      let ch := (e &&& f) ^^^ ((~~~e) &&& g)
      let t1 := h + s1 + ch + kw.1 + kw.2
      let s0 := rotateRight a 2 ^^^ rotateRight a 13 ^^^ rotateRight a 22
      let maj := (a &&& b) ^^^ (a &&& c) ^^^ (b &&& c)
      [t1 + s0 + maj, a, b, c, d + t1, e, f, g]
  | _ => state

def sha256Block (state : List UInt32) (block : Bytes) : List UInt32 :=
  let w := (expandSchedule 48 (wordsOf block).reverse).reverse
  List.zipWith (· + ·) state ((sha256Constants.zip w).foldl sha256Round state)

/-- The blocks in turn; each round of the fuel takes one. -/
def sha256Blocks : Nat → List UInt32 → Bytes → List UInt32
  | 0, state, _ => state
  | fuel + 1, state, b =>
      if b.length < 64 then state else sha256Blocks fuel (sha256Block state (b.take 64)) (b.drop 64)

def hexDigit (d : Nat) : CodePoint :=
  if d % 16 < 10 then ⟨0x30 + d % 16, by omega⟩ else ⟨0x57 + d % 16, by omega⟩

/-- `hashlib.sha256(b).hexdigest()` -/
def sha256Hex (b : Bytes) : Str :=
  let padded := sha256Pad b
  (sha256Blocks (padded.length / 64) sha256Initial padded).flatMap fun w =>
    (List.range 8).map fun i => hexDigit (w.toNat / 16 ^ (7 - i))

/-- `hashlib.sha256(b).digest()` -/
def sha256 (b : Bytes) : Bytes :=
  let padded := sha256Pad b
  (sha256Blocks (padded.length / 64) sha256Initial padded).flatMap fun w => bigEndian 4 w.toNat

/-- `b.hex()` -/
def hexText (b : Bytes) : Str := b.flatMap fun x => [hexDigit (x.toNat / 16), hexDigit x.toNat]

example : (sha256Hex []).take 8 = str "e3b0c442" := by decide +kernel

end BeSdk
