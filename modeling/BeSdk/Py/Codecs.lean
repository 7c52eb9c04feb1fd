/-
BeSdk.Py.Codecs — the text encodings the JSON reader and the canonical encoder
go through: UTF-8, UTF-16 and UTF-32.

`utf8Encode` is strict, as `str.encode()` is: an unpaired surrogate has no
encoding. The decoders are the ones of `bytes.decode(…, "surrogatepass")`, which
let one through. `utf16Units` is the code units `key.encode("utf-16-be")`
compares by: big-endian bytes order as the units do.

`utf8Decode_encode` is the round trip, and `utf8Encode_ne_zero` (no zero byte
but from the code point zero) is what keeps the encoding detection on UTF-8.
-/
import BeSdk.Py.Text
import Mathlib.Data.List.Basic

namespace BeSdk

/-- A surrogate code point. -/
def isSurrogate (c : CodePoint) : Bool := 0xD800 ≤ c.val && c.val ≤ 0xDFFF

/-! ## UTF-8 -/

/-- The bytes of one code point, by the length of its encoding. -/
def utf8Bytes (n : Nat) : Bytes :=
  if n < 0x80 then [UInt8.ofNat n]
  else if n < 0x800 then [UInt8.ofNat (0xC0 + n / 64), UInt8.ofNat (0x80 + n % 64)]
  else if n < 0x10000 then
    [UInt8.ofNat (0xE0 + n / 4096), UInt8.ofNat (0x80 + n / 64 % 64), UInt8.ofNat (0x80 + n % 64)]
  else
    [UInt8.ofNat (0xF0 + n / 262144), UInt8.ofNat (0x80 + n / 4096 % 64),
      UInt8.ofNat (0x80 + n / 64 % 64), UInt8.ofNat (0x80 + n % 64)]

/-- `s.encode()`; `none` is a `UnicodeEncodeError`. -/
def utf8Encode : Str → Option Bytes
  | [] => some []
  | c :: rest =>
      if isSurrogate c then none
      else (utf8Encode rest).map fun bs => utf8Bytes c.val ++ bs

/-- A continuation byte's six bits. -/
def continuation (b : UInt8) : Option Nat :=
  if 0x80 ≤ b.toNat ∧ b.toNat ≤ 0xBF then some (b.toNat - 0x80) else none

/-- A code point of at least `lo` read from its bytes. -/
def codePoint? (lo n : Nat) : Option CodePoint :=
  if h : lo ≤ n ∧ n < 0x110000 then some ⟨n, h.2⟩ else none

/-- The first code point of a UTF-8 text and the bytes after it. -/
def utf8Next : Bytes → Option (CodePoint × Bytes)
  | [] => none
  | b :: rest =>
      if b.toNat < 0x80 then (codePoint? 0 b.toNat).map fun c => (c, rest)
      else if 0xC0 ≤ b.toNat ∧ b.toNat < 0xE0 then
        match rest with
        | b1 :: rest => do
            let x ← continuation b1
            return (← codePoint? 0x80 ((b.toNat - 0xC0) * 64 + x), rest)
        | _ => none
      else if 0xE0 ≤ b.toNat ∧ b.toNat < 0xF0 then
        match rest with
        | b1 :: b2 :: rest => do
            let x ← continuation b1
            let y ← continuation b2
            return (← codePoint? 0x800 ((b.toNat - 0xE0) * 4096 + x * 64 + y), rest)
        | _ => none
      else if 0xF0 ≤ b.toNat ∧ b.toNat < 0xF8 then
        match rest with
        | b1 :: b2 :: b3 :: rest => do
            let x ← continuation b1
            let y ← continuation b2
            let z ← continuation b3
            return (← codePoint? 0x10000 ((b.toNat - 0xF0) * 262144 + x * 4096 + y * 64 + z), rest)
        | _ => none
      else none

/-- The rounds of the decoder; each reads at least a byte, so the length suffices. -/
def utf8DecodeGo : Nat → Bytes → Option Str
  | _, [] => some []
  | 0, _ :: _ => none
  | fuel + 1, b :: rest =>
      match utf8Next (b :: rest) with
      | none => none
      | some (c, rest) => (utf8DecodeGo fuel rest).map fun s => c :: s

/-- `b.decode("utf-8", "surrogatepass")` -/
def utf8Decode (b : Bytes) : Option Str := utf8DecodeGo b.length b

theorem codePoint?_val {lo : Nat} (c : CodePoint) (h : lo ≤ c.val) : codePoint? lo c.val = some c :=
  dif_pos ⟨h, c.isLt⟩

theorem toNat_ofNat_byte {m : Nat} (h : m < 256) : (UInt8.ofNat m).toNat = m := by
  rw [UInt8.toNat_ofNat']; omega

theorem continuation_ofNat {n : Nat} (h : n < 64) :
    continuation (UInt8.ofNat (0x80 + n)) = some n := by
  rw [continuation, toNat_ofNat_byte (by omega), if_pos (by omega), Nat.add_sub_cancel_left]

theorem utf8Bytes_ne_nil (n : Nat) : utf8Bytes n ≠ [] := by
  unfold utf8Bytes
  split
  · simp
  · split
    · simp
    · split <;> simp

section

/-! One lemma for each length of an encoding. The binds are rewritten one by one: their values
are large terms the kernel would unfold if `simp` replaced them by definition. -/

variable {c : CodePoint} {rest : Bytes}

theorem utf8Next_one (h1 : c.val < 0x80) :
    utf8Next (utf8Bytes c.val ++ rest) = some (c, rest) := by
  simp only [utf8Bytes, h1, if_true, List.cons_append, List.nil_append, utf8Next]
  rw [toNat_ofNat_byte (by omega), if_pos h1, codePoint?_val c (Nat.zero_le _), Option.map_some]

theorem utf8Next_two (h1 : ¬ c.val < 0x80) (h2 : c.val < 0x800) :
    utf8Next (utf8Bytes c.val ++ rest) = some (c, rest) := by
  have hsum : (0xC0 + c.val / 64 - 0xC0) * 64 + c.val % 64 = c.val := by omega
  simp only [utf8Bytes, h1, h2, if_true, if_false, List.cons_append, List.nil_append, utf8Next]
  rw [toNat_ofNat_byte (by omega), if_neg (by omega), if_pos (by omega),
    continuation_ofNat (by omega), Option.bind_eq_bind, Option.bind_some, hsum,
    codePoint?_val c (Nat.le_of_not_lt h1)]
  rfl

theorem utf8Next_three (h2 : ¬ c.val < 0x800) (h3 : c.val < 0x10000) :
    utf8Next (utf8Bytes c.val ++ rest) = some (c, rest) := by
  have h1 : ¬ c.val < 0x80 := by omega
  have hsum : (0xE0 + c.val / 4096 - 0xE0) * 4096 + c.val / 64 % 64 * 64 + c.val % 64 = c.val := by
    omega
  simp only [utf8Bytes, h1, h2, h3, if_true, if_false, List.cons_append, List.nil_append, utf8Next]
  rw [toNat_ofNat_byte (by omega), if_neg (by omega), if_neg (by omega), if_pos (by omega),
    continuation_ofNat (by omega), continuation_ofNat (by omega), Option.bind_eq_bind,
    Option.bind_some, Option.bind_some, hsum, codePoint?_val c (Nat.le_of_not_lt h2)]
  rfl

theorem utf8Next_four (h3 : ¬ c.val < 0x10000) :
    utf8Next (utf8Bytes c.val ++ rest) = some (c, rest) := by
  have hc : c.val < 0x110000 := c.isLt
  have h1 : ¬ c.val < 0x80 := by omega
  have h2 : ¬ c.val < 0x800 := by omega
  have hsum : (0xF0 + c.val / 262144 - 0xF0) * 262144 + c.val / 4096 % 64 * 4096
      + c.val / 64 % 64 * 64 + c.val % 64 = c.val := by omega
  simp only [utf8Bytes, h1, h2, h3, if_false, List.cons_append, List.nil_append, utf8Next]
  rw [toNat_ofNat_byte (by omega), if_neg (by omega), if_neg (by omega), if_neg (by omega),
    if_pos (by omega), continuation_ofNat (by omega), continuation_ofNat (by omega),
    continuation_ofNat (by omega), Option.bind_eq_bind, Option.bind_some, Option.bind_some,
    Option.bind_some, hsum, codePoint?_val c (Nat.le_of_not_lt h3)]
  rfl

end

/-- The decoder reads back the code point whose bytes it meets. -/
theorem utf8Next_utf8Bytes (c : CodePoint) (rest : Bytes) :
    utf8Next (utf8Bytes c.val ++ rest) = some (c, rest) := by
  by_cases h1 : c.val < 0x80
  · exact utf8Next_one h1
  by_cases h2 : c.val < 0x800
  · exact utf8Next_two h1 h2
  by_cases h3 : c.val < 0x10000
  · exact utf8Next_three h2 h3
  · exact utf8Next_four h3

/-- More rounds than bytes change nothing. -/
theorem utf8DecodeGo_encode : ∀ (s : Str) {b : Bytes} {fuel : Nat}, utf8Encode s = some b →
    b.length ≤ fuel → utf8DecodeGo fuel b = some s
  | [], b, fuel, h, _ => by
      obtain rfl : [] = b := by simpa [utf8Encode] using h
      cases fuel <;> rfl
  | c :: rest, b, fuel, h, hf => by
      rw [utf8Encode] at h
      split at h
      · simp at h
      obtain ⟨bs, hbs, rfl⟩ := Option.map_eq_some_iff.mp h
      cases hb : utf8Bytes c.val with
      | nil => exact absurd hb (utf8Bytes_ne_nil _)
      | cons b0 tail =>
          rw [hb, List.length_append, List.length_cons] at hf
          cases fuel with
          | zero => omega
          | succ fuel =>
              have hnext := utf8Next_utf8Bytes c bs
              rw [hb, List.cons_append] at hnext
              rw [List.cons_append, utf8DecodeGo, hnext]
              simp only
              rw [utf8DecodeGo_encode rest hbs (by omega)]
              rfl

/-- **Round trip.** Decoding what `encode` gives returns the text. -/
theorem utf8Decode_encode {s : Str} {b : Bytes} (h : utf8Encode s = some b) :
    utf8Decode b = some s := utf8DecodeGo_encode s h le_rfl

/-- A text without surrogates has an encoding. -/
theorem utf8Encode_isSome : ∀ {s : Str}, (∀ c ∈ s, isSurrogate c = false) →
    ∃ b, utf8Encode s = some b
  | [], _ => ⟨[], rfl⟩
  | c :: rest, h => by
      obtain ⟨b, hb⟩ := utf8Encode_isSome fun x hx => h x (List.mem_cons_of_mem _ hx)
      exact ⟨utf8Bytes c.val ++ b, by simp [utf8Encode, h c (by simp), hb]⟩

/-- An ASCII text is encoded character by character. -/
theorem utf8Encode_ascii : ∀ {s : Str} {b : Bytes}, utf8Encode s = some b →
    (∀ c ∈ s, c.val ≤ 0x7E) → b = s.map fun c => UInt8.ofNat c.val
  | [], b, h, _ => by simpa [utf8Encode] using h.symm
  | c :: rest, b, h, hs => by
      rw [List.forall_mem_cons] at hs
      rw [utf8Encode] at h
      split at h
      · simp at h
      obtain ⟨bs, hbs, rfl⟩ := Option.map_eq_some_iff.mp h
      have hc : c.val < 0x80 := by omega
      rw [utf8Encode_ascii hbs hs.2, utf8Bytes, if_pos hc, List.map_cons]
      rfl

/-- Only a text without surrogates has one. -/
theorem isSurrogate_of_utf8Encode : ∀ {s : Str} {b : Bytes}, utf8Encode s = some b →
    ∀ c ∈ s, isSurrogate c = false
  | [], _, _ => by simp
  | c :: rest, b, h => by
      rw [utf8Encode] at h
      split at h
      · simp at h
      next hc =>
        obtain ⟨bs, hbs, -⟩ := Option.map_eq_some_iff.mp h
        rw [List.forall_mem_cons]
        exact ⟨by simpa using hc, isSurrogate_of_utf8Encode hbs⟩

theorem utf8Bytes_ne_zero {n : Nat} (h0 : n ≠ 0) (hn : n < 0x110000) :
    ∀ b ∈ utf8Bytes n, b ≠ 0 := by
  have pos : ∀ m, 0 < m → m < 256 → UInt8.ofNat m ≠ 0 := by
    intro m hm hlt heq
    have := congrArg UInt8.toNat heq
    rw [UInt8.toNat_ofNat'] at this
    simp at this
    omega
  intro b hb
  unfold utf8Bytes at hb
  split at hb
  · obtain rfl := List.mem_singleton.mp hb
    exact pos _ (by omega) (by omega)
  split at hb
  · simp only [List.mem_cons, List.not_mem_nil, or_false] at hb
    rcases hb with rfl | rfl <;> exact pos _ (by omega) (by omega)
  split at hb
  · simp only [List.mem_cons, List.not_mem_nil, or_false] at hb
    rcases hb with rfl | rfl | rfl <;> exact pos _ (by omega) (by omega)
  · simp only [List.mem_cons, List.not_mem_nil, or_false] at hb
    rcases hb with rfl | rfl | rfl | rfl <;> exact pos _ (by omega) (by omega)

/-- Without the code point zero there is no zero byte. -/
theorem utf8Encode_ne_zero : ∀ {s : Str} {b : Bytes}, utf8Encode s = some b →
    (∀ c ∈ s, c.val ≠ 0) → ∀ x ∈ b, x ≠ 0
  | [], b, h, _, x, hx => by
      obtain rfl : [] = b := by simpa [utf8Encode] using h
      simp at hx
  | c :: rest, b, h, hs, x, hx => by
      rw [utf8Encode] at h
      split at h
      · simp at h
      obtain ⟨bs, hbs, rfl⟩ := Option.map_eq_some_iff.mp h
      rcases List.mem_append.mp hx with hx | hx
      · exact utf8Bytes_ne_zero (hs c (by simp)) c.isLt x hx
      · exact utf8Encode_ne_zero hbs (fun y hy => hs y (List.mem_cons_of_mem _ hy)) x hx

/-! ## UTF-16 and UTF-32 -/

/-- The UTF-16 code units of a text. -/
def utf16Units (s : Str) : List Nat :=
  s.flatMap fun c =>
    if c.val < 0x10000 then [c.val]
    else [0xD800 + (c.val - 0x10000) / 0x400, 0xDC00 + (c.val - 0x10000) % 0x400]

/-- Code units to text: a high surrogate before a low one is a pair, any other
surrogate passes. -/
def utf16Join : List Nat → Option Str
  | [] => some []
  | [u] => (codePoint? 0 u).map fun c => [c]
  | u :: v :: rest =>
      if 0xD800 ≤ u ∧ u ≤ 0xDBFF ∧ 0xDC00 ≤ v ∧ v ≤ 0xDFFF then do
        let c ← codePoint? 0 (0x10000 + (u - 0xD800) * 0x400 + (v - 0xDC00))
        return c :: (← utf16Join rest)
      else do
        let c ← codePoint? 0 u
        return c :: (← utf16Join (v :: rest))

/-- Byte pairs as units; `none` on an odd length. -/
def bytePairs (bigEndian : Bool) : Bytes → Option (List Nat)
  | [] => some []
  | [_] => none
  | a :: b :: rest =>
      let unit := if bigEndian then a.toNat * 256 + b.toNat else b.toNat * 256 + a.toNat
      (bytePairs bigEndian rest).map fun us => unit :: us

def utf16Decode (bigEndian : Bool) (b : Bytes) : Option Str :=
  (bytePairs bigEndian b).bind utf16Join

def utf32Decode (bigEndian : Bool) : Bytes → Option Str
  | [] => some []
  | a :: b :: c :: d :: rest => do
      let n := if bigEndian then ((a.toNat * 256 + b.toNat) * 256 + c.toNat) * 256 + d.toNat
        else ((d.toNat * 256 + c.toNat) * 256 + b.toNat) * 256 + a.toNat
      return (← codePoint? 0 n) :: (← utf32Decode bigEndian rest)
  | _ => none

end BeSdk
