/-
BeSdk.Py.Base64 — Python's `base64.urlsafe_b64encode` and `urlsafe_b64decode`.

The decoder is `binascii.a2b_base64` as it is called there, not strict: a character
outside the alphabet is skipped, the alphabet of plain base64 is read too, and the
padding that completes a group ends the text, whatever follows. A failure is a
`ValueError`.

`urlsafeB64Decode_encode` is the round trip. A writer that strips the padding loses
nothing: what is stripped is what the length of the rest asks for
(`urlsafeB64Encode_eq`).
-/
import BeSdk.Py.Text

namespace BeSdk

/-! ## The alphabet -/

/-- The character of six bits. -/
def base64Char (n : Nat) : CodePoint :=
  if n < 26 then Fin.ofNat _ (0x41 + n)
  else if n < 52 then Fin.ofNat _ (0x61 + (n - 26))
  else if n < 62 then Fin.ofNat _ (0x30 + (n - 52))
  else if n = 62 then chr '-'
  else chr '_'

/-- The six bits of a character. -/
def base64Val (c : CodePoint) : Option Nat :=
  if 0x41 ≤ c.val ∧ c.val ≤ 0x5A then some (c.val - 0x41)
  else if 0x61 ≤ c.val ∧ c.val ≤ 0x7A then some (c.val - 0x61 + 26)
  else if 0x30 ≤ c.val ∧ c.val ≤ 0x39 then some (c.val - 0x30 + 52)
  else if c = chr '-' ∨ c = chr '+' then some 62
  else if c = chr '_' ∨ c = chr '/' then some 63
  else none

theorem base64Val_char : ∀ n < 64, base64Val (base64Char n) = some n := by decide

theorem base64Char_ne_pad : ∀ n < 64, base64Char n ≠ chr '=' := by decide

/-! ## Encoding -/

/-- `base64.urlsafe_b64encode(b).decode()` -/
def urlsafeB64Encode : Bytes → Str
  | [] => []
  | [a] => [base64Char (a.toNat / 4), base64Char (a.toNat % 4 * 16), chr '=', chr '=']
  | [a, b] =>
      [base64Char (a.toNat / 4), base64Char (a.toNat % 4 * 16 + b.toNat / 16),
        base64Char (b.toNat % 16 * 4), chr '=']
  | a :: b :: c :: rest =>
      base64Char (a.toNat / 4) :: base64Char (a.toNat % 4 * 16 + b.toNat / 16) ::
        base64Char (b.toNat % 16 * 4 + c.toNat / 64) :: base64Char (c.toNat % 64) ::
          urlsafeB64Encode rest

/-! ## Decoding -/

/-- `binascii.a2b_base64`: the place in the group of four, the bits carried over and
the padding seen since the last character of the alphabet. -/
def a2bGo : (quad left pads : Nat) → Str → Option Bytes
  | quad, _, _, [] => if quad = 0 then some [] else none
  | quad, left, pads, c :: rest =>
      if c = chr '=' then
        if 2 ≤ quad then
          if 4 ≤ quad + (pads + 1) then some [] else a2bGo quad left (pads + 1) rest
        else a2bGo quad left pads rest
      else
        match base64Val c with
        | none => a2bGo quad left pads rest
        | some v =>
            match quad with
            | 0 => a2bGo 1 v 0 rest
            | 1 => (a2bGo 2 (v % 16) 0 rest).map fun bs => UInt8.ofNat (left * 4 + v / 16) :: bs
            | 2 => (a2bGo 3 (v % 4) 0 rest).map fun bs => UInt8.ofNat (left * 16 + v / 4) :: bs
            | _ => (a2bGo 0 0 0 rest).map fun bs => UInt8.ofNat (left * 64 + v) :: bs

/-- `base64.urlsafe_b64decode(s)`; a text that is not ASCII is refused. -/
def urlsafeB64Decode (s : Str) : Option Bytes :=
  if s.all fun c => c.val < 0x80 then a2bGo 0 0 0 s else none

/-! ## The round trip -/

section

/-! Reading a character of the alphabet, by its place in the group. -/

variable {n : Nat} (h : n < 64) (left pads : Nat) (rest : Str)
include h

theorem a2bGo_char (quad : Nat) : a2bGo quad left pads (base64Char n :: rest) =
    match quad with
    | 0 => a2bGo 1 n 0 rest
    | 1 => (a2bGo 2 (n % 16) 0 rest).map fun bs => UInt8.ofNat (left * 4 + n / 16) :: bs
    | 2 => (a2bGo 3 (n % 4) 0 rest).map fun bs => UInt8.ofNat (left * 16 + n / 4) :: bs
    | _ => (a2bGo 0 0 0 rest).map fun bs => UInt8.ofNat (left * 64 + n) :: bs := by
  rw [a2bGo, if_neg (base64Char_ne_pad n h), base64Val_char n h]

theorem a2bGo_zero : a2bGo 0 left pads (base64Char n :: rest) = a2bGo 1 n 0 rest :=
  a2bGo_char h left pads rest 0

theorem a2bGo_one : a2bGo 1 left pads (base64Char n :: rest) =
    (a2bGo 2 (n % 16) 0 rest).map fun bs => UInt8.ofNat (left * 4 + n / 16) :: bs :=
  a2bGo_char h left pads rest 1

theorem a2bGo_two : a2bGo 2 left pads (base64Char n :: rest) =
    (a2bGo 3 (n % 4) 0 rest).map fun bs => UInt8.ofNat (left * 16 + n / 4) :: bs :=
  a2bGo_char h left pads rest 2

theorem a2bGo_three : a2bGo 3 left pads (base64Char n :: rest) =
    (a2bGo 0 0 0 rest).map fun bs => UInt8.ofNat (left * 64 + n) :: bs :=
  a2bGo_char h left pads rest 3

end

theorem ofNat_eq {a : UInt8} {n : Nat} (h : n = a.toNat) : UInt8.ofNat n = a := by
  rw [h, UInt8.ofNat_toNat]

theorem a2bGo_encode : ∀ b : Bytes, a2bGo 0 0 0 (urlsafeB64Encode b) = some b
  | [] => rfl
  | [a] => by
      have ha := a.toNat_lt
      rw [urlsafeB64Encode, a2bGo_zero (by omega), a2bGo_one (by omega),
        ofNat_eq (a := a) (by omega)]
      rfl
  | [a, b] => by
      have ha := a.toNat_lt
      have hb := b.toNat_lt
      rw [urlsafeB64Encode, a2bGo_zero (by omega), a2bGo_one (by omega), a2bGo_two (by omega),
        ofNat_eq (a := a) (by omega), ofNat_eq (a := b) (by omega)]
      rfl
  | a :: b :: c :: rest => by
      have ha := a.toNat_lt
      have hb := b.toNat_lt
      have hc := c.toNat_lt
      rw [urlsafeB64Encode, a2bGo_zero (by omega), a2bGo_one (by omega), a2bGo_two (by omega),
        a2bGo_three (by omega), a2bGo_encode rest, ofNat_eq (a := a) (by omega),
        ofNat_eq (a := b) (by omega), ofNat_eq (a := c) (by omega)]
      rfl

theorem base64Char_ascii (n : Nat) : (base64Char n).val < 0x80 := by
  unfold base64Char
  split
  · rw [Fin.val_ofNat, Nat.mod_eq_of_lt (by omega)]
    omega
  split
  · rw [Fin.val_ofNat, Nat.mod_eq_of_lt (by omega)]
    omega
  split
  · rw [Fin.val_ofNat, Nat.mod_eq_of_lt (by omega)]
    omega
  split <;> decide

theorem urlsafeB64Encode_ascii : ∀ b : Bytes, ∀ c ∈ urlsafeB64Encode b, c.val < 0x80
  | [] => by simp [urlsafeB64Encode]
  | [_] => by
      simp only [urlsafeB64Encode, List.forall_mem_cons]
      exact ⟨base64Char_ascii _, base64Char_ascii _, by decide, by decide, by simp⟩
  | [_, _] => by
      simp only [urlsafeB64Encode, List.forall_mem_cons]
      exact ⟨base64Char_ascii _, base64Char_ascii _, base64Char_ascii _, by decide, by simp⟩
  | _ :: _ :: _ :: rest => by
      simp only [urlsafeB64Encode, List.forall_mem_cons]
      exact ⟨base64Char_ascii _, base64Char_ascii _, base64Char_ascii _, base64Char_ascii _,
        urlsafeB64Encode_ascii rest⟩

/-- **Round trip.** Decoding what the encoder wrote returns the bytes. -/
theorem urlsafeB64Decode_encode (b : Bytes) : urlsafeB64Decode (urlsafeB64Encode b) = some b := by
  rw [urlsafeB64Decode, if_pos, a2bGo_encode]
  simpa [List.all_eq_true] using urlsafeB64Encode_ascii b

/-- The padding an encoding ends in is the one the rest of it asks for. -/
theorem urlsafeB64Encode_eq : ∀ b : Bytes, ∃ bare, (∀ c ∈ bare, c ≠ chr '=') ∧
    urlsafeB64Encode b = bare ++ List.replicate ((4 - bare.length % 4) % 4) (chr '=')
  | [] => ⟨[], by simp, rfl⟩
  | [a] => by
      have ha := a.toNat_lt
      refine ⟨[base64Char (a.toNat / 4), base64Char (a.toNat % 4 * 16)], ?_, rfl⟩
      simp only [List.forall_mem_cons]
      exact ⟨base64Char_ne_pad _ (by omega), base64Char_ne_pad _ (by omega), by simp⟩
  | [a, b] => by
      have ha := a.toNat_lt
      have hb := b.toNat_lt
      refine ⟨[base64Char (a.toNat / 4), base64Char (a.toNat % 4 * 16 + b.toNat / 16),
        base64Char (b.toNat % 16 * 4)], ?_, rfl⟩
      simp only [List.forall_mem_cons]
      exact ⟨base64Char_ne_pad _ (by omega), base64Char_ne_pad _ (by omega),
        base64Char_ne_pad _ (by omega), by simp⟩
  | a :: b :: c :: rest => by
      have ha := a.toNat_lt
      have hb := b.toNat_lt
      have hc := c.toNat_lt
      obtain ⟨bare, hbare, heq⟩ := urlsafeB64Encode_eq rest
      refine ⟨base64Char (a.toNat / 4) :: base64Char (a.toNat % 4 * 16 + b.toNat / 16) ::
        base64Char (b.toNat % 16 * 4 + c.toNat / 64) :: base64Char (c.toNat % 64) :: bare, ?_, ?_⟩
      · simp only [List.forall_mem_cons]
        exact ⟨base64Char_ne_pad _ (by omega), base64Char_ne_pad _ (by omega),
          base64Char_ne_pad _ (by omega), base64Char_ne_pad _ (by omega), hbare⟩
      · have hlen : (bare.length + 1 + 1 + 1 + 1) % 4 = bare.length % 4 := by omega
        rw [urlsafeB64Encode, heq]
        simp only [List.length_cons, List.cons_append, hlen]

end BeSdk
