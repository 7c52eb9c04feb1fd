/-
BeSdk.Py.JsonTheorems — what the JSON reader does on what the compact writer wrote.

The round trip is stated for any way of escaping strings: `Reads esc c` says that
the string scanner turns `esc c` back into `c` whatever follows, `ReadsText esc s`
that it turns the escapes of `s` back into `s`, and a writer whose strings all read
back is read back entirely (`scanJson_compact`). The
values it covers are the `Plain` ones: no null or float, no integer longer than
the reader accepts. Members come back in the order they were written, repeated
ones included, since the scanner keeps what it reads. A value is as deep as its text
(`scanDepth_eq`), so what is read back needs as much room as the value has depth.
-/
import BeSdk.Py.Json
import Mathlib.Data.Nat.Digits.Lemmas

namespace BeSdk

/-! ## Digits -/

theorem digitVal_digitChr (d : Nat) : digitVal (digitChr d) = some (d % 10) := by
  have h : 0x30 ≤ (digitChr d).val ∧ (digitChr d).val ≤ 0x39 := by
    simp only [digitChr]; omega
  rw [digitVal, if_pos h]
  simp [digitChr]

@[simp] theorem isDigit_digitChr (d : Nat) : isDigit (digitChr d) = true := by
  simp [isDigit, digitVal_digitChr]

theorem digitsVal_append (s t : Str) :
    digitsVal (s ++ t) = t.foldl (fun n c => 10 * n + (digitVal c).getD 0) (digitsVal s) := by
  simp [digitsVal, List.foldl_append]

/-- The digits of a number from its last are read as the number. -/
theorem digitsVal_reverse_map : ∀ ds : List Nat, (∀ d ∈ ds, d < 10) →
    digitsVal (ds.reverse.map digitChr) = Nat.ofDigits 10 ds
  | [], _ => rfl
  | d :: ds, h => by
      rw [List.reverse_cons, List.map_append, digitsVal_append,
        digitsVal_reverse_map ds fun x hx => h x (List.mem_cons_of_mem _ hx)]
      have hd : d < 10 := h d (by simp)
      simp [digitVal_digitChr, Nat.mod_eq_of_lt hd, Nat.ofDigits_cons]
      omega

/-- `int(str(n)) = n` -/
theorem digitsVal_natText (n : Nat) : digitsVal (natText n) = n := by
  rw [natText]
  split
  · next h => subst h; decide
  · rw [digitsVal_reverse_map _ fun d hd => Nat.digits_lt_base (by norm_num) hd,
      Nat.ofDigits_digits]

/-- A number's text consists of digits. -/
theorem isDigit_of_mem_natText {n : Nat} {c : CodePoint} (h : c ∈ natText n) :
    isDigit c = true := by
  rw [natText] at h
  split at h
  · obtain rfl : c = chr '0' := by simpa [str] using h
    decide
  · obtain ⟨d, -, rfl⟩ := List.mem_map.mp h
    exact isDigit_digitChr d

theorem natText_ne_nil (n : Nat) : natText n ≠ [] := by
  rw [natText]
  split
  · decide
  · next h => simp [Nat.digits_ne_nil_iff_ne_zero, h]

theorem length_natText_le {n k : Nat} (h : n < 10 ^ k) (hk : 0 < k) : (natText n).length ≤ k := by
  rw [natText]
  split
  · exact hk
  · simpa using (Nat.digits_length_le_iff (by norm_num) n).mpr h

/-- Only zero is written with a leading zero. -/
theorem natText_cons {n : Nat} {c : CodePoint} {rest : Str} (h : natText n = c :: rest)
    (hc : c = chr '0') : rest = [] := by
  subst hc
  rw [natText] at h
  split at h
  · exact (List.cons.inj h).2.symm
  · next h0 =>
      exfalso
      have hne : Nat.digits 10 n ≠ [] := Nat.digits_ne_nil_iff_ne_zero.mpr h0
      have hlast := Nat.getLast_digit_ne_zero 10 h0
      have hlt : (Nat.digits 10 n).getLast hne < 10 :=
        Nat.digits_lt_base (by norm_num) (List.getLast_mem hne)
      have hhead : ((Nat.digits 10 n).reverse.map digitChr).head?
          = some (digitChr ((Nat.digits 10 n).getLast hne)) := by
        simp [List.head?_reverse, List.getLast?_eq_getLast_of_ne_nil hne]
      rw [h] at hhead
      have hval := congrArg (Option.map digitVal) hhead
      simp only [List.head?_cons, Option.map_some, digitVal_digitChr, Nat.mod_eq_of_lt hlt] at hval
      have : digitVal (chr '0') = some 0 := by decide
      simp only [this, Option.some.injEq] at hval
      exact hlast hval.symm

/-! ## Numbers -/

/-- What may follow a number without becoming part of it. -/
def numberEnd (tail : Str) : Bool :=
  tail.head?.all fun c => !isDigit c && c ≠ chr '.' && c ≠ chr 'e' && c ≠ chr 'E'

/-- Digits end where something that ends a number begins. -/
theorem takeWhile_isDigit_append {ds tail : Str} (hds : ∀ c ∈ ds, isDigit c = true)
    (ht : numberEnd tail = true) :
    (ds ++ tail).takeWhile isDigit = ds ∧ (ds ++ tail).dropWhile isDigit = tail := by
  have htail : tail.takeWhile isDigit = [] ∧ tail.dropWhile isDigit = tail := by
    cases tail with
    | nil => simp
    | cons c rest =>
        have hc : isDigit c = false := by simp [numberEnd] at ht; exact ht.1.1.1
        simp [hc]
  rw [List.takeWhile_append_of_pos hds, List.dropWhile_append_of_pos hds]
  simp [htail]

/-- The integer part of a number's text is the text. -/
theorem scanInt_natText (n : Nat) {tail : Str} (ht : numberEnd tail = true) :
    scanInt (natText n ++ tail) = some (natText n, tail) := by
  cases hn : natText n with
  | nil => exact absurd hn (natText_ne_nil n)
  | cons c rest =>
      have hdigits : ∀ x ∈ c :: rest, isDigit x = true := by
        rw [← hn]; exact fun x hx => isDigit_of_mem_natText hx
      rw [List.cons_append, scanInt]
      by_cases hc : c = chr '0'
      · rw [if_pos hc, natText_cons hn hc, List.nil_append]
      · have hrest := takeWhile_isDigit_append
          (fun x hx => hdigits x (List.mem_cons_of_mem _ hx)) ht
        rw [if_neg hc, if_pos (hdigits c (by simp)), hrest.1, hrest.2]

theorem scanFrac_of_numberEnd {tail : Str} (ht : numberEnd tail = true) :
    scanFrac tail = ([], tail) := by
  match tail with
  | [] => rfl
  | [_] => rfl
  | c :: d :: rest =>
      have hc : c ≠ chr '.' := by simp [numberEnd] at ht; exact ht.1.1.2
      simp [scanFrac, hc]

theorem scanExp_of_numberEnd {tail : Str} (ht : numberEnd tail = true) :
    scanExp tail = ([], tail) := by
  match tail with
  | [] => rfl
  | c :: rest =>
      have hc : c ≠ chr 'e' ∧ c ≠ chr 'E' := by simp [numberEnd] at ht; exact ⟨ht.1.2, ht.2⟩
      simp [scanExp, hc.1, hc.2]

/-- The first character of a number's digits is no minus sign. -/
theorem natText_head (n : Nat) : ∃ c rest, natText n = c :: rest ∧ isDigit c = true := by
  cases hn : natText n with
  | nil => exact absurd hn (natText_ne_nil n)
  | cons c rest => exact ⟨c, rest, rfl, isDigit_of_mem_natText (n := n) (by simp [hn])⟩

theorem ne_of_isDigit {c d : CodePoint} (hc : isDigit c = true) (hd : isDigit d = false) :
    c ≠ d := by
  rintro rfl
  simp [hc] at hd

/-- The digits of an integer that is not too long are read back, under either sign. -/
theorem scanUnsigned_natText {n : Nat} (hn : n < 10 ^ maxStrDigits) (neg : Bool) {tail : Str}
    (ht : numberEnd tail = true) :
    scanUnsigned neg (natText n ++ tail) = some (.int (if neg then -(n : Int) else n), tail) := by
  have hlen : ¬ maxStrDigits < (natText n).length :=
    not_lt.mpr (length_natText_le hn (by decide))
  rw [scanUnsigned, scanInt_natText n ht]
  simp only [scanFrac_of_numberEnd ht, scanExp_of_numberEnd ht, and_self, if_true, hlen, if_false,
    digitsVal_natText]

/-- The text of an integer short enough for `int` is scanned as that integer. -/
theorem scanNumber_intText {n : Int} (hn : n.natAbs < 10 ^ maxStrDigits) {tail : Str}
    (ht : numberEnd tail = true) : scanNumber (intText n ++ tail) = some (.int n, tail) := by
  by_cases hneg : n < 0
  · have hbody : intText n ++ tail = chr '-' :: (natText n.natAbs ++ tail) := by
      simp [intText, hneg, str]
    rw [hbody, scanNumber, if_pos rfl, scanUnsigned_natText hn true ht,
      show (if true = true then -(n.natAbs : Int) else n.natAbs) = n by simp only [if_true]; omega]
  · obtain ⟨c, rest, hc, hdig⟩ := natText_head n.natAbs
    have hread := scanUnsigned_natText hn false ht
    rw [show (if false = true then -(n.natAbs : Int) else n.natAbs) = n by
      simp only [Bool.false_eq_true, if_false]; omega, hc, List.cons_append] at hread
    rw [intText, if_neg hneg, hc, List.cons_append, scanNumber,
      if_neg (ne_of_isDigit hdig (by decide)), hread]

/-! ## Strings -/

/-- The scanner reads the escape of `c` back as `c`, whatever follows. -/
def Reads (esc : CodePoint → Str) (c : CodePoint) : Prop :=
  ∀ tail, scanString (esc c ++ tail) = consRead c (scanString tail)

/-- The scanner reads the escapes of `s` back as `s`, up to the closing quote. -/
def ReadsText (esc : CodePoint → Str) (s : Str) : Prop :=
  ∀ tail, scanString (s.flatMap esc ++ chr '"' :: tail) = some (s, tail)

/-- A string whose escapes all read back is read up to its closing quote. -/
theorem scanString_quoted (esc : CodePoint → Str) (tail : Str) : ∀ s : Str, (∀ c ∈ s, Reads esc c) →
    scanString (s.flatMap esc ++ chr '"' :: tail) = some (s, tail)
  | [], _ => by rw [List.flatMap_nil, List.nil_append, scanString.eq_def]; simp
  | c :: rest, h => by
      rw [List.flatMap_cons, List.append_assoc, h c (by simp),
        scanString_quoted esc tail rest fun x hx => h x (List.mem_cons_of_mem _ hx)]
      rfl

theorem readsText_of_reads {esc : CodePoint → Str} {s : Str} (h : ∀ c ∈ s, Reads esc c) :
    ReadsText esc s :=
  fun tail => scanString_quoted esc tail s h

theorem hexVal_hexDigit (d : Nat) : hexVal (hexDigit d) = some (d % 16) := by
  rw [hexDigit]
  split
  · rw [hexVal, if_pos (by constructor <;> simp only <;> omega)]
    simp
  · rw [hexVal, if_neg (by simp only; omega), if_pos (by constructor <;> simp only <;> omega)]
    simp only [Option.some.injEq]
    omega

/-- The four hexadecimal digits of a code unit are read as the unit. -/
theorem hex4_unitEscape {u : Nat} (hu : u < 0x10000) :
    hex4 (hexDigit (u / 4096)) (hexDigit (u / 256)) (hexDigit (u / 16)) (hexDigit u)
      = some ⟨u, hu⟩ := by
  simp only [hex4, hexVal_hexDigit, Option.bind_eq_bind, Option.bind_some, Option.pure_def,
    Option.some.injEq, Fin.ext_iff, Fin.val_ofNat]
  omega

/-- A plain character stands for itself. -/
theorem scanString_cons {c : CodePoint} (hq : c ≠ chr '"') (hb : c ≠ chr '\\') (hc : 0x20 ≤ c.val)
    (tail : Str) : scanString (c :: tail) = consRead c (scanString tail) := by
  rw [scanString.eq_def]
  simp [hq, hb, not_lt.mpr hc]

/-- An escape of one letter is read as its character. -/
theorem scanString_letterEscape {c : CodePoint} {e : Str} (h : letterEscape c = some e)
    (tail : Str) : scanString (e ++ tail) = consRead c (scanString tail) := by
  have key : ∀ x : CodePoint, x ≠ chr 'u' → unescape x = some c →
      scanString (chr '\\' :: x :: tail) = consRead c (scanString tail) := by
    intro x hx hc
    rw [scanString.eq_def]
    simp [hx, hc, show chr '\\' ≠ chr '"' by decide]
  unfold letterEscape at h
  repeat' split at h
  all_goals first
    | (obtain rfl := Option.some.inj h; subst_vars; exact key _ (by decide) (by decide))
    | simp at h

/-- A code unit that is no high surrogate is read alone. -/
theorem scanString_unitEscape {u : Nat} (hu : u < 0x10000) (hs : isHighSurrogate u = false)
    (tail : Str) : scanString (unitEscape u ++ tail) = consRead (ofUnit ⟨u, hu⟩)
    (scanString tail) := by
  rw [unitEscape, scanString.eq_def]
  simp [hex4_unitEscape hu, hs, show chr '\\' ≠ chr '"' by decide]

/-- A surrogate pair is read as the code point it stands for. -/
theorem scanString_pair {u v : Nat} (hu : u < 0x10000) (hv : v < 0x10000)
    (hhigh : isHighSurrogate u = true) (hlow : isLowSurrogate v = true) (tail : Str) :
    scanString (unitEscape u ++ (unitEscape v ++ tail))
      = consRead (joinSurrogates u v) (scanString tail) := by
  rw [unitEscape, unitEscape, scanString.eq_def]
  simp [hex4_unitEscape hu, hex4_unitEscape hv, hhigh, hlow, show chr '\\' ≠ chr '"' by decide]

/-- What `json.dumps` writes for a code point that is no surrogate is read back. -/
theorem reads_asciiEscape {c : CodePoint} (hc : isSurrogate c = false) : Reads asciiEscape c := by
  intro tail
  have hns : ¬ (0xD800 ≤ c.val ∧ c.val ≤ 0xDFFF) := by simpa [isSurrogate] using hc
  rw [asciiEscape]
  cases he : letterEscape c with
  | some e => exact scanString_letterEscape he tail
  | none =>
      have hq : c ≠ chr '"' := by rintro rfl; revert he; decide
      have hb : c ≠ chr '\\' := by rintro rfl; revert he; decide
      simp only
      split
      · next h => exact scanString_cons hq hb h.1 tail
      split
      · next h =>
          have hlow : isHighSurrogate c.val = false := by simp [isHighSurrogate]; omega
          exact scanString_unitEscape h hlow tail
      · next h =>
          have hlt : c.val < 0x110000 := c.isLt
          have hjoin : joinSurrogates (0xD800 + (c.val - 0x10000) / 0x400)
              (0xDC00 + (c.val - 0x10000) % 0x400) = c := by
            refine Fin.ext ?_
            rw [joinSurrogates, Fin.val_ofNat]
            omega
          rw [List.append_assoc,
            scanString_pair (by omega) (by omega) (by simp [isHighSurrogate]; omega)
              (by simp [isLowSurrogate]; omega), hjoin]

/-! ## Values -/

mutual

/-- Every key satisfies `K`, every string `P`, every integer `I`; no null and no
float. -/
def Json.Plain (K P : Str → Prop) (I : Int → Prop) : Json → Prop
  | .null => False
  | .bool _ => True
  | .int n => I n
  | .float _ => False
  | .str s => P s
  | .list xs => PlainElems K P I xs
  | .obj ms => PlainMembers K P I ms

def PlainElems (K P : Str → Prop) (I : Int → Prop) : List Json → Prop
  | [] => True
  | x :: xs => x.Plain K P I ∧ PlainElems K P I xs

def PlainMembers (K P : Str → Prop) (I : Int → Prop) : List (Str × Json) → Prop
  | [] => True
  | (k, v) :: ms => K k ∧ v.Plain K P I ∧ PlainMembers K P I ms

end

theorem plainElems_iff {K P : Str → Prop} {I : Int → Prop} : ∀ {xs : List Json},
    PlainElems K P I xs ↔ ∀ x ∈ xs, x.Plain K P I
  | [] => by simp [PlainElems]
  | x :: xs => by rw [PlainElems, plainElems_iff]; simp

/-- Members are plain where the keys and the values are. -/
theorem plainMembers_iff {K P : Str → Prop} {I : Int → Prop} : ∀ {ms : List (Str × Json)},
    PlainMembers K P I ms ↔ ∀ m ∈ ms, K m.1 ∧ m.2.Plain K P I
  | [] => by simp [PlainMembers]
  | (k, v) :: ms => by rw [PlainMembers, plainMembers_iff]; simp [and_assoc]

mutual

/-- Two facts about the parts of a value make a third. -/
theorem Json.Plain.imp {K K' K'' P P' P'' : Str → Prop} {I I' I'' : Int → Prop}
    (hK : ∀ s, K s → K' s → K'' s) (hP : ∀ s, P s → P' s → P'' s) (hI : ∀ n, I n → I' n → I'' n) :
    ∀ v : Json, v.Plain K P I → v.Plain K' P' I' → v.Plain K'' P'' I''
  | .null, h, _ => h
  | .bool _, h, _ => h
  | .int n, h, h' => hI n h h'
  | .float _, h, _ => h
  | .str s, h, h' => hP s h h'
  | .list xs, h, h' => PlainElems.imp hK hP hI xs h h'
  | .obj ms, h, h' => PlainMembers.imp hK hP hI ms h h'

/-- The elements of a list, by the same conditions. -/
theorem PlainElems.imp {K K' K'' P P' P'' : Str → Prop} {I I' I'' : Int → Prop}
    (hK : ∀ s, K s → K' s → K'' s) (hP : ∀ s, P s → P' s → P'' s) (hI : ∀ n, I n → I' n → I'' n) :
    ∀ xs : List Json, PlainElems K P I xs → PlainElems K' P' I' xs → PlainElems K'' P'' I'' xs
  | [], _, _ => trivial
  | x :: xs, h, h' =>
      ⟨Json.Plain.imp hK hP hI x h.1 h'.1, PlainElems.imp hK hP hI xs h.2 h'.2⟩

/-- The members of an object, by the same conditions. -/
theorem PlainMembers.imp {K K' K'' P P' P'' : Str → Prop} {I I' I'' : Int → Prop}
    (hK : ∀ s, K s → K' s → K'' s) (hP : ∀ s, P s → P' s → P'' s) (hI : ∀ n, I n → I' n → I'' n) :
    ∀ ms : List (Str × Json), PlainMembers K P I ms → PlainMembers K' P' I' ms →
      PlainMembers K'' P'' I'' ms
  | [], _, _ => trivial
  | (k, v) :: ms, h, h' => ⟨hK k h.1 h'.1, Json.Plain.imp hK hP hI v h.2.1 h'.2.1,
      PlainMembers.imp hK hP hI ms h.2.2 h'.2.2⟩

end

/-- Plainness is monotone in its three conditions. -/
theorem Json.Plain.mono {K K' P P' : Str → Prop} {I I' : Int → Prop} (hK : ∀ s, K s → K' s)
    (hP : ∀ s, P s → P' s) (hI : ∀ n, I n → I' n) {v : Json} (h : v.Plain K P I) :
    v.Plain K' P' I' :=
  Json.Plain.imp (fun s h _ => hK s h) (fun s h _ => hP s h) (fun n h _ => hI n h) v h h

/-- The strings a writer's escapes read back from, and the integers the reader takes. -/
abbrev Json.ReadsBack (esc : CodePoint → Str) (v : Json) : Prop :=
  v.Plain (ReadsText esc) (ReadsText esc) fun n => n.natAbs < 10 ^ maxStrDigits

/-- Nothing is skipped before a character that is no space. -/
theorem skipSpace_cons {c : CodePoint} {s : Str} (h : isJsonSpace c = false) :
    skipSpace (c :: s) = c :: s := by
  simp [skipSpace, h]

/-- Each of the three constants is scanned as its value. -/
theorem scanConstant_of_const {p : Str × Json} (hp : p ∈ constants.take 3) (tail : Str) :
    scanConstant (p.1 ++ tail) = some (p.2, tail) := by
  have h3 : constants.take 3 = [(str "null", .null), (str "true", .bool true),
    (str "false", .bool false)] := rfl
  rw [h3] at hp
  simp only [List.mem_cons, List.not_mem_nil, or_false] at hp
  rcases hp with rfl | rfl | rfl <;> rfl

/-- The text of an integer starts no constant. -/
theorem scanConstant_intText (n : Int) (tail : Str) : scanConstant (intText n ++ tail) = none := by
  obtain ⟨c, rest, hc, hdig⟩ := natText_head n.natAbs
  have hne : ∀ d, isDigit d = false → c ≠ d := fun d hd => ne_of_isDigit hdig hd
  rw [scanConstant, Option.map_eq_none_iff, List.find?_eq_none]
  intro p hp
  simp only [constants, List.mem_cons, List.not_mem_nil, or_false] at hp
  by_cases hneg : n < 0
  · have hbody : intText n ++ tail = chr '-' :: c :: (rest ++ tail) := by
      simp [intText, hneg, hc, str]
    rw [hbody, Str.startsWith]
    rcases hp with rfl | rfl | rfl | rfl | rfl | rfl <;>
      simp [str, List.isPrefixOf, (hne (chr 'I') (by decide)).symm,
        show chr 'n' ≠ chr '-' by decide, show chr 't' ≠ chr '-' by decide,
        show chr 'f' ≠ chr '-' by decide, show chr 'N' ≠ chr '-' by decide,
        show chr 'I' ≠ chr '-' by decide]
  · have hbody : intText n ++ tail = c :: (rest ++ tail) := by simp [intText, hneg, hc]
    rw [hbody, Str.startsWith]
    rcases hp with rfl | rfl | rfl | rfl | rfl | rfl <;>
      simp [str, List.isPrefixOf, (hne (chr 'n') (by decide)).symm,
        (hne (chr 't') (by decide)).symm, (hne (chr 'f') (by decide)).symm,
        (hne (chr 'N') (by decide)).symm, (hne (chr 'I') (by decide)).symm,
        (hne (chr '-') (by decide)).symm]

/-- The first character of an integer's text opens nothing else. -/
theorem intText_head (n : Int) : ∃ c rest, intText n = c :: rest ∧
    (isDigit c = true ∨ c = chr '-') := by
  obtain ⟨c, rest, hc, hdig⟩ := natText_head n.natAbs
  by_cases hneg : n < 0
  · exact ⟨chr '-', natText n.natAbs, by simp [intText, hneg, str], Or.inr rfl⟩
  · exact ⟨c, rest, by simp [intText, hneg, hc], Or.inl hdig⟩

/-- A text that opens neither a string, an object nor an array. -/
theorem scanValue_scalar {c : CodePoint} {rest : Str} {fuel : Nat} (hq : c ≠ chr '"')
    (hb : c ≠ chr '{') (hl : c ≠ chr '[') :
    scanValue (fuel + 1) (c :: rest) = (scanConstant (c :: rest)).or (scanNumber (c :: rest)) := by
  rw [scanValue, if_neg hq, if_neg hb, if_neg hl]

/-- An integer's text is scanned as the value it is. -/
theorem scanValue_intText {n : Int} (hn : n.natAbs < 10 ^ maxStrDigits) {tail : Str}
    (ht : numberEnd tail = true) (fuel : Nat) :
    scanValue (fuel + 1) (intText n ++ tail) = some (.int n, tail) := by
  obtain ⟨c, rest, hc, hhead⟩ := intText_head n
  have hne : ∀ d, isDigit d = false → d ≠ chr '-' → c ≠ d := by
    rintro d hd hm rfl
    rcases hhead with h | h
    · simp [hd] at h
    · exact hm h
  have hconst := scanConstant_intText n tail
  have hnum := scanNumber_intText hn ht
  rw [hc, List.cons_append] at *
  rw [scanValue_scalar (hne _ (by decide) (by decide)) (hne _ (by decide) (by decide))
    (hne _ (by decide) (by decide)), hconst, hnum]
  rfl

/-- The elements of an array from one on, with its closing bracket. -/
def elemsText (esc : CodePoint → Str) (xs : List Json) : Str :=
  Str.join (str ",") (compactElems esc xs) ++ [chr ']']

/-- The members of an object from one on, with its closing brace. -/
def membersText (esc : CodePoint → Str) (ms : List (Str × Json)) : Str :=
  Str.join (str ",") (compactMembers esc ms) ++ [chr '}']

/-- The text of elements after the bracket, one element at a time. -/
theorem elemsText_cons (esc : CodePoint → Str) (x : Json) : ∀ xs : List Json,
    elemsText esc (x :: xs)
      = compact esc x ++ (if xs = [] then [chr ']'] else chr ',' :: elemsText esc xs)
  | [] => rfl
  | y :: ys => by
      simp only [elemsText, compactElems, Str.join, reduceCtorEq, if_false, List.append_assoc]
      rfl

/-- The text of members after the brace, one member at a time. -/
theorem membersText_cons (esc : CodePoint → Str) (k : Str) (v : Json) : ∀ ms : List (Str × Json),
    membersText esc ((k, v) :: ms)
      = quoted esc k ++ chr ':' :: (compact esc v ++
          (if ms = [] then [chr '}'] else chr ',' :: membersText esc ms))
  | [] => by simp [membersText, compactMembers, Str.join]
  | (k', v') :: ms => by
      simp only [membersText, compactMembers, Str.join, reduceCtorEq, if_false, List.append_assoc,
        List.cons_append]
      rfl

/-- What a value's text starts with: ASCII, no space, and no closing bracket. -/
theorem compact_head {K P : Str → Prop} {I : Int → Prop} (esc : CodePoint → Str) {v : Json}
    (hv : v.Plain K P I) : ∃ c rest, compact esc v = c :: rest ∧ isJsonSpace c = false ∧
      c ≠ chr ']' ∧ c ≠ chr '}' ∧ c.val < 0x80 := by
  cases v with
  | null => exact hv.elim
  | float _ => exact hv.elim
  | bool b => cases b
              · exact ⟨chr 'f', str "alse", rfl, by decide, by decide, by decide, by decide⟩
              · exact ⟨chr 't', str "rue", rfl, by decide, by decide, by decide, by decide⟩
  | str s => exact ⟨chr '"', _, by rw [compact, quoted], by decide, by decide, by decide, by decide⟩
  | list xs => exact ⟨chr '[', _, by rw [compact], by decide, by decide, by decide, by decide⟩
  | obj ms => exact ⟨chr '{', _, by rw [compact], by decide, by decide, by decide, by decide⟩
  | int n =>
      obtain ⟨c, rest, hc, hhead⟩ := intText_head n
      refine ⟨c, rest, by rw [compact, hc], ?_⟩
      rcases hhead with h | rfl
      · have hne : ∀ d, isDigit d = false → c ≠ d := fun d hd => ne_of_isDigit h hd
        exact ⟨by simp [isJsonSpace, hne (chr ' ') (by decide), hne (chr '\t') (by decide),
          hne (chr '\n') (by decide), hne (chr '\r') (by decide)], hne _ (by decide),
          hne _ (by decide), by have := digit_range h; omega⟩
      · exact ⟨by decide, by decide, by decide, by decide⟩

/-- A compact text begins with no space. -/
theorem skipSpace_compact {K P : Str → Prop} {I : Int → Prop} (esc : CodePoint → Str) {v : Json}
    (hv : v.Plain K P I) (tail : Str) :
    skipSpace (compact esc v ++ tail) = compact esc v ++ tail := by
  obtain ⟨c, rest, hc, hspace, -⟩ := compact_head esc hv
  rw [hc, List.cons_append, skipSpace_cons hspace]

mutual

/-- **A value written compactly is read back**, whatever follows that cannot
continue a number, with as much fuel as its text is long. -/
theorem scanValue_compact {esc : CodePoint → Str} : ∀ (v : Json) (tail : Str) (fuel : Nat),
    v.ReadsBack esc → numberEnd tail = true → (compact esc v).length ≤ fuel →
    scanValue fuel (compact esc v ++ tail) = some (v, tail)
  | .null, _, _, hv, _, _ => hv.elim
  | .float _, _, _, hv, _, _ => hv.elim
  | .bool b, tail, 0, _, _, hf => by cases b <;> simp [compact, str] at hf
  | .bool b, tail, fuel + 1, _, _, _ => by
      cases b
      · have h := scanConstant_of_const (p := (str "false", .bool false)) (by simp [constants]) tail
        have hs : compact esc (.bool false) ++ tail = chr 'f' :: (str "alse" ++ tail) := rfl
        rw [hs, scanValue_scalar (by decide) (by decide) (by decide), ← hs]
        exact Option.or_eq_some_iff.mpr (Or.inl h)
      · have h := scanConstant_of_const (p := (str "true", .bool true)) (by simp [constants]) tail
        have hs : compact esc (.bool true) ++ tail = chr 't' :: (str "rue" ++ tail) := rfl
        rw [hs, scanValue_scalar (by decide) (by decide) (by decide), ← hs]
        exact Option.or_eq_some_iff.mpr (Or.inl h)
  | .int n, tail, 0, _, _, hf => by
      obtain ⟨c, rest, hc, -⟩ := intText_head n
      simp [compact, hc] at hf
  | .int n, tail, fuel + 1, hv, ht, _ => by
      rw [compact]
      exact scanValue_intText hv ht fuel
  | .str s, tail, 0, _, _, hf => by simp [compact, quoted] at hf
  | .str s, tail, fuel + 1, hv, _, _ => by
      have hs : scanString (s.flatMap esc ++ chr '"' :: tail) = some (s, tail) := hv tail
      rw [compact, quoted, List.cons_append, List.append_assoc, List.singleton_append, scanValue,
        if_pos rfl, hs]
      rfl
  | .list xs, tail, 0, _, _, hf => by simp [compact] at hf
  | .list [], tail, fuel + 1, _, _, _ => rfl
  | .list (x :: xs), tail, fuel + 1, hv, _, hf => by
      have htext : compact esc (.list (x :: xs)) = chr '[' :: elemsText esc (x :: xs) := rfl
      rw [htext, List.length_cons] at hf
      have hscan := scanElems_compact x xs tail fuel hv (by omega)
      obtain ⟨c, rest, hc, hspace, hne, -⟩ := compact_head esc hv.1
      have hcons : elemsText esc (x :: xs) ++ tail = c :: (rest ++
          (if xs = [] then [chr ']'] else chr ',' :: elemsText esc xs) ++ tail) := by
        rw [elemsText_cons, hc]; simp
      rw [hcons] at hscan
      rw [htext, List.cons_append, scanValue, if_neg (by decide), if_neg (by decide), if_pos rfl,
        hcons, skipSpace_cons hspace]
      simp only
      rw [if_neg hne, hscan]
      rfl
  | .obj ms, tail, 0, _, _, hf => by simp [compact] at hf
  | .obj [], tail, fuel + 1, _, _, _ => rfl
  | .obj ((k, v) :: ms), tail, fuel + 1, hv, _, hf => by
      have htext : compact esc (.obj ((k, v) :: ms)) = chr '{' :: membersText esc
        ((k, v) :: ms) := rfl
      rw [htext, List.length_cons] at hf
      have hscan := scanMembers_compact k v ms tail fuel hv (by omega)
      have hcons : membersText esc ((k, v) :: ms) ++ tail = chr '"' :: (k.flatMap esc ++ chr '"' ::
          (chr ':' :: (compact esc v ++
            (if ms = [] then [chr '}'] else chr ',' :: membersText esc ms)) ++ tail)) := by
        rw [membersText_cons, quoted]; simp
      rw [hcons] at hscan
      rw [htext, List.cons_append, scanValue, if_neg (by decide), if_pos rfl, hcons,
        skipSpace_cons (by decide)]
      simp only
      rw [if_neg (by decide), hscan]
      rfl

/-- The elements of an array, from one on. -/
theorem scanElems_compact {esc : CodePoint → Str} : ∀ (x : Json) (xs : List Json) (tail : Str)
    (fuel : Nat), PlainElems (ReadsText esc) (ReadsText esc)
    (fun n => n.natAbs < 10 ^ maxStrDigits) (x :: xs) → (elemsText esc (x :: xs)).length ≤ fuel →
    scanElems fuel (elemsText esc (x :: xs) ++ tail) = some (x :: xs, tail)
  | x, xs, tail, 0, _, hf => by
      rw [elemsText_cons, List.length_append] at hf
      split at hf <;> simp at hf
  | x, [], tail, fuel + 1, hv, hf => by
      rw [elemsText_cons, if_pos rfl, List.length_append] at *
      have hx := scanValue_compact x (chr ']' :: tail) fuel hv.1 (by rfl)
        (by simp at hf; omega)
      rw [List.append_assoc, List.singleton_append, scanElems, hx]
      simp only
      rw [skipSpace_cons (by decide)]
      simp
  | x, y :: ys, tail, fuel + 1, hv, hf => by
      rw [elemsText_cons, if_neg (by simp)] at *
      rw [List.length_append, List.length_cons] at hf
      have hx := scanValue_compact x (chr ',' :: (elemsText esc (y :: ys) ++ tail)) fuel hv.1
        (by rfl) (by omega)
      have hys := scanElems_compact y ys tail fuel hv.2 (by omega)
      have hskip : skipSpace (elemsText esc (y :: ys) ++ tail) = elemsText esc (y :: ys) ++
        tail := by
        rw [elemsText_cons, List.append_assoc]
        exact skipSpace_compact esc hv.2.1 _
      rw [List.append_assoc, List.cons_append, scanElems, hx]
      simp only
      rw [skipSpace_cons (by decide)]
      simp only
      rw [if_neg (by decide), if_pos trivial, hskip, hys]
      rfl

/-- The members of an object, from one on. -/
theorem scanMembers_compact {esc : CodePoint → Str} :
    ∀ (k : Str) (v : Json) (ms : List (Str × Json)) (tail : Str) (fuel : Nat), PlainMembers
    (ReadsText esc) (ReadsText esc)
      (fun n => n.natAbs < 10 ^ maxStrDigits) ((k, v) :: ms) →
    (membersText esc ((k, v) :: ms)).length ≤ fuel →
    scanMembers fuel (membersText esc ((k, v) :: ms) ++ tail) = some ((k, v) :: ms, tail)
  | k, v, ms, tail, 0, _, hf => by
      rw [membersText_cons, quoted] at hf
      simp at hf
  | k, v, ms, tail, fuel + 1, hv, hf => by
      have hcons : membersText esc ((k, v) :: ms) ++ tail = chr '"' :: (k.flatMap esc ++ chr '"' ::
          (chr ':' :: (compact esc v ++
            ((if ms = [] then [chr '}'] else chr ',' :: membersText esc ms) ++ tail)))) := by
        rw [membersText_cons, quoted]; simp
      have hlen : (compact esc v).length < fuel ∧
          (ms ≠ [] → (membersText esc ms).length < fuel) := by
        rw [membersText_cons, quoted] at hf
        simp only [List.length_append, List.length_cons] at hf
        split at hf
        · next h => exact ⟨by omega, fun h' => absurd h h'⟩
        · simp only [List.length_cons] at hf
          exact ⟨by omega, fun _ => by omega⟩
      have hk := hv.1 (chr ':' :: (compact esc v ++
        ((if ms = [] then [chr '}'] else chr ',' :: membersText esc ms) ++ tail)))
      have htail : numberEnd ((if ms = [] then [chr '}']
        else chr ',' :: membersText esc ms) ++ tail)
          = true := by split <;> rfl
      have hval := scanValue_compact v _ fuel hv.2.1 htail (by omega)
      rw [hcons, scanMembers, if_neg (by simp), hk]
      simp only
      rw [skipSpace_cons (by decide)]
      simp only
      rw [if_neg (by simp), skipSpace_compact esc hv.2.1, hval]
      simp only
      match ms, hv, hlen with
      | [], _, _ =>
          rw [if_pos rfl, List.singleton_append, skipSpace_cons (by decide)]
          simp
      | (k', v') :: ms', hv, hlen =>
          have hms := scanMembers_compact k' v' ms' tail fuel hv.2.2
            (by have := hlen.2 (by simp); omega)
          have hskip : skipSpace (membersText esc ((k', v') :: ms') ++ tail)
              = membersText esc ((k', v') :: ms') ++ tail := by
            rw [membersText_cons, quoted]
            exact skipSpace_cons (by decide)
          rw [if_neg (by simp), List.cons_append, skipSpace_cons (by decide)]
          simp only
          rw [if_neg (by decide), if_pos trivial, hskip, hms]
          rfl

end

/-- The text of a value holds that value. -/
theorem scanJson_compact {esc : CodePoint → Str} {v : Json} (hv : v.ReadsBack esc) :
    scanJson (compact esc v) = some v := by
  have hscan := scanValue_compact v [] (2 * (compact esc v).length) hv rfl (by omega)
  have hskip := skipSpace_compact esc hv []
  rw [List.append_nil] at hscan hskip
  rw [scanJson, hskip, hscan]
  rfl

/-! ## Values as dictionaries -/

mutual

/-- Every string and key satisfies `P`. -/
def Json.Strings (P : Str → Prop) : Json → Prop
  | .str s => P s
  | .list xs => StringsElems P xs
  | .obj ms => StringsMembers P ms
  | _ => True

def StringsElems (P : Str → Prop) : List Json → Prop
  | [] => True
  | x :: xs => x.Strings P ∧ StringsElems P xs

def StringsMembers (P : Str → Prop) : List (Str × Json) → Prop
  | [] => True
  | (k, v) :: ms => P k ∧ v.Strings P ∧ StringsMembers P ms

end

mutual

/-- No object has a key twice: the value is made of dictionaries. -/
def Json.Distinct : Json → Prop
  | .list xs => DistinctElems xs
  | .obj ms => (ms.map Prod.fst).Nodup ∧ DistinctMembers ms
  | _ => True

def DistinctElems : List Json → Prop
  | [] => True
  | x :: xs => x.Distinct ∧ DistinctElems xs

def DistinctMembers : List (Str × Json) → Prop
  | [] => True
  | (_, v) :: ms => v.Distinct ∧ DistinctMembers ms

end

mutual

/-- Plainness says of the strings what it says of keys and texts. -/
theorem Json.Plain.strings {P : Str → Prop} {I : Int → Prop} : ∀ {v : Json}, v.Plain P P I →
    v.Strings P
  | .null, h => h.elim
  | .bool _, _ => trivial
  | .int _, _ => trivial
  | .float _, h => h.elim
  | .str _, h => h
  | .list xs, h => PlainElems.strings xs h
  | .obj ms, h => PlainMembers.strings ms h

theorem PlainElems.strings {P : Str → Prop} {I : Int → Prop} : ∀ xs : List Json,
    PlainElems P P I xs → StringsElems P xs
  | [], _ => trivial
  | _ :: xs, h => ⟨h.1.strings, PlainElems.strings xs h.2⟩

theorem PlainMembers.strings {P : Str → Prop} {I : Int → Prop} : ∀ ms : List (Str × Json),
    PlainMembers P P I ms → StringsMembers P ms
  | [], _ => trivial
  | _ :: ms, h => ⟨h.1, h.2.1.strings, PlainMembers.strings ms h.2.2⟩

end

theorem distinctElems_iff : ∀ {xs : List Json}, DistinctElems xs ↔ ∀ x ∈ xs, x.Distinct
  | [] => by simp [DistinctElems]
  | x :: xs => by rw [DistinctElems, distinctElems_iff]; simp

theorem distinctMembers_iff : ∀ {ms : List (Str × Json)},
    DistinctMembers ms ↔ ∀ m ∈ ms, m.2.Distinct
  | [] => by simp [DistinctMembers]
  | (k, v) :: ms => by rw [DistinctMembers, distinctMembers_iff]; simp

mutual

/-- Folding the members of dictionaries changes nothing. -/
theorem dedupe_of_distinct : ∀ v : Json, v.Distinct → v.dedupe = v
  | .null, _ => rfl
  | .bool _, _ => rfl
  | .int _, _ => rfl
  | .float _, _ => rfl
  | .str _, _ => rfl
  | .list xs, h => by rw [Json.dedupe, dedupeList_of_distinct xs h]
  | .obj ms, h => by
      rw [Json.dedupe, dedupeMembers_of_distinct ms h.2, Dict.entries_ofPairs h.1]

theorem dedupeList_of_distinct : ∀ xs : List Json, DistinctElems xs → dedupeList xs = xs
  | [], _ => rfl
  | x :: xs, h => by rw [dedupeList, dedupe_of_distinct x h.1, dedupeList_of_distinct xs h.2]

theorem dedupeMembers_of_distinct : ∀ ms : List (Str × Json), DistinctMembers ms →
    dedupeMembers ms = ms
  | [], _ => rfl
  | (k, v) :: ms, h => by
      rw [dedupeMembers, dedupe_of_distinct v h.1, dedupeMembers_of_distinct ms h.2]

end

/-! ## Nesting -/

mutual

/-- The arrays and objects inside each other in a value. -/
def Json.depth : Json → Nat
  | .list xs => depthElems xs + 1
  | .obj ms => depthMembers ms + 1
  | _ => 0

def depthElems : List Json → Nat
  | [] => 0
  | x :: xs => max x.depth (depthElems xs)

def depthMembers : List (Str × Json) → Nat
  | [] => 0
  | (_, v) :: ms => max v.depth (depthMembers ms)

end

theorem depthElems_le_iff {n : Nat} : ∀ {xs : List Json}, depthElems xs ≤ n ↔ ∀ x ∈ xs, x.depth ≤ n
  | [] => by simp [depthElems]
  | x :: xs => by rw [depthElems, max_le_iff, depthElems_le_iff, List.forall_mem_cons]

theorem depthMembers_le_iff {n : Nat} : ∀ {ms : List (Str × Json)},
    depthMembers ms ≤ n ↔ ∀ m ∈ ms, m.2.depth ≤ n
  | [] => by simp [depthMembers]
  | (k, v) :: ms => by rw [depthMembers, max_le_iff, depthMembers_le_iff, List.forall_mem_cons]

/-- A number has no depth. -/
theorem depth_of_scanNumber {s rest : Str} {v : Json} (h : scanNumber s = some (v, rest)) :
    v.depth = 0 := by
  have hunsigned : ∀ {neg : Bool} {t : Str}, scanUnsigned neg t = some (v, rest) → v.depth = 0 := by
    intro neg t ht
    rw [scanUnsigned] at ht
    split at ht
    · cases ht
    · dsimp only at ht
      split at ht
      · split at ht
        · cases ht
        · cases ht
          rfl
      · cases ht
        rfl
  cases s with
  | nil => cases h
  | cons c s =>
      rw [scanNumber] at h
      split at h
      · exact hunsigned h
      · exact hunsigned h

/-- A constant has none either. -/
theorem depth_of_scanConstant {s rest : Str} {v : Json}
    (h : scanConstant s = some (v, rest)) : v.depth = 0 := by
  have hconstants : ∀ p ∈ constants, p.2.depth = 0 := by simp [constants, Json.depth]
  obtain ⟨p, hp, hv⟩ := Option.map_eq_some_iff.mp h
  obtain ⟨rfl, -⟩ := Prod.mk.inj hv
  exact hconstants p (List.mem_of_find?_eq_some hp)

section
variable {fuel : Nat}

/-- A value, by what its elements or members are. -/
theorem nestValue_of_scan (helems : ∀ {s xs rest}, scanElems fuel s = some (xs, rest) →
    nestElems fuel s = depthElems xs) (hmembers : ∀ {s ms rest}, scanMembers fuel s =
    some (ms, rest) → nestMembers fuel s = depthMembers ms)
    {s rest : Str} {v : Json} (h : scanValue (fuel + 1) s = some (v, rest)) :
    nestValue (fuel + 1) s = v.depth := by
  cases s with
  | nil => simp [scanValue] at h
  | cons c s =>
      rw [scanValue] at h
      rw [nestValue]
      by_cases hquote : c = chr '"'
      · rw [if_pos hquote] at h
        obtain ⟨p, -, hv⟩ := Option.map_eq_some_iff.mp h
        obtain ⟨rfl, -⟩ := Prod.mk.inj hv
        rw [if_neg (by rw [hquote]; decide), if_neg (by rw [hquote]; decide)]
        rfl
      rw [if_neg hquote] at h
      by_cases hbrace : c = chr '{'
      · rw [if_pos hbrace] at h ⊢
        split at h
        · cases h
        split at h
        · next hclose =>
          obtain ⟨rfl, -⟩ := Prod.mk.inj (Option.some.inj h)
          rw [if_pos hclose]
          rfl
        · next hclose =>
          obtain ⟨p, hp, hv⟩ := Option.map_eq_some_iff.mp h
          obtain ⟨rfl, -⟩ := Prod.mk.inj hv
          rw [if_neg hclose, hmembers hp]
          rfl
      rw [if_neg hbrace] at h ⊢
      by_cases hbracket : c = chr '['
      · rw [if_pos hbracket] at h ⊢
        split at h
        · cases h
        split at h
        · next hclose =>
          obtain ⟨rfl, -⟩ := Prod.mk.inj (Option.some.inj h)
          rw [if_pos hclose]
          rfl
        · next hclose =>
          obtain ⟨p, hp, hv⟩ := Option.map_eq_some_iff.mp h
          obtain ⟨rfl, -⟩ := Prod.mk.inj hv
          rw [if_neg hclose, helems hp]
          rfl
      rw [if_neg hbracket] at h ⊢
      rcases Option.or_eq_some_iff.mp h with hconstant | ⟨-, hnumber⟩
      · exact (depth_of_scanConstant hconstant).symm
      · exact (depth_of_scanNumber hnumber).symm

variable (hvalue : ∀ {s v rest}, scanValue fuel s = some (v, rest) → nestValue fuel s = v.depth)
include hvalue

/-- The elements of an array, by the first and the rest. -/
theorem nestElems_of_scan
    (helems : ∀ {s xs rest}, scanElems fuel s = some (xs, rest) → nestElems fuel s = depthElems xs)
    {s rest : Str} {xs : List Json} (h : scanElems (fuel + 1) s = some (xs, rest)) :
    nestElems (fuel + 1) s = depthElems xs := by
  rw [scanElems] at h
  rw [nestElems]
  split at h
  · cases h
  next v rest' hv =>
  split at h
  · cases h
  split at h
  · next hclose =>
    obtain ⟨rfl, -⟩ := Prod.mk.inj (Option.some.inj h)
    rw [if_neg (by rw [hclose]; decide), hvalue hv, depthElems, depthElems, Nat.max_zero]
  split at h
  · next hcomma =>
    obtain ⟨p, hp, hxs⟩ := Option.map_eq_some_iff.mp h
    obtain ⟨rfl, -⟩ := Prod.mk.inj hxs
    rw [if_pos hcomma, hvalue hv, helems hp, depthElems]
  · cases h

/-- The members of an object, likewise. -/
theorem nestMembers_of_scan
    (hmembers : ∀ {s ms rest}, scanMembers fuel s = some (ms, rest) → nestMembers fuel s =
      depthMembers ms)
    {s rest : Str} {ms : List (Str × Json)} (h : scanMembers (fuel + 1) s = some (ms, rest)) :
    nestMembers (fuel + 1) s = depthMembers ms := by
  cases s with
  | nil => simp [scanMembers] at h
  | cons q s =>
      rw [scanMembers] at h
      rw [nestMembers]
      split at h
      · cases h
      next hquote =>
      rw [if_neg hquote]
      split at h
      · cases h
      split at h
      · cases h
      split at h
      · cases h
      next hcolon =>
      rw [if_neg hcolon]
      split at h
      · cases h
      next v rest' hv =>
      split at h
      · cases h
      split at h
      · next hclose =>
        obtain ⟨rfl, -⟩ := Prod.mk.inj (Option.some.inj h)
        rw [if_neg (by rw [hclose]; decide), hvalue hv, depthMembers, depthMembers, Nat.max_zero]
      split at h
      · next hcomma =>
        obtain ⟨p, hp, hms⟩ := Option.map_eq_some_iff.mp h
        obtain ⟨rfl, -⟩ := Prod.mk.inj hms
        rw [if_pos hcomma, hvalue hv, hmembers hp, depthMembers]
      · cases h

end

/-- The scanner goes as deep as the value it returns. -/
theorem nest_of_scan (fuel : Nat) :
    (∀ {s v rest}, scanValue fuel s = some (v, rest) → nestValue fuel s = v.depth) ∧
    (∀ {s xs rest}, scanElems fuel s = some (xs, rest) → nestElems fuel s = depthElems xs) ∧
    (∀ {s ms rest}, scanMembers fuel s = some (ms, rest) → nestMembers fuel s =
      depthMembers ms) := by
  induction fuel with
  | zero =>
      refine ⟨fun h => ?_, fun h => ?_, fun h => ?_⟩
      · simp [scanValue] at h
      · simp [scanElems] at h
      · simp [scanMembers] at h
  | succ fuel ih =>
      obtain ⟨hvalue, helems, hmembers⟩ := ih
      exact ⟨nestValue_of_scan helems hmembers, nestElems_of_scan hvalue helems,
        nestMembers_of_scan hvalue hmembers⟩

/-- A text is as deep as the value it holds. -/
theorem scanDepth_eq {s : Str} {v : Json} (h : scanJson s = some v) : scanDepth s = v.depth := by
  rw [scanJson] at h
  split at h
  · next v' rest hscan =>
    split at h
    · obtain rfl := Option.some.inj h
      exact (nest_of_scan _).1 hscan
    · cases h
  · cases h

/-- A text that is refused counts up to where it is. -/
example : scanDepth (str "[[1], [[[\"") = 4 := by decide +kernel

/-- What `json.loads` returns of a text. -/
theorem loadsText_eq_ok_iff [Interp] {s : Str} {v : Json} :
    loadsText s = .ok v ↔ ∃ w, scanJson s = some w ∧ w.depth ≤ Interp.nesting ∧ w.dedupe = v := by
  rw [loadsText]
  cases hscan : scanJson s with
  | none => split <;> simp
  | some w =>
      rw [scanDepth_eq hscan]
      split
      · next hdeep => simp [Nat.not_le.mpr hdeep]
      · next hfits => simp [Nat.not_lt.mp hfits]

/-- A value without repeated keys is what `json.loads` returns of its text. -/
theorem loadsText_of_scanJson [Interp] {s : Str} {v : Json} (h : scanJson s = some v)
    (hd : v.Distinct) (hroom : v.depth ≤ Interp.nesting) : loadsText s = .ok v :=
  loadsText_eq_ok_iff.mpr ⟨v, h, hroom, dedupe_of_distinct v hd⟩

/-- `RecursionError` is raised of a text that goes too deep. -/
theorem loadsText_eq_recursionError_iff [Interp] {s : Str} :
    loadsText s = .error .recursionError ↔ Interp.nesting < scanDepth s := by
  rw [loadsText]
  split
  · next hdeep => simpa using hdeep
  · next hfits =>
    cases scanJson s <;> simpa using Nat.not_lt.mp hfits

/-- `RecursionError` is raised of the bytes that go too deep. -/
theorem loads_eq_recursionError_iff [Interp] {b : Bytes} :
    loads b = .error .recursionError ↔ TooDeep b := by
  rw [loads, TooDeep]
  cases decodeJsonBytes b with
  | none => simp
  | some s => simp [loadsText_eq_recursionError_iff]

/-! ## Characters -/

theorem compactElems_eq_map (esc : CodePoint → Str) : ∀ xs : List Json,
    compactElems esc xs = xs.map (compact esc)
  | [] => rfl
  | x :: xs => by rw [compactElems, compactElems_eq_map esc xs, List.map_cons]

theorem compactMembers_eq_map (esc : CodePoint → Str) : ∀ ms : List (Str × Json),
    compactMembers esc ms = ms.map fun m => quoted esc m.1 ++ chr ':' :: compact esc m.2
  | [] => rfl
  | (k, v) :: ms => by rw [compactMembers, compactMembers_eq_map esc ms, List.map_cons]

/-- What holds of a quoted text holds of the quotes and of the escapes. -/
theorem forall_mem_quoted {esc : CodePoint → Str} {Q : CodePoint → Prop} (hq : Q (chr '"'))
    {s : Str} : (∀ c ∈ quoted esc s, Q c) ↔ ∀ c ∈ s.flatMap esc, Q c := by
  rw [quoted, List.forall_mem_cons, List.forall_mem_append, List.forall_mem_singleton]
  simp only [hq, true_and, and_true]

/-- What holds of the printable ASCII characters holds of an integer's text. -/
theorem forall_mem_intText {Q : CodePoint → Prop} (hascii : ∀ c : CodePoint, 0x20 ≤ c.val →
    c.val ≤ 0x7E → Q c) (n : Int) : ∀ c ∈ intText n, Q c := by
  have hnat : ∀ m, ∀ c ∈ natText m, Q c := by
    intro m c hc
    have hrange := digit_range (isDigit_of_mem_natText hc)
    exact hascii c (by omega) (by omega)
  intro c hc
  rw [intText] at hc
  split at hc
  · rcases List.mem_append.mp hc with h | h
    · obtain rfl : c = chr '-' := by simpa [str] using h
      exact hascii _ (by decide) (by decide)
    · exact hnat _ c h
  · exact hnat _ c hc

mutual

/-- A property that printable ASCII has holds of a value's whole text as soon as it
holds of the escapes in it. -/
theorem forall_mem_compact {esc : CodePoint → Str} {Q : CodePoint → Prop} {K P : Str → Prop}
    {I : Int → Prop} (hascii : ∀ c : CodePoint, 0x20 ≤ c.val → c.val ≤ 0x7E → Q c) :
    ∀ v : Json, v.Plain K P I → ((∀ c ∈ compact esc v, Q c) ↔
      v.Plain (fun s => ∀ c ∈ s.flatMap esc, Q c) (fun s => ∀ c ∈ s.flatMap esc, Q c)
        (fun _ => True))
  | .null, h => h.elim
  | .float _, h => h.elim
  | .bool b, _ => by
      refine iff_of_true ?_ trivial
      intro c hc
      have hall : (compact esc (.bool b)).all fun c => 0x20 ≤ c.val && c.val ≤ 0x7E := by
        cases b <;> rfl
      have hrange := List.all_eq_true.mp hall c hc
      simp only [Bool.and_eq_true, decide_eq_true_eq] at hrange
      exact hascii c hrange.1 hrange.2
  | .int n, _ => iff_of_true (forall_mem_intText hascii n) trivial
  | .str s, _ => by
      rw [compact, Json.Plain, forall_mem_quoted (hascii _ (by decide) (by decide))]
  | .list xs, h => by
      have h1 := hascii (chr '[') (by decide) (by decide)
      have h2 := hascii (chr ']') (by decide) (by decide)
      have hsep : ∀ c ∈ str ",", Q c := by
        intro c hc
        obtain rfl : c = chr ',' := by simpa [str] using hc
        exact hascii _ (by decide) (by decide)
      rw [compact, Json.Plain, ← forall_mem_compactElems hascii xs h, ← forall_mem_join hsep _]
      simp only [List.forall_mem_cons, List.forall_mem_append, List.not_mem_nil, false_implies,
        implies_true, h1, h2, true_and, and_true]
  | .obj ms, h => by
      have h1 := hascii (chr '{') (by decide) (by decide)
      have h2 := hascii (chr '}') (by decide) (by decide)
      have hsep : ∀ c ∈ str ",", Q c := by
        intro c hc
        obtain rfl : c = chr ',' := by simpa [str] using hc
        exact hascii _ (by decide) (by decide)
      rw [compact, Json.Plain, ← forall_mem_compactMembers hascii ms h, ← forall_mem_join hsep _]
      simp only [List.forall_mem_cons, List.forall_mem_append, List.not_mem_nil, false_implies,
        implies_true, h1, h2, true_and, and_true]

theorem forall_mem_compactElems {esc : CodePoint → Str} {Q : CodePoint → Prop} {K P : Str → Prop}
    {I : Int → Prop} (hascii : ∀ c : CodePoint, 0x20 ≤ c.val → c.val ≤ 0x7E → Q c) :
    ∀ xs : List Json, PlainElems K P I xs → ((∀ p ∈ compactElems esc xs, ∀ c ∈ p, Q c) ↔
      PlainElems (fun s => ∀ c ∈ s.flatMap esc, Q c) (fun s => ∀ c ∈ s.flatMap esc, Q c)
        (fun _ => True) xs)
  | [], _ => by simp [compactElems, PlainElems]
  | x :: xs, h => by
      rw [compactElems, PlainElems, List.forall_mem_cons, forall_mem_compact hascii x h.1,
        forall_mem_compactElems hascii xs h.2]

theorem forall_mem_compactMembers {esc : CodePoint → Str} {Q : CodePoint → Prop} {K P : Str → Prop}
    {I : Int → Prop} (hascii : ∀ c : CodePoint, 0x20 ≤ c.val → c.val ≤ 0x7E → Q c) :
    ∀ ms : List (Str × Json), PlainMembers K P I ms →
      ((∀ p ∈ compactMembers esc ms, ∀ c ∈ p, Q c) ↔
        PlainMembers (fun s => ∀ c ∈ s.flatMap esc, Q c) (fun s => ∀ c ∈ s.flatMap esc, Q c)
          (fun _ => True) ms)
  | [], _ => by simp [compactMembers, PlainMembers]
  | (k, v) :: ms, h => by
      have hc := hascii (chr ':') (by decide) (by decide)
      rw [compactMembers, PlainMembers, List.forall_mem_cons, List.forall_mem_append,
        List.forall_mem_cons, forall_mem_compact hascii v h.2.1,
        forall_mem_compactMembers hascii ms h.2.2,
        forall_mem_quoted (hascii _ (by decide) (by decide))]
      simp only [hc, true_and, and_assoc]

end

/-! ## Bytes -/

/-- A text with another first byte does not begin with the prefix. -/
theorem isPrefixOf_eq_false {x : UInt8} {p b : Bytes} (h : ∀ y ∈ b.head?, y ≠ x) :
    (x :: p).isPrefixOf b = false := by
  cases b with
  | nil => rfl
  | cons y b =>
      have hne : (x == y) = false := beq_eq_false_iff_ne.mpr (Ne.symm (h y rfl))
      rw [List.isPrefixOf_cons_cons, hne, Bool.false_and]

/-- Bytes without a zero and without a byte order mark are read as UTF-8. -/
theorem decodeJsonBytes_eq {b : Bytes} (hz : ∀ x ∈ b, x ≠ 0)
    (hhead : ∀ x ∈ b.head?, x.toNat < 0x80) : decodeJsonBytes b = utf8Decode b := by
  have hzero : ∀ x ∈ b.head?, x ≠ 0 := fun x hx => hz x (List.mem_of_mem_head? hx)
  have hbom : ∀ m : UInt8, 0x80 ≤ m.toNat → ∀ x ∈ b.head?, x ≠ m := by
    rintro m hm x hx rfl
    exact absurd (hhead x hx) (Nat.not_lt.mpr hm)
  simp only [decodeJsonBytes, isPrefixOf_eq_false hzero,
    isPrefixOf_eq_false (hbom 0xFF (by decide)), isPrefixOf_eq_false (hbom 0xFE (by decide)),
    isPrefixOf_eq_false (hbom 0xEF (by decide)), Bool.false_eq_true, if_false]
  match b with
  | [] | [_] | [_, _, _] => rfl
  | [b₀, b₁] => simp only [if_neg (hz b₀ (by simp)), if_neg (hz b₁ (by simp))]
  | b₀ :: b₁ :: _ :: _ :: _ => simp only [if_neg (hz b₀ (by simp)), if_neg (hz b₁ (by simp))]

/-! ## `dumps` -/

/-- A character `json.dumps` writes. -/
def Printable (c : CodePoint) : Prop := 0x20 ≤ c.val ∧ c.val ≤ 0x7E

instance : DecidablePred Printable := fun c => inferInstanceAs
    (Decidable (0x20 ≤ c.val ∧ c.val ≤ 0x7E))

theorem printable_hexDigit (d : Nat) : Printable (hexDigit d) := by
  rw [hexDigit, Printable]
  split <;> simp <;> omega

theorem isSurrogate_of_ascii {c : CodePoint} (h : c.val < 0x80) : isSurrogate c = false := by
  rw [isSurrogate, Bool.and_eq_false_iff]
  exact Or.inl (by simp; omega)

/-- A digest's text has no surrogate. -/
theorem isSurrogate_sha256Hex (b : Bytes) : ∀ c ∈ sha256Hex b, isSurrogate c = false := by
  intro c hc
  simp only [sha256Hex, List.mem_flatMap, List.mem_map] at hc
  obtain ⟨_, _, _, _, rfl⟩ := hc
  refine isSurrogate_of_ascii ?_
  rw [hexDigit]
  split <;> simp <;> omega

theorem printable_unitEscape (u : Nat) : ∀ c ∈ unitEscape u, Printable c := by
  simp only [unitEscape, List.forall_mem_cons]
  exact ⟨by decide, by decide, printable_hexDigit _, printable_hexDigit _, printable_hexDigit _,
    printable_hexDigit _, by simp⟩

theorem printable_letterEscape {c : CodePoint} {e : Str} (h : letterEscape c = some e) :
    ∀ x ∈ e, Printable x := by
  have hall : e.all (fun x => 0x20 ≤ x.val && x.val ≤ 0x7E) = true := by
    unfold letterEscape at h
    repeat' split at h
    all_goals cases h
    all_goals rfl
  intro x hx
  simpa [Printable] using List.all_eq_true.mp hall x hx

/-- The escape of any character is printable. -/
theorem printable_asciiEscape (c : CodePoint) : ∀ x ∈ asciiEscape c, Printable x := by
  unfold asciiEscape
  cases hc : letterEscape c with
  | some e => exact printable_letterEscape hc
  | none =>
      dsimp only
      split
      · next h => exact List.forall_mem_singleton.mpr h
      split
      · exact printable_unitEscape _
      · rw [List.forall_mem_append]
        exact ⟨printable_unitEscape _, printable_unitEscape _⟩

/-- What `json.dumps` gives is printable. -/
theorem printable_dumps {K P : Str → Prop} {I : Int → Prop} {v : Json} (hv : v.Plain K P I) :
    ∀ c ∈ dumps v, Printable c := by
  have hesc : ∀ s : Str, ∀ c ∈ s.flatMap asciiEscape, Printable c := by
    intro s c hc
    obtain ⟨x, -, hx⟩ := List.mem_flatMap.mp hc
    exact printable_asciiEscape x c hx
  exact (forall_mem_compact (fun c h h' => ⟨h, h'⟩) v hv).mpr
    (hv.mono (fun s _ => hesc s) (fun s _ => hesc s) fun _ _ => trivial)

/-- A text of a database: no unpaired surrogate. -/
def Paired (s : Str) : Prop := ∀ c ∈ s, isSurrogate c = false

/-- What `json.dumps` writes of a value whose strings read back is read back by `json.loads`. -/
theorem loads_dumps_of_reads [Interp] {v : Json} (hv : v.ReadsBack asciiEscape) (hd : v.Distinct)
    (hroom : v.depth ≤ Interp.nesting) : ∃ b, utf8Encode (dumps v) = some b ∧ loads b = .ok v := by
  have hchars := printable_dumps hv
  obtain ⟨b, hb⟩ := utf8Encode_isSome (s := dumps v) fun c hc => by
    have := hchars c hc
    rw [isSurrogate, Bool.and_eq_false_iff]
    exact .inl (by simp; have := this.2; omega)
  have hbytes : b = (dumps v).map fun c => UInt8.ofNat c.val :=
    utf8Encode_ascii hb fun c hc => (hchars c hc).2
  have hz : ∀ x ∈ b, x ≠ 0 := utf8Encode_ne_zero hb fun c hc => by
    have := (hchars c hc).1
    omega
  have hhead : ∀ x ∈ b.head?, x.toNat < 0x80 := by
    intro x hx
    rw [hbytes] at hx
    obtain ⟨c, hc, rfl⟩ := List.mem_map.mp (List.mem_of_mem_head? hx)
    have := (hchars c hc).2
    rw [toNat_ofNat_byte (by omega)]
    omega
  refine ⟨b, hb, ?_⟩
  rw [loads, decodeJsonBytes_eq hz hhead, utf8Decode_encode hb]
  exact loadsText_of_scanJson (scanJson_compact hv) hd hroom

/-- A value whose texts have no unpaired surrogate and whose numbers are short reads back. -/
theorem readsBack_of_plain {v : Json} (hv : v.Plain Paired Paired fun n => n.natAbs <
    10 ^ maxStrDigits) : v.ReadsBack asciiEscape := by
  have hreads : ∀ s, Paired s → ReadsText asciiEscape s := fun s h =>
    readsText_of_reads fun c hc => reads_asciiEscape (h c hc)
  exact hv.mono hreads hreads fun _ h => h

/-- **Round trip.** What `json.dumps` writes of a value is read back by `json.loads`. -/
theorem loads_dumps [Interp] {v : Json} (hv : v.Plain Paired Paired fun n => n.natAbs <
    10 ^ maxStrDigits) (hd : v.Distinct) (hroom : v.depth ≤ Interp.nesting) :
    ∃ b, utf8Encode (dumps v) = some b ∧ loads b = .ok v :=
  loads_dumps_of_reads (readsBack_of_plain hv) hd hroom

/-- The same of the text itself. -/
theorem loadsText_dumps [Interp] {v : Json} (hv : v.Plain Paired Paired fun n => n.natAbs <
    10 ^ maxStrDigits) (hd : v.Distinct) (hroom : v.depth ≤ Interp.nesting) :
    loadsText (dumps v) = .ok v :=
  loadsText_of_scanJson (scanJson_compact (readsBack_of_plain hv)) hd hroom

end BeSdk
