/-
BeSdk.Py.Surrogates — what becomes of a text that a JSON string carries.

`json.dumps` writes a code point beyond the basic plane as the escapes of two
surrogates, and `json.loads` joins two such escapes that stand together. A Python text
may hold the two surrogates as code points of their own, and these are written the same
way (`flatMap_joinPairs`). So a text comes back with its pairs joined, and comes back as
it was exactly where it has none (`joinPairs_eq_self_iff`).
-/
import BeSdk.Py.JsonTheorems
import Mathlib.Data.List.Chain

namespace BeSdk

/-- A text as a JSON string brings it back: each high surrogate joined with the low one
behind it. -/
def joinPairs : Str → Str
  | c :: d :: rest =>
      if isHighSurrogate c.val && isLowSurrogate d.val then joinSurrogates c.val d.val ::
        joinPairs rest
      else c :: joinPairs (d :: rest)
  | s => s

/-- No high surrogate stands before a low one. -/
def Unsplit (s : Str) : Prop :=
  s.IsChain fun c d => (isHighSurrogate c.val && isLowSurrogate d.val) = false

/-! ## Surrogates -/

theorem isSurrogate_of_high {c : CodePoint} (h : isHighSurrogate c.val = true) :
    isSurrogate c = true := by
  simp only [isHighSurrogate, isSurrogate, Bool.and_eq_true, decide_eq_true_eq] at h ⊢
  omega

theorem isSurrogate_of_low {c : CodePoint} (h : isLowSurrogate c.val = true) :
    isSurrogate c = true := by
  simp only [isLowSurrogate, isSurrogate, Bool.and_eq_true, decide_eq_true_eq] at h ⊢
  omega

section
variable {u v : Nat} (hu : isHighSurrogate u = true) (hv : isLowSurrogate v = true)
include hu hv

/-- The code point of a pair, and the pair of that code point. -/
theorem joinSurrogates_val : (joinSurrogates u v).val = 0x10000 + (u - 0xD800) * 0x400 +
    (v - 0xDC00) := by
  simp only [isHighSurrogate, isLowSurrogate, Bool.and_eq_true, decide_eq_true_eq] at hu hv
  rw [joinSurrogates, Fin.val_ofNat, Nat.mod_eq_of_lt]
  omega

theorem asciiEscape_join : asciiEscape (joinSurrogates u v) = unitEscape u ++ unitEscape v := by
  have hval := joinSurrogates_val hu hv
  simp only [isHighSurrogate, isLowSurrogate, Bool.and_eq_true, decide_eq_true_eq] at hu hv
  have hletter : letterEscape (joinSurrogates u v) = none := by
    have hne : ∀ c : CodePoint, c.val < 0x10000 → joinSurrogates u v ≠ c := by
      intro c hc h
      rw [h] at hval
      omega
    unfold letterEscape
    rw [if_neg (hne _ (by decide)), if_neg (hne _ (by decide)), if_neg (hne _ (by decide)),
      if_neg (hne _ (by decide)), if_neg (hne _ (by decide)), if_neg (hne _ (by decide)),
      if_neg (hne _ (by decide))]
  have hhigh : 0xD800 + ((joinSurrogates u v).val - 0x10000) / 0x400 = u := by omega
  have hlow : 0xDC00 + ((joinSurrogates u v).val - 0x10000) % 0x400 = v := by omega
  rw [asciiEscape, hletter]
  simp only
  rw [if_neg (by omega), if_neg (by omega), hhigh, hlow]

theorem isSurrogate_join : isSurrogate (joinSurrogates u v) = false := by
  have hval := joinSurrogates_val hu hv
  simp only [isSurrogate, Bool.and_eq_false_iff, decide_eq_false_iff_not]
  omega

end

/-- A surrogate is escaped alone. -/
theorem asciiEscape_surrogate {c : CodePoint} (h : isSurrogate c = true) :
    asciiEscape c = unitEscape c.val := by
  simp only [isSurrogate, Bool.and_eq_true, decide_eq_true_eq] at h
  have hletter : letterEscape c = none := by
    have hne : ∀ d : CodePoint, d.val < 0xD800 → c ≠ d := by
      intro d hd heq
      rw [heq] at h
      omega
    unfold letterEscape
    rw [if_neg (hne _ (by decide)), if_neg (hne _ (by decide)), if_neg (hne _ (by decide)),
      if_neg (hne _ (by decide)), if_neg (hne _ (by decide)), if_neg (hne _ (by decide)),
      if_neg (hne _ (by decide))]
  rw [asciiEscape, hletter]
  simp only
  rw [if_neg (by omega), if_pos (by omega)]

/-! ## Joining -/

/-- A text is written as the text with its pairs joined. -/
theorem flatMap_joinPairs (s : Str) :
    (joinPairs s).flatMap asciiEscape = s.flatMap asciiEscape := by
  fun_induction joinPairs s with
  | case1 c d rest h ih =>
      obtain ⟨hc, hd⟩ := Bool.and_eq_true_iff.mp h
      simp only [List.flatMap_cons, ih, asciiEscape_join hc hd,
        asciiEscape_surrogate (isSurrogate_of_high hc),
        asciiEscape_surrogate (isSurrogate_of_low hd), List.append_assoc]
  | case2 c d rest h ih => rw [List.flatMap_cons, ih, ← List.flatMap_cons]
  | case3 s h => rfl

theorem length_joinPairs_le (s : Str) : (joinPairs s).length ≤ s.length := by
  fun_induction joinPairs s with
  | case1 c d rest h ih => simp only [List.length_cons]; omega
  | case2 c d rest h ih => simp only [List.length_cons] at ih ⊢; omega
  | case3 s h => exact le_rfl

/-- A text comes back as it was exactly where no pair stands in it. -/
theorem joinPairs_eq_self_iff (s : Str) : joinPairs s = s ↔ Unsplit s := by
  fun_induction joinPairs s with
  | case1 c d rest h ih =>
      constructor
      · intro heq
        have hlen := congrArg List.length heq
        have hle := length_joinPairs_le rest
        simp only [List.length_cons] at hlen
        omega
      · intro hs
        rw [Unsplit, List.isChain_cons_cons, h] at hs
        simp at hs
  | case2 c d rest h ih =>
      rw [Unsplit, List.isChain_cons_cons, List.cons.injEq, ih]
      simp [Unsplit, Bool.not_eq_true _ ▸ h]
  | case3 s h =>
      match s, h with
      | [], _ => simp [Unsplit]
      | [c], _ => simp [Unsplit]
      | c :: d :: rest, h => exact absurd rfl (h c d rest)

theorem unsplit_of_paired {s : Str} (h : Paired s) : Unsplit s := by
  induction s with
  | nil => exact List.isChain_nil
  | cons c rest ih =>
      have hrest : Unsplit rest := ih fun x hx => h x (List.mem_cons_of_mem _ hx)
      cases rest with
      | nil => exact List.isChain_singleton c
      | cons d rest =>
          refine List.isChain_cons_cons.mpr ⟨?_, hrest⟩
          cases hc : isHighSurrogate c.val with
          | false => rfl
          | true =>
              have hpaired := h c (by simp)
              rw [isSurrogate_of_high hc] at hpaired
              cases hpaired

/-- What stands first in a text with its pairs joined: no low surrogate where none stood
first. -/
theorem joinPairs_head (s : Str) : ∀ x ∈ (joinPairs s).head?, isLowSurrogate x.val = true →
    ∃ y ∈ s.head?, isLowSurrogate y.val = true := by
  intro x hx hlow
  cases s with
  | nil => simp [joinPairs] at hx
  | cons c rest =>
      cases rest with
      | nil => exact ⟨x, hx, hlow⟩
      | cons d rest =>
          rw [joinPairs] at hx
          split at hx
          · next h =>
            obtain ⟨hc, hd⟩ := Bool.and_eq_true_iff.mp h
            obtain rfl : joinSurrogates c.val d.val = x := by simpa using hx
            have hjoined := isSurrogate_of_low hlow
            rw [isSurrogate_join hc hd] at hjoined
            cases hjoined
          · obtain rfl : c = x := by simpa using hx
            exact ⟨c, rfl, hlow⟩

theorem unsplit_joinPairs (s : Str) : Unsplit (joinPairs s) := by
  fun_induction joinPairs s with
  | case1 c d rest h ih =>
      obtain ⟨hc, hd⟩ := Bool.and_eq_true_iff.mp h
      refine List.isChain_cons.mpr ⟨fun y _ => ?_, ih⟩
      cases hhigh : isHighSurrogate (joinSurrogates c.val d.val).val with
      | false => rfl
      | true =>
          have hpaired := isSurrogate_of_high hhigh
          rw [isSurrogate_join hc hd] at hpaired
          cases hpaired
  | case2 c d rest h ih =>
      refine List.isChain_cons.mpr ⟨fun y hy => ?_, ih⟩
      rw [Bool.and_eq_false_iff]
      by_contra hpair
      obtain ⟨hc, hlow⟩ := not_or.mp hpair
      obtain ⟨z, hz, hzlow⟩ := joinPairs_head (d :: rest) y hy (by simpa using hlow)
      obtain rfl : d = z := by simpa using hz
      exact h (by simpa using ⟨Bool.not_eq_false _ ▸ hc, hzlow⟩)
  | case3 s h =>
      match s, h with
      | [], _ => exact List.isChain_nil
      | [c], _ => exact List.isChain_singleton c
      | c :: d :: rest, h => exact absurd rfl (h c d rest)

/-! ## Reading back -/

/-- What does not begin with the escape of a low surrogate. -/
def NoLow (tail : Str) : Prop :=
  ∀ g1 g2 g3 g4 rest, tail = chr '\\' :: chr 'u' :: g1 :: g2 :: g3 :: g4 :: rest →
    ∃ v, hex4 g1 g2 g3 g4 = some v ∧ isLowSurrogate v.val = false

/-- A high surrogate is read alone where no low one follows. -/
theorem scanString_high {c : CodePoint} (hc : isHighSurrogate c.val = true)
    {tail : Str} (ht : NoLow tail) :
    scanString (unitEscape c.val ++ tail) = consRead c (scanString tail) := by
  have hlt : c.val < 0x10000 := by
    simp only [isHighSurrogate, Bool.and_eq_true, decide_eq_true_eq] at hc
    omega
  rw [unitEscape, scanString.eq_def]
  simp only [List.cons_append, List.nil_append, hex4_unitEscape hlt, hc, if_true]
  rw [if_neg (by decide)]
  split
  · next b w g1 g2 g3 g4 rest =>
    split
    · next hbw =>
      obtain ⟨rfl, rfl⟩ := hbw
      obtain ⟨v, hv, hlow⟩ := ht g1 g2 g3 g4 rest rfl
      rw [hv]
      simp only
      rw [if_neg (by simp [hlow])]
      rfl
    · rfl
  · rfl

theorem noLow_unitEscape {u : Nat} (hu : u < 0x10000) (hlow : isLowSurrogate u = false)
    (tail : Str) : NoLow (unitEscape u ++ tail) := by
  intro g1 g2 g3 g4 rest heq
  simp only [unitEscape, List.cons_append, List.nil_append, List.cons.injEq, true_and] at heq
  obtain ⟨rfl, rfl, rfl, rfl, -⟩ := heq
  exact ⟨⟨u, hu⟩, hex4_unitEscape hu, hlow⟩

theorem noLow_of_head {c : CodePoint} (hc : c ≠ chr '\\') (tail : Str) : NoLow (c :: tail) := by
  intro g1 g2 g3 g4 rest heq
  exact absurd (List.cons.inj heq).1 hc

/-- A letter's escape is none of a code unit. -/
theorem noLow_letterEscape {c : CodePoint} {e : Str} (h : letterEscape c = some e)
    (tail : Str) : NoLow (e ++ tail) := by
  have hsecond : e[1]? ≠ some (chr 'u') := by
    unfold letterEscape at h
    repeat' split at h
    all_goals cases h
    all_goals decide
  intro g1 g2 g3 g4 rest heq
  have hlen : 1 < e.length := by
    unfold letterEscape at h
    repeat' split at h
    all_goals cases h
    all_goals decide
  have hget := congrArg (fun s : Str => s[1]?) heq
  rw [List.getElem?_append_left hlen] at hget
  exact absurd hget hsecond

/-- What is written of a code point that is no low surrogate. -/
theorem noLow_asciiEscape {c : CodePoint} (hc : isLowSurrogate c.val = false) (tail : Str) :
    NoLow (asciiEscape c ++ tail) := by
  rw [asciiEscape]
  cases he : letterEscape c with
  | some e => exact noLow_letterEscape he tail
  | none =>
      simp only
      split
      · refine noLow_of_head ?_ tail
        rintro rfl
        revert he
        decide
      split
      · next hlt => exact noLow_unitEscape hlt hc tail
      · have hlt : c.val < 0x110000 := c.isLt
        rw [List.append_assoc]
        refine noLow_unitEscape (by omega) ?_ _
        simp only [isLowSurrogate, Bool.and_eq_false_iff, decide_eq_false_iff_not]
        omega

/-- A text without a pair in it is read back, surrogates that stand alone included. -/
theorem readsText_of_unsplit {s : Str} (h : Unsplit s) : ReadsText asciiEscape s := by
  intro tail
  induction s with
  | nil =>
      rw [List.flatMap_nil, List.nil_append, scanString.eq_def]
      simp
  | cons c rest ih =>
      have hrest := ih (List.isChain_cons.mp h).2
      rw [List.flatMap_cons, List.append_assoc]
      have hread : scanString (asciiEscape c ++ (rest.flatMap asciiEscape ++ chr '"' :: tail)) =
          consRead c (scanString (rest.flatMap asciiEscape ++ chr '"' :: tail)) := by
        cases hs : isSurrogate c with
        | false => exact reads_asciiEscape hs _
        | true =>
            have hlt : c.val < 0x10000 := by
              simp only [isSurrogate, Bool.and_eq_true, decide_eq_true_eq] at hs
              omega
            rw [asciiEscape_surrogate hs]
            cases hhigh : isHighSurrogate c.val with
            | false => exact scanString_unitEscape hlt hhigh _
            | true =>
                refine scanString_high hhigh ?_
                cases rest with
                | nil => exact noLow_of_head (by decide) _
                | cons d rest =>
                    have hlow := (List.isChain_cons_cons.mp h).1
                    rw [hhigh, Bool.true_and] at hlow
                    rw [List.flatMap_cons, List.append_assoc]
                    exact noLow_asciiEscape hlow _
      rw [hread, hrest]
      rfl

end BeSdk
