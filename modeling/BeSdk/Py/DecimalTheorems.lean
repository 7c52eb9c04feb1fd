/-
BeSdk.Py.DecimalTheorems — what the constructor does with a text the protocol calls
a decimal.

Such a text is ASCII without white space or underscores, so reading it as a number
and the C implementation's own reading see the same text (`decimalOf_of_fullmatch`).
Comparison of finite decimals is comparison of their values.
-/
import BeSdk.Py.Decimal
import Mathlib.Data.List.TakeWhile

namespace BeSdk

/-! ## The characters of a number -/

def isDecimalChar (c : CodePoint) : Bool :=
  isDigit c || c = chr '+' || c = chr '-' || c = chr '.' || c = chr 'e' || c = chr 'E'

theorem takeSign_eq (s : Str) : s = (takeSign s).1.toList ++ (takeSign s).2 := by
  cases s with
  | nil => rfl
  | cons c s => rw [takeSign]; split <;> rfl

theorem mem_takeSign {s : Str} {c : CodePoint} (h : c ∈ (takeSign s).1) :
    isDecimalChar c = true := by
  cases s with
  | nil => cases h
  | cons d s =>
      rw [takeSign] at h
      split at h
      · next hd =>
          obtain rfl := Option.some.inj h
          rcases hd with rfl | rfl <;> rfl
      · cases h

/-- The characters before the rest are the sign's. -/
theorem decimalChar_of_takeSign {s : Str} (h : ∀ c ∈ (takeSign s).2, isDecimalChar c = true) :
    ∀ c ∈ s, isDecimalChar c = true := by
  intro c hc
  rw [takeSign_eq s, List.mem_append, Option.mem_toList] at hc
  exact hc.elim mem_takeSign (h c)

theorem decimalChar_of_dropWhile {s : Str}
    (h : ∀ c ∈ s.dropWhile isDigit, isDecimalChar c = true) : ∀ c ∈ s, isDecimalChar c = true := by
  intro c hc
  rw [← List.takeWhile_append_dropWhile (p := isDigit) (l := s), List.mem_append] at hc
  refine hc.elim (fun hd => ?_) (h c)
  rw [isDecimalChar, List.mem_takeWhile_imp hd]
  rfl

theorem decimalChar_of_scanPoint {s : Str}
    (h : ∀ c ∈ (scanPoint s).2.2, isDecimalChar c = true) : ∀ c ∈ s, isDecimalChar c = true := by
  cases s with
  | nil => simp
  | cons d s =>
      rw [scanPoint] at h
      split at h
      · next hd =>
          rw [List.forall_mem_cons]
          exact ⟨by rw [hd]; rfl, decimalChar_of_dropWhile h⟩
      · exact h

theorem decimalChar_of_scanDecimal {s : Str} {p : DecimalText} (h : scanDecimal s = some p) :
    ∀ c ∈ s, isDecimalChar c = true := by
  refine decimalChar_of_takeSign (decimalChar_of_dropWhile (decimalChar_of_scanPoint ?_))
  rw [scanDecimal] at h
  dsimp only at h
  split at h
  · next hrest => rw [hrest]; simp
  · next c rest hrest =>
      split at h
      · next he =>
          split at h
          · next hnil =>
              rw [hrest, List.forall_mem_cons]
              refine ⟨by rcases he with rfl | rfl <;> rfl, ?_⟩
              refine decimalChar_of_takeSign (decimalChar_of_dropWhile ?_)
              rw [hnil]
              simp
          · cases h
      · cases h

/-- A character of a number is ASCII, not white space and not an underscore. -/
theorem isDecimalChar_ascii {c : CodePoint} (h : isDecimalChar c = true) :
    c.val ≤ 127 ∧ isSpace c = false ∧ c ≠ chr '_' := by
  have hval : 0x2B ≤ c.val ∧ c.val ≤ 0x65 ∧ c.val ≠ 0x5F := by
    simp only [isDecimalChar, Bool.or_eq_true, decide_eq_true_eq] at h
    rcases h with ((((hd | rfl) | rfl) | rfl) | rfl) | rfl
    · have := digit_range hd
      omega
    all_goals decide
  refine ⟨by omega, ?_, fun hc => hval.2.2 (by rw [hc]; rfl)⟩
  simp only [isSpace, Bool.or_eq_false_iff, Bool.and_eq_false_iff, decide_eq_false_iff_not,
    beq_eq_false_iff_ne]
  omega

theorem dropWhile_eq_self {α : Type} {p : α → Bool} : ∀ {l : List α}, (∀ a ∈ l, p a = false) →
    l.dropWhile p = l
  | [], _ => rfl
  | a :: l, h => by rw [List.dropWhile_cons_of_neg (by simp [h a])]

theorem mapM_some {α β : Type} {f : α → Option β} {g : α → β} : ∀ {l : List α},
    (∀ a ∈ l, f a = some (g a)) → l.mapM f = some (l.map g)
  | [], _ => rfl
  | a :: l, h => by
      rw [List.forall_mem_cons] at h
      simp [h.1, mapM_some h.2]

/-! ## The constructor -/

theorem numericAsAscii_eq [Interp] {s : Str} (h : ∀ c ∈ s, isDecimalChar c = true) :
    numericAsAscii s = s := by
  have hspace : ∀ c ∈ s, isSpace c = false := fun c hc => (isDecimalChar_ascii (h c hc)).2.1
  have hstrip : Str.strip s = s := by
    rw [Str.strip, dropWhile_eq_self hspace,
      dropWhile_eq_self fun c hc => hspace c (List.mem_reverse.mp hc), List.reverse_reverse]
  have hunder : s.filter (fun c => c ≠ chr '_') = s :=
    List.filter_eq_self.mpr fun c hc => by simpa using (isDecimalChar_ascii (h c hc)).2.2
  rw [numericAsAscii]
  simp only [hstrip, hunder]
  rw [mapM_some (g := id) fun c hc => by rw [if_pos (isDecimalChar_ascii (h c hc)).1]; rfl]
  simp

/-- A number's text is made of the characters of decimals. -/
theorem decimalChar_of_fullmatch {s : Str} (h : decimalFullmatch s = true) :
    ∀ c ∈ s, isDecimalChar c = true := by
  rw [decimalFullmatch] at h
  cases hp : scanDecimal s with
  | none => simp [hp] at h
  | some p => exact decimalChar_of_scanDecimal hp

/-- The constructor on a number's text: the number, if it fits. -/
theorem decimalOf_of_fullmatch [Interp] {s : Str} (h : decimalFullmatch s = true) {d : Dec}
    (hd : readDecimal s = some d) :
    decimalOf s = if d.fits then .ok (.finite d) else .error .invalidOperation := by
  rw [decimalOf, numericAsAscii_eq (decimalChar_of_fullmatch h), decimalOfAscii, hd]

end BeSdk
