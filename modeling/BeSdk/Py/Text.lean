/-
BeSdk.Py.Text — Python's text and bytes.

A Python `str` is a sequence of code points, unpaired surrogates included: the
JSON decoder can produce them and the UTF-8 encoder refuses them, so a model
over Lean's `String` could not state either. `Str` is therefore a list of
numbers below `0x110000`. `str "…"` writes a literal.

`Interp` collects the parts of the interpreter that are not code: Unicode
normalization, digit values, and how deep `json.loads` goes. The definitions that use
them take an `Interp` as an instance argument, so every theorem holds of whatever
tables the interpreter ships and whatever is left of its stack.
-/
import Mathlib.Data.List.Sort
import Mathlib.Data.List.Dedup
import Mathlib.Data.Nat.Digits.Defs
import Mathlib.Data.Fin.Basic
import Mathlib.Order.Defs.LinearOrder
import Mathlib.Data.List.Lex

namespace BeSdk

/-- A Unicode code point, surrogates included. -/
abbrev CodePoint := Fin 0x110000

/-- Python's `str`. -/
abbrev Str := List CodePoint

/-- Python's `bytes`. -/
abbrev Bytes := List UInt8

/-! What definitions over texts need of their types, by name. -/

instance CodePoint.neZero : NeZero 0x110000 := ⟨by decide⟩
instance CodePoint.lawfulBEq : LawfulBEq CodePoint := inferInstance
instance Str.lawfulBEq : LawfulBEq Str := inferInstance

/-- A capital ASCII letter has a small one. -/
theorem CodePoint.lower_lt {c : CodePoint} (h : 0x41 ≤ c.val ∧ c.val ≤ 0x5A) :
    c.val + 0x20 < 0x110000 := by omega

/-- The code point of a character. -/
def chr (c : Char) : CodePoint :=
  ⟨c.toNat, by
    have h := c.valid
    simp only [UInt32.isValidChar, Nat.isValidChar] at h
    simp only [Char.toNat]
    omega⟩

/-- A text literal. -/
def str (s : String) : Str := s.toList.map chr

theorem chr_injective : Function.Injective chr := by
  intro a b h
  have hval : (chr a).val = (chr b).val := by rw [h]
  exact Char.toNat_inj.mp hval

/-- Text literals are compared as they are written. -/
theorem str_inj {s t : String} : str s = str t ↔ s = t := by
  rw [str, str, (List.map_injective_iff.mpr chr_injective).eq_iff, String.toList_inj]

theorem str_eq_nil_iff {s : String} : str s = [] ↔ s = "" := by
  rw [str, List.map_eq_nil_iff, String.toList_eq_nil_iff]

/-- The interpreter: `unicodedata.normalize("NFC", s)`, the decimal value of a non-ASCII
digit, and the arrays and objects inside each other that `json.loads` opens before it
raises `RecursionError`. What this protocol writes opens three. -/
class Interp where
  nfc : Str → Str
  toDecimal : CodePoint → Option (Fin 10)
  nesting : Nat
  room : 3 ≤ nesting

theorem three_le_thousand : 3 ≤ 1000 := by decide

/-- The tables on ASCII text, which normalization leaves alone. -/
abbrev Interp.ascii : Interp := ⟨id, fun _ => none, 1000, three_le_thousand⟩

/-! ## `str` methods -/

/-- `s.startswith(p)` -/
def Str.startsWith (s p : Str) : Bool := p.isPrefixOf s

theorem Str.startsWith_iff (s p : Str) : Str.startsWith s p = true ↔ ∃ t, s = p ++ t := by
  rw [Str.startsWith, List.isPrefixOf_iff_prefix]
  exact exists_congr fun t => eq_comm

/-- A text is cut at the first of a character in one way. -/
theorem Str.append_cons_inj {c : CodePoint} :
    ∀ {x y s t : Str}, c ∉ x → c ∉ y → x ++ c :: s = y ++ c :: t →
    x = y ∧ s = t
  | [], [], _, _, _, _, h => ⟨rfl, (List.cons.inj h).2⟩
  | [], _ :: _, _, _, _, hy, h => absurd ((List.cons.inj h).1 ▸ List.mem_cons_self ..) hy
  | _ :: _, [], _, _, hx, _, h => absurd ((List.cons.inj h).1 ▸ List.mem_cons_self ..) hx
  | _ :: _, _ :: _, _, _, hx, hy, h => by
      rw [List.mem_cons, not_or] at hx hy
      obtain ⟨rfl, hrest⟩ := List.cons.inj h
      obtain ⟨rfl, hst⟩ := Str.append_cons_inj hx.2 hy.2 hrest
      exact ⟨rfl, hst⟩

/-- `s.replace(c, t)` for a one-character `c`. -/
def Str.replace (s : Str) (c : CodePoint) (t : Str) : Str :=
  s.flatMap fun x => if x = c then t else [x]

theorem Str.replace_append (s t : Str) (c : CodePoint) (u : Str) :
    Str.replace (s ++ t) c u = Str.replace s c u ++ Str.replace t c u := List.flatMap_append ..

theorem Str.replace_cons_self (s : Str) (c : CodePoint) (u : Str) :
    Str.replace (c :: s) c u = u ++ Str.replace s c u := by
  rw [Str.replace, List.flatMap_cons, if_pos rfl]
  rfl

/-- Replacing what does not occur changes nothing. -/
theorem Str.replace_of_not_mem {s : Str} {c : CodePoint} (h : c ∉ s) (u : Str) :
    Str.replace s c u = s := by
  induction s with
  | nil => rfl
  | cons x s ih =>
      rw [List.mem_cons, not_or] at h
      have hx : x ≠ c := fun heq => h.1 heq.symm
      rw [Str.replace, List.flatMap_cons, if_neg hx]
      show x :: Str.replace s c u = x :: s
      rw [ih h.2]

/-- The text before the first `sep` and the text after it, `s[:i]` and `s[i + len(sep):]`
with `i = s.find(sep)`. -/
def Str.cut (s sep : Str) : Option (Str × Str) :=
  if sep.isPrefixOf s then some ([], s.drop sep.length)
  else
    match s with
    | [] => none
    | c :: s => (Str.cut s sep).map fun x => (c :: x.1, x.2)

/-- `str.isspace` on one code point. -/
def isSpace (c : CodePoint) : Bool :=
  (9 ≤ c.val && c.val ≤ 13) || (28 ≤ c.val && c.val ≤ 32) || c.val == 0x85 || c.val == 0xA0 ||
  c.val == 0x1680 || (0x2000 ≤ c.val && c.val ≤ 0x200A) || c.val == 0x2028 || c.val == 0x2029 ||
  c.val == 0x202F || c.val == 0x205F || c.val == 0x3000

/-- `s.strip()` -/
def Str.strip (s : Str) : Str := ((s.dropWhile isSpace).reverse.dropWhile isSpace).reverse

/-- The words of `s.split()`; `word` is the word being read, reversed. -/
def Str.splitGo : Str → Str → List Str
  | word, [] => if word.isEmpty then [] else [word.reverse]
  | word, c :: rest =>
      if isSpace c then
        if word.isEmpty then Str.splitGo [] rest else word.reverse :: Str.splitGo [] rest
      else Str.splitGo (c :: word) rest

/-- `s.split()` -/
def Str.split (s : Str) : List Str := Str.splitGo [] s

/-- `sep.join(parts)` -/
def Str.join (sep : Str) : List Str → Str
  | [] => []
  | [p] => p
  | p :: ps => p ++ sep ++ Str.join sep ps

theorem forall_mem_join {P : CodePoint → Prop} {sep : Str} (hsep : ∀ c ∈ sep, P c) :
    ∀ parts : List Str, (∀ c ∈ Str.join sep parts, P c) ↔ ∀ p ∈ parts, ∀ c ∈ p, P c
  | [] => by simp [Str.join]
  | [p] => by simp [Str.join]
  | p :: q :: ps => by
      have ih := forall_mem_join hsep (q :: ps)
      simp only [Str.join, List.forall_mem_append, List.forall_mem_cons, ih] at *
      exact ⟨fun h => ⟨h.1.1, h.2⟩, fun h => ⟨⟨h.1, hsep⟩, h.2⟩⟩

example : Str.join (str " ") (Str.split (str "  a  bc ")) = str "a bc" := by decide

/-! ## Digits -/

/-- The value of an ASCII digit. -/
def digitVal (c : CodePoint) : Option Nat :=
  if 0x30 ≤ c.val ∧ c.val ≤ 0x39 then some (c.val - 0x30) else none

def isDigit (c : CodePoint) : Bool := (digitVal c).isSome

theorem digit_range {c : CodePoint} (h : isDigit c = true) : 0x30 ≤ c.val ∧ c.val ≤ 0x39 := by
  by_contra hn
  simp [isDigit, digitVal, hn] at h

/-- The number a run of ASCII digits denotes. -/
def digitsVal (s : Str) : Nat := s.foldl (fun n c => 10 * n + (digitVal c).getD 0) 0

/-- The code point of a digit below ten. -/
def digitChr (d : Nat) : CodePoint := ⟨0x30 + d % 10, by omega⟩

/-- `str(n)` of a natural number. -/
def natText (n : Nat) : Str :=
  if n = 0 then str "0" else (Nat.digits 10 n).reverse.map digitChr

/-- `str(n)` of an integer. -/
def intText (n : Int) : Str :=
  if n < 0 then str "-" ++ natText n.natAbs else natText n.natAbs

/-! ## Sets and sorting -/

/-- `sorted(set(xs))` -/
def sortedSet {α : Type} [DecidableEq α] (le : α → α → Prop) [DecidableRel le] (xs : List α) :
    List α :=
  xs.dedup.insertionSort le

theorem mem_sortedSet {α : Type} [DecidableEq α] (le : α → α → Prop) [DecidableRel le]
    (xs : List α) (x : α) : x ∈ sortedSet le xs ↔ x ∈ xs := by
  simp [sortedSet]

/-- The sorted list of a set depends on the set alone. -/
theorem sortedSet_congr {α : Type} [DecidableEq α] (le : α → α → Prop) [DecidableRel le]
    [Std.Total le] [IsTrans α le] [Std.Antisymm le] {xs ys : List α} (h : ∀ x, x ∈ xs ↔ x ∈ ys) :
    sortedSet le xs = sortedSet le ys := by
  have hperm : (xs.dedup.insertionSort le).Perm (ys.dedup.insertionSort le) :=
    ((List.perm_insertionSort le _).trans
      ((List.perm_ext_iff_of_nodup (List.nodup_dedup _) (List.nodup_dedup _)).mpr
        (by intro x; simp [h]))).trans (List.perm_insertionSort le _).symm
  exact hperm.eq_of_pairwise' (List.pairwise_insertionSort le _) (List.pairwise_insertionSort le _)

end BeSdk
