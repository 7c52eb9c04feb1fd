/-
BeSdk.MergeSafety.Paths — dotted names as lists of parts, and the rules on them.

The lint works on texts. A dotted name is read back from its text (`splitOn_text`), so
what `_check` does to a text is a statement about the parts: `Hits` says which names it
finds, and a name is forbidden, by a rule or under one, exactly when the name or one it
begins with is found (`forbidden_iff`).
-/
import BeSdk.MergeSafety

namespace BeSdk

/-! ## Joined texts -/

theorem join_eq_intercalate (c : CodePoint) : ∀ ps : List Str, Str.join [c] ps = [c].intercalate ps
  | [] => rfl
  | [p] => (List.intercalate_singleton).symm
  | p :: q :: ps => by
      rw [Str.join, join_eq_intercalate c (q :: ps), List.intercalate_cons_cons]
      simp

/-- Joined parts are read back. -/
theorem splitOn_join {c : CodePoint} {ps : List Str} (hne : ps ≠ []) (h : ∀ p ∈ ps, c ∉ p) :
    (Str.join [c] ps).splitOn c = ps := by
  rw [join_eq_intercalate, List.splitOn_intercalate c h hne]

theorem join_splitOn (c : CodePoint) (s : Str) : Str.join [c] (s.splitOn c) = s := by
  rw [join_eq_intercalate, List.intercalate_splitOn]

/-- The last part is joined behind the others. -/
theorem join_concat (sep : Str) {ps : List Str} (hne : ps ≠ []) (p : Str) :
    Str.join sep (ps ++ [p]) = Str.join sep ps ++ sep ++ p := by
  induction ps with
  | nil => exact absurd rfl hne
  | cons q rest ih =>
      cases rest with
      | nil => rfl
      | cons r rest =>
          have hleft : Str.join sep (q :: r :: rest ++ [p]) = q ++ sep ++
            Str.join sep (r :: rest ++ [p]) := rfl
          have hright : Str.join sep (q :: r :: rest) = q ++ sep ++ Str.join sep (r :: rest) := rfl
          rw [hleft, ih (by simp), hright]
          simp only [List.append_assoc]

namespace Py

/-! ## Dotted names -/

theorem Dotted.parts_ne_nil (d : Dotted) : d.parts ≠ [] := by simp [Dotted.parts]

theorem Dotted.not_mem_parts (d : Dotted) : ∀ p ∈ d.parts, chr '.' ∉ p := by
  intro p hp
  obtain ⟨id, -, rfl⟩ := List.mem_map.mp hp
  exact id.2.2

theorem splitOn_text (d : Dotted) : d.text.splitOn (chr '.') = d.parts :=
  splitOn_join d.parts_ne_nil d.not_mem_parts

theorem Dotted.parts_inj {d e : Dotted} : d.parts = e.parts ↔ d = e := by
  refine ⟨fun h => ?_, congrArg _⟩
  have hcons : d.head :: d.tail = e.head :: e.tail :=
    List.map_injective_iff.mpr Subtype.val_injective h
  cases d
  cases e
  simpa using hcons

/-- A dotted name is its text. -/
theorem Dotted.text_inj {d e : Dotted} : d.text = e.text ↔ d = e := by
  refine ⟨fun h => ?_, congrArg _⟩
  rw [← Dotted.parts_inj, ← splitOn_text, h, splitOn_text]

theorem Dotted.text_ne_nil (d : Dotted) : d.text ≠ [] := by
  intro h
  have hsplit := splitOn_text d
  rw [h] at hsplit
  have hhead : [] = d.head.val := (List.cons.inj (hsplit.trans rfl)).1
  exact d.head.2.1 hhead.symm

/-- A dotted name with more names behind it. -/
def Dotted.append (d : Dotted) (names : List Ident) : Dotted := ⟨d.head, d.tail ++ names⟩

@[simp] theorem Dotted.parts_append (d : Dotted) (names : List Ident) :
    (d.append names).parts = d.parts ++ names.map Subtype.val := by
  simp [Dotted.append, Dotted.parts]

@[simp] theorem Dotted.append_nil (d : Dotted) : d.append [] = d := by simp [Dotted.append]

theorem Dotted.append_append (d : Dotted) (names names' : List Ident) :
    (d.append names).append names' = d.append (names ++ names') := by simp [Dotted.append]

theorem Dotted.text_append (d : Dotted) (name : Ident) :
    (d.append [name]).text = d.text ++ str "." ++ name.val := by
  rw [Dotted.text, Dotted.parts_append, List.map_singleton, join_concat _ d.parts_ne_nil]
  rfl

end Py

namespace MergeSafety

open Py

/-! ## Rules on parts -/

/-- A rule, by the parts of its module and its attribute. -/
def IsRule (module : List Str) (attr : Str) : Prop :=
  ∃ r ∈ rules, r.1.1.splitOn (chr '.') = module ∧ r.1.2 = attr

/-- The names that `_check` finds: an attribute that a rule has for its module, or
anything in a module of one name under a rule for every attribute. -/
def Hits (p : List Str) : Prop :=
  (∃ module attr, p = module ++ [attr] ∧ (IsRule module attr ∨ IsRule module (str "*"))) ∨
    ∃ top x y rest, p = top :: x :: y :: rest ∧ IsRule [top] (str "*")

/-- A forbidden (module, attribute), or anything under it. -/
def Forbidden (p : List Str) : Prop :=
  ∃ module attr, (IsRule module attr ∨ IsRule module (str "*")) ∧ module ++ [attr] <+: p

theorem forbidden_of_hits {p : List Str} (h : Hits p) : Forbidden p := by
  rcases h with ⟨module, attr, rfl, hrule⟩ | ⟨top, x, y, rest, rfl, hrule⟩
  · exact ⟨module, attr, hrule, List.prefix_rfl⟩
  · exact ⟨[top], x, .inr hrule, y :: rest, rfl⟩

/-- What is forbidden begins with something that is found. -/
theorem forbidden_iff {p : List Str} : Forbidden p ↔ ∃ q, Hits q ∧ q <+: p := by
  constructor
  · rintro ⟨module, attr, hrule, hprefix⟩
    exact ⟨module ++ [attr], .inl ⟨module, attr, rfl, hrule⟩, hprefix⟩
  · rintro ⟨q, hq, hprefix⟩
    obtain ⟨module, attr, hrule, hq'⟩ := forbidden_of_hits hq
    exact ⟨module, attr, hrule, hq'.trans hprefix⟩

/-- A module that is listed in the rules, or anything in one. -/
def Listed (p : List Str) : Prop := ∃ module attr, IsRule module attr ∧ module <+: p

/-- What hits a rule is listed. -/
theorem listed_of_hits {p : List Str} (h : Hits p) : Listed p := by
  obtain ⟨module, attr, hrule, hprefix⟩ := forbidden_of_hits h
  have hmodule : module <+: p := (List.prefix_append module [attr]).trans hprefix
  rcases hrule with hrule | hrule
  · exact ⟨module, attr, hrule, hmodule⟩
  · exact ⟨module, str "*", hrule, hmodule⟩

/-! ## Rules on texts -/

/-- A name is looked up where a rule names it. -/
theorem isSome_lookup_iff {module : Str} {attr : Str} :
    (lookup (module, attr) rules).isSome = true ↔ IsRule (module.splitOn (chr '.')) attr := by
  rw [← not_iff_not, Bool.not_eq_true, Option.isSome_eq_false_iff, Option.isNone_iff_eq_none,
    lookup_eq_none_iff]
  constructor
  · rintro h ⟨⟨⟨m, a⟩, w⟩, hr, hmodule, rfl⟩
    have hm : m = module := by
      rw [← join_splitOn (chr '.') m, hmodule, join_splitOn]
    exact h (hm ▸ List.mem_map.mpr ⟨_, hr, rfl⟩)
  · intro h hmem
    obtain ⟨⟨⟨m, a⟩, w⟩, hr, heq⟩ := List.mem_map.mp hmem
    obtain ⟨rfl, rfl⟩ := Prod.mk.inj heq
    exact h ⟨_, hr, rfl, rfl⟩

theorem rpartition_text (d : Dotted) :
    rpartition d.text = (Str.join (str ".") d.parts.dropLast, d.parts.getLast d.parts_ne_nil) := by
  rw [rpartition, splitOn_text, List.getLast?_eq_some_getLast d.parts_ne_nil]
  rfl

theorem module_ne_nil {module : List Str} {attr : Str} (h : IsRule module attr) : module ≠ [] := by
  obtain ⟨r, -, rfl, -⟩ := h
  exact List.splitOn_ne_nil _ _

/-- No rule is for the empty text. -/
theorem not_isRule_empty (attr : Str) : ¬ IsRule [[]] attr := by
  rintro ⟨r, hr, hmodule, -⟩
  have hall : ∀ r ∈ rules, r.1.1 ≠ [] := by decide +kernel
  refine hall r hr ?_
  rw [← join_splitOn (chr '.') r.1.1, hmodule]
  rfl

/-- A joined text has a dot exactly when it has several parts. -/
theorem dot_mem_join_iff {ps : List Str} (hne : ps ≠ []) (h : ∀ p ∈ ps, chr '.' ∉ p) :
    chr '.' ∈ Str.join (str ".") ps ↔ ∃ x y rest, ps = x :: y :: rest := by
  match ps with
  | [] => exact absurd rfl hne
  | [x] => simpa [Str.join] using h x (by simp)
  | x :: y :: rest =>
      have hjoin : Str.join (str ".") (x :: y :: rest) = x ++ str "." ++ Str.join (str ".")
        (y :: rest) := rfl
      refine iff_of_true ?_ ⟨x, y, rest, rfl⟩
      rw [hjoin, List.mem_append, List.mem_append]
      exact .inl (.inr (by decide))

/-- What `_check` looks up for the text of a module and an attribute. -/
theorem rules_isSome_iff {module : Str} {attr : Str} :
    ((lookup (module, attr) rules).or (lookup (module, str "*") rules)).isSome = true ↔
      IsRule (module.splitOn (chr '.')) attr ∨ IsRule (module.splitOn (chr '.')) (str "*") := by
  rw [Option.isSome_or, Bool.or_eq_true, isSome_lookup_iff, isSome_lookup_iff]

/-- What hits a name of a module and an attribute. -/
theorem hits_concat_iff {module : List Str} {attr : Str} : Hits (module ++ [attr]) ↔
    (IsRule module attr ∨ IsRule module (str "*")) ∨ ∃ top x rest, module = top :: x :: rest ∧
    IsRule [top] (str "*") := by
  constructor
  · rintro (⟨module', attr', hp, hrule⟩ | ⟨top, x, y, rest, hp, hrule⟩)
    · obtain ⟨rfl, hattr⟩ := List.append_inj' hp rfl
      obtain rfl := (List.cons.inj hattr).1
      exact .inl hrule
    · match module with
      | [] => simp at hp
      | [m] => simp at hp
      | m :: n :: module =>
          obtain ⟨rfl, -⟩ := List.cons.inj hp
          exact .inr ⟨m, n, module, rfl, hrule⟩
  · rintro (hrule | ⟨top, x, rest, rfl, hrule⟩)
    · exact .inl ⟨module, attr, rfl, hrule⟩
    · cases rest with
      | nil => exact .inr ⟨top, x, attr, [], rfl, hrule⟩
      | cons y rest => exact .inr ⟨top, x, y, rest ++ [attr], rfl, hrule⟩

/-- What `_check` looks up for the first name of a module. -/
theorem top_isSome_iff {module : List Str} (hne : module ≠ []) (h : ∀ p ∈ module, chr '.' ∉ p) :
    (if chr '.' ∈ Str.join (str ".") module then
      lookup (((Str.join (str ".") module).splitOn (chr '.')).headD [], str "*") rules
      else none).isSome = true ↔
    ∃ top x rest, module = top :: x :: rest ∧ IsRule [top] (str "*") := by
  have hdot := dot_mem_join_iff hne h
  have hsplit : (Str.join (str ".") module).splitOn (chr '.') = module := splitOn_join hne h
  rw [hsplit]
  constructor
  · intro hfound
    split at hfound
    · next hmem =>
        obtain ⟨top, x, rest, rfl⟩ := hdot.mp hmem
        rw [List.headD_cons, isSome_lookup_iff,
          List.splitOn_eq_singleton (h top (by simp))] at hfound
        exact ⟨top, x, rest, rfl, hfound⟩
    · cases hfound
  · rintro ⟨top, x, rest, rfl, hrule⟩
    rw [if_pos (hdot.mpr ⟨top, x, rest, rfl⟩), List.headD_cons, isSome_lookup_iff,
      List.splitOn_eq_singleton (h top (by simp))]
    exact hrule

/-- `_check` finds exactly the names that the rules hit. -/
theorem why_isSome_iff (d : Dotted) : (why d.text).isSome = true ↔ Hits d.parts := by
  have hparts : d.parts = d.parts.dropLast ++ [d.parts.getLast d.parts_ne_nil] :=
    (List.dropLast_append_getLast _).symm
  have hdots : ∀ p ∈ d.parts.dropLast, chr '.' ∉ p :=
    fun p hp => d.not_mem_parts p (List.dropLast_subset _ hp)
  unfold why
  rw [rpartition_text]
  dsimp only
  generalize d.parts.getLast d.parts_ne_nil = last at hparts
  generalize d.parts.dropLast = module at hparts hdots
  have hfound := @rules_isSome_iff (Str.join (str ".") module) last
  rw [hparts, hits_concat_iff]
  by_cases hne : module = []
  · -- A name without a dot is no attribute of anything.
    subst hne
    have hempty : (Str.join (str ".") []).splitOn (chr '.') = [[]] := by decide
    rw [hempty] at hfound
    have hnone : (lookup (Str.join (str ".") [], last) rules).or
      (lookup (Str.join (str ".") [], str "*") rules) = none := by
      rw [← Option.isNone_iff_eq_none, ← Option.isSome_eq_false_iff, ← Bool.not_eq_true, hfound]
      exact fun h => h.elim (not_isRule_empty last) (not_isRule_empty (str "*"))
    rw [hnone]
    refine iff_of_false (by decide) ?_
    rintro ((hrule | hrule) | ⟨top, x, rest, hp, -⟩)
    · exact module_ne_nil hrule rfl
    · exact module_ne_nil hrule rfl
    · cases hp
  · have hsplit : (Str.join (str ".") module).splitOn (chr '.') = module := splitOn_join hne hdots
    rw [hsplit] at hfound
    cases hlookup : (lookup (Str.join (str ".") module, last) rules).or
      (lookup (Str.join (str ".") module, str "*") rules) with
    | some w =>
        rw [hlookup] at hfound
        exact iff_of_true rfl (.inl (hfound.mp rfl))
    | none =>
        rw [hlookup] at hfound
        have hno : ¬ (IsRule module last ∨ IsRule module (str "*")) :=
          fun h => absurd (hfound.mpr h) (by simp)
        rw [or_iff_right hno]
        exact top_isSome_iff hne hdots

end MergeSafety

end BeSdk
