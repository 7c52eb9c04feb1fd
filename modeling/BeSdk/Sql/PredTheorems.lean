/-
BeSdk.Sql.PredTheorems — rules for reading predicates.

`eval_and_eq_true_iff` and its siblings say when a compound predicate is true; a
proof about a built predicate uses them and never unfolds `Pred.eval`. A comparison
on a value of the right type is the comparison of its order
(`testParam_of_value`). What a test depends on is said of its argument alone
(`testParam_alone`): the number a text is of (`testParam_congr`), the set of texts it is
compared with (`testAny_congr`). `like_quoteLike` is the one fact about patterns that
builders rely on: a text with its special characters escaped matches itself.
-/
import BeSdk.Sql.Pred
import Mathlib.Algebra.Order.Ring.Rat

namespace BeSdk.Sql

/-! ## Compound predicates -/

section
variable [Engine] {κ : Type} {args : List Arg} {row : κ → Value}

@[simp] theorem eval_and_eq_true_iff (ps : List (Pred κ)) :
    (Pred.and ps).eval args row = .true ↔ ∀ p ∈ ps, p.eval args row = .true := by
  rw [Pred.eval, evals_eq_map, Tri.all_eq_true_iff, List.forall_mem_map]

@[simp] theorem eval_chain_eq_true_iff (ps : List (Pred κ)) :
    (Pred.chain ps).eval args row = .true ↔ ∀ p ∈ ps, p.eval args row = .true := by
  rw [Pred.eval, evals_eq_map, Tri.all_eq_true_iff, List.forall_mem_map]

@[simp] theorem eval_or_eq_true_iff (ps : List (Pred κ)) :
    (Pred.or ps).eval args row = .true ↔ ∃ p ∈ ps, p.eval args row = .true := by
  rw [Pred.eval, evals_eq_map, Tri.any_eq_true_iff, List.mem_map]

@[simp] theorem eval_coalesce_eq_true_iff (p : Pred κ) :
    (Pred.coalesce p).eval args row = .true ↔ p.eval args row = .true := by
  rw [Pred.eval, Tri.ofBool_eq_true_iff, decide_eq_true_iff]

@[simp] theorem eval_notNull_eq_true_iff (c : κ) :
    (Pred.notNull c).eval args row = .true ↔ row c ≠ .null := by
  rw [Pred.eval, Tri.ofBool_eq_true_iff, decide_eq_true_iff]

end

/-! ## Comparisons -/

section
variable [Engine] {args : List Arg}

/-- Nothing is compared with NULL. -/
@[simp] theorem testParam_null (op : Comparison) (p : Param) :
    Value.testParam args .null op p = .unknown := rfl

@[simp] theorem testAny_null (p : Param) : Value.testAny args .null p = .unknown := rfl

omit [Engine] in
@[simp] theorem testLike_null (i : Nat) : Value.testLike args .null i = .unknown := rfl

/-- A test looks at the argument of its placeholder alone. -/
theorem testParam_alone {i : Nat} {a : Arg} (h : args[i]? = some a) (v : Value) (op : Comparison)
    (k : Option Kind) : v.testParam args op ⟨i, k⟩ = v.testParam [a] op ⟨0, k⟩ := by
  have hvalue : Param.value args ⟨i, k⟩ = Param.value [a] ⟨0, k⟩ := by
    funext t
    simp only [Param.value, h, List.getElem?_cons_zero]
  rw [Value.testParam, Value.testParam, hvalue]

theorem testAny_alone {i : Nat} {a : Arg} (h : args[i]? = some a) (v : Value) (k : Option Kind) :
    v.testAny args ⟨i, k⟩ = v.testAny [a] ⟨0, k⟩ := by
  have hvalues : Param.values args ⟨i, k⟩ = Param.values [a] ⟨0, k⟩ := by
    funext t
    simp only [Param.values, h, List.getElem?_cons_zero]
  rw [Value.testAny, Value.testAny, hvalues]

omit [Engine] in
theorem testLike_alone {i : Nat} {a : Arg} (h : args[i]? = some a) (v : Value) :
    v.testLike args i = v.testLike [a] 0 := by
  simp only [Value.testLike, h, List.getElem?_cons_zero]

omit [Engine] in
/-- Equal numbers compare alike. -/
theorem Numeric.compare_congr {a b : Numeric} (h : a.eq b = true) (n : Numeric) :
    n.eq a = n.eq b ∧ n.lt a = n.lt b := by
  cases a with
  | nan => cases b <;> simp_all [Numeric.eq]
  | infinity m => cases b <;> simp_all [Numeric.eq]
  | finite d =>
    cases b with
    | nan => cases h
    | infinity m => cases h
    | finite d' =>
      have hvalue : d.value = d'.value := (Dec.eq_iff d d').mp h
      cases n with
      | nan => exact ⟨rfl, rfl⟩
      | infinity m => exact ⟨rfl, rfl⟩
      | finite x =>
        constructor
        · rw [Bool.eq_iff_iff]
          exact (Dec.eq_iff x d).trans (hvalue ▸ (Dec.eq_iff x d').symm)
        · rw [Bool.eq_iff_iff]
          exact (Dec.lt_iff x d).trans (hvalue ▸ (Dec.lt_iff x d').symm)

/-- The database reads equal numbers from two texts, or none from both. -/
def SameNumber (s t : Str) : Prop :=
  Option.Rel (fun m n : Numeric => m.eq n = true) (Engine.toNumeric s) (Engine.toNumeric t)

omit [Engine] in
theorem Numeric.eq_self (n : Numeric) : n.eq n = true := by
  cases n with
  | finite d => exact (Dec.eq_iff d d).mpr rfl
  | infinity neg => exact beq_self_eq_true neg
  | nan => rfl

omit [Engine] in
theorem Numeric.eq_symm {m n : Numeric} (h : m.eq n = true) : n.eq m = true := by
  rw [(Numeric.compare_congr h n).1]
  exact n.eq_self

omit [Engine] in
/-- What relates two optional values relates them the other way round. -/
theorem rel_symm {α : Type} {r : α → α → Prop} (hr : ∀ {a b}, r a b → r b a) {x y : Option α} :
    Option.Rel r x y → Option.Rel r y x
  | .none => .none
  | .some h => .some (hr h)

theorem SameNumber.symm {s t : Str} (h : SameNumber s t) : SameNumber t s :=
  rel_symm Numeric.eq_symm h

/-- Comparisons with texts of one number are the same. -/
theorem testParam_congr {s t : Str} (h : SameNumber s t) (v : Value) (op : Comparison) :
    v.testParam [.text s] op ⟨0, some .numeric⟩ = v.testParam [.text t] op ⟨0, some .numeric⟩ := by
  have hvalue : ∀ (u : Str) (k : Kind), Param.value [.text u] ⟨0, some .numeric⟩ k =
    (Engine.toNumeric u).map .numeric := fun u k => rfl
  unfold SameNumber at h
  cases hk : v.kind with
  | none => simp only [Value.testParam, hk, Option.bind_none]
  | some k =>
  simp only [Value.testParam, hk, Option.bind_some, hvalue]
  generalize Engine.toNumeric s = m at h ⊢
  generalize Engine.toNumeric t = n at h ⊢
  cases h with
  | none => rfl
  | @some m n hmn =>
    have htest : v.test op (.numeric m) = v.test op (.numeric n) := by
      cases v with
      | numeric x =>
        obtain ⟨heq, hlt⟩ := Numeric.compare_congr hmn x
        simp only [Value.test, Value.order, heq, hlt]
      | _ => rfl
    exact htest

omit [Engine] in
/-- Where every element is read, all of them are. -/
theorem mapM_option_eq_some {α β : Type} {f : α → Option β} :
    ∀ {l : List α}, (∀ a ∈ l, (f a).isSome = true) → l.mapM f = some (l.filterMap f)
  | [], _ => rfl
  | a :: l, h => by
      rw [List.forall_mem_cons] at h
      obtain ⟨b, hb⟩ := Option.isSome_iff_exists.mp h.1
      rw [List.mapM_cons, hb, mapM_option_eq_some h.2, List.filterMap_cons_some hb]
      rfl

omit [Engine] in
/-- Where one element is not read, the list is not. -/
theorem mapM_option_eq_none {α β : Type} {f : α → Option β} {a : α} (ha : f a = none) :
    ∀ {l : List α}, a ∈ l → l.mapM f = none
  | [], h => by cases h
  | b :: l, h => by
      rw [List.mapM_cons]
      cases hb : f b with
      | none => rfl
      | some y =>
        rcases List.mem_cons.mp h with rfl | hmem
        · rw [ha] at hb
          cases hb
        · rw [mapM_option_eq_none ha hmem]
          rfl

/-- A value among texts: all of them are read, and one as a value equal to it. -/
theorem testAny_texts_eq_true_iff (v : Value) (ss : List Str) :
    v.testAny [.texts ss] ⟨0, none⟩ = .true ↔
      ∃ k, v.kind = some k ∧ (∀ s ∈ ss, (cast k s).isSome = true) ∧
        ∃ s ∈ ss, ∃ w, cast k s = some w ∧ v.test .eq w = .true := by
  cases hk : v.kind with
  | none => simp [Value.testAny, hk]
  | some k =>
    have hvalues : Param.values [.texts ss] ⟨0, none⟩ k = ss.mapM (cast k) := rfl
    simp only [Value.testAny, hk, Option.bind_some, hvalues, Option.some.injEq, exists_eq_left']
    by_cases hall : ∀ s ∈ ss, (cast k s).isSome = true
    · rw [mapM_option_eq_some hall]
      simp only [Tri.any_eq_true_iff, List.mem_map, List.mem_filterMap]
      constructor
      · rintro ⟨w, ⟨s, hs, hw⟩, htest⟩
        exact ⟨hall, s, hs, w, hw, htest⟩
      · rintro ⟨-, s, hs, w, hw, htest⟩
        exact ⟨w, ⟨s, hs, hw⟩, htest⟩
    · have hnone : ∃ s ∈ ss, cast k s = none := by simpa using hall
      obtain ⟨s, hs, hcast⟩ := hnone
      rw [mapM_option_eq_none hcast hs]
      simp [hall]

/-- The order and the repetition of the texts make no difference. -/
theorem testAny_congr {ss ts : List Str} (h : ∀ s, s ∈ ss ↔ s ∈ ts) (v : Value) :
    v.testAny [.texts ss] ⟨0, none⟩ = .true ↔ v.testAny [.texts ts] ⟨0, none⟩ = .true := by
  simp only [testAny_texts_eq_true_iff, h]

/-- No value is among none. -/
theorem testAny_nil_ne_true (v : Value) (k : Option Kind) :
    v.testAny [.texts []] ⟨0, k⟩ ≠ .true := by
  cases v <;> simp [Value.testAny, Value.kind, Param.values, Tri.any_eq_true_iff]

theorem test_eq_text (s t : Str) :
    (Value.text s).test .eq (.text t) = .ofBool (decide (s = t)) := by
  rw [Value.test, Value.order]
  by_cases h : s = t
  · simp [h, Comparison.holds]
  · cases Engine.collate s t <;> simp [h, Comparison.holds]

/-- A text column against a placeholder without a cast. -/
theorem testParam_text {i : Nat} {t : Str} (h : args[i]? = some (.text t)) (s : Str) :
    Value.testParam args (.text s) .eq ⟨i, none⟩ = .ofBool (decide (s = t)) := by
  rw [Value.testParam]
  simp only [Value.kind, Option.bind_some, Param.value, h, Option.getD_none, cast, test_eq_text]

theorem mapM_cast_text : ∀ (ts : List Str), ts.mapM (cast .text) = some (ts.map Value.text)
  | [] => rfl
  | t :: ts => by simp [mapM_cast_text ts, cast]

/-- A text is among the texts. -/
theorem testAny_text_eq_true_iff {i : Nat} {ts : List Str} (h : args[i]? = some (.texts ts))
    (s : Str) : Value.testAny args (.text s) ⟨i, none⟩ = .true ↔ s ∈ ts := by
  rw [Value.testAny]
  simp only [Value.kind, Option.bind_some, Param.values, h, Option.getD_none, mapM_cast_text,
    List.map_map, Tri.any_eq_true_iff, List.mem_map, Function.comp_apply, test_eq_text]
  constructor
  · rintro ⟨t, ht, hst⟩
    have : s = t := by simpa using hst
    exact this ▸ ht
  · exact fun hs => ⟨s, hs, by simp⟩

omit [Engine] in
theorem testLike_text {i : Nat} {pattern : Str} (h : args[i]? = some (.text pattern)) (s : Str) :
    Value.testLike args (.text s) i = .ofBool (like pattern s) := by
  simp only [Value.testLike, h]

/-- How the comparison operators read two finite numbers. -/
def Comparison.rel : Comparison → ℚ → ℚ → Prop
  | .eq, a, b => a = b
  | .lt, a, b => a < b
  | .le, a, b => a ≤ b
  | .gt, a, b => b < a
  | .ge, a, b => b ≤ a

/-- Decimals are compared by their values. -/
theorem test_finite_eq_true_iff (a b : Dec) (op : Comparison) :
    (Value.numeric (.finite a)).test op (.numeric (.finite b)) = .true ↔
    op.rel a.value b.value := by
  rw [Value.test, Value.order]
  simp only [Numeric.eq, Numeric.lt, Tri.ofBool_eq_true_iff]
  rcases lt_trichotomy a.value b.value with h | h | h
  · have hne : a.eq b = false := by simpa [← Dec.eq_iff] using h.ne
    have hlt : a.lt b = true := (Dec.lt_iff a b).mpr h
    cases op <;> simp [hne, hlt, Comparison.holds, Comparison.rel, h, h.le, h.ne,
      h.not_gt, h.not_ge]
  · have heq : a.eq b = true := (Dec.eq_iff a b).mpr h
    cases op <;> simp [heq, Comparison.holds, Comparison.rel, h]
  · have hne : a.eq b = false := by simpa [← Dec.eq_iff] using h.ne'
    have hlt : a.lt b = false := Bool.eq_false_iff.mpr fun hab => h.not_gt ((Dec.lt_iff a b).mp hab)
    cases op <;> simp [hne, hlt, Comparison.holds, Comparison.rel, h, h.le, h.ne',
      h.not_gt, h.not_ge]

/-- A finite number against a placeholder that holds a decimal number's text. -/
theorem testParam_decimal_eq_true_iff {i : Nat} {s : Str} {b : Dec} (h : args[i]? = some (.text s))
    (hs : decimalFullmatch s = true) (hb : readDecimal s = some b) (a : Dec) (op : Comparison) :
    Value.testParam args (.numeric (.finite a)) op ⟨i, some .numeric⟩ = .true ↔
      op.rel a.value b.value := by
  rw [Value.testParam]
  simp only [Value.kind, Option.bind_some, Param.value, h, Option.getD_some, cast,
    Engine.toNumeric_decimal s b hs hb, Option.map_some, test_finite_eq_true_iff]

end

/-! ## Patterns -/

/-- A character as a pattern that matches it alone. -/
def quoteLike (c : CodePoint) : Str :=
  if c = chr '\\' ∨ c = chr '%' ∨ c = chr '_' then [chr '\\', c] else [c]

/-- A quoted character matches itself. -/
theorem like_quoteLike_cons (c : CodePoint) (q s : Str) :
    like (quoteLike c ++ q) s = true ↔ ∃ t, s = c :: t ∧ like q t = true := by
  rw [quoteLike]
  split
  · cases s with
    | nil => simp [like, likeGo]
    | cons x s => simp [like, likeGo, and_assoc]
  · next hc =>
      simp only [not_or] at hc
      cases s with
      | nil => simp [like, likeGo, hc.1, hc.2.1]
      | cons x s => simp [like, likeGo, hc.1, hc.2.1, hc.2.2, and_assoc]

/-- A quoted text matches itself, whatever follows. -/
theorem like_quoteLike (p q : Str) : ∀ s,
    like (p.flatMap quoteLike ++ q) s = true ↔ ∃ t, s = p ++ t ∧ like q t = true := by
  induction p with
  | nil => simp
  | cons c p ih =>
      intro s
      rw [List.flatMap_cons, List.append_assoc, like_quoteLike_cons]
      simp only [ih]
      constructor
      · rintro ⟨_, rfl, t, rfl, ht⟩
        exact ⟨t, rfl, ht⟩
      · rintro ⟨t, rfl, ht⟩
        exact ⟨p ++ t, rfl, t, rfl, ht⟩

/-- A trailing `%` matches anything. -/
theorem like_percent (s : Str) : like [chr '%'] s = true := by
  have hne : chr '%' ≠ chr '\\' := by decide
  unfold like likeGo
  rw [if_neg hne, if_pos rfl, List.any_eq_true]
  exact ⟨[], (List.mem_tails _ _).mpr List.nil_suffix, rfl⟩

end BeSdk.Sql
