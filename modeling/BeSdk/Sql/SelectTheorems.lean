/-
BeSdk.Sql.SelectTheorems — the order of rows, and what a predicate depends on.

`sortOrder` is a total order up to equality, so an ORDER BY is one
(`rowOrder_transCmp`), and between two values of one type it is the comparison the
operators make (`sortOrder_of_order`).

`Pred.Uses K n` bounds what a predicate reads: columns in `K`, arguments before the
`n`-th. Rows that agree on `K` and argument lists that agree before `n` cannot be told
apart by it (`Pred.Uses.eval_congr`), nor by the database when it takes its arguments
(`Pred.Uses.takes_congr`).
-/
import BeSdk.Sql.Select
import BeSdk.Sql.PredTheorems
import Mathlib.Data.Prod.Lex

namespace BeSdk.Sql

/-! ## Order -/

section
variable [Engine]

/-- How two texts sort. -/
def textOrder (s t : Str) : Ordering := ((Value.text s).order (.text t)).getD .eq

theorem textOrder_eq (s t : Str) :
    textOrder s t = if s = t then .eq else if Engine.collate s t then .lt else .gt := by
  simp only [textOrder, Value.order, Option.getD_some]

theorem collate_asymm {s t : Str} (h : Engine.collate s t = true) : Engine.collate t s = false := by
  rw [← Bool.not_eq_true]
  intro h'
  have := Engine.collate_trans s t s h h'
  rw [Engine.collate_irrefl] at this
  cases this

instance : Std.TransCmp textOrder where
  eq_swap {s t} := by
    rw [textOrder_eq, textOrder_eq]
    by_cases h : s = t
    · simp [h]
    · rcases Engine.collate_total s t h with hlt | hlt
      · simp [h, Ne.symm h, hlt, collate_asymm hlt]
      · simp [h, Ne.symm h, hlt, collate_asymm hlt]
  isLE_trans {s t u} hst htu := by
    have hle : ∀ {a b : Str}, (textOrder a b).isLE = true ↔ a = b ∨ Engine.collate a b = true := by
      intro a b
      rw [textOrder_eq]
      split
      · next h => simp [h]
      · next h => split <;> simp_all
    rw [hle] at hst htu ⊢
    rcases hst with rfl | hst
    · exact htu
    · rcases htu with rfl | htu
      · exact .inr hst
      · exact .inr (Engine.collate_trans s t u hst htu)

/-- The place of a number: below the finite ones, its value among them, above. -/
def Numeric.place : Numeric → Int ×ₗ ℚ
  | .finite d => toLex (0, d.value)
  | .infinity true => toLex (-1, 0)
  | .infinity false => toLex (1, 0)
  | .nan => toLex (2, 0)

/-- How two numbers sort. -/
def Numeric.order (a b : Numeric) : Ordering := ((Value.numeric a).order (.numeric b)).getD .eq

theorem Numeric.order_def (a b : Numeric) :
    a.order b = if a.eq b then .eq else if a.lt b then .lt else .gt := by
  simp only [Numeric.order, Value.order, Option.getD_some]

omit [Engine] in
/-- Numbers are equal where they stand at one place. -/
theorem Numeric.eq_iff (a b : Numeric) : a.eq b = true ↔ a.place = b.place := by
  cases a with
  | finite a => rcases b with b | (_ | _) | _ <;> simp [Numeric.eq, Numeric.place, Dec.eq_iff]
  | infinity m => cases m <;> rcases b with b | (_ | _) | _ <;> simp [Numeric.eq, Numeric.place]
  | nan => rcases b with b | (_ | _) | _ <;> simp [Numeric.eq, Numeric.place]

omit [Engine] in
/-- A number is less where it stands before. -/
theorem Numeric.lt_iff (a b : Numeric) : a.lt b = true ↔ a.place < b.place := by
  cases a with
  | finite a =>
      rcases b with b | (_ | _) | _ <;>
        simp [Numeric.lt, Numeric.place, Dec.lt_iff, Prod.Lex.toLex_lt_toLex]
  | infinity m =>
      cases m <;> rcases b with b | (_ | _) | _ <;>
        simp [Numeric.lt, Numeric.place, Prod.Lex.toLex_lt_toLex]
  | nan => rcases b with b | (_ | _) | _ <;>
      simp [Numeric.lt, Numeric.place, Prod.Lex.toLex_lt_toLex]

/-- Numbers are ordered by their places. -/
theorem Numeric.order_eq (a b : Numeric) : a.order b = compare a.place b.place := by
  rw [Numeric.order_def]
  rcases lt_trichotomy a.place b.place with h | h | h
  · have heq : a.eq b = false := Bool.eq_false_iff.mpr fun he => h.ne ((Numeric.eq_iff a b).mp he)
    simp [heq, (Numeric.lt_iff a b).mpr h, compare_lt_iff_lt.mpr h]
  · simp [(Numeric.eq_iff a b).mpr h, compare_eq_iff_eq.mpr h]
  · have heq : a.eq b = false := Bool.eq_false_iff.mpr fun he => h.ne' ((Numeric.eq_iff a b).mp he)
    have hlt : a.lt b = false := Bool.eq_false_iff.mpr fun hl =>
      h.not_gt ((Numeric.lt_iff a b).mp hl)
    simp [heq, hlt, compare_gt_iff_gt.mpr h]

instance : Std.TransCmp Numeric.order := by
  have h : Numeric.order = compareOn Numeric.place := by
    funext a b
    exact Numeric.order_eq a b
  rw [h]
  infer_instance

/-! The parts of a value by which those of one type sort. -/

def Value.asText : Value → Str
  | .text s => s
  | _ => []

def Value.asNumeric : Value → Numeric
  | .numeric n => n
  | _ => .nan

def Value.asScalar : Value → Int
  | .scalar _ n => n
  | _ => 0

omit [Engine] in
theorem Kind.rank_injective {k l : Kind} (h : k.rank = l.rank) : k = l := by
  cases k <;> cases l <;> first | rfl | cases h

theorem textOrder_self (s : Str) : textOrder s s = .eq := by simp [textOrder_eq]

theorem Numeric.order_self (a : Numeric) : a.order a = .eq := by simp [Numeric.order_eq]

/-- How values of one type sort. -/
theorem order_of_rank {v w : Value} (h : v.rank = w.rank) : (v.order w).getD .eq =
    (textOrder v.asText w.asText).then
    ((v.asNumeric.order w.asNumeric).then (compare v.asScalar w.asScalar)) := by
  cases v with
  | null =>
      cases w with
      | null => simp [Value.order, Value.asText, Value.asNumeric, Value.asScalar,
          textOrder_self, Numeric.order_self]
      | text t => simp [Value.rank] at h
      | numeric b => simp [Value.rank] at h
      | scalar l b => cases l <;> simp [Value.rank, Kind.rank] at h
  | text s =>
      cases w with
      | text t =>
          simp [Value.asText, Value.asNumeric, Value.asScalar, textOrder, Numeric.order_self]
      | _ => simp [Value.rank] at h; try omega
  | numeric a =>
      cases w with
      | numeric b =>
          simp [Value.asText, Value.asNumeric, Value.asScalar, textOrder_self, Numeric.order]
      | _ => simp [Value.rank] at h; try omega
  | scalar k a =>
      cases w with
      | scalar l b =>
          obtain rfl : k = l := Kind.rank_injective (by simpa [Value.rank] using h)
          simp [Value.order, Value.asText, Value.asNumeric, Value.asScalar, textOrder_self,
            Numeric.order_self]
      | null => cases k <;> simp [Value.rank, Kind.rank] at h
      | _ => simp [Value.rank] at h; try omega

/-- Sorting compares kinds, then texts, then numbers, then the rest. -/
theorem sortOrder_eq : Value.sortOrder =
    compareLex (compareOn Value.rank) (compareLex (fun v w => textOrder v.asText w.asText)
      (compareLex (fun v w => v.asNumeric.order w.asNumeric) (compareOn Value.asScalar))) := by
  funext v w
  rw [Value.sortOrder, compareLex, compareOn, compareLex, compareLex, compareOn]
  by_cases h : v.rank = w.rank
  · rw [order_of_rank h]
  · have hne : compare v.rank w.rank ≠ .eq := fun heq => h (compare_eq_iff_eq.mp heq)
    revert hne
    cases compare v.rank w.rank <;> simp

instance : Std.TransCmp Value.sortOrder := by
  have htext : Std.TransCmp fun v w : Value => textOrder v.asText w.asText :=
    { eq_swap := fun {_ _} => @Std.OrientedCmp.eq_swap _ textOrder _ _ _
      isLE_trans := fun {_ _ _} => @Std.TransCmp.isLE_trans _ textOrder _ _ _ _ }
  have hnumeric : Std.TransCmp fun v w : Value => v.asNumeric.order w.asNumeric :=
    { eq_swap := fun {_ _} => @Std.OrientedCmp.eq_swap _ Numeric.order _ _ _
      isLE_trans := fun {_ _ _} => @Std.TransCmp.isLE_trans _ Numeric.order _ _ _ _ }
  rw [sortOrder_eq]
  infer_instance

/-- Where two values can be compared they sort as they compare. -/
theorem sortOrder_of_order {v w : Value} {o : Ordering} (h : v.order w = some o) :
    v.sortOrder w = o := by
  have hrank : v.rank = w.rank := by
    revert h
    cases v <;> cases w <;> simp [Value.order, Value.rank]
    intro hkind _
    rw [hkind]
  rw [Value.sortOrder, hrank, compare_eq_iff_eq.mpr rfl, h]
  rfl

omit [Engine] in
/-- A value of a kind that is not null has that kind. -/
theorem Value.kind_of_hasKind {v : Value} {k : Kind} (h : v.hasKind k = true)
    (hv : v ≠ .null) : v.kind = some k := by
  cases v with
  | null => exact absurd rfl hv
  | text s => exact congrArg some (of_decide_eq_true h).symm
  | numeric n => exact congrArg some (of_decide_eq_true h).symm
  | scalar l n =>
      simp only [Value.hasKind, Bool.and_eq_true, decide_eq_true_eq] at h
      exact congrArg some h.1.1

omit [Engine] in
/-- Values of one type are of one sort. -/
theorem Value.rank_of_hasKind {v w : Value} {k : Kind} (hv : v.hasKind k = true)
    (hw : w.hasKind k = true) (hvn : v ≠ .null) (hwn : w ≠ .null) : v.rank = w.rank := by
  cases v <;> cases w <;> simp_all [Value.hasKind, Value.rank]

/-- What a text is read as is a value of the type. -/
theorem cast_hasKind {k : Kind} {s : Str} {v : Value} (h : cast k s = some v) :
    v.hasKind k = true ∧ v ≠ .null := by
  cases k
  case text =>
    cases h
    exact ⟨rfl, by simp⟩
  case numeric =>
    obtain ⟨n, -, rfl⟩ := Option.map_eq_some_iff.mp h
    exact ⟨rfl, by simp⟩
  all_goals
    obtain ⟨n, -, rfl⟩ := Option.map_eq_some_iff.mp h
    exact ⟨by simp [Value.hasKind], by simp⟩

/-- Values of one type compare as they sort. -/
theorem order_of_hasKind {v w : Value} {k : Kind} (hv : v.hasKind k = true)
    (hw : w.hasKind k = true) (hvn : v ≠ .null) (hwn : w ≠ .null) :
    v.order w = some (v.sortOrder w) := by
  have hsome : ∃ o, v.order w = some o := by
    have hrank := Value.rank_of_hasKind hv hw hvn hwn
    cases v <;> cases w <;> simp_all [Value.hasKind, Value.rank, Value.order]
  obtain ⟨o, ho⟩ := hsome
  rw [sortOrder_of_order ho, ho]

theorem test_null (op : Comparison) (w : Value) : Value.test op .null w = .unknown := rfl

/-- A column against a placeholder that holds a value of its type. -/
theorem testParam_of_value {args : List Arg} {v w : Value} {k : Kind} {op : Comparison}
    {p : Param} (hv : v.hasKind k = true) (hw : p.value args k = some w) :
    v.testParam args op p = v.test op w := by
  by_cases hnull : v = .null
  · rw [hnull]
    rfl
  · rw [Value.testParam, Value.kind_of_hasKind hv hnull, Option.bind_some, hw]

/-- A column against an array of texts of its type. -/
theorem testAny_eq_true_iff {args : List Arg} {v : Value} {k : Kind} {p : Param}
    {ss : List Str} (hv : v.hasKind k = true) (hcast : p.cast = some k)
    (hp : args[p.index]? = some (.texts ss)) (hreads : ∀ s ∈ ss, (cast k s).isSome = true) :
    v.testAny args p = .true ↔ ∃ s ∈ ss, ∃ w, cast k s = some w ∧ v.test .eq w = .true := by
  by_cases hnull : v = .null
  · subst hnull
    simp [test_null]
  · have hvalues : p.values args k = some (ss.filterMap (cast k)) := by
      rw [Param.values, hp, hcast]
      exact mapM_option_eq_some hreads
    rw [Value.testAny, Value.kind_of_hasKind hv hnull, Option.bind_some, hvalues]
    simp only [Tri.any_eq_true_iff, List.mem_map, List.mem_filterMap]
    constructor
    · rintro ⟨w, ⟨s, hs, hw⟩, htest⟩
      exact ⟨s, hs, w, hw, htest⟩
    · rintro ⟨s, hs, w, hw, htest⟩
      exact ⟨w, ⟨s, hs, hw⟩, htest⟩

instance {κ : Type} (k : OrderKey κ) : Std.TransCmp (OrderKey.compare k) := by
  have hasc : Std.TransCmp fun row row' : κ → Value => (row k.column).sortOrder (row' k.column) :=
    { eq_swap := Std.OrientedCmp.eq_swap
      isLE_trans := Std.TransCmp.isLE_trans }
  obtain ⟨column, _ | _⟩ := k
  · exact hasc
  · exact @Std.TransCmp.opposite _ _ hasc

/-- An ORDER BY is a total order of the rows, up to equality of the keys. -/
instance rowOrder_transCmp {κ : Type} (keys : List (OrderKey κ)) : Std.TransCmp (rowOrder keys) :=
  Keyset.lex_transCmp fun cmp hcmp => by
    obtain ⟨k, -, rfl⟩ := List.mem_map.mp hcmp
    infer_instance

end

/-! ## What a predicate reads -/

section
variable {κ : Type}

mutual

/-- A predicate over columns in `K` and the first `n` arguments. -/
def Pred.Uses (K : κ → Prop) (n : Nat) : Pred κ → Prop
  | .const _ => True
  | .cmp c _ p => K c ∧ p.index < n
  | .any c p => K c ∧ p.index < n
  | .like c i => K c ∧ i < n
  | .notNull c => K c
  | .and ps => UsesAll K n ps
  | .or ps => UsesAll K n ps
  | .chain ps => UsesAll K n ps
  | .coalesce p => p.Uses K n

def UsesAll (K : κ → Prop) (n : Nat) : List (Pred κ) → Prop
  | [] => True
  | p :: ps => p.Uses K n ∧ UsesAll K n ps

end

theorem usesAll_iff {K : κ → Prop} {n : Nat} : ∀ {ps : List (Pred κ)},
    UsesAll K n ps ↔ ∀ p ∈ ps, p.Uses K n
  | [] => by simp [UsesAll]
  | p :: ps => by rw [UsesAll, usesAll_iff, List.forall_mem_cons]

mutual

/-- A predicate reads no more of what it is over a part of. -/
theorem Pred.Uses.mono {K K' : κ → Prop} {n n' : Nat} (hK : ∀ c, K c → K' c) (hn : n ≤ n') :
    ∀ (p : Pred κ), p.Uses K n → p.Uses K' n'
  | .const _, _ => trivial
  | .cmp _ _ _, h => ⟨hK _ h.1, h.2.trans_le hn⟩
  | .any _ _, h => ⟨hK _ h.1, h.2.trans_le hn⟩
  | .like _ _, h => ⟨hK _ h.1, h.2.trans_le hn⟩
  | .notNull _, h => hK _ h
  | .and ps, h => UsesAll.mono hK hn ps h
  | .or ps, h => UsesAll.mono hK hn ps h
  | .chain ps, h => UsesAll.mono hK hn ps h
  | .coalesce p, h => Pred.Uses.mono hK hn p h

theorem UsesAll.mono {K K' : κ → Prop} {n n' : Nat} (hK : ∀ c, K c → K' c) (hn : n ≤ n') :
    ∀ (ps : List (Pred κ)), UsesAll K n ps → UsesAll K' n' ps
  | [], _ => trivial
  | p :: ps, h => ⟨Pred.Uses.mono hK hn p h.1, UsesAll.mono hK hn ps h.2⟩

end

section
variable [Engine] {K : κ → Prop} {n : Nat} {args args' : List Arg} {row row' : κ → Value}
    {kind : κ → Kind}

theorem takesAll_iff : ∀ {ps : List (Pred κ)}, takesAll args kind ps = true ↔
    ∀ p ∈ ps, p.takes args kind = true
  | [] => by simp [takesAll]
  | p :: ps => by rw [takesAll, Bool.and_eq_true, takesAll_iff, List.forall_mem_cons]

mutual

/-- The database takes the arguments a predicate reads, whatever the others. -/
theorem Pred.Uses.takes_congr (hargs : ∀ i < n, args[i]? = args'[i]?) : ∀ (p : Pred κ), p.Uses K n →
    p.takes args kind = p.takes args' kind
  | .const _, _ => rfl
  | .cmp c _ p, h => by rw [Pred.takes, Pred.takes, hargs p.index h.2]
  | .any c p, h => by rw [Pred.takes, Pred.takes, hargs p.index h.2]
  | .like _ i, h => by rw [Pred.takes, Pred.takes, hargs i h.2]
  | .notNull _, _ => rfl
  | .and ps, h => UsesAll.takes_congr hargs ps h
  | .or ps, h => UsesAll.takes_congr hargs ps h
  | .chain ps, h => UsesAll.takes_congr hargs ps h
  | .coalesce p, h => Pred.Uses.takes_congr hargs p h

theorem UsesAll.takes_congr (hargs : ∀ i < n, args[i]? = args'[i]?) :
    ∀ (ps : List (Pred κ)), UsesAll K n ps → takesAll args kind ps = takesAll args' kind ps
  | [], _ => rfl
  | p :: ps, h => by
      rw [takesAll, takesAll, Pred.Uses.takes_congr hargs p h.1, UsesAll.takes_congr hargs ps h.2]

end

theorem value_congr {p : Param} (h : args[p.index]? = args'[p.index]?) :
    p.value args = p.value args' := by
  funext k
  rw [Param.value, Param.value, h]

theorem values_congr {p : Param} (h : args[p.index]? = args'[p.index]?) :
    p.values args = p.values args' := by
  funext k
  rw [Param.values, Param.values, h]

mutual

/-- A predicate cannot tell apart rows that agree on the columns it reads. -/
theorem Pred.Uses.eval_congr (hargs : ∀ i < n, args[i]? = args'[i]?)
    (hrow : ∀ c, K c → row c = row' c) :
    ∀ (p : Pred κ), p.Uses K n → p.eval args row = p.eval args' row'
  | .const _, _ => rfl
  | .cmp c _ p, h => by
      rw [Pred.eval, Pred.eval, Value.testParam, Value.testParam, hrow c h.1,
        value_congr (hargs p.index h.2)]
  | .any c p, h => by
      rw [Pred.eval, Pred.eval, Value.testAny, Value.testAny, hrow c h.1,
        values_congr (hargs p.index h.2)]
  | .like c i, h => by
      rw [Pred.eval, Pred.eval, hrow c h.1]
      simp only [Value.testLike, hargs i h.2]
  | .notNull c, h => by rw [Pred.eval, Pred.eval, hrow c h]
  | .and ps, h => congrArg Tri.all (UsesAll.evals_congr hargs hrow ps h)
  | .or ps, h => congrArg Tri.any (UsesAll.evals_congr hargs hrow ps h)
  | .chain ps, h => congrArg Tri.all (UsesAll.evals_congr hargs hrow ps h)
  | .coalesce p, h => by rw [Pred.eval, Pred.eval, Pred.Uses.eval_congr hargs hrow p h]

/-- Conditions are decided by what they use. -/
theorem UsesAll.evals_congr (hargs : ∀ i < n, args[i]? = args'[i]?)
    (hrow : ∀ c, K c → row c = row' c) :
    ∀ (ps : List (Pred κ)), UsesAll K n ps → evals args row ps = evals args' row' ps
  | [], _ => rfl
  | p :: ps, h => by
      rw [evals, evals, Pred.Uses.eval_congr hargs hrow p h.1,
        UsesAll.evals_congr hargs hrow ps h.2]

end

end

end

end BeSdk.Sql
