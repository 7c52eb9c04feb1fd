/-
BeSdk.Lib.Agreement — a scan that compares every element with the first of its group.

The scan keeps the first element of each key, and every later element of that key must
be the same as it (`FirstAgrees`). Where being the same is symmetric and transitive, it need not
be reflexive, that is agreement of any two elements of one key (`agrees_iff_pairwise`).
-/
import BeSdk.Lib.Fallible
import Mathlib.Data.List.Nodup

namespace BeSdk

variable {α β κ ε : Type} [DecidableEq κ]

/-- Every element of the list is the same as the first of its key, the elements of `first`
included. -/
def FirstAgrees (key : α → κ) (same : α → α → Prop) (first : List α) : List α → Prop
  | [] => True
  | x :: xs =>
      match first.find? (key · = key x) with
      | none => FirstAgrees key same (first ++ [x]) xs
      | some f => same f x ∧ FirstAgrees key same first xs

section
variable {key : α → κ} {same : α → α → Prop}

theorem agrees_from_iff_pairwise (symm : ∀ x y, same x y → same y x)
    (trans : ∀ x y z, same x y → same y z → same x z) : ∀ (xs : List α) (first : List α),
    (first.map key).Nodup → (FirstAgrees key same first xs ↔
      xs.Pairwise (fun x y => key x = key y → same x y) ∧ ∀ f ∈ first, ∀ x ∈ xs, key f =
      key x → same f x)
  | [], first, _ => by simp [FirstAgrees]
  | x :: xs, first, hnodup => by
      rw [FirstAgrees, List.pairwise_cons]
      cases hfind : first.find? (key · = key x) with
      | none =>
        have hnew : ∀ f ∈ first, key f ≠ key x := by simpa using hfind
        have hnodup' : ((first ++ [x]).map key).Nodup := by
          rw [List.map_append, List.nodup_append]
          exact ⟨hnodup, by simp, by simpa using hnew⟩
        simp only
        rw [agrees_from_iff_pairwise symm trans xs _ hnodup']
        constructor
        · rintro ⟨hpairs, hfirst⟩
          refine ⟨⟨fun y hy => hfirst x (by simp) y hy, hpairs⟩, fun f hf y hy => ?_⟩
          rcases List.mem_cons.mp hy with rfl | hy
          · exact fun h => absurd h (hnew f hf)
          · exact hfirst f (List.mem_append_left _ hf) y hy
        · rintro ⟨⟨hx, hpairs⟩, hfirst⟩
          refine ⟨hpairs, fun f hf y hy => ?_⟩
          rcases List.mem_append.mp hf with hf | hf
          · exact hfirst f hf y (List.mem_cons_of_mem _ hy)
          · rw [List.mem_singleton.mp hf]
            exact hx y hy
      | some f =>
        have hmem := List.mem_of_find?_eq_some hfind
        have hkey : key f = key x := by simpa using List.find?_some hfind
        simp only
        rw [agrees_from_iff_pairwise symm trans xs _ hnodup]
        constructor
        · rintro ⟨hsame, hpairs, hfirst⟩
          refine ⟨⟨fun y hy h => ?_, hpairs⟩, fun g hg y hy => ?_⟩
          · exact trans x f y (symm f x hsame) (hfirst f hmem y hy (hkey.trans h))
          rcases List.mem_cons.mp hy with rfl | hy
          · intro h
            rw [List.inj_on_of_nodup_map hnodup hg hmem (h.trans hkey.symm)]
            exact hsame
          · exact hfirst g hg y hy
        · rintro ⟨⟨-, hpairs⟩, hfirst⟩
          exact ⟨hfirst f hmem x List.mem_cons_self hkey, hpairs,
            fun g hg y hy => hfirst g hg y (List.mem_cons_of_mem _ hy)⟩

/-- Agreement with the first of each key is agreement of any two. -/
theorem agrees_iff_pairwise (symm : ∀ x y, same x y → same y x)
    (trans : ∀ x y z, same x y → same y z → same x z) (xs : List α) :
    FirstAgrees key same [] xs ↔ xs.Pairwise fun x y => key x = key y → same x y := by
  simpa using agrees_from_iff_pairwise symm trans xs [] (by simp)

end

/-- What holds of the results of any two elements. -/
theorem pairwise_of_mapM_iff {f : α → Except ε β} {Q : β → β → Prop} {l : List α} {bs : List β}
    (h : l.mapM f = .ok bs) :
    bs.Pairwise Q ↔ l.Pairwise fun a a' => ∀ b b', f a = .ok b → f a' = .ok b' → Q b b' := by
  induction mapM_eq_ok_iff.mp h with
  | nil => simp
  | @cons a b l bs hab hrest ih =>
    have hmap := mapM_eq_ok_iff.mpr hrest
    rw [List.pairwise_cons, List.pairwise_cons, ih hmap]
    refine and_congr_left' ?_
    constructor
    · intro hall a' ha' c c' hc hc'
      obtain ⟨d, hd, had⟩ := exists_mem_zip_of_mapM hmap a' ha'
      rw [hab, Except.ok.injEq] at hc
      rw [hc', Except.ok.injEq] at had
      rw [← hc, had]
      exact hall d (List.of_mem_zip hd).2
    · intro hall b' hb'
      obtain ⟨a', ha', hfa'⟩ := exists_of_mem_mapM hmap b' hb'
      exact hall a' ha' b b' hab hfa'

end BeSdk
