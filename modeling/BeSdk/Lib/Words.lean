/-
BeSdk.Lib.Words — texts with several separators, and what is left of them when all
separators are written as one.

A text has words between its separators. `unite` writes every separator as the same
character, so it keeps the words and forgets which separator stood between them:
two texts are united to the same one exactly when they have the same words
(`unite_eq_iff`).
-/
import Mathlib.Data.List.Basic

namespace BeSdk

variable {α : Type}

/-- Every separator written as `a`. -/
def unite (sep : α → Bool) (a : α) (xs : List α) : List α := xs.map fun x => if sep x then a else x

/-- A text whose only separator is `a` already is united. -/
theorem unite_eq_self {sep : α → Bool} {a : α} {xs : List α} (h : ∀ x ∈ xs, sep x = true →
    x = a) : unite sep a xs = xs := by
  calc xs.map (fun x => if sep x then a else x) = xs.map id := by
        refine List.map_congr_left fun x hx => ?_
        split
        · next hsep => exact (h x hx hsep).symm
        · rfl
    _ = xs := List.map_id xs

/-- A map that keeps apart the characters of two texts keeps the texts apart. -/
theorem eq_of_map_eq {β : Type} {f : α → β} {p : α → Prop}
    (hf : ∀ x y, p x → p y → f x = f y → x = y) :
    ∀ {xs ys : List α}, (∀ x ∈ xs, p x) → (∀ y ∈ ys, p y) → xs.map f = ys.map f → xs = ys
  | [], [], _, _, _ => rfl
  | [], _ :: _, _, _, h => nomatch h
  | _ :: _, [], _, _, h => nomatch h
  | x :: xs, y :: ys, hxs, hys, h => by
      obtain ⟨hx, hxs⟩ := List.forall_mem_cons.mp hxs
      obtain ⟨hy, hys⟩ := List.forall_mem_cons.mp hys
      rw [List.map_cons, List.map_cons, List.cons.injEq] at h
      rw [hf x y hx hy h.1, eq_of_map_eq hf hxs hys h.2]

variable [BEq α] [LawfulBEq α]

/-- What is no separator is in a word. -/
theorem exists_mem_splitOn {a x : α} (hne : x ≠ a) :
    ∀ {xs : List α}, x ∈ xs → ∃ word ∈ xs.splitOn a, x ∈ word
  | [], hx => absurd hx (by simp)
  | y :: rest, hx => by
      rw [List.splitOn_cons_eq_if_modifyHead]
      obtain ⟨word, words, hsplit⟩ := List.exists_cons_of_ne_nil (List.splitOn_ne_nil a rest)
      rcases List.mem_cons.mp hx with rfl | hrest
      · refine ⟨x :: word, ?_, List.mem_cons_self ..⟩
        simp [hne, hsplit]
      · obtain ⟨found, hfound, hmem⟩ := exists_mem_splitOn hne hrest
        by_cases hy : y = a
        · exact ⟨found, by simp [hy, hfound], hmem⟩
        · rw [if_neg (by simpa using hy), hsplit, List.modifyHead_cons]
          rw [hsplit] at hfound
          rcases List.mem_cons.mp hfound with rfl | hfound
          · exact ⟨y :: found, List.mem_cons_self .., List.mem_cons_of_mem _ hmem⟩
          · exact ⟨found, List.mem_cons_of_mem _ hfound, hmem⟩

/-- The words are what stands between the separators of the united text. -/
theorem splitOn_unite {sep : α → Bool} {a : α} (ha : sep a = true) : ∀ xs : List α,
    (unite sep a xs).splitOn a = xs.splitOnP sep
  | [] => rfl
  | x :: rest => by
      have ih := splitOn_unite ha rest
      rw [unite, List.map_cons, ← unite, List.splitOn_cons_eq_if_modifyHead,
        List.splitOnP_cons_eq_if_modifyHead, ih]
      by_cases hx : sep x = true
      · simp [hx]
      · -- A character that is no separator is not `a`.
        have hne : x ≠ a := fun heq => hx (heq ▸ ha)
        simp [hx, hne]

/-- Texts that are united to the same one have the same words. -/
theorem unite_eq_iff {sep : α → Bool} {a : α} (ha : sep a = true) {xs ys : List α} :
    unite sep a xs = unite sep a ys ↔ xs.splitOnP sep = ys.splitOnP sep := by
  constructor
  · intro h
    rw [← splitOn_unite ha xs, h, splitOn_unite ha]
  · intro h
    calc unite sep a xs = [a].intercalate ((unite sep a xs).splitOn a) :=
      (List.intercalate_splitOn a).symm
      _ = [a].intercalate ((unite sep a ys).splitOn a) := by
        rw [splitOn_unite ha, splitOn_unite ha, h]
      _ = unite sep a ys := List.intercalate_splitOn a

end BeSdk
