/-
BeSdk.Lib.Dict — insertion-ordered dictionaries.

A `Dict` is a list of entries whose keys are distinct; the `nodup` field is a
proof, so a dictionary that answers one key twice cannot be built. Iteration
(`items`, `values`) is in insertion order, `set` replaces the value of a key it
already holds in place and appends a new key at the end: the order a walk over
the values meets them in is part of the meaning, not an accident.

`ofPairs` is the constructor from a list of pairs: a repeated key keeps its
first position and its last value.
-/
import Mathlib.Data.List.Nodup

namespace BeSdk

/-- A dictionary: distinct keys, in insertion order. -/
structure Dict (κ : Type) (α : Type) where
  entries : List (κ × α)
  nodup : (entries.map Prod.fst).Nodup

variable {κ α β : Type}

/-- The dictionary without entries. -/
def Dict.empty : Dict κ α := ⟨[], by simp⟩

instance [DecidableEq κ] [DecidableEq α] : DecidableEq (Dict κ α) := fun a b =>
  decidable_of_iff (a.entries = b.entries) <| by
    cases a; cases b; simp

def Dict.keys (d : Dict κ α) : List κ := d.entries.map Prod.fst

def Dict.values (d : Dict κ α) : List α := d.entries.map Prod.snd

def Dict.size (d : Dict κ α) : Nat := d.entries.length

/-! ## Lookup -/

section
variable [DecidableEq κ]

/-- The value of the first entry with key `k` (of its only one, in a `Dict`). -/
def lookup (k : κ) : List (κ × α) → Option α
  | [] => none
  | (k', v) :: rest => if k' = k then some v else lookup k rest

def Dict.get? (d : Dict κ α) (k : κ) : Option α := lookup k d.entries

/-- What is looked up is in the list. -/
theorem mem_of_lookup {k : κ} {v : α} : ∀ {l : List (κ × α)}, lookup k l = some v → (k, v) ∈ l
  | [], h => by simp [lookup] at h
  | (k', v') :: rest, h => by
      rw [lookup] at h
      split at h
      · next hk => simp_all
      · exact List.mem_cons_of_mem _ (mem_of_lookup h)

/-- What is in a list without repeated keys is looked up. -/
theorem lookup_of_mem {k : κ} {v : α} : ∀ {l : List (κ × α)}, (l.map Prod.fst).Nodup →
    (k, v) ∈ l → lookup k l = some v
  | [], _, h => by simp at h
  | (k', v') :: rest, hnd, h => by
      rw [List.map_cons, List.nodup_cons] at hnd
      rw [lookup]
      rcases List.mem_cons.mp h with heq | hmem
      · obtain ⟨rfl, rfl⟩ := Prod.mk.injEq .. ▸ heq
        simp
      · have hne : k' ≠ k := by
          rintro rfl
          exact hnd.1 (List.mem_map.mpr ⟨(k', v), hmem, rfl⟩)
        rw [if_neg hne, lookup_of_mem hnd.2 hmem]

/-- Lists that go along, key by key, answer along. -/
theorem lookup_forall₂ {R : α → β → Prop} {l : List (κ × α)} {l' : List (κ × β)}
    (h : List.Forall₂ (fun p q => p.1 = q.1 ∧ R p.2 q.2) l l') (k : κ) :
    Option.Rel R (lookup k l) (lookup k l') := by
  induction h with
  | nil => exact .none
  | @cons p q l l' hpq _ ih =>
    obtain ⟨k', x⟩ := p
    obtain ⟨k'', y⟩ := q
    obtain ⟨rfl, hxy⟩ := hpq
    unfold lookup
    split
    · exact .some hxy
    · exact ih

/-- A key that is not there has nothing. -/
theorem lookup_eq_none_iff {k : κ} : ∀ {l : List (κ × α)},
    lookup k l = none ↔ k ∉ l.map Prod.fst
  | [] => by simp [lookup]
  | (k', v') :: rest => by
      rw [lookup]
      split
      · next hk => simp [hk]
      · next hk => simp [lookup_eq_none_iff, Ne.symm hk]

/-- In a dictionary, lookup and membership are the same thing. -/
theorem Dict.get?_eq_some_iff {d : Dict κ α} {k : κ} {v : α} :
    d.get? k = some v ↔ (k, v) ∈ d.entries :=
  ⟨mem_of_lookup, lookup_of_mem d.nodup⟩

@[simp] theorem Dict.get?_empty (k : κ) : (Dict.empty : Dict κ α).get? k = none := rfl

/-! ## Update -/

/-- Replace the value of `k` where it stands, or append the entry. -/
def assign (k : κ) (v : α) : List (κ × α) → List (κ × α)
  | [] => [(k, v)]
  | (k', v') :: rest => if k' = k then (k, v) :: rest else (k', v') :: assign k v rest

/-- An assignment keeps the keys and adds its own behind. -/
theorem keys_assign (k : κ) (v : α) : ∀ l : List (κ × α),
    (assign k v l).map Prod.fst
      = if k ∈ l.map Prod.fst then l.map Prod.fst else l.map Prod.fst ++ [k]
  | [] => by simp [assign]
  | (k', v') :: rest => by
      rw [assign]
      by_cases hk : k' = k
      · simp [hk]
      · rw [if_neg hk, List.map_cons, keys_assign k v rest]
        by_cases hmem : k ∈ rest.map Prod.fst <;> simp_all [Ne.symm hk]

theorem nodup_assign {k : κ} {v : α} {l : List (κ × α)} (h : (l.map Prod.fst).Nodup) :
    ((assign k v l).map Prod.fst).Nodup := by
  rw [keys_assign]
  split
  · exact h
  · next hk => exact List.nodup_append.mpr ⟨h, by simp, by rintro a ha b hb rfl; simp_all⟩

/-- What is assigned is looked up. -/
theorem lookup_assign_self (k : κ) (v : α) : ∀ l : List (κ × α),
    lookup k (assign k v l) = some v
  | [] => by simp [assign, lookup]
  | (k', v') :: rest => by
      rw [assign]
      split
      · simp [lookup]
      · next hk => rw [lookup, if_neg hk, lookup_assign_self k v rest]

/-- Other keys keep their values. -/
theorem lookup_assign_of_ne {k j : κ} (v : α) (h : j ≠ k) : ∀ l : List (κ × α),
    lookup j (assign k v l) = lookup j l
  | [] => by simp [assign, lookup, h.symm]
  | (k', v') :: rest => by
      rw [assign]
      split
      · next hk => simp [lookup, hk, h.symm]
      · rw [lookup, lookup, lookup_assign_of_ne v h rest]

/-- `d[k] = v`. -/
def Dict.set (d : Dict κ α) (k : κ) (v : α) : Dict κ α :=
  ⟨assign k v d.entries, nodup_assign d.nodup⟩

@[simp] theorem Dict.get?_set_self (d : Dict κ α) (k : κ) (v : α) :
    (d.set k v).get? k = some v := lookup_assign_self k v d.entries

theorem Dict.get?_set_of_ne (d : Dict κ α) {k j : κ} (v : α) (h : j ≠ k) :
    (d.set k v).get? j = d.get? j := lookup_assign_of_ne v h d.entries

theorem Dict.get?_set (d : Dict κ α) (k j : κ) (v : α) :
    (d.set k v).get? j = if j = k then some v else d.get? j := by
  split
  · next h => rw [h, Dict.get?_set_self]
  · next h => rw [Dict.get?_set_of_ne d v h]

/-- `dict(pairs)`: a repeated key keeps its first place and its last value. -/
def Dict.ofPairs (pairs : List (κ × α)) : Dict κ α :=
  pairs.foldl (fun d p => d.set p.1 p.2) Dict.empty

/-- A new key is added at the end. -/
theorem assign_of_not_mem {k : κ} {v : α} : ∀ {l : List (κ × α)}, k ∉ l.map Prod.fst →
    assign k v l = l ++ [(k, v)]
  | [], _ => rfl
  | (k', v') :: rest, h => by
      rw [List.map_cons, List.mem_cons, not_or] at h
      rw [assign, if_neg (Ne.symm h.1), assign_of_not_mem h.2, List.cons_append]

theorem mem_of_mem_assign {k : κ} {v : α} {x : κ × α} : ∀ {l : List (κ × α)}, x ∈ assign k v l →
    x = (k, v) ∨ x ∈ l
  | [], h => by simpa [assign] using h
  | (k', v') :: rest, h => by
      rw [assign] at h
      split at h
      · rcases List.mem_cons.mp h with h | h
        · exact Or.inl h
        · exact Or.inr (List.mem_cons_of_mem _ h)
      · rcases List.mem_cons.mp h with rfl | h
        · exact Or.inr (List.mem_cons_self ..)
        · exact (mem_of_mem_assign h).imp_right (List.mem_cons_of_mem _)

/-- A dictionary holds nothing but the pairs it was made from. -/
theorem Dict.mem_pairs_of_mem_ofPairs {pairs : List (κ × α)} {x : κ × α}
    (h : x ∈ (Dict.ofPairs pairs).entries) : x ∈ pairs := by
  have hfold : ∀ (l : List (κ × α)) (d : Dict κ α),
      x ∈ (l.foldl (fun d p => d.set p.1 p.2) d).entries → x ∈ d.entries ∨ x ∈ l := by
    intro l
    induction l with
    | nil => exact fun d h => Or.inl h
    | cons p l ih =>
        intro d h
        rcases ih (d.set p.1 p.2) h with h | h
        · rcases mem_of_mem_assign h with rfl | h
          · exact Or.inr (List.mem_cons_self ..)
          · exact Or.inl h
        · exact Or.inr (List.mem_cons_of_mem _ h)
  exact (hfold pairs Dict.empty h).resolve_left (by simp [Dict.empty])

/-- Pairs of new keys are added in their order. -/
theorem entries_foldl_set : ∀ (pairs : List (κ × α)) (d : Dict κ α),
    ((d.entries ++ pairs).map Prod.fst).Nodup →
    (pairs.foldl (fun d p => d.set p.1 p.2) d).entries = d.entries ++ pairs
  | [], d, _ => by simp
  | (k, v) :: rest, d, h => by
      have hk : k ∉ d.entries.map Prod.fst := by
        intro hmem
        rw [List.map_append, List.nodup_append] at h
        exact h.2.2 k hmem k (by simp) rfl
      have hset : (d.set k v).entries = d.entries ++ [(k, v)] := assign_of_not_mem hk
      rw [List.foldl_cons, entries_foldl_set rest (d.set k v) (by rw [hset]; simpa using h), hset,
        List.append_assoc, List.singleton_append]

/-- Pairs with distinct keys are the entries of their dictionary. -/
theorem Dict.entries_ofPairs {pairs : List (κ × α)} (h : (pairs.map Prod.fst).Nodup) :
    (Dict.ofPairs pairs).entries = pairs := by
  simpa [Dict.ofPairs, Dict.empty] using entries_foldl_set pairs Dict.empty (by simpa [Dict.empty])

/-- A key that pairs are set at, or that was there before, is there. -/
theorem isSome_foldl_set (k : κ) : ∀ (pairs : List (κ × α)) (d : Dict κ α),
    ((pairs.foldl (fun d p => d.set p.1 p.2) d).get? k).isSome = true ↔
      (d.get? k).isSome = true ∨ k ∈ pairs.map Prod.fst
  | [], d => by simp
  | (k', v') :: rest, d => by
      rw [List.foldl_cons, isSome_foldl_set k rest, Dict.get?_set]
      by_cases hk : k = k'
      · simp [hk]
      · simp [hk]

theorem Dict.isSome_get?_ofPairs {pairs : List (κ × α)} {k : κ} :
    ((Dict.ofPairs pairs).get? k).isSome = true ↔ k ∈ pairs.map Prod.fst := by
  simpa [Dict.ofPairs] using isSome_foldl_set k pairs Dict.empty

/-- Where the keys are distinct every pair is looked up as it is. -/
theorem Dict.get?_ofPairs {pairs : List (κ × α)} (h : (pairs.map Prod.fst).Nodup) {k : κ} {v : α}
    (hmem : (k, v) ∈ pairs) : (Dict.ofPairs pairs).get? k = some v := by
  rw [Dict.get?_eq_some_iff, Dict.entries_ofPairs h]
  exact hmem

end

/-! ## Mapping the values -/

/-- The same keys with every value mapped. -/
def Dict.map (f : α → β) (d : Dict κ α) : Dict κ β :=
  ⟨d.entries.map fun p => (p.1, f p.2), by simpa [Function.comp_def] using d.nodup⟩

theorem lookup_map [DecidableEq κ] (f : α → β) (k : κ) : ∀ l : List (κ × α),
    lookup k (l.map fun p => (p.1, f p.2)) = (lookup k l).map f
  | [] => rfl
  | (k', v') :: rest => by
      rw [List.map_cons, lookup, lookup]
      split
      · rfl
      · exact lookup_map f k rest

@[simp] theorem Dict.get?_map [DecidableEq κ] (f : α → β) (d : Dict κ α) (k : κ) :
    (d.map f).get? k = (d.get? k).map f := lookup_map f k d.entries

end BeSdk
