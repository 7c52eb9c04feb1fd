/-
BeSdk.Lib.Registry — tables whose entries are made once, by whoever comes first.

An owner registers a value under the name it has; an entry that is there already stays.
Two owners with one name share an entry, and it is the first one's. So every owner finds
an entry of its own, in whatever order they come, exactly when no two have one name
(`own_iff`).
-/
import BeSdk.Lib.Dict

namespace BeSdk

variable {κ α ι : Type} [DecidableEq κ]

/-- `d.setdefault(k, v)` -/
def Dict.setDefault (d : Dict κ α) (k : κ) (v : α) : Dict κ α :=
  match d.get? k with
  | some _ => d
  | none => d.set k v

theorem Dict.get?_setDefault (d : Dict κ α) (k j : κ) (v : α) :
    (d.setDefault k v).get? j = if j = k then some ((d.get? k).getD v) else d.get? j := by
  unfold Dict.setDefault
  split
  · next found hfound =>
      by_cases hj : j = k
      · subst hj
        rw [if_pos rfl, hfound, Option.getD_some]
      · rw [if_neg hj]
  · next hnone => rw [Dict.get?_set, hnone, Option.getD_none]

/-- The table after some registrations, oldest first. -/
def registered (name : ι → κ) (d : Dict κ α) (entries : List (ι × α)) : Dict κ α :=
  entries.foldl (fun d e => d.setDefault (name e.1) e.2) d

/-- The first registration under a name is the one that stays. -/
theorem get?_registered (name : ι → κ) (k : κ) : ∀ (entries : List (ι × α)) (d : Dict κ α),
    (registered name d entries).get? k =
    (d.get? k).or ((entries.find? fun e => name e.1 = k).map Prod.snd)
  | [], d => by
      rw [List.find?_nil, Option.map_none, Option.or_none]
      rfl
  | e :: rest, d => by
      have ih := get?_registered name k rest (d.setDefault (name e.1) e.2)
      rw [registered, List.foldl_cons, ← registered, ih, Dict.get?_setDefault]
      by_cases hk : k = name e.1
      · subst hk
        rw [if_pos rfl, List.find?_cons_of_pos (by simp)]
        cases d.get? (name e.1) <;> rfl
      · rw [if_neg hk, List.find?_cons_of_neg (by simpa using fun h => hk h.symm)]

/-- **Owners are kept apart exactly by names of their own.** Of two owners with values
that differ: each finds what it has registered, whoever comes first, if and only if their
names differ. -/
theorem own_iff (name : ι → κ) {i j : ι} {v w : α} (hne : v ≠ w) :
    ((registered name Dict.empty [(i, v), (j, w)]).get? (name i) = some v ∧
      (registered name Dict.empty [(i, v), (j, w)]).get? (name j) = some w ∧
      (registered name Dict.empty [(j, w), (i, v)]).get? (name i) = some v ∧
      (registered name Dict.empty [(j, w), (i, v)]).get? (name j) = some w) ↔ name i ≠ name j := by
  have hempty : ∀ k : κ, (Dict.empty : Dict κ α).get? k = none := fun _ => rfl
  simp only [get?_registered, hempty, Option.none_or]
  constructor
  · rintro ⟨-, hw, -, -⟩ hname
    rw [List.find?_cons_of_pos (by simpa using hname)] at hw
    exact hne (Option.some.inj hw)
  · intro hname
    have hname' : name j ≠ name i := Ne.symm hname
    simp [hname, hname']

end BeSdk
