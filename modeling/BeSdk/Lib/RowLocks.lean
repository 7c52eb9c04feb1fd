/-
BeSdk.Lib.RowLocks — transactions that change rows of one table, at READ COMMITTED.

A statement sees the rows that are committed when it begins, with what its own transaction
has changed; it picks rows of these and then comes to one after the other. A row that
another running transaction has changed is locked until that one ends, and who comes to it
waits. What is changed is the row as it is committed by then, so its condition is judged
again there. What a transaction has changed is in the table when it commits.

What is built on this gives each transaction a task, and says of a task which actions it
may take on the row of a key (`A`). Nobody else can change a row between the lock and the
commit, so a commit makes of each row that it changes what actions of its task make of the
row as it is committed (`Store.Sound.changed`).
-/
import BeSdk.Lib.Dict
import BeSdk.Lib.History

namespace BeSdk.RowLocks

variable {κ ρ τ : Type} [DecidableEq κ]

/-! ## Changes -/

/-- Rows as they were changed, by their keys; `none` is a deleted one. -/
abbrev Changes (κ ρ : Type) := Dict κ (Option ρ)

/-- An entry with changes over it. -/
def Changes.entry (c : Changes κ ρ) (x : κ × ρ) : Option (κ × ρ) :=
  match c.get? x.1 with
  | none => some x
  | some change => change.map fun r => (x.1, r)

theorem Changes.entry_key {c : Changes κ ρ} {x y : κ × ρ} (h : c.entry x = some y) : y.1 = x.1 := by
  rw [entry] at h
  split at h
  · cases h
    rfl
  · obtain ⟨r, -, rfl⟩ := Option.map_eq_some_iff.mp h
    rfl

/-- Changes keep the order of the keys. -/
theorem Changes.keys_entries (c : Changes κ ρ) : ∀ l : List (κ × ρ),
    ((l.filterMap c.entry).map Prod.fst).Sublist (l.map Prod.fst)
  | [] => List.Sublist.refl _
  | x :: l => by
      have ih := keys_entries c l
      rw [List.filterMap_cons]
      split
      · exact ih.cons _
      · next y hy =>
        rw [List.map_cons, List.map_cons, entry_key hy]
        exact ih.cons_cons _

/-- A table with changes over it. -/
def Changes.apply (c : Changes κ ρ) (d : Dict κ ρ) : Dict κ ρ where
  entries := d.entries.filterMap c.entry
  nodup := (c.keys_entries d.entries).nodup d.nodup

/-- What is read after the changes. -/
theorem Changes.get?_apply (c : Changes κ ρ) (d : Dict κ ρ) (k : κ) :
    (c.apply d).get? k = (d.get? k).bind fun r => (c.get? k).getD (some r) := by
  refine Option.ext fun r => ?_
  rw [Dict.get?_eq_some_iff, Option.bind_eq_some_iff]
  constructor
  · intro h
    obtain ⟨⟨j, r₀⟩, hmem, hentry⟩ := List.mem_filterMap.mp h
    obtain rfl : k = j := Changes.entry_key hentry
    refine ⟨r₀, Dict.get?_eq_some_iff.mpr hmem, ?_⟩
    rw [entry] at hentry
    cases hc : c.get? k with
    | none =>
        rw [hc] at hentry
        cases hentry
        rfl
    | some change =>
        rw [hc] at hentry
        obtain ⟨r', hr', heq⟩ := Option.map_eq_some_iff.mp hentry
        cases heq
        exact hr'
  · rintro ⟨r₀, hr₀, hr⟩
    refine List.mem_filterMap.mpr ⟨(k, r₀), Dict.get?_eq_some_iff.mp hr₀, ?_⟩
    rw [entry]
    cases hc : c.get? k with
    | none =>
        rw [hc] at hr
        cases hr
        rfl
    | some change =>
        rw [hc] at hr
        obtain rfl : change = some r := hr
        rfl

/-- A row that was not changed. -/
theorem Changes.get?_apply_of_none {c : Changes κ ρ} {k : κ} (h : c.get? k = none) (d : Dict κ ρ) :
    (c.apply d).get? k = d.get? k := by
  rw [get?_apply, h]
  cases d.get? k <;> rfl

/-- A row that was changed. -/
theorem Changes.get?_apply_of_some {c : Changes κ ρ} {k : κ} {change : Option ρ}
    (h : c.get? k = some change) {d : Dict κ ρ} (hd : (d.get? k).isSome = true) :
    (c.apply d).get? k = change := by
  obtain ⟨r, hr⟩ := Option.isSome_iff_exists.mp hd
  rw [get?_apply, h, hr]
  rfl

/-! ## Transactions -/

/-- What a statement does to a row it comes to; it may raise there. -/
inductive Effect (ρ : Type) where
  | raises
  | skips
  | deletes
  | updates (r : ρ)

abbrev Action (ρ : Type) := ρ → Effect ρ

inductive TxStage where
  | running
  | committed
  | aborted
  deriving DecidableEq

/-- A transaction: what it does, what it has changed, and the rows that its statement has
still to come to. -/
structure Tx (κ ρ τ : Type) where
  task : τ
  own : Changes κ ρ := .empty
  left : List (κ × Action ρ) := []
  stage : TxStage := .running

/-- A table and the transactions that were begun. -/
structure Store (κ ρ τ : Type) where
  table : Dict κ ρ := .empty
  txs : List (Tx κ ρ τ) := []

/-- A running transaction goes on. -/
def Store.go (s : Store κ ρ τ) (i : Nat) (f : Tx κ ρ τ → Tx κ ρ τ) : Store κ ρ τ :=
  match s.txs[i]? with
  | some tx => if tx.stage = .running then { s with txs := s.txs.set i (f tx) } else s
  | none => s

/-- Another running transaction has changed the row. -/
def Store.locked (s : Store κ ρ τ) (i : Nat) (k : κ) : Bool :=
  s.txs.zipIdx.any fun x => x.2 != i && x.1.stage == .running && (x.1.own.get? k).isSome

def Store.begin_ (s : Store κ ρ τ) (task : τ) : Store κ ρ τ := { s with txs := s.txs ++ [{ task }] }

/-- The row of a key that is new, inserted and committed. -/
def Store.insert (s : Store κ ρ τ) (k : κ) (r : ρ) : Store κ ρ τ :=
  if (s.table.get? k).isSome then s else { s with table := s.table.set k r }

/-- A statement comes to its next row. -/
def Tx.visit (table : Dict κ ρ) (tx : Tx κ ρ τ) : Tx κ ρ τ :=
  match tx.left with
  | [] => tx
  | (k, act) :: left =>
      match (tx.own.apply table).get? k with
      | none => { tx with left }
      | some r =>
          match act r with
          | .raises => { tx with stage := .aborted }
          | .skips => { tx with left }
          | .deletes => { tx with left, own := tx.own.set k none }
          | .updates r' => { tx with left, own := tx.own.set k (some r') }

/-- The statement waits where the next row is locked. -/
def Store.visit (s : Store κ ρ τ) (i : Nat) : Store κ ρ τ :=
  s.go i fun tx => if tx.left.head?.any fun x => s.locked i x.1 then tx else tx.visit s.table

def Store.abort (s : Store κ ρ τ) (i : Nat) : Store κ ρ τ :=
  s.go i fun tx => { tx with stage := .aborted }

/-- A transaction commits between two statements. -/
def Store.commit (s : Store κ ρ τ) (i : Nat) : Store κ ρ τ :=
  match s.txs[i]? with
  | some tx =>
      if tx.stage = .running ∧ tx.left.isEmpty then
        { table := tx.own.apply s.table, txs := s.txs.set i { tx with stage := .committed } }
      else s
  | none => s

/-! ## What was changed -/

/-- What some actions make of a row, one after the other. -/
inductive Via (A : Action ρ → Prop) (r : ρ) : Option ρ → Prop
  | same : Via A r (some r)
  | updates {r' r'' : ρ} {act : Action ρ} : Via A r (some r') → A act →
      act r' = .updates r'' → Via A r (some r'')
  | deletes {r' : ρ} {act : Action ρ} : Via A r (some r') → A act → act r' = .deletes → Via A r none

/-- A change by some actions is one by more. -/
theorem Via.mono {A B : Action ρ → Prop} (h : ∀ act, A act → B act)
    {r : ρ} {change : Option ρ} (hv : Via A r change) : Via B r change := by
  induction hv with
  | same => exact .same
  | updates _ hact hmakes ih => exact .updates ih (h _ hact) hmakes
  | deletes _ hact hmakes ih => exact .deletes ih (h _ hact) hmakes

variable {A : τ → κ → Action ρ → Prop}

/-- A running transaction keeps to its task, and what it changed it made of the row that
is committed. -/
structure Tx.Sound (A : τ → κ → Action ρ → Prop) (table : Dict κ ρ) (tx : Tx κ ρ τ) : Prop where
  own : ∀ k change, tx.own.get? k = some change → ∃ r, table.get? k = some r ∧
    Via (A tx.task k) r change
  left : ∀ x ∈ tx.left, A tx.task x.1 x.2

/-- Running transactions are sound, and no two of them have changed one row. -/
structure Store.Sound (A : τ → κ → Action ρ → Prop) (s : Store κ ρ τ) : Prop where
  txs : ∀ tx ∈ s.txs, tx.stage = .running → tx.Sound A s.table
  alone : ∀ (i j : Nat) (tx ty : Tx κ ρ τ), s.txs[i]? = some tx → s.txs[j]? = some ty → i ≠ j →
    tx.stage = .running → ty.stage = .running → ∀ k, (tx.own.get? k).isSome = true →
    ty.own.get? k = none

theorem sound_empty : ({} : Store κ ρ τ).Sound A where
  txs _ h := by cases h
  alone _ _ _ _ h := by cases h

/-- What a running transaction has changed was made of the row that is committed. -/
theorem Store.Sound.changed {s : Store κ ρ τ} (hs : s.Sound A) {i : Nat} {tx : Tx κ ρ τ}
    (htx : s.txs[i]? = some tx) (hrun : tx.stage = .running) {k : κ} {change : Option ρ}
    (h : tx.own.get? k = some change) : ∃ r, s.table.get? k = some r ∧ Via (A tx.task k) r change :=
  (hs.txs tx (List.mem_of_getElem? htx) hrun).own k change h

theorem Tx.sound_begun (table : Dict κ ρ) (task : τ) : ({ task } : Tx κ ρ τ).Sound A table where
  own k change h := by cases h
  left x h := by cases h

/-- A transaction stays sound while the rows that it holds do not change. -/
theorem Tx.Sound.table {table table' : Dict κ ρ} {tx : Tx κ ρ τ} (h : tx.Sound A table)
    (hsame : ∀ k, (tx.own.get? k).isSome = true → table'.get? k = table.get? k) :
    tx.Sound A table' where
  own k change hk := by
    obtain ⟨r, hr, hvia⟩ := h.own k change hk
    exact ⟨r, (hsame k (Option.isSome_iff_exists.mpr ⟨_, hk⟩)).trans hr, hvia⟩
  left := h.left

/-- A task that allows more, and rows picked as it allows. -/
theorem Tx.Sound.next {table : Dict κ ρ} {tx : Tx κ ρ τ} (h : tx.Sound A table) {task : τ}
    (hmore : ∀ k act, A tx.task k act → A task k act) {left : List (κ × Action ρ)}
    (hleft : ∀ x ∈ left, A task x.1 x.2) : ({ tx with task, left } : Tx κ ρ τ).Sound A table where
  own k change hk := by
    obtain ⟨r, hr, hvia⟩ := h.own k change hk
    exact ⟨r, hr, hvia.mono (hmore k)⟩
  left := hleft

/-- The row as its transaction sees it. -/
theorem Tx.Sound.seen {table : Dict κ ρ} {tx : Tx κ ρ τ} (h : tx.Sound A table) {k : κ} {r : ρ}
    (hr : (tx.own.apply table).get? k = some r) :
    ∃ r₀, table.get? k = some r₀ ∧ Via (A tx.task k) r₀ (some r) := by
  cases hk : tx.own.get? k with
  | none =>
      rw [Changes.get?_apply_of_none hk] at hr
      exact ⟨r, hr, .same⟩
  | some change =>
      obtain ⟨r₀, hr₀, hvia⟩ := h.own k change hk
      rw [Changes.get?_apply_of_some hk (Option.isSome_iff_exists.mpr ⟨r₀, hr₀⟩)] at hr
      exact ⟨r₀, hr₀, hr ▸ hvia⟩

/-- What it comes to, it changes as its task says. -/
theorem Tx.Sound.set {table : Dict κ ρ} {tx : Tx κ ρ τ} (h : tx.Sound A table) {k : κ} {r₀ : ρ}
    (hr₀ : table.get? k = some r₀) {change : Option ρ} (hvia : Via (A tx.task k) r₀ change)
    {left : List (κ × Action ρ)} (hleft : ∀ x ∈ left, x ∈ tx.left) :
    ({ tx with left, own := tx.own.set k change } : Tx κ ρ τ).Sound A table where
  own j change' hj := by
    rw [Dict.get?_set] at hj
    split at hj
    · next heq =>
      cases heq
      cases hj
      exact ⟨r₀, hr₀, hvia⟩
    · exact h.own j change' hj
  left x hx := h.left x (hleft x hx)

/-- What a transaction does where it comes to a row. -/
theorem Tx.visit_cases (table : Dict κ ρ) (tx : Tx κ ρ τ) :
    (tx.left = [] ∧ tx.visit table = tx) ∨ ∃ k act left, tx.left = (k, act) :: left ∧
      (tx.visit table = { tx with left } ∧ (∀ r, (tx.own.apply table).get? k = some r →
        act r = .skips) ∨ tx.visit table = { tx with stage := .aborted } ∨
        ∃ r, (tx.own.apply table).get? k = some r ∧
          (act r = .deletes ∧ tx.visit table = { tx with left, own := tx.own.set k none } ∨
            ∃ r', act r = .updates r' ∧ tx.visit table =
            { tx with left, own := tx.own.set k (some r') })) := by
  unfold visit
  split
  · next hleft => exact .inl ⟨hleft, rfl⟩
  · next k act left hleft =>
    refine .inr ⟨k, act, left, hleft, ?_⟩
    cases hr : (tx.own.apply table).get? k with
    | none => exact .inl ⟨rfl, fun r h => by cases h⟩
    | some r =>
        cases hact : act r with
        | raises => exact .inr (.inl (by simp only [hact]))
        | skips => exact .inl ⟨by simp only [hact], fun r' h => by cases h; exact hact⟩
        | deletes => exact .inr (.inr ⟨r, rfl, .inl ⟨hact, by simp only [hact]⟩⟩)
        | updates r' => exact .inr (.inr ⟨r, rfl, .inr ⟨r', hact, by simp only [hact]⟩⟩)

/-- Going to the next row keeps it sound. -/
theorem Tx.Sound.visit {table : Dict κ ρ} {tx : Tx κ ρ τ} (h : tx.Sound A table) :
    (tx.visit table).Sound A table := by
  obtain ⟨-, hv⟩ | ⟨k, act, left, hleft, hv⟩ := Tx.visit_cases table tx
  · rw [hv]
    exact h
  · have hrest : ∀ x ∈ left, x ∈ tx.left := fun x hx => hleft ▸ List.mem_cons_of_mem _ hx
    have hact : A tx.task k act := h.left (k, act) (hleft ▸ List.mem_cons_self)
    obtain ⟨hv, -⟩ | hv | ⟨r, hr, ⟨hdel, hv⟩ | ⟨r', hupd, hv⟩⟩ := hv <;> rw [hv]
    · exact ⟨h.own, fun x hx => h.left x (hrest x hx)⟩
    · exact ⟨h.own, h.left⟩
    · obtain ⟨r₀, hr₀, hvia⟩ := h.seen hr
      exact h.set hr₀ (.deletes hvia hact hdel) hrest
    · obtain ⟨r₀, hr₀, hvia⟩ := h.seen hr
      exact h.set hr₀ (.updates hvia hact hupd) hrest

/-! ## Steps -/

omit [DecidableEq κ] in
/-- What goes on is there, and running. -/
theorem Store.go_cases (s : Store κ ρ τ) (i : Nat) (f : Tx κ ρ τ → Tx κ ρ τ) :
    s.go i f = s ∨ ∃ tx, s.txs[i]? = some tx ∧ tx.stage = .running ∧ s.go i f =
    { s with txs := s.txs.set i (f tx) } := by
  unfold go
  split
  · next tx htx =>
    split
    · next hrun => exact .inr ⟨tx, htx, hrun, rfl⟩
    · exact .inl rfl
  · exact .inl rfl

omit [DecidableEq κ] in
@[simp] theorem Store.go_table (s : Store κ ρ τ) (i : Nat) (f : Tx κ ρ τ → Tx κ ρ τ) :
    (s.go i f).table = s.table := by
  obtain h | ⟨tx, -, -, h⟩ := s.go_cases i f <;> rw [h]

/-- One transaction goes on, and locks rows only that no other has. -/
theorem Store.Sound.go {s : Store κ ρ τ} (hs : s.Sound A) {i : Nat} {f : Tx κ ρ τ → Tx κ ρ τ}
    (hf : ∀ tx, s.txs[i]? = some tx → tx.stage = .running → (f tx).stage = .running →
      (f tx).Sound A s.table ∧ ∀ k, ((f tx).own.get? k).isSome = true →
      (tx.own.get? k).isSome = true ∨ s.locked i k = false) :
    (s.go i f).Sound A := by
  obtain h | ⟨tx, htx, hrun, h⟩ := s.go_cases i f <;> rw [h]
  · exact hs
  · have hfree : ∀ j ty k, s.txs[j]? = some ty → j ≠ i → ty.stage = .running →
      s.locked i k = false →
        ty.own.get? k = none := by
      intro j ty k hty hji hrun' hlocked
      rw [Store.locked, List.any_eq_false] at hlocked
      have := hlocked (ty, j) (List.mem_zipIdx_iff_getElem?.mpr hty)
      simp only [hrun', bne_iff_ne.mpr hji, beq_self_eq_true, Bool.and_self, Bool.true_and] at this
      exact Option.not_isSome_iff_eq_none.mp this
    have hnew : ∀ j ty k, s.txs[j]? = some ty → j ≠ i → ty.stage = .running →
      (f tx).stage = .running →
        ((f tx).own.get? k).isSome = true → ty.own.get? k = none := by
      intro j ty k hty hji hrun' hfrun hk
      rcases (hf tx htx hrun hfrun).2 k hk with hk | hlocked
      · exact hs.alone i j tx ty htx hty (Ne.symm hji) hrun hrun' k hk
      · exact hfree j ty k hty hji hrun' hlocked
    refine ⟨fun t ht htrun => ?_, fun a b ta tb ha hb hab hra hrb k hk => ?_⟩
    · obtain ⟨j, hj⟩ := List.mem_iff_getElem?.mp ht
      rcases getElem?_set_cases hj with ⟨-, rfl⟩ | ⟨-, hj⟩
      · exact (hf tx htx hrun htrun).1
      · exact hs.txs t (List.mem_of_getElem? hj) htrun
    · rcases getElem?_set_cases ha with ⟨rfl, rfl⟩ | ⟨hai, ha'⟩
      · obtain ⟨hbi, hb⟩ := (getElem?_set_cases hb).resolve_left fun h => hab h.1.symm
        exact hnew b tb k hb hbi hrb hra hk
      · rcases getElem?_set_cases hb with ⟨rfl, rfl⟩ | ⟨-, hb'⟩
        · by_contra hnone
          have := hnew a ta k ha' hai hra hrb (Option.isSome_iff_ne_none.mpr hnone)
          rw [this] at hk
          cases hk
        · exact hs.alone a b ta tb ha' hb' hab hra hrb k hk

/-- A transaction may begin. -/
theorem Store.Sound.begin_ {s : Store κ ρ τ} (hs : s.Sound A) (task : τ) :
    (s.begin_ task).Sound A where
  txs tx htx hrun := by
    rcases List.mem_append.mp htx with htx | htx
    · exact hs.txs tx htx hrun
    · obtain rfl := List.mem_singleton.mp htx
      exact Tx.sound_begun _ task
  alone i j tx ty hi hj hij hrx hry k hk := by
    rcases getElem?_join_cases hi with hi | ⟨-, rfl⟩
    · rcases getElem?_join_cases hj with hj | ⟨-, rfl⟩
      · exact hs.alone i j tx ty hi hj hij hrx hry k hk
      · rfl
    · cases hk

/-- A row may be inserted. -/
theorem Store.Sound.insert {s : Store κ ρ τ} (hs : s.Sound A) (k : κ) (r : ρ) :
    (s.insert k r).Sound A := by
  unfold Store.insert
  split
  · exact hs
  · next hnone =>
    refine ⟨fun tx htx hrun => ?_, hs.alone⟩
    have htxs := hs.txs tx htx hrun
    refine htxs.table fun j hj => Dict.get?_set_of_ne _ _ ?_
    rintro rfl
    obtain ⟨change, hchange⟩ := Option.isSome_iff_exists.mp hj
    obtain ⟨r', hr', -⟩ := htxs.own j change hchange
    exact hnone (Option.isSome_iff_exists.mpr ⟨r', hr'⟩)

theorem Store.Sound.abort {s : Store κ ρ τ} (hs : s.Sound A) (i : Nat) : (s.abort i).Sound A :=
  hs.go fun _ _ _ h => by cases h

/-- A transaction may go to its next row. -/
theorem Store.Sound.visit {s : Store κ ρ τ} (hs : s.Sound A) (i : Nat) : (s.visit i).Sound A := by
  refine hs.go fun tx htx hrun hrun' => ?_
  have htxs := hs.txs tx (List.mem_of_getElem? htx) hrun
  by_cases hwaits : (tx.left.head?.any fun x => s.locked i x.1) = true
  · rw [if_pos hwaits]
    exact ⟨htxs, fun _ hk => .inl hk⟩
  · rw [if_neg hwaits]
    refine ⟨htxs.visit, fun j hj => ?_⟩
    obtain ⟨-, hv⟩ | ⟨k, act, left, hleft, hv⟩ := Tx.visit_cases s.table tx
    · exact .inl (hv ▸ hj)
    · have hfree : s.locked i k = false := by
        rw [hleft] at hwaits
        simpa using hwaits
      have hset : ∀ change, ((tx.own.set k change).get? j).isSome = true →
          (tx.own.get? j).isSome = true ∨ s.locked i j = false := by
        intro change h
        by_cases hkj : j = k
        · exact .inr (hkj ▸ hfree)
        · exact .inl (by rwa [Dict.get?_set_of_ne _ _ hkj] at h)
      obtain ⟨hv, -⟩ | hv | ⟨r, -, ⟨-, hv⟩ | ⟨r', -, hv⟩⟩ := hv <;> rw [hv] at hj
      · exact .inl hj
      · exact .inl hj
      · exact hset _ hj
      · exact hset _ hj

/-- What commits was running, between two statements. -/
theorem Store.commit_cases (s : Store κ ρ τ) (i : Nat) :
    s.commit i = s ∨ ∃ tx, s.txs[i]? = some tx ∧ tx.stage = .running ∧ tx.left = [] ∧
      s.commit i = { table := tx.own.apply s.table, txs := s.txs.set i { tx with stage :=
        .committed } } := by
  unfold commit
  split
  · next tx htx =>
    split
    · next h => exact .inr ⟨tx, htx, h.1, List.isEmpty_iff.mp h.2, rfl⟩
    · exact .inl rfl
  · exact .inl rfl

/-- A commit applies the transaction's changes. -/
theorem Store.commit_eq {s : Store κ ρ τ} {i : Nat} {tx : Tx κ ρ τ} (htx : s.txs[i]? = some tx)
    (hrun : tx.stage = .running) (hleft : tx.left = []) :
    s.commit i = { table := tx.own.apply s.table, txs := s.txs.set i { tx with stage :=
      .committed } } := by
  rw [commit, htx]
  exact if_pos ⟨hrun, by rw [hleft]; rfl⟩

/-- A transaction may commit. -/
theorem Store.Sound.commit {s : Store κ ρ τ} (hs : s.Sound A) (i : Nat) : (s.commit i).Sound A := by
  obtain h | ⟨tx, htx, hrun, -, h⟩ := s.commit_cases i <;> rw [h]
  · exact hs
  · have hother : ∀ j ty, (s.txs.set i { tx with stage := .committed })[j]? =
      some ty → ty.stage = .running →
        j ≠ i ∧ s.txs[j]? = some ty := by
      intro j ty hty hrun'
      rcases getElem?_set_cases hty with ⟨-, rfl⟩ | hty
      · cases hrun'
      · exact hty
    refine ⟨fun ty hty hrun' => ?_, fun a b ta tb ha hb hab hra hrb => ?_⟩
    · obtain ⟨j, hj⟩ := List.mem_iff_getElem?.mp hty
      obtain ⟨hji, hj⟩ := hother j ty hj hrun'
      refine (hs.txs ty (List.mem_of_getElem? hj) hrun').table
        fun k hk => Changes.get?_apply_of_none ?_ _
      exact hs.alone j i ty tx hj htx hji hrun' hrun k hk
    · exact hs.alone a b ta tb (hother a ta ha hra).2 (hother b tb hb hrb).2 hab hra hrb

end BeSdk.RowLocks
