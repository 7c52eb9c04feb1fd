/-
BeSdk.Db.DocnoTheorems — document numbers are gapless, where no two series share a key.

What was committed is a list of uses, newest first, and the row of a series is what
these uses leave of it (`rowOf`). An open transaction extends the list by its own uses,
and the locks keep everything else that commits meanwhile off its series; so when it
commits, its numbers follow what is committed then (`lawful_under`). All of this is
about series, while the table is about keys: it holds of runs whose series have keys of
their own (`Distinguished`), and in which no transaction commits after a use of the
other kind raised in it.
-/
import BeSdk.Db.Docno

namespace BeSdk

/-! ## Keys -/

/-- Keys are read back from the front where the entity and the code have no slash. -/
theorem Series.key_inj {a b : Series} (ha : chr '/' ∉ a.legalEntity ∧ chr '/' ∉ a.code)
    (hb : chr '/' ∉ b.legalEntity ∧ chr '/' ∉ b.code) (h : a.key = b.key) : a = b := by
  obtain ⟨hentity, hrest⟩ := Str.append_cons_inj ha.1 hb.1 h
  obtain ⟨hcode, hperiod⟩ := Str.append_cons_inj ha.2 hb.2 hrest
  cases a; cases b
  simp_all

namespace Docno

/-! ## Uses -/

/-- The row after a use, in view of the row before it. -/
def Done.row : Done → Option Row → Row
  | .took _ g n, _ => ⟨n, g⟩
  | .registered _ g last, none => ⟨last, g⟩
  | .registered _ g last, some r => ⟨max r.last last, g⟩

/-- The use follows the row: the number is the next one, and the kind is the series'. -/
def Done.Follows : Done → Option Row → Prop
  | .took _ _ n, none => n = 1
  | .took _ g n, some r => n = r.last + 1 ∧ g = r.gapless
  | .registered _ _ _, none => True
  | .registered _ g _, some r => g = r.gapless

/-- The row a series has after the uses, newest first. -/
def rowOf (s : Series) : List Done → Option Row
  | [] => none
  | x :: l => if x.series = s then some (x.row (rowOf s l)) else rowOf s l

/-- Every use follows the ones before it. -/
def Lawful : List Done → Prop
  | [] => True
  | x :: l => x.Follows (rowOf x.series l) ∧ Lawful l

theorem rowOf_cons_self (x : Done) (l : List Done) :
    rowOf x.series (x :: l) = some (x.row (rowOf x.series l)) :=
  if_pos rfl

theorem rowOf_cons_of_ne {x : Done} {s : Series} (h : x.series ≠ s) (l : List Done) :
    rowOf s (x :: l) = rowOf s l :=
  if_neg h

/-- Uses of other series leave the row alone. -/
theorem rowOf_skip {s : Series} : ∀ {l : List Done} (m : List Done), (∀ x ∈ l, x.series ≠ s) →
    rowOf s (l ++ m) = rowOf s m
  | [], _, _ => rfl
  | x :: l, m, h => by
      rw [List.forall_mem_cons] at h
      rw [List.cons_append, rowOf_cons_of_ne h.1, rowOf_skip m h.2]

theorem rowOf_congr {s : Series} {m m' : List Done} (h : rowOf s m = rowOf s m') : ∀ l : List Done,
    rowOf s (l ++ m) = rowOf s (l ++ m')
  | [] => h
  | x :: l => by rw [List.cons_append, List.cons_append, rowOf, rowOf, rowOf_congr h l]

/-- What others committed meanwhile, of other series, goes under the uses of a
transaction. -/
theorem lawful_under : ∀ {l m n : List Done}, Lawful (l ++ n) → Lawful (m ++ n) →
    (∀ x ∈ l, ∀ y ∈ m, y.series ≠ x.series) → Lawful (l ++ (m ++ n))
  | [], _, _, _, hm, _ => hm
  | x :: l, m, n, hl, hm, hapart => by
      rw [List.forall_mem_cons] at hapart
      refine ⟨?_, lawful_under hl.2 hm hapart.2⟩
      show x.Follows (rowOf x.series (l ++ (m ++ n)))
      rw [rowOf_congr (rowOf_skip n hapart.1) l]
      exact hl.1

/-! ## Tables -/

/-- A transaction's writes are read before the table. -/
theorem get?_merged (table : Dict Str Row) (k : Str) (writes : Dict Str Row) :
    (merged table writes).get? k = (writes.get? k).or (table.get? k) := by
  have hfold : ∀ (l : List (Str × Row)) (t : Dict Str Row), (l.map Prod.fst).Nodup →
      (l.foldl (fun t e => t.set e.1 e.2) t).get? k = (lookup k l).or (t.get? k) := by
    intro l
    induction l with
    | nil => exact fun _ _ => rfl
    | cons e l ih =>
        intro t hnodup
        rw [List.map_cons, List.nodup_cons] at hnodup
        rw [List.foldl_cons, ih _ hnodup.2, lookup]
        by_cases hk : e.1 = k
        · have hnone : lookup k l = none := lookup_eq_none_iff.mpr (hk ▸ hnodup.1)
          rw [if_pos hk, hnone, ← hk, Dict.get?_set_self]
          rfl
        · rw [if_neg hk, Dict.get?_set_of_ne _ _ (Ne.symm hk)]
  exact hfold writes.entries table writes.nodup

/-- A row is free where no other open transaction wrote it. -/
theorem held_eq_false_iff {s : State} {i : Nat} {key : Str} : s.held i key = false ↔
    ∀ j tx, s.txs[j]? = some tx → j ≠ i → tx.phase ≠ .ended → tx.writes.get? key = none := by
  simp only [State.held, List.any_eq_false, Bool.and_eq_true, decide_eq_true_eq, not_and,
    Bool.not_eq_true, Option.isSome_eq_false_iff, Option.isNone_iff_eq_none, Prod.forall,
    List.mem_zipIdx_iff_getElem?]
  exact ⟨fun h j tx hj hne hphase => h tx j hj ⟨hne, hphase⟩,
    fun h tx j hj hx => h j tx hj hx.1 hx.2⟩

/-! ## The invariant -/

variable {S : Series → Prop}

/-- What a transaction that has not ended did, over what is committed. -/
structure TxKept (S : Series → Prop) (done : List Done) (tx : Tx) : Prop where
  series : ∀ x ∈ tx.done, S x.series ∧ (tx.writes.get? x.series.key).isSome = true
  lawful : tx.raised = false → Lawful (tx.done ++ done)
  row : tx.raised = false → ∀ a, S a → (tx.writes.get? a.key).or (rowOf a done) =
    rowOf a (tx.done ++ done)

/-- The committed uses are lawful and the table is what they leave; so it will be when
another transaction commits, since no row is held by two. -/
structure Consistent (S : Series → Prop) (done : List Done) (s : State) : Prop where
  lawful : Lawful done
  series : ∀ x ∈ done, S x.series
  table : ∀ a, S a → s.table.get? a.key = rowOf a done
  txs : ∀ (i : Nat) tx, s.txs[i]? = some tx → tx.phase ≠ .ended → TxKept S done tx
  apart : ∀ (i j : Nat) tx tx', i ≠ j → s.txs[i]? = some tx → s.txs[j]? = some tx' →
    tx.phase ≠ .ended → tx'.phase ≠ .ended → ∀ k, (tx.writes.get? k).isSome = true →
    tx'.writes.get? k = none

section
variable {done : List Done} {s : State}

/-- One transaction changes; what it now holds it held, or nobody else does. -/
theorem Consistent.set (h : Consistent S done s) {i : Nat} {tx tx' : Tx} (hi : s.txs[i]? = some tx)
    (hkept : tx'.phase ≠ .ended → TxKept S done tx')
    (hheld : tx'.phase ≠ .ended → ∀ k, (tx'.writes.get? k).isSome = true →
      (tx.phase ≠ .ended ∧ (tx.writes.get? k).isSome = true) ∨ s.held i k = false) :
    Consistent S done { s with txs := s.txs.set i tx' } := by
  have hfree : tx'.phase ≠ .ended → ∀ j u, j ≠ i → s.txs[j]? = some u → u.phase ≠ .ended → ∀ k,
      (tx'.writes.get? k).isSome = true → u.writes.get? k = none := by
    intro hphase j u hj hu huphase k hk
    rcases hheld hphase k hk with ⟨hold, hsome⟩ | hnone
    · exact h.apart i j tx u hj.symm hi hu hold huphase k hsome
    · exact held_eq_false_iff.mp hnone j u hu hj huphase
  refine ⟨h.lawful, h.series, h.table, fun j u hu hphase => ?_,
    fun j l u v hjl hu hv hup hvp k hk => ?_⟩
  · rcases getElem?_set_cases hu with ⟨-, rfl⟩ | ⟨-, hold⟩
    · exact hkept hphase
    · exact h.txs j u hold hphase
  · rcases getElem?_set_cases hu with ⟨rfl, rfl⟩ | ⟨hj, huold⟩ <;>
      rcases getElem?_set_cases hv with ⟨rfl, rfl⟩ | ⟨hl, hvold⟩
    · exact absurd rfl hjl
    · exact hfree hup l v hl hvold hvp k hk
    · by_contra hne
      have hsome : (v.writes.get? k).isSome = true := Option.isSome_iff_ne_none.mpr hne
      rw [hfree hvp j u hj huold hup k hsome] at hk
      cases hk
    · exact h.apart j l u v hjl huold hvold hup hvp k hk

/-- The row a transaction finds is what its uses leave over the committed ones. -/
theorem Consistent.row_eq (h : Consistent S done s) {tx : Tx} (hkept : TxKept S done tx)
    (hraised : tx.raised = false) {a : Series} (ha : S a) :
    s.row tx a.key = rowOf a (tx.done ++ done) := by
  rw [State.row, h.table a ha]
  exact hkept.row hraised a ha

/-- A use with the series' kind extends what the transaction did. -/
theorem TxKept.use {tx : Tx} (h : TxKept S done tx)
    (hS : ∀ a b, S a → S b → a.key = b.key → a = b) {x : Done}
    (hx : S x.series) (hfollows : tx.raised = false →
      x.Follows (rowOf x.series (tx.done ++ done))) {row : Row}
    (hrow : tx.raised = false → row = x.row (rowOf x.series (tx.done ++ done))) :
    TxKept S done { tx with writes := tx.writes.set x.series.key row, done := x :: tx.done } := by
  refine ⟨?_, fun hraised => ⟨hfollows hraised, h.lawful hraised⟩, fun hraised a ha => ?_⟩
  · intro y hy
    rw [Dict.get?_set]
    cases hy with
    | head => exact ⟨hx, by rw [if_pos rfl]; rfl⟩
    | tail _ hy =>
        refine ⟨(h.series y hy).1, ?_⟩
        split
        · rfl
        · exact (h.series y hy).2
  · show ((tx.writes.set x.series.key row).get? a.key).or _ = rowOf a (x :: (tx.done ++ done))
    rw [Dict.get?_set]
    by_cases heq : x.series = a
    · rw [← heq, if_pos rfl, rowOf_cons_self, hrow hraised]
      rfl
    · have hkey : a.key ≠ x.series.key := fun hkey => heq (hS _ _ hx ha hkey.symm)
      rw [if_neg hkey, rowOf_cons_of_ne heq]
      exact h.row hraised a ha

/-- A use that raised: nothing more is known of the transaction but its rows. -/
theorem TxKept.raise {tx : Tx} (h : TxKept S done tx) (key : Str) (row : Row) :
    TxKept S done { tx with writes := tx.writes.set key row, raised := true } := by
  refine ⟨fun y hy => ⟨(h.series y hy).1, ?_⟩, fun hraised => (by cases hraised),
    fun hraised => (by cases hraised)⟩
  show ((tx.writes.set key row).get? y.series.key).isSome = true
  rw [Dict.get?_set]
  split
  · rfl
  · exact (h.series y hy).2

theorem TxKept.phase {tx : Tx} (h : TxKept S done tx) (p : Phase) :
    TxKept S done { tx with phase := p } :=
  ⟨h.series, h.lawful, h.row⟩

/-- A statement on the row of a series. -/
theorem Consistent.upsert (h : Consistent S done s)
    (hS : ∀ a b, S a → S b → a.key = b.key → a = b) {i : Nat} {series : Series}
    (hseries : S series) {gapless : Bool} {write : Option Row → Option Row} {use : Row → Done}
    (huse : ∀ r, (use r).series = series)
    (hwrite : ∀ v row, write v = some row → row.gapless = gapless → (use row).Follows v ∧
      row = (use row).row v) :
    Consistent S done (s.upsert i series gapless write use) := by
  unfold State.upsert
  split
  · exact h
  · next tx hi =>
    split
    · next hopen =>
      have hphase : tx.phase ≠ .ended := by
        rw [hopen.1]
        exact Phase.noConfusion
      have hkept := h.txs i tx hi hphase
      split
      · exact h.set hi (fun _ => hkept.phase _) fun _ k hk => .inl ⟨hphase, hk⟩
      · next row hrow =>
        have hheld : ∀ k, ((tx.writes.set series.key row).get? k).isSome = true →
            (tx.phase ≠ .ended ∧ (tx.writes.get? k).isSome = true) ∨ s.held i k = false := by
          intro k hk
          rw [Dict.get?_set] at hk
          split at hk
          · next hkey => exact .inr (hkey ▸ hopen.2)
          · exact .inl ⟨hphase, hk⟩
        dsimp only
        split
        · next hkind =>
          obtain ⟨hfollows, hresult⟩ := hwrite _ row hrow hkind
          have hvalue : tx.raised = false → s.row tx series.key = rowOf (use row).series
            (tx.done ++ done) :=
            fun hraised => (huse row).symm ▸ h.row_eq hkept hraised hseries
          refine h.set hi (fun _ => ?_) fun _ k hk => hheld k hk
          have hused : TxKept S done { tx with
              writes := tx.writes.set (use row).series.key row, done := use row :: tx.done } :=
            hkept.use hS ((huse row).symm ▸ hseries) (fun hraised => hvalue hraised ▸ hfollows)
              fun hraised => hvalue hraised ▸ hresult
          rwa [huse row] at hused
        · exact h.set hi (fun _ => hkept.raise _ _) fun _ k hk => hheld k hk
    · exact h

/-- What follows a committed transaction that did not raise: its uses on top, and its
rows in the table. -/
theorem Consistent.commit (h : Consistent S done s) {i : Nat} {tx : Tx} (hi : s.txs[i]? = some tx)
    (hopen : tx.phase = .open_) (hraised : tx.raised = false) : Consistent S (tx.done ++ done)
      { table := merged s.table tx.writes, txs := s.txs.set i { tx with phase := .ended } } := by
  have hphase : tx.phase ≠ .ended := by
    rw [hopen]
    exact Phase.noConfusion
  have hkept := h.txs i tx hi hphase
  have hset : Consistent S done { s with txs := s.txs.set i { tx with phase := .ended } } :=
    h.set hi (fun hended => absurd rfl hended) fun hended => absurd rfl hended
  refine ⟨hkept.lawful hraised, ?_, fun a ha => ?_, fun j u hu hup => ?_, hset.apart⟩
  · intro x hx
    rcases List.mem_append.mp hx with hx | hx
    · exact (hkept.series x hx).1
    · exact h.series x hx
  · rw [get?_merged, h.table a ha]
    exact hkept.row hraised a ha
  · -- another transaction's series are not among the ones just committed: it holds their rows
    have hother : j ≠ i ∧ s.txs[j]? = some u := by
      rcases getElem?_set_cases hu with ⟨-, rfl⟩ | hold
      · exact absurd rfl hup
      · exact hold
    have hu := h.txs j u hother.2 hup
    have hfree : ∀ k, (u.writes.get? k).isSome = true → tx.writes.get? k = none :=
      h.apart j i u tx hother.1 hother.2 hi hup hphase
    have hapart : ∀ k, (u.writes.get? k).isSome = true → ∀ y ∈ tx.done, y.series.key ≠ k := by
      rintro k hk y hy rfl
      have hsome := (hkept.series y hy).2
      rw [hfree _ hk] at hsome
      cases hsome
    refine ⟨hu.series, fun hr => ?_, fun hr a ha => ?_⟩
    · exact lawful_under (hu.lawful hr) (hkept.lawful hraised) fun x hx y hy heq =>
        hapart _ (hu.series x hx).2 y hy (by rw [heq])
    · cases hget : u.writes.get? a.key with
      | none =>
          have hskip : ∀ x ∈ u.done, x.series ≠ a := by
            rintro x hx rfl
            have hsome := (hu.series x hx).2
            rw [hget] at hsome
            cases hsome
          rw [rowOf_skip _ hskip]
          rfl
      | some row =>
          have hskip : ∀ y ∈ tx.done, y.series ≠ a := fun y hy heq =>
            hapart a.key (by rw [hget]; rfl) y hy (by rw [heq])
          have hold := hu.row hr a ha
          rw [hget] at hold
          rw [rowOf_congr (rowOf_skip done hskip) u.done, ← hold]
          rfl

/-- The row after the next number is what follows. -/
theorem nextRow_spec (a : Series) {g : Bool} {v : Option Row} {row : Row}
    (h : nextRow g v = some row) (hkind : row.gapless = g) :
    (Done.took a g row.last).Follows v ∧ row = (Done.took a g row.last).row v := by
  subst hkind
  cases v with
  | none =>
      have hrow : row = ⟨1, row.gapless⟩ := (Option.some.inj h).symm
      exact ⟨congrArg Row.last hrow, rfl⟩
  | some r =>
      simp only [nextRow] at h
      split at h
      · cases h
      · cases h
        exact ⟨⟨rfl, rfl⟩, rfl⟩

/-- So is the row after a number was imported. -/
theorem importedRow_spec (a : Series) {g : Bool} {last : Int} {v : Option Row} {row : Row}
    (h : importedRow g last v = some row) (hkind : row.gapless = g) :
    (Done.registered a g last.toNat).Follows v ∧ row = (Done.registered a g last.toNat).row v := by
  subst hkind
  cases v with
  | none =>
      simp only [importedRow] at h
      split at h
      · cases h
      · exact ⟨trivial, (Option.some.inj h).symm⟩
  | some r =>
      simp only [importedRow] at h
      split at h
      · cases h
      · cases h
        exact ⟨rfl, rfl⟩

/-- The series of the run are among `S`, and no transaction commits after a use of the
other kind raised in it. -/
def Distinguished (S : Series → Prop) (s : State) : Op → Prop
  | .next _ series _ => S series
  | .register _ series _ _ => S series
  | .commit i => ∀ tx, s.txs[i]? = some tx → tx.raised = false
  | _ => True

/-- The end of a transaction keeps the numbers. -/
theorem Consistent.ended (h : Consistent S done s) {i : Nat} {commit : Bool}
    (hraised : commit = true → ∀ tx, s.txs[i]? = some tx → tx.raised = false) :
    Consistent S ((s.end_ i commit).2 ++ done) (s.end_ i commit).1 := by
  unfold State.end_
  split
  · exact h
  · next tx hi =>
    dsimp only
    split
    · next hopen => exact h.commit hi hopen.1 (hraised hopen.2 tx hi)
    · exact h.set hi (fun hended => absurd rfl hended) fun hended => absurd rfl hended

/-- So does every step among distinguished series. -/
theorem Consistent.step (h : Consistent S done s)
    (hS : ∀ a b, S a → S b → a.key = b.key → a = b) {o : Op}
    (ho : Distinguished S s o) : Consistent S ((Docno.step s o).2 ++ done) (Docno.step s o).1 := by
  cases o with
  | begin_ =>
      refine ⟨h.lawful, h.series, h.table, fun j u hu hup => ?_,
        fun j l u v hjl hu hv hup hvp k hk => ?_⟩
      · rcases getElem?_join_cases hu with hold | ⟨-, rfl⟩
        · exact h.txs j u hold hup
        · exact ⟨fun x hx => (by cases hx), fun _ => h.lawful, fun _ a _ => rfl⟩
      · rcases getElem?_join_cases hu with huold | ⟨-, rfl⟩
        · rcases getElem?_join_cases hv with hvold | ⟨-, rfl⟩
          · exact h.apart j l u v hjl huold hvold hup hvp k hk
          · rfl
        · cases hk
  | next i series gapless => exact h.upsert hS ho (fun _ => rfl) fun v row => nextRow_spec series
  | register i series gapless last =>
      simp only [Docno.step]
      split
      · exact h
      · exact h.upsert hS ho (fun _ => rfl) fun v row => importedRow_spec series
  | commit i => exact h.ended fun _ => ho
  | rollback i => exact h.ended fun hcommit => (by cases hcommit)
  | abort i =>
      simp only [Docno.step]
      split
      · exact h
      · next tx hi =>
        split
        · next hopen =>
          have hphase : tx.phase ≠ .ended := by
            rw [hopen]
            exact Phase.noConfusion
          exact h.set hi (fun _ => (h.txs i tx hi hphase).phase _) fun _ k hk => .inl ⟨hphase, hk⟩
        · exact h

end

/-! ## Numbers -/

/-- The highest number a series has taken or registered. -/
def highest (a : Series) : List Done → Nat
  | [] => 0
  | x :: l => if x.series = a then max x.number (highest a l) else highest a l

theorem highest_of_forall_ne {a : Series} :
    ∀ {l : List Done}, (∀ x ∈ l, x.series ≠ a) → highest a l = 0
  | [], _ => rfl
  | x :: l, h => by
      rw [List.forall_mem_cons] at h
      rw [highest, if_neg h.1, highest_of_forall_ne h.2]

/-- A series without a row has nothing done in it. -/
theorem rowOf_eq_none {a : Series} : ∀ {l : List Done}, rowOf a l = none → ∀ x ∈ l, x.series ≠ a
  | [], _, _, hx => by cases hx
  | x :: l, h, y, hy => by
      rw [rowOf] at h
      split at h
      · cases h
      · next hne =>
        cases hy with
        | head => exact hne
        | tail _ hy => exact rowOf_eq_none h y hy

/-- The row of lawful uses: the highest number, under the kind of them all. -/
theorem rowOf_eq_some {a : Series} : ∀ {l : List Done} {r : Row}, Lawful l → rowOf a l = some r →
    r.last = highest a l ∧ (∃ x ∈ l, x.series = a) ∧ ∀ x ∈ l, x.series = a → x.gapless = r.gapless
  | [], _, _, h => by cases h
  | x :: l, r, hlawful, h => by
      rw [rowOf] at h
      rw [highest]
      split at h
      · next hx =>
        subst hx
        cases h
        rw [if_pos rfl]
        have hfollows := hlawful.1
        have hsplit : ∀ r : Row, x.gapless = r.gapless →
          (∀ y ∈ l, y.series = x.series → y.gapless = r.gapless) →
            ∀ y ∈ x :: l, y.series = x.series → y.gapless = r.gapless := by
          intro r hself hrest y hy heq
          cases hy with
          | head => exact hself
          | tail _ hy => exact hrest y hy heq
        refine ⟨?_, ⟨x, List.mem_cons_self .., rfl⟩, ?_⟩
        · cases hrow : rowOf x.series l with
          | none =>
              rw [highest_of_forall_ne (rowOf_eq_none hrow)]
              cases x <;> simp [Done.row, Done.number]
          | some r =>
              obtain ⟨hlast, -, -⟩ := rowOf_eq_some hlawful.2 hrow
              rw [hrow] at hfollows
              rw [← hlast]
              cases x with
              | took b g n =>
                  obtain ⟨rfl, -⟩ := hfollows
                  exact (Nat.max_eq_left (Nat.le_succ _)).symm
              | registered b g n => exact Nat.max_comm ..
        · cases hrow : rowOf x.series l with
          | none =>
              refine hsplit _ (by cases x <;> rfl) fun y hy heq =>
                absurd heq (rowOf_eq_none hrow y hy)
          | some r =>
              obtain ⟨-, -, hkind⟩ := rowOf_eq_some hlawful.2 hrow
              rw [hrow] at hfollows
              cases x with
              | took b g n =>
                  obtain ⟨-, rfl⟩ := hfollows
                  exact hsplit _ rfl hkind
              | registered b g n =>
                  obtain rfl : g = r.gapless := hfollows
                  exact hsplit _ rfl hkind
      · next hne =>
        obtain ⟨hlast, ⟨y, hy, hya⟩, hkind⟩ := rowOf_eq_some hlawful.2 h
        rw [if_neg hne]
        refine ⟨hlast, ⟨y, List.mem_cons_of_mem _ hy, hya⟩, fun z hz hza => ?_⟩
        cases hz with
        | head => exact absurd hza hne
        | tail _ hz => exact hkind z hz hza

/-- The highest number only grows. -/
theorem highest_le_append {a : Series} (m : List Done) :
    ∀ l : List Done, highest a m ≤ highest a (l ++ m)
  | [] => Nat.le_refl _
  | x :: l => by
      rw [List.cons_append, highest]
      split
      · exact Nat.le_trans (highest_le_append m l) (Nat.le_max_right ..)
      · exact highest_le_append m l

/-- What the committed uses say, and the table with them. -/
structure NumbersKept (S : Series → Prop) (done : List Done) (s : State) : Prop where
  /-- Each number is the one after the highest its series took or registered before. -/
  next : ∀ a g n older, .took a g n :: older <:+ done → n = highest a older + 1
  /-- The row of a series is what its own uses left, all of the row's kind. -/
  counter : ∀ a, S a → ∀ r, s.table.get? a.key = some r → r.last = highest a done ∧
    (∃ x ∈ done, x.series = a) ∧ ∀ x ∈ done, x.series = a → x.gapless = r.gapless
  /-- Without a use there is no row. -/
  unused : ∀ a, S a → s.table.get? a.key = none → ∀ x ∈ done, x.series ≠ a

/-- The number that is taken is the one after the highest. -/
theorem Lawful.next {a : Series} {g : Bool} {n : Nat} {older : List Done} :
    ∀ {l : List Done}, Lawful l → .took a g n :: older <:+ l → n = highest a older + 1
  | [], _, h => by cases List.suffix_nil.mp h
  | x :: l, hlawful, h => by
      rcases List.suffix_cons_iff.mp h with heq | hold
      · cases heq
        have hfollows := hlawful.1
        cases hrow : rowOf a older with
        | none =>
            rw [highest_of_forall_ne (rowOf_eq_none hrow)]
            rw [show (Done.took a g n).series = a from rfl, hrow] at hfollows
            exact hfollows
        | some r =>
            rw [show (Done.took a g n).series = a from rfl, hrow] at hfollows
            rw [← (rowOf_eq_some hlawful.2 hrow).1]
            exact hfollows.1
      · exact Lawful.next hlawful.2 hold

/-- Consistent rows keep the numbers. -/
theorem Consistent.numbers {done : List Done} {s : State} (h : Consistent S done s) :
    NumbersKept S done s := by
  refine ⟨fun a g n older => h.lawful.next, fun a ha r hr => ?_, fun a ha hnone => ?_⟩
  · exact rowOf_eq_some h.lawful ((h.table a ha).symm.trans hr)
  · exact rowOf_eq_none ((h.table a ha).symm.trans hnone)

/-- The row of every series stays, with its kind, and its number never falls. -/
def Rises (S : Series → Prop) (s s' : State) : Prop :=
  ∀ a, S a → ∀ r, s.table.get? a.key = some r →
    ∃ r', s'.table.get? a.key = some r' ∧ r.last ≤ r'.last ∧ r'.gapless = r.gapless

/-- Numbers that are kept rise from state to state. -/
theorem NumbersKept.rises {done more : List Done} {s s' : State} (h : NumbersKept S done s)
    (h' : NumbersKept S (more ++ done) s') : Rises S s s' := by
  intro a ha r hr
  obtain ⟨hlast, ⟨x, hx, hxa⟩, hkind⟩ := h.counter a ha r hr
  cases hr' : s'.table.get? a.key with
  | none => exact absurd hxa (h'.unused a ha hr' x (List.mem_append_right _ hx))
  | some r' =>
      obtain ⟨hlast', -, hkind'⟩ := h'.counter a ha r' hr'
      refine ⟨r', rfl, ?_, ?_⟩
      · rw [hlast, hlast']
        exact highest_le_append done more
      · rw [← hkind x hx hxa, ← hkind' x (List.mem_append_right _ hx) hxa]

/-- **Document numbers are gapless and separate per series** in every run whose series
have keys of their own and whose transactions do not commit past a use of the other
kind. -/
theorem numbers_kept (hS : ∀ a b, S a → S b → a.key = b.key → a = b)
    {h : List (List Done)} {s : State} (hr : Reach step (Distinguished S) State.empty h s) :
    NumbersKept S h.flatten s ∧ ∀ o, Distinguished S s o → Rises S s (step s o).1 := by
  have hempty : Consistent S [] State.empty :=
    ⟨trivial, fun x hx => (by cases hx), fun _ _ => rfl, fun i tx hi => (by cases hi),
      fun i j tx tx' _ hi => (by cases hi)⟩
  have hs : Consistent S h.flatten s :=
    @Reach.invariant State Op (List Done) step (Distinguished S) State.empty
      (fun h s => Consistent S h.flatten s) hempty (fun h s o ho hs => hs.step hS ho) h s hr
  exact ⟨hs.numbers, fun o ho => hs.numbers.rises (hs.step hS ho).numbers⟩

/-! ## Two series, and two with one key -/

def orders : Series := ⟨str "le-1", str "SO", str "2026-10"⟩

/-- A number rolled back, a number taken while another transaction waits, and an import. -/
def numbering : List Op :=
  [.begin_, .next 0 orders true, .rollback 0, .begin_, .begin_, .next 1 orders true,
    .next 2 orders true, .commit 1, .next 2 orders true, .register 2 orders true 7,
    .next 2 orders true, .commit 2]

instance [DecidablePred S] (s : State) : (o : Op) → Decidable (Distinguished S s o)
  | .next _ series _ => inferInstanceAs (Decidable (S series))
  | .register _ series _ _ => inferInstanceAs (Decidable (S series))
  | .commit i =>
      match h : s.txs[i]? with
      | some tx => decidable_of_iff (tx.raised = false)
          ⟨fun hr _ heq => Option.some.inj (h.symm.trans heq) ▸ hr, fun hall => hall tx h⟩
      | none => isTrue fun _ heq => by rw [h] at heq; cases heq
  | .begin_ => isTrue trivial
  | .rollback _ => isTrue trivial
  | .abort _ => isTrue trivial

theorem numbers_kept_orders : ∃ h s, Reach step (Distinguished (· = orders)) State.empty h s ∧
    h.flatten.map Done.number = [8, 7, 2, 1] ∧ NumbersKept (· = orders) h.flatten s := by
  have hall : allAllowed step (Distinguished (· = orders)) State.empty numbering = true := by
    decide +kernel
  have hr := reach_of_allAllowed numbering hall
  exact ⟨_, _, hr, by decide +kernel, (numbers_kept (fun _ _ ha hb _ => ha.trans hb.symm) hr).1⟩

def first : Series := ⟨str "a/b", str "c", []⟩

def second : Series := ⟨str "a", str "b/c", []⟩

/-- A number of each, in a transaction of its own. -/
def sharing : List Op :=
  [.begin_, .next 0 first true, .commit 0, .begin_, .next 1 second true, .commit 1]

/-- Two series of different legal entities share a counter: the first number of the
second series is 2. -/
theorem series_share :
    first ≠ second ∧ ∃ h s, Reach step (Distinguished (· ∈ [first, second])) State.empty h s ∧
    h.flatten = [.took second true 2, .took first true 1] ∧
    ¬ NumbersKept (· ∈ [first, second]) h.flatten s := by
  have hall : allAllowed step (Distinguished (· ∈ [first, second])) State.empty sharing =
    true := by decide +kernel
  have hr := reach_of_allAllowed sharing hall
  have hdone : (runOps step State.empty sharing).1.flatten = [.took second true 2,
    .took first true 1] := by
    decide +kernel
  refine ⟨by decide, _, _, hr, hdone, ?_⟩
  intro hkept
  rw [hdone] at hkept
  exact absurd (hkept.next second true 2 [.took first true 1] (List.suffix_refl _)) (by decide)

end Docno

end BeSdk
