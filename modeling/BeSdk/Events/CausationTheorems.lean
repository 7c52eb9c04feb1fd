/-
BeSdk.Events.CausationTheorems — causal loops are cut.

A task's cause is the event of the innermost call it is in (`calls`): a call it entered
itself and has not left, or one its starter was in when it started the task. The cause
names a committed row, the row an emitted event then has names it back, and its hops are
one more; the hops go through the row, the header and the context variable unchanged
(`cause_eq`, `uuidOf_uuidText`).

* `loops_cut`: hops are within the limit and count the chain, so a chain has at most
  MAX_HOPS + 1 events; the causation of an emitted event is the event of its innermost
  call.
* `cause_outlives_call`: a task started in a call emits with its causation after the
  call has ended.
-/
import BeSdk.Events.Causation
import BeSdk.Events.EnvelopeTheorems
import BeSdk.Events.SubscriptionTheorems
import BeSdk.Py.DecimalTheorems

namespace BeSdk.Events

open Audit (uuidText)
open Consumer (Received received maxHops)

/-! ## IDs -/

/-- The hexadecimal digits of an ID. -/
def uuidDigits (n : Nat) : Str := (List.range 32).map fun i => hexDigit (n / 16 ^ (31 - i))

/-- What is no hexadecimal digit is not among them. -/
theorem not_mem_uuidDigits (n : Nat) {c : CodePoint} (hc : ∀ d < 16, hexDigit d ≠ c) :
    c ∉ uuidDigits n := by
  intro h
  obtain ⟨i, -, hi⟩ := List.mem_map.mp h
  have hmod : hexDigit (n / 16 ^ (31 - i)) = hexDigit (n / 16 ^ (31 - i) % 16) := by simp [hexDigit]
  exact hc _ (Nat.mod_lt _ (by decide)) (hmod.symm.trans hi)

/-- A UUID's text is its digits in five groups. -/
theorem uuidText_eq (n : Nat) : uuidText n = (uuidDigits n).take 8 ++ chr '-' ::
    (((uuidDigits n).drop 8).take 4 ++ chr '-' ::
      (((uuidDigits n).drop 12).take 4 ++ chr '-' :: (((uuidDigits n).drop 16).take 4 ++
      chr '-' :: (uuidDigits n).drop 20))) := by
  rw [uuidText]
  simp only [Str.join, uuidDigits]
  simp [str, chr]

/-- The five groups together are the digits. -/
theorem uuidDigits_parts (n : Nat) : (uuidDigits n).take 8 ++ (((uuidDigits n).drop 8).take 4 ++
    (((uuidDigits n).drop 12).take 4 ++
      (((uuidDigits n).drop 16).take 4 ++ (uuidDigits n).drop 20))) = uuidDigits n := by
  have hpart : ∀ k m : Nat, ((uuidDigits n).drop k).take m ++ (uuidDigits n).drop (k + m) =
    (uuidDigits n).drop k :=
    fun k m => by rw [← List.drop_drop, List.take_append_drop]
  rw [hpart 16 4, hpart 12 4, hpart 8 4, List.take_append_drop]

/-- A UUID's text has digits and hyphens only. -/
theorem not_mem_uuidText (n : Nat) {c : CodePoint} (hc : ∀ d < 16, hexDigit d ≠ c)
    (hhyphen : c ≠ chr '-') : c ∉ uuidText n := by
  have hdigits := not_mem_uuidDigits n hc
  rw [← uuidDigits_parts] at hdigits
  rw [uuidText_eq]
  simp only [List.mem_append, List.mem_cons, not_or] at hdigits ⊢
  exact ⟨hdigits.1, hhyphen, hdigits.2.1, hhyphen, hdigits.2.2.1, hhyphen, hdigits.2.2.2.1,
    hhyphen, hdigits.2.2.2.2⟩

/-- The digits without the hyphens. -/
theorem replace_uuidText (n : Nat) : Str.replace (uuidText n) (chr '-') [] = uuidDigits n := by
  have hhyphen : chr '-' ∉ uuidDigits n := not_mem_uuidDigits n (by decide)
  have hdigits := hhyphen
  rw [← uuidDigits_parts] at hdigits
  simp only [List.mem_append, not_or] at hdigits
  rw [uuidText_eq]
  simp only [Str.replace_append, Str.replace_cons_self, List.nil_append,
    Str.replace_of_not_mem hdigits.1, Str.replace_of_not_mem hdigits.2.1,
    Str.replace_of_not_mem hdigits.2.2.1, Str.replace_of_not_mem hdigits.2.2.2.1,
    Str.replace_of_not_mem hdigits.2.2.2.2]
  exact uuidDigits_parts n

/-- A pattern whose first character is not in a text is not in it. -/
theorem removeGo_eq {p : CodePoint} (pat : Str) {s : Str} (h : p ∉ s) :
    Consumer.removeGo (p :: pat) 0 s = s := by
  induction s with
  | nil => rfl
  | cons c s ih =>
      rw [List.mem_cons, not_or] at h
      have hstarts : Str.startsWith (c :: s) (p :: pat) = false := by
        rw [Str.startsWith, List.isPrefixOf, beq_eq_false_iff_ne.mpr h.1, Bool.false_and]
      rw [Consumer.removeGo, hstarts, if_neg Bool.false_ne_true, ih h.2]

/-- Nothing is stripped from a text that has nothing of the kind. -/
theorem strip_eq {p : CodePoint → Bool} {s : Str} (h : ∀ c ∈ s, p c = false) :
    ((s.dropWhile p).reverse.dropWhile p).reverse = s := by
  rw [dropWhile_eq_self h, dropWhile_eq_self fun c hc => h c (List.mem_reverse.mp hc),
    List.reverse_reverse]

/-- The digits are read as their number; the first ones as what is left of it. -/
theorem foldl_uuidDigits (n : Nat) :
    ∀ k ≤ 32, ((List.range k).map fun i => n / 16 ^ (31 - i) % 16).foldl
    (fun n d => 16 * n + d) 0 = n / 16 ^ (32 - k) % 16 ^ k := by
  intro k hk
  induction k with
  | zero => simp [Nat.mod_one]
  | succ k ih =>
      rw [List.range_succ, List.map_append, List.foldl_append, ih (by omega)]
      simp only [List.map_cons, List.map_nil, List.foldl_cons, List.foldl_nil]
      have hexp : 32 - k = (31 - k) + 1 := by omega
      have hexp' : 32 - (k + 1) = 31 - k := by omega
      rw [hexp, hexp', Nat.pow_succ, ← Nat.div_div_eq_div_mul, Nat.pow_succ' (n := k),
        Nat.mod_mul, Nat.add_comm]

section
variable [Interp]

theorem hexVal_uuidDigit (d : Nat) : Consumer.hexVal (hexDigit d) = some (d % 16) := by
  rw [hexDigit]
  split
  · rw [Consumer.hexVal, if_neg (by simp only; omega), if_neg (by simp only; omega),
      Consumer.decimalVal, if_pos (by simp only; omega), digitVal, if_pos (by constructor <;>
        simp only <;> omega)]
    simp
  · rw [Consumer.hexVal, if_pos (by constructor <;> simp only <;> omega)]
    simp only [Option.some.injEq]
    omega

/-- The digits of a UUID are read as its number. -/
theorem hexInt_uuidDigits {n : Nat} (h : n < 2 ^ 128) :
    Consumer.hexInt (uuidDigits n) = some (n : Int) := by
  have hblank : ∀ c ∈ uuidDigits n, Consumer.intSpace c = false := by
    intro c hc
    by_contra hspace
    refine not_mem_uuidDigits n (fun d hd heq => hspace ?_) hc
    have hall : ∀ d < 16, Consumer.intSpace (hexDigit d) = false := by decide
    rw [← heq, hall d hd]
  have hhead : ∀ c : CodePoint, (∀ d < 16, hexDigit d ≠ c) → (uuidDigits n).head? ≠ some c :=
    fun c hc heq => not_mem_uuidDigits n hc (List.mem_of_mem_head? heq)
  have hstarts : ∀ p : Str, (∃ c ∈ p, ∀ d < 16, hexDigit d ≠ c) →
    Str.startsWith (uuidDigits n) p = false := by
    rintro p ⟨c, hc, hne⟩
    rw [Bool.eq_false_iff]
    intro hstarts
    obtain ⟨t, ht⟩ := (Str.startsWith_iff _ _).mp hstarts
    exact not_mem_uuidDigits n hne (ht ▸ List.mem_append_left t hc)
  have hsplit : splitOn (chr '_') (uuidDigits n) = [uuidDigits n] := by
    rw [splitOn_eq, List.splitOn_eq_singleton (not_mem_uuidDigits n (by decide))]
  have hnonempty : (uuidDigits n).isEmpty = false := rfl
  have hmap : (uuidDigits n).mapM Consumer.hexVal =
    some ((List.range 32).map fun i => n / 16 ^ (31 - i) % 16) := by
    rw [uuidDigits, List.mapM_map]
    exact mapM_some fun i _ => hexVal_uuidDigit _
  have hfold : ((List.range 32).map fun i => n / 16 ^ (31 - i) % 16).foldl
    (fun n d => 16 * n + d) 0 = n := by
    rw [foldl_uuidDigits n 32 le_rfl]
    show n / 1 % 16 ^ 32 = n
    rw [Nat.div_one, Nat.mod_eq_of_lt (Nat.lt_of_lt_of_le h (by norm_num))]
  rw [Consumer.hexInt, strip_eq hblank]
  simp only [hhead (chr '-') (by decide), hhead (chr '+') (by decide), or_self, if_false,
    hstarts (str "0x") ⟨chr 'x', by decide, by decide⟩,
    hstarts (str "0X") ⟨chr 'X', by decide, by decide⟩, Bool.false_eq_true, hsplit,
    List.flatten_singleton, hmap, List.any_cons, List.any_nil, hnonempty, Option.map_some,
    hfold, Bool.or_self]

/-- A UUID is read back from its text. -/
theorem uuidOf_uuidText {n : Nat} (h : n < 2 ^ 128) : Consumer.uuidOf (uuidText n) = some n := by
  have hu : chr 'u' ∉ uuidText n := not_mem_uuidText n (by decide) (by decide)
  have hbrace : ∀ c ∈ uuidText n, (decide (c = chr '{') || decide (c = chr '}')) = false := by
    intro c hc
    rw [Bool.or_eq_false_iff, decide_eq_false_iff_not, decide_eq_false_iff_not]
    refine ⟨?_, ?_⟩
    · rintro rfl
      exact not_mem_uuidText n (by decide) (by decide) hc
    · rintro rfl
      exact not_mem_uuidText n (by decide) (by decide) hc
  have hlength : (uuidDigits n).length = 32 := by
    rw [uuidDigits, List.length_map, List.length_range]
  have hpattern : ∀ s : Str, s.head? = some (chr 'u') → Consumer.removeGo s 0 (uuidText n) =
    uuidText n := by
    intro s hs
    obtain ⟨pat, rfl⟩ := List.head?_eq_some_iff.mp hs
    exact removeGo_eq pat hu
  rw [Consumer.uuidOf, hpattern (str "urn:") rfl, hpattern (str "uuid:") rfl]
  rw [strip_eq hbrace, replace_uuidText, if_neg (not_not.mpr hlength), hexInt_uuidDigits h,
    Option.bind_some, if_pos ⟨Int.natCast_nonneg n, by exact_mod_cast h⟩, Int.toNat_natCast]

end

/-! ## Calls -/

namespace Causation

/-- The events of the calls a task is in, the innermost first: those it entered and has
not left, and those its starter was in when it started the task. -/
def calls : List Event → Nat → List Nat
  | [], _ => []
  | .entered i id :: h, j => if j = i then id :: calls h j else calls h j
  | .left i :: h, j => if j = i then (calls h j).tail else calls h j
  | .started i (some k) :: h, j => if j = i then calls h k else calls h j
  | .started i none :: h, j => if j = i then [] else calls h j
  | .emitted .. :: h, j => calls h j
  | .quiet :: h, j => calls h j

/-- A cause is that of a call for a committed row. -/
def Names (rows : List Row) : Option (Str × Int) → Option Nat → Prop
  | none, none => True
  | some (text, hops), some id => text = uuidText id ∧ ∃ q ∈ rows, q.eventId = id ∧ q.hops = hops
  | _, _ => False

/-- The cause of a task, and the ones its scopes restore, are those of its calls. -/
def Stack (rows : List Row) (cause : Option (Str × Int)) :
    List (Option (Str × Int)) → List Nat → Prop
  | [], ids => Names rows cause ids.head?
  | outer :: saved, ids => ∃ id rest, ids = id :: rest ∧ Names rows cause (some id) ∧
      Stack rows outer saved rest

variable {rows rows' : List Row}

/-- A cause that names a row still does where there are more rows. -/
theorem Names.mono (hsub : rows ⊆ rows') :
    ∀ {cause : Option (Str × Int)} {id : Option Nat}, Names rows cause id →
    Names rows' cause id
  | none, none, _ => trivial
  | some _, some _, ⟨htext, q, hq, hid⟩ => ⟨htext, q, hsub hq, hid⟩

/-- So do the causes that were saved. -/
theorem Stack.mono (hsub : rows ⊆ rows') :
    ∀ {saved : List (Option (Str × Int))} {cause : Option (Str × Int)}
    {ids : List Nat}, Stack rows cause saved ids → Stack rows' cause saved ids
  | [], _, _, h => Names.mono hsub h
  | _ :: _, _, _, ⟨id, rest, hids, hcause, h⟩ => ⟨id, rest, hids, hcause.mono hsub, h.mono hsub⟩

theorem Stack.names :
    ∀ {saved : List (Option (Str × Int))} {cause : Option (Str × Int)} {ids : List Nat},
    Stack rows cause saved ids → Names rows cause ids.head?
  | [], _, _, h => h
  | _ :: _, _, _, ⟨_, _, hids, hcause, _⟩ => hids ▸ hcause

section
variable [Interp]

/-- A row that was emitted, and its hops: one more than those of the committed row it
names. -/
structure Caused (h : List Event) (rows : List Row) (r : Row) : Prop where
  emitted : ∃ i, .emitted i r.eventId r.causation ∈ h
  uuid : r.eventId < 2 ^ 128
  accepted : ∃ cause d ev, Accepted cause d ev r
  root : r.causation = none → r.hops = 0
  effect : ∀ c, r.causation = some c → ∃ q ∈ rows, q.eventId = c ∧ r.hops = q.hops + 1

/-- A row's cause stays explained while the history grows. -/
theorem Caused.mono {h h' : List Event} (hpast : h ⊆ h') (hsub : rows ⊆ rows')
    {r : Row} (hr : Caused h rows r) : Caused h' rows' r where
  emitted := hr.emitted.imp fun _ hi => hpast hi
  uuid := hr.uuid
  accepted := hr.accepted
  root := hr.root
  effect c hc := by
    obtain ⟨q, hq, hid⟩ := hr.effect c hc
    exact ⟨q, hsub hq, hid⟩

/-- What a consumer prepares keeps the event's ID and hops. -/
theorem prepare_seen {m : Delivery} {x y : Received} {fetched : Except Exc Bytes}
    (hx : received m = .ok x) (h : Consumer.prepare m fetched = .ok y) :
    y.id = x.id ∧ y.hops = x.hops := by
  simp only [Consumer.prepare, bind_eq_ok_iff] at h
  obtain ⟨x', hx', h⟩ := h
  obtain rfl := Except.ok.inj (hx.symm.trans hx')
  split at h
  · simp only [bind_eq_ok_iff] at h
    obtain ⟨_, hthrow, -⟩ := h
    cases hthrow
  · simp only [bind_eq_ok_iff, pure_eq_ok_iff] at h
    obtain ⟨_, -, _, -, rfl⟩ := h
    exact ⟨rfl, rfl⟩

/-- **A delivery gives its handler's context the row's ID and hops.** -/
theorem Consumed.cause_eq {cause : Option (Str × Int)} {d : Draws} {ev : Events.Event} {r : Row}
    (hr : Accepted cause d ev r) {c : Consumed} {x : Str × Int} (h : c.cause r = some x) :
    x = (uuidText r.eventId, r.hops) := by
  rw [Consumed.cause] at h
  split at h
  · cases h
  next m hm =>
  obtain ⟨claim, hheaders⟩ := Row.message_headers hm
  have hreceived := received_headers hr c.place claim c.source c.impl (m := ⟨m, c.attempt⟩) hheaders
  split at h
  · next y hy =>
    obtain ⟨hid, hhops⟩ := prepare_seen hreceived hy
    rw [← Option.some.inj h, hid, hhops]
    rfl
  · cases h

/-- **An accepted event names the call its task is in**, with one hop more. -/
theorem caused_of_emit {p : Producer} {cause : Option (Str × Int)} {d : Draws} {stream : Str}
    {ev : Events.Event} {r : Row} (hr : p.emit cause d stream ev = .ok r)
    {id : Option Nat} (hnames : Names rows cause id) (huuid : ∀ q ∈ rows, q.eventId < 2 ^ 128)
    (h : List Event) (i : Nat) :
    r.causation = id ∧ Caused (.emitted i r.eventId r.causation :: h) rows r := by
  have hacc := (Producer.emit_ok hr).1
  have hemitted : ∃ j, .emitted j r.eventId r.causation ∈
    (Event.emitted i r.eventId r.causation :: h) :=
    ⟨i, List.mem_cons_self⟩
  have hid : r.eventId < 2 ^ 128 := hacc.eventId ▸ d.uuid
  cases cause with
  | none =>
      cases id with
      | some _ => exact hnames.elim
      | none =>
          have hcausation : (none : Option Nat) = r.causation := Except.ok.inj hacc.causation
          refine ⟨hcausation.symm, hemitted, hid, ⟨none, d, ev, hacc⟩, fun _ => hacc.hops,
            fun c hc => ?_⟩
          rw [← hcausation] at hc
          cases hc
  | some cause =>
      cases id with
      | none => exact hnames.elim
      | some c =>
          obtain ⟨text, hops⟩ := cause
          obtain ⟨rfl, q, hq, rfl, hhops⟩ := hnames
          have hcausation := hacc.causation
          have hne : uuidText q.eventId ≠ [] := by
            intro hnil
            have hlength := length_uuidText q.eventId
            rw [hnil] at hlength
            cases hlength
          rw [caused, causationOf, if_neg hne, uuidOf_uuidText (huuid q hq)] at hcausation
          have hsome : r.causation = some q.eventId := (Except.ok.inj hcausation).symm
          refine ⟨hsome, hemitted, hid, ⟨some (uuidText q.eventId, hops), d, ev, hacc⟩,
            fun hnone => ?_, fun c hc => ?_⟩
          · rw [hsome] at hnone
            cases hnone
          · obtain rfl := Option.some.inj (hsome.symm.trans hc)
            exact ⟨q, hq, rfl, hhops ▸ hacc.hops⟩

end

/-! ## Runs -/

/-- The IDs in the outboxes, committed and not. -/
def State.ids (s : State) : List Nat := (s.txs.flatMap Tx.rows ++ s.rows).map Row.eventId

variable {h : List Event} {s : State} {n : Nat} {tx tx' : Tx}

/-- The event IDs after a transaction changed its rows. -/
theorem ids_set (hn : n < s.txs.length) (tx' : Tx) (rows : List Row) :
    (State.ids { s with txs := s.txs.set n tx', rows }).Perm
      ((tx'.rows ++ (s.txs.eraseIdx n).flatMap Tx.rows ++ rows).map Row.eventId) := by
  have hset := (List.set_perm_cons_eraseIdx hn tx').flatMap_right Tx.rows
  rw [List.flatMap_cons] at hset
  exact (hset.append_right rows).map Row.eventId

/-- The event IDs apart from one transaction's. -/
theorem ids_perm (hn : s.txs[n]? = some tx) :
    s.ids.Perm ((tx.rows ++ (s.txs.eraseIdx n).flatMap Tx.rows ++ s.rows).map Row.eventId) := by
  obtain ⟨hlt, rfl⟩ := List.getElem?_eq_some_iff.mp hn
  have h := ids_set hlt s.txs[n] s.rows
  rwa [List.set_getElem_self] at h

/-- An ID is new where no row has it. -/
theorem isNew_iff {id : Nat} : s.isNew id = true ↔ id ∉ s.ids := by
  rw [State.isNew, State.ids, List.map_append, List.mem_append, not_or, Bool.and_eq_true]
  simp only [List.all_eq_true, decide_eq_true_eq, List.mem_map, List.mem_flatMap,
    not_exists, not_and]
  constructor
  · rintro ⟨hrows, htxs⟩
    exact ⟨fun r ⟨tx, htx, hr⟩ => htxs tx htx r hr, hrows⟩
  · rintro ⟨htxs, hrows⟩
    exact ⟨hrows, fun tx htx r hr => htxs r ⟨tx, htx, hr⟩⟩

section
variable [Interp]

/-- The rows of the outboxes. -/
structure Sound (h : List Event) (s : State) : Prop where
  committed : ∀ r ∈ s.rows, Caused h s.rows r
  pending : ∀ tx ∈ s.txs, ∀ r ∈ tx.rows, Caused h s.rows r
  distinct : s.ids.Nodup

theorem Sound.cons (hs : Sound h s) (e : Event) : Sound (e :: h) s where
  committed r hr := (hs.committed r hr).mono (List.subset_cons_self e h) (List.Subset.refl _)
  pending tx htx r hr := (hs.pending tx htx r hr).mono (List.subset_cons_self e h)
    (List.Subset.refl _)
  distinct := hs.distinct

theorem Sound.nodup (hs : Sound h s) : (s.rows.map Row.eventId).Nodup := by
  have hdistinct := hs.distinct
  rw [State.ids, List.map_append] at hdistinct
  exact (List.nodup_append.mp hdistinct).2.1

/-- A transaction's rows stay explained while it changes. -/
theorem pending_set (hs : Sound h s) (htx : ∀ r ∈ tx'.rows, Caused h s.rows r) :
    ∀ tx ∈ s.txs.set n tx', ∀ r ∈ tx.rows, Caused h s.rows r := by
  intro tx hmem
  rcases List.mem_or_eq_of_mem_set hmem with hmem | rfl
  · exact hs.pending tx hmem
  · exact htx

/-- A transaction writes a row. -/
theorem Sound.insert (hs : Sound h s) (hn : s.txs[n]? = some tx) {r : Row} (hr : Caused h s.rows r)
    (hnew : s.isNew r.eventId = true) :
    Sound h { s with txs := s.txs.set n { tx with rows := r :: tx.rows } } where
  committed := hs.committed
  pending := by
    refine pending_set hs fun q hq => ?_
    rcases List.mem_cons.mp hq with rfl | hq
    · exact hr
    · exact hs.pending tx (List.mem_of_getElem? hn) q hq
  distinct := by
    have hlt := (List.getElem?_eq_some_iff.mp hn).1
    have hset := ids_set hlt { tx with rows := r :: tx.rows } s.rows
    have hnodup := ((ids_perm hn).nodup_iff).mp hs.distinct
    have hfresh : r.eventId ∉ (tx.rows ++ (s.txs.eraseIdx n).flatMap Tx.rows ++ s.rows).map
      Row.eventId :=
      fun hmem => isNew_iff.mp hnew ((ids_perm hn).mem_iff.mpr hmem)
    exact hset.nodup_iff.mpr (List.nodup_cons.mpr ⟨hfresh, hnodup⟩)

/-- A transaction keeps its rows, or loses them all. -/
theorem Sound.set (hs : Sound h s) (hn : s.txs[n]? = some tx) (tx' : Tx)
    (htx : tx'.rows.Sublist tx.rows) : Sound h { s with txs := s.txs.set n tx' } where
  committed := hs.committed
  pending := pending_set hs fun q hq => hs.pending tx (List.mem_of_getElem? hn) q (htx.subset hq)
  distinct := by
    have hlt := (List.getElem?_eq_some_iff.mp hn).1
    have hnodup := ((ids_perm hn).nodup_iff).mp hs.distinct
    refine (ids_set hlt tx' s.rows).nodup_iff.mpr (hnodup.sublist ?_)
    exact ((htx.append_right _).append_right _).map _

/-- A transaction commits its rows. -/
theorem Sound.commit (hs : Sound h s) (hn : s.txs[n]? = some tx) (tx' : Tx) (htx : tx'.rows = []) :
    Sound h { s with txs := s.txs.set n tx', rows := tx.rows ++ s.rows } where
  committed := by
    intro r hr
    refine Caused.mono (List.Subset.refl h) (List.subset_append_right _ _) ?_
    rcases List.mem_append.mp hr with hr | hr
    · exact hs.pending tx (List.mem_of_getElem? hn) r hr
    · exact hs.committed r hr
  pending := by
    intro t ht r hr
    have hall : ∀ tx ∈ s.txs.set n tx', ∀ r ∈ tx.rows, Caused h s.rows r :=
      pending_set hs (by simp [htx])
    exact (hall t ht r hr).mono (List.Subset.refl h) (List.subset_append_right _ _)
  distinct := by
    have hlt := (List.getElem?_eq_some_iff.mp hn).1
    have hnodup := ((ids_perm hn).nodup_iff).mp hs.distinct
    refine (ids_set hlt tx' (tx.rows ++ s.rows)).nodup_iff.mpr ?_
    rw [htx, List.nil_append]
    refine (List.Perm.map _ ?_).nodup_iff.mp hnodup
    rw [List.append_assoc]
    exact List.perm_append_comm_assoc _ _ _

end

/-- The contexts of the tasks, and what they have emitted. -/
structure Follows (h : List Event) (s : State) : Prop where
  stacked : ∀ {i : Nat} {t : Task}, s.tasks[i]? = some t → Stack s.rows t.cause t.saved (calls h i)
  later : ∀ i, s.tasks.length ≤ i → calls h i = []
  emitted : ∀ {i id : Nat} {c : Option Nat} {older : List Event}, (.emitted i id c :: older) <:+ h →
    c = (calls older i).head?

/-- The calls around an emission are those of the history before it. -/
theorem emitted_cons {e : Event} (hf : Follows h s)
    (he : ∀ {i id c}, e = .emitted i id c → c = (calls h i).head?)
    {i id : Nat} {c : Option Nat} {older : List Event}
    (hsuffix : (.emitted i id c :: older) <:+ (e :: h)) :
    c = (calls older i).head? := by
  rcases List.suffix_cons_iff.mp hsuffix with heq | hsuffix
  · obtain ⟨heq, hrest⟩ := List.cons.inj heq
    exact hrest ▸ he heq.symm
  · exact hf.emitted hsuffix

/-- A step that keeps the contexts and the calls. -/
theorem Follows.keep (hf : Follows h s) {s' : State} {e : Event}
    (hcalls : ∀ j, calls (e :: h) j = calls h j)
    (he : ∀ {i id c}, e = .emitted i id c → c = (calls h i).head?)
    (hlength : s'.tasks.length = s.tasks.length)
    (htasks : ∀ {i : Nat} {t' : Task}, s'.tasks[i]? = some t' → ∃ t, s.tasks[i]? = some t ∧
      t'.cause = t.cause ∧ t'.saved = t.saved) (hsub : s.rows ⊆ s'.rows) : Follows (e :: h) s' where
  stacked {i t'} ht' := by
    obtain ⟨t, ht, hcause, hsaved⟩ := htasks ht'
    rw [hcause, hsaved, hcalls]
    exact (hf.stacked ht).mono hsub
  later i hge := by
    rw [hcalls]
    exact hf.later i (hlength ▸ hge)
  emitted := emitted_cons hf he

/-- A task that changes its transaction keeps its cause. -/
theorem put_contexts {i : Nat} {t : Task} (ht : s.tasks[i]? = some t) (tx : Option Nat)
    {j : Nat} {u' : Task} (hu : (s.put i { t with tx }).tasks[j]? = some u') :
    ∃ u, s.tasks[j]? = some u ∧ u'.cause = u.cause ∧ u'.saved = u.saved := by
  rcases getElem?_set_cases hu with ⟨rfl, rfl⟩ | ⟨-, hu⟩
  · exact ⟨t, ht, rfl, rfl⟩
  · exact ⟨u', hu, rfl, rfl⟩

/-- A task enters a call. -/
theorem Follows.enter (hf : Follows h s) {i id : Nat} {t : Task} (ht : s.tasks[i]? = some t)
    {cause : Str × Int} (hnames : Names s.rows (some cause) (some id)) :
    Follows (.entered i id :: h)
    (s.put i { t with cause := some cause, saved := t.cause :: t.saved }) where
  stacked {j u} hu := by
    rw [calls]
    rcases getElem?_set_cases hu with ⟨rfl, rfl⟩ | ⟨hne, hu⟩
    · rw [if_pos rfl]
      exact ⟨id, calls h j, rfl, hnames, hf.stacked ht⟩
    · rw [if_neg hne]
      exact hf.stacked hu
  later j hge := by
    have hlength : (s.put i { t with cause := some cause,
                                     saved := t.cause :: t.saved }).tasks.length = s.tasks.length :=
      List.length_set
    have hlt := (List.getElem?_eq_some_iff.mp ht).1
    rw [calls, if_neg (by omega)]
    exact hf.later j (hlength ▸ hge)
  emitted := emitted_cons hf (by rintro _ _ _ ⟨⟩)

/-- A task's innermost call ends. -/
theorem Follows.leave (hf : Follows h s) {i : Nat} {t : Task} (ht : s.tasks[i]? = some t)
    {cause : Option (Str × Int)} {saved : List (Option (Str × Int))}
    (hsaved : t.saved = cause :: saved) :
    Follows (.left i :: h) (s.put i { t with cause, saved }) where
  stacked {j u} hu := by
    rw [calls]
    rcases getElem?_set_cases hu with ⟨rfl, rfl⟩ | ⟨hne, hu⟩
    · have hstack := hf.stacked ht
      rw [hsaved] at hstack
      obtain ⟨id, rest, hcalls, -, hrest⟩ := hstack
      rw [if_pos rfl, hcalls]
      exact hrest
    · rw [if_neg hne]
      exact hf.stacked hu
  later j hge := by
    have hlength : (s.put i { t with cause, saved }).tasks.length = s.tasks.length :=
      List.length_set
    have hlt := (List.getElem?_eq_some_iff.mp ht).1
    rw [calls, if_neg (by omega)]
    exact hf.later j (hlength ▸ hge)
  emitted := emitted_cons hf (by rintro _ _ _ ⟨⟩)

/-- A task starts, in the calls of its starter. -/
theorem Follows.start (hf : Follows h s) {by_ : Option Nat} {u : Task} (hsaved : u.saved = [])
    (hnames : Names s.rows u.cause ((by_.map (calls h)).getD []).head?) :
    Follows (.started s.tasks.length by_ :: h) { s with tasks := s.tasks ++ [u] } where
  stacked {j t} ht := by
    have hcalls : calls (.started s.tasks.length by_ :: h) j
        = if j = s.tasks.length then (by_.map (calls h)).getD [] else calls h j := by
      cases by_ <;> rfl
    rw [hcalls]
    rcases getElem?_join_cases ht with ht | ⟨rfl, rfl⟩
    · rw [if_neg (Nat.ne_of_lt (List.getElem?_eq_some_iff.mp ht).1)]
      exact hf.stacked ht
    · rw [if_pos rfl, hsaved]
      exact hnames
  later j hge := by
    have hlength : s.tasks.length + 1 ≤ j := by simpa using hge
    have hcalls : calls (.started s.tasks.length by_ :: h) j = calls h j := by
      cases by_ <;> exact if_neg (by omega)
    rw [hcalls]
    exact hf.later j (by omega)
  emitted := emitted_cons hf (by rintro _ _ _ ⟨⟩)

theorem Follows.quiet (hf : Follows h s) : Follows (.quiet :: h) s :=
  hf.keep (fun _ => rfl) (by rintro _ _ _ ⟨⟩) rfl (fun ht => ⟨_, ht, rfl, rfl⟩) (List.Subset.refl _)

/-- A step of a task's transaction. -/
theorem Follows.settle (hf : Follows h s) {i : Nat} {t : Task} (ht : s.tasks[i]? = some t)
    (tx : Option Nat) {rows : List Row} (hsub : s.rows ⊆ rows) (txs : List Tx) :
    Follows (.quiet :: h) { s.put i { t with tx } with txs, rows } :=
  hf.keep (fun _ => rfl) (by rintro _ _ _ ⟨⟩) List.length_set (put_contexts ht tx) hsub

/-- An emission fails, and its transaction with it. -/
theorem Follows.fails (hf : Follows h s) (txs : List Tx) : Follows (.quiet :: h) { s with txs } :=
  hf.keep (fun _ => rfl) (by rintro _ _ _ ⟨⟩) rfl (fun ht => ⟨_, ht, rfl, rfl⟩) (List.Subset.refl _)

section
variable [Interp]

/-- What holds after a step. -/
abbrev Kept (h : List Event) (x : State × Event) : Prop :=
  Sound (x.2 :: h) x.1 ∧ Follows (x.2 :: h) x.1

theorem kept_quiet (hs : Sound h s) (hf : Follows h s) : Kept h (s, .quiet) := ⟨hs.cons _, hf.quiet⟩

/-- An emission is kept with its cause. -/
theorem emit_kept (hs : Sound h s) (hf : Follows h s)
    {i : Nat} {t : Task} (ht : s.tasks[i]? = some t) (n : Nat)
    (e : Emitted) : Kept h (s.act i t (.emit n e)) := by
  simp only [State.act]
  split
  · exact kept_quiet hs hf
  next tx hn =>
  have hfailed : Kept h ({ s with txs := s.txs.set n { tx with failed := true } }, .quiet) :=
    ⟨(hs.cons _).set hn _ (List.Sublist.refl _), hf.fails _⟩
  by_cases hopen : tx.open_ = true ∧ tx.failed = false
  · rw [if_pos hopen]
    split
    · next r hr =>
      by_cases hnew : s.isNew r.eventId = true
      · rw [if_pos hnew]
        have huuid : ∀ q ∈ s.rows, q.eventId < 2 ^ 128 := fun q hq => (hs.committed q hq).uuid
        obtain ⟨hcausation, hcaused⟩ := caused_of_emit hr (hf.stacked ht).names huuid h i
        refine ⟨(hs.cons _).insert hn hcaused hnew, ?_⟩
        refine hf.keep (fun _ => rfl) ?_ rfl (fun hu => ⟨_, hu, rfl, rfl⟩) (List.Subset.refl _)
        rintro _ _ _ ⟨⟩
        exact hcausation
      · rw [if_neg hnew]
        exact hfailed
    · exact hfailed
    · exact kept_quiet hs hf
  · rw [if_neg hopen]
    exact kept_quiet hs hf

/-- A commit keeps what its rows say. -/
theorem commit_kept (hs : Sound h s) (hf : Follows h s)
    {i : Nat} {t : Task} (ht : s.tasks[i]? = some t) : Kept h (s.act i t .commit) := by
  simp only [State.act]
  split
  · exact kept_quiet hs hf
  split
  · exact kept_quiet hs hf
  next n _ tx hn =>
  refine ⟨?_, hf.settle ht _ (List.subset_append_right _ _) _⟩
  by_cases hfailed : tx.failed = true
  · have hset := (hs.cons .quiet).set hn { tx with open_ := false, rows := [] } (List.nil_sublist _)
    rw [if_pos hfailed]
    exact ⟨hset.committed, hset.pending, hset.distinct⟩
  · have hcommit := (hs.cons .quiet).commit hn { tx with open_ := false, rows := [] } rfl
    rw [if_neg hfailed]
    exact ⟨hcommit.committed, hcommit.pending, hcommit.distinct⟩

/-- A rollback takes its rows with it. -/
theorem rollback_kept (hs : Sound h s) (hf : Follows h s)
    {i : Nat} {t : Task} (ht : s.tasks[i]? = some t) : Kept h (s.act i t .rollback) := by
  simp only [State.act]
  split
  · exact kept_quiet hs hf
  next n _ =>
  refine ⟨?_, hf.settle ht _ (List.Subset.refl _) _⟩
  cases hn : s.txs[n]? with
  | none =>
      have hset : s.txs.set n { open_ := false } = s.txs :=
        List.set_eq_of_length_le (List.getElem?_eq_none_iff.mp hn)
      have hs := hs.cons .quiet
      simp only [State.put, hset]
      exact ⟨hs.committed, hs.pending, hs.distinct⟩
  | some tx =>
      have hset := (hs.cons .quiet).set hn { open_ := false } (List.nil_sublist _)
      exact ⟨hset.committed, hset.pending, hset.distinct⟩

/-- Every act of a task keeps it. -/
theorem act_kept (hs : Sound h s) (hf : Follows h s)
    {i : Nat} {t : Task} (ht : s.tasks[i]? = some t) (a : Act) :
    Kept h (s.act i t a) := by
  cases a with
  | start =>
      have hs' := hs.cons (.started s.tasks.length (some i))
      exact ⟨⟨hs'.committed, hs'.pending, hs'.distinct⟩, hf.start rfl (hf.stacked ht).names⟩
  | process k c =>
      simp only [State.act]
      split
      · exact kept_quiet hs hf
      next r hr =>
      split
      · exact kept_quiet hs hf
      next cause hcause =>
      have hmem := List.mem_of_getElem? hr
      obtain ⟨_, _, _, hacc⟩ := (hs.committed r hmem).accepted
      obtain rfl := Consumed.cause_eq hacc hcause
      have hs' := hs.cons (.entered i r.eventId)
      exact ⟨⟨hs'.committed, hs'.pending, hs'.distinct⟩, hf.enter ht ⟨rfl, r, hmem, rfl, rfl⟩⟩
  | processed =>
      simp only [State.act]
      split
      · exact kept_quiet hs hf
      · next hsaved =>
        have hs' := hs.cons (.left i)
        exact ⟨⟨hs'.committed, hs'.pending, hs'.distinct⟩, hf.leave ht hsaved⟩
  | begin_ =>
      simp only [State.act]
      split
      · exact kept_quiet hs hf
      · have hs' := hs.cons .quiet
        refine ⟨⟨hs'.committed, fun tx htx r hr => ?_, ?_⟩, hf.settle ht _ (List.Subset.refl _) _⟩
        · rcases List.mem_append.mp htx with htx | htx
          · exact hs'.pending tx htx r hr
          · obtain rfl := List.mem_singleton.mp htx
            cases hr
        · show (((s.txs ++ [({} : Tx)]).flatMap Tx.rows ++ s.rows).map Row.eventId).Nodup
          rw [List.flatMap_append, List.flatMap_singleton, List.append_nil]
          exact hs.distinct
  | emit n e => exact emit_kept hs hf ht n e
  | commit => exact commit_kept hs hf ht
  | rollback => exact rollback_kept hs hf ht

/-- Every step keeps it. -/
theorem step_kept (hs : Sound h s) (hf : Follows h s) (o : Op) : Kept h (step s o) := by
  cases o with
  | start =>
      have hs' := hs.cons (.started s.tasks.length none)
      exact ⟨⟨hs'.committed, hs'.pending, hs'.distinct⟩, hf.start rfl trivial⟩
  | task i a =>
      rw [step]
      split
      · exact kept_quiet hs hf
      · next t ht => exact act_kept hs hf ht a

/-- So does every run. -/
theorem reach_kept (hr : Reach step anyOp {} h s) : Sound h s ∧ Follows h s := by
  have hinit : Sound [] {} ∧ Follows [] {} := by
    refine ⟨⟨by simp, by simp, List.nodup_nil⟩, by simp, fun _ _ => rfl, fun hsuffix => ?_⟩
    exact absurd (List.suffix_nil.mp hsuffix) (List.cons_ne_nil _ _)
  have hstep (h : List Event) (s : State) (o : Op) (_ : anyOp s o) (hi : Sound h s ∧ Follows h s) :
      Sound ((step s o).2 :: h) (step s o).1 ∧ Follows ((step s o).2 :: h) (step s o).1 :=
      step_kept hi.1 hi.2 o
  exact hr.invariant hinit hstep

/-! ## Chains -/

/-- Each row is caused by the next one. -/
def Chain (l : List Row) : Prop := l.IsChain fun r q => r.causation = some q.eventId

/-- **The hops count the chain.** -/
theorem Sound.chain_hops (hs : Sound h s) : ∀ {r : Row} {l : List Row}, Chain (r :: l) →
    (∀ q ∈ r :: l, q ∈ s.rows) → (l.length : Int) ≤ r.hops
  | r, [], _, hmem => by
      obtain ⟨_, _, _, hacc⟩ := (hs.committed r (hmem r List.mem_cons_self)).accepted
      exact hacc.bounds.1
  | r, q :: l, hchain, hmem => by
      obtain ⟨hcause, hrest⟩ := List.isChain_cons_cons.mp hchain
      have hq : q ∈ s.rows := hmem q (by simp)
      have ih := hs.chain_hops hrest fun p hp => hmem p (List.mem_cons_of_mem _ hp)
      obtain ⟨q', hq', hid, hhops⟩ := (hs.committed r (hmem r List.mem_cons_self)).effect _ hcause
      obtain rfl := List.inj_on_of_nodup_map hs.nodup hq' hq hid
      rw [hhops, List.length_cons]
      omega

/-- **Causal loops are cut**: hops are within the limit and count the chain of causations,
which has at most MAX_HOPS + 1 events, and the causation of a row is the event of the
innermost call its emitter was in. -/
theorem loops_cut (hr : Reach step anyOp {} h s) :
    (∀ r ∈ s.rows, (0 ≤ r.hops ∧ r.hops ≤ maxHops) ∧ (r.causation = none → r.hops = 0) ∧
      ∀ c, r.causation = some c → (∃ q ∈ s.rows, q.eventId = c) ∧ ∀ q ∈ s.rows, q.eventId =
      c → r.hops = q.hops + 1) ∧
    (∀ r ∈ s.rows, ∃ i older, (.emitted i r.eventId r.causation :: older) <:+ h ∧
      r.causation = (calls older i).head?) ∧
    ∀ l, Chain l → (∀ r ∈ l, r ∈ s.rows) → (l.length : Int) ≤ maxHops + 1 := by
  obtain ⟨hs, hf⟩ := reach_kept hr
  refine ⟨fun r hr => ?_, fun r hr => ?_, fun l hchain hmem => ?_⟩
  · have hcaused := hs.committed r hr
    obtain ⟨_, _, _, hacc⟩ := hcaused.accepted
    refine ⟨hacc.bounds, hcaused.root, fun c hc => ?_⟩
    obtain ⟨q, hq, hid, hhops⟩ := hcaused.effect c hc
    refine ⟨⟨q, hq, hid⟩, fun q' hq' hid' => ?_⟩
    obtain rfl := List.inj_on_of_nodup_map hs.nodup hq' hq (hid'.trans hid.symm)
    exact hhops
  · obtain ⟨i, hi⟩ := (hs.committed r hr).emitted
    obtain ⟨newer, older, rfl⟩ := List.append_of_mem hi
    have hsuffix : (.emitted i r.eventId r.causation :: older) <:+ newer ++
      .emitted i r.eventId r.causation :: older :=
      List.suffix_append _ _
    exact ⟨i, older, hsuffix, hf.emitted hsuffix⟩
  · cases l with
    | nil => decide
    | cons r l =>
        obtain ⟨_, _, _, hacc⟩ := (hs.committed r (hmem r List.mem_cons_self)).accepted
        have hlength := hs.chain_hops hchain hmem
        have hbound := hacc.bounds.2
        rw [List.length_cons]
        omega

end

/-! ## A task that outlives its call -/

/-- The events of the calls a task entered itself and has not left. -/
def own : List Event → Nat → List Nat
  | [], _ => []
  | .entered i id :: h, j => if j = i then id :: own h j else own h j
  | .left i :: h, j => if j = i then (own h j).tail else own h j
  | .started .. :: h, j => own h j
  | .emitted .. :: h, j => own h j
  | .quiet :: h, j => own h j

/-- A stock move, and the one emitted because of it. -/
def first : Emitted := ⟨shop, drawn, str "erp.stock", moved []⟩
def second : Emitted :=
  ⟨shop, { drawn with eventId := drawn.eventId + 1, uuid := by norm_num [drawn] },
    str "erp.stock", moved []⟩

def delivered : Consumed :=
  { put := none, place := seventh, source := shop.source, impl := str "py", attempt := 1,
    fetched := .error .valueError }

/-- A call for the first move starts a task when its transaction has committed, and
ends; the task then emits. -/
def outlivingOps : List Op :=
  [.start, .task 0 .begin_, .task 0 (.emit 0 first), .task 0 .commit, .start,
    .task 1 (.process 0 delivered), .task 1 .begin_, .task 1 .commit, .task 1 .start,
    .task 1 .processed, .task 2 .begin_, .task 2 (.emit 2 second),
    .task 2 .commit]

theorem outliving_history : (runOps (@step Interp.ascii) {} outlivingOps).1 =
    [.quiet, .emitted 2 second.draws.eventId (some first.draws.eventId), .quiet, .left 1,
      .started 2 (some 1), .quiet, .quiet, .entered 1 first.draws.eventId, .started 1 none,
      .quiet, .emitted 0 first.draws.eventId none, .quiet,
      .started 0 none] := by
  decide +kernel

theorem loops_cut_outliving : ∃ h s, Reach (@step Interp.ascii) anyOp {} h s ∧
    s.rows.map Row.hops = [1, 0] ∧ ∀ l, Chain l → (∀ r ∈ l, r ∈ s.rows) →
    (l.length : Int) ≤ maxHops + 1 := by
  have hr := reach_runOps (@step Interp.ascii) outlivingOps {}
  exact ⟨_, _, hr, by decide +kernel, (@loops_cut _ _ Interp.ascii hr).2.2⟩

/-- **A causation outlives its call**: the call a task was started in has ended when it
emits, and every other call too. -/
theorem cause_outlives_call : ¬ ∀ (h : List Event) (s : State), Reach (@step Interp.ascii)
    anyOp {} h s → ∀ i id c older, (.emitted i id (some c) :: older) <:+ h →
    ∃ j, c ∈ own older j := by
  intro hall
  have hr := reach_runOps (@step Interp.ascii) outlivingOps {}
  rw [outliving_history] at hr
  obtain ⟨j, hj⟩ := hall _ _ hr _ _ _ _ (List.suffix_cons _ _)
  have hnone : ∀ j, own [.quiet, .left 1, .started 2 (some 1), .quiet, .quiet,
    .entered 1 first.draws.eventId,
      .started 1 none, .quiet, .emitted 0 first.draws.eventId none, .quiet, .started 0 none]
      j = [] := by
    intro j
    by_cases hone : j = 1 <;> simp [own, hone]
  rw [hnone] at hj
  cases hj

end Causation

end BeSdk.Events
