/-
BeSdk.Lists.Resume — a cursor is used with the keys and the ID it holds, or it is
refused.

The keyset condition is written out once more from a list of keys, each a column with
the value that the cursor has for it (`keyset`), and `resume_opened` says that the
builder's is that one. What a page without a cursor becomes with such a condition is
`Query.continued`.

A cursor that a page wrote is used with the keys and the ID it was written for, where
these have no surrogate pair in two halves. A cursor of any other origin is refused for
what it decodes to, or used with it, except for the members that the builder does not
look at: a key that is no text and an ID that is no text go to the database as they
are, a missing ID is a `KeyError`, and `true` passes for version 1.
-/
import BeSdk.Lists.Walk

namespace BeSdk.Lists

open Sql (Kind Pred Param Arg OrderKey Comparison)

/-! ## The keyset condition, written out -/

/-- A key of the order, and what the cursor's row has there. -/
structure CursorKey where
  column : ColumnRef
  kind : Kind
  desc : Bool
  value : Arg

/-- The row comes after the cursor's in this key. -/
def CursorKey.next (k : CursorKey) : Comparison := if k.desc then .lt else .gt

/-- The arguments of the `i`-th alternative: the keys up to the `i`-th. -/
def rowArgs (ks : List CursorKey) (i : Nat) : List Arg := (ks.take (i + 1)).map CursorKey.value

/-- The arguments of the alternatives before the `i`-th. -/
def argsBefore (ks : List CursorKey) (i : Nat) : List Arg := (List.range i).flatMap (rowArgs ks)

/-- The keys equal the cursor's, their arguments at `base` and behind. -/
def equalsFrom : List CursorKey → Nat → List (Pred ColumnRef)
  | [], _ => []
  | k :: ks, base => .cmp k.column .eq ⟨base, some k.kind⟩ :: equalsFrom ks (base + 1)

/-- The keys before the `i`-th equal the cursor's, and the `i`-th comes after. -/
def alternative (ks : List CursorKey) (i base : Nat) : Pred ColumnRef :=
  match ks[i]? with
  | none => .const false
  | some k => .and (equalsFrom (ks.take i) base ++ [.cmp k.column k.next ⟨base + i, some k.kind⟩])

/-- The row comes after the cursor's in the order of the keys. -/
def keyset (ks : List CursorKey) (base : Nat) : Pred ColumnRef :=
  .or ((List.range ks.length).map fun i => alternative ks i (base + (argsBefore ks i).length))

/-- The keys of an order, with the values of a cursor; the ID is the last. -/
def Spec.cursorKeys (s : Spec) (sort : List Order) (keys : List Arg) (id : Arg) : List CursorKey :=
  (sort.zip keys).map (fun p => ⟨s.col (s.colOf p.1).column, (s.colOf p.1).kind, p.1.desc, p.2⟩) ++
    [⟨s.col s.idColumn, s.idKind, false, id⟩]

/-- The page that continues a page after the row of some keys. -/
def Query.continued (q : Query) (ks : List CursorKey) : Query :=
  { q with
    where_ :=
      match q.where_ with
      | .chain ps => .chain (ps ++ [keyset ks q.args.length])
      | p => .chain [p, keyset ks q.args.length]
    args := q.args ++ argsBefore ks ks.length }

theorem length_rowArgs (ks : List CursorKey) (i : Nat) :
    (rowArgs ks i).length = min (i + 1) ks.length := by
  rw [rowArgs, List.length_map, List.length_take]

/-- As many arguments for as many keys. -/
theorem length_argsBefore {ks ks' : List CursorKey} (h : ks.length = ks'.length) (i : Nat) :
    (argsBefore ks i).length = (argsBefore ks' i).length := by
  simp only [argsBefore, List.length_flatMap, length_rowArgs, h]

/-- The arguments tell the values of the keys. -/
theorem values_of_argsBefore {ks ks' : List CursorKey} (hlen : ks.length = ks'.length)
    (h : argsBefore ks ks.length = argsBefore ks' ks'.length) :
    ks.map CursorKey.value = ks'.map CursorKey.value := by
  cases hn : ks.length with
  | zero =>
      rw [hn] at hlen
      rw [List.length_eq_zero_iff.mp hn, List.length_eq_zero_iff.mp hlen.symm]
  | succ n =>
      have hn' : ks'.length = n + 1 := hlen.symm.trans hn
      rw [hn, hn', argsBefore, argsBefore, List.range_succ, List.flatMap_append,
        List.flatMap_append] at h
      have hlast := List.append_inj_right h (length_argsBefore hlen n)
      simpa only [List.flatMap_cons, List.flatMap_nil, List.append_nil, rowArgs,
        List.take_of_length_le (Nat.le_of_eq hn),
        List.take_of_length_le (Nat.le_of_eq hn')] using hlast

/-- The page tells the values of the keys it continues after. -/
theorem values_of_continued {q : Query} {ks ks' : List CursorKey} (hlen : ks.length = ks'.length)
    (h : q.continued ks = q.continued ks') : ks.map CursorKey.value = ks'.map CursorKey.value :=
  values_of_argsBefore hlen (List.append_cancel_left (congrArg Query.args h))

theorem cursorKeys_values {s : Spec} {sort : List Order} {keys : List Arg}
    (hlen : keys.length = sort.length) (id : Arg) :
    (s.cursorKeys sort keys id).map CursorKey.value = keys ++ [id] := by
  have hvalues : (sort.zip keys).map Prod.snd = keys := List.map_snd_zip (Nat.le_of_eq hlen)
  rw [Spec.cursorKeys, List.map_append, List.map_map, List.map_singleton]
  exact congrArg (· ++ [id]) hvalues

/-! ## What the builder writes -/

/-- A computation that returns leaves the arguments as they are. -/
theorem pure_run {β : Type} (b : β) (args : List Arg) :
    (pure b : Compile β) args = .ok (b, args) := rfl

/-- A computation for each index, each of which appends its arguments. -/
theorem mapM_range_eq {β : Type} {f : Nat → Compile β} {g : Nat → Nat → β}
    {h : Nat → List Arg} {n : Nat} (hf : ∀ i < n, ∀ args, f i args = .ok (g i args.length,
      args ++ h i)) (args : List Arg) :
    (List.range n).mapM f args =
      .ok ((List.range n).map fun i => g i (args.length + ((List.range i).flatMap h).length),
        args ++ (List.range n).flatMap h) := by
  induction n with
  | zero => simp [pure_run]
  | succ n ih =>
      have hprev := ih fun i hi => hf i (by omega)
      have hlast := hf n (by omega) (args ++ (List.range n).flatMap h)
      rw [List.length_append] at hlast
      simp only [List.range_succ, List.mapM_append, List.mapM_cons, List.mapM_nil, bind,
        StateT.bind, Except.bind, hprev, hlast, pure_run, List.map_append, List.map_cons,
        List.map_nil, List.flatMap_append, List.flatMap_cons, List.flatMap_nil,
        List.append_nil, List.append_assoc]

section
variable {spec : Spec} {sort : List Order}

/-- The keys as the builder has them. -/
def Spec.cursorKey (s : Spec) (p : Order × Json) : CursorKey :=
  ⟨s.col (s.colOf p.1).column, (s.colOf p.1).kind, p.1.desc, jsonArg p.2⟩

theorem cursorKeys_json (s : Spec) (sort : List Order) (k : List Json) (id : Json) :
    s.cursorKeys sort (k.map jsonArg) (jsonArg id) =
      (sort.zip k).map s.cursorKey ++ [⟨s.col s.idColumn, s.idKind, false, jsonArg id⟩] := by
  rw [Spec.cursorKeys, List.zip_map_right, List.map_map]
  rfl

theorem equals_eq :
    ∀ {l : List (Order × Json)}, (∀ p ∈ l, (spec.cols.get? p.1.field).isSome = true) →
    ∀ args, spec.equals l args =
      .ok (equalsFrom (l.map spec.cursorKey) args.length,
        args ++ (l.map spec.cursorKey).map CursorKey.value)
  | [], _, args => by
      simp [Spec.equals, equalsFrom, pure_run]
  | (o, v) :: l, h, args => by
      rw [List.forall_mem_cons] at h
      have hrest := equals_eq h.2 (args ++ [jsonArg v])
      rw [List.length_append, List.length_singleton] at hrest
      rw [Spec.equals, sortColumn_eq h.1]
      simp only [typed, arg, bind, StateT.bind, Except.bind, pure_run, hrest, List.map_cons,
        equalsFrom, Spec.cursorKey, List.append_assoc, List.singleton_append]

/-- The `i`-th alternative. -/
theorem after_eq {k : List Json} (hk : k.length = sort.length)
    (hcols : ∀ o ∈ sort, (spec.cols.get? o.field).isSome = true) (id : Json)
    {i : Nat} (hi : i < sort.length + 1) (args : List Arg) :
    let ks := spec.cursorKeys sort (k.map jsonArg) (jsonArg id)
    spec.after (sort.zip k) (some id) i args = .ok (alternative ks i args.length,
      args ++ rowArgs ks i) := by
  have hzip : (sort.zip k).length = sort.length := by rw [List.length_zip, hk, min_self]
  have hlen : ((sort.zip k).map spec.cursorKey).length = sort.length := by
    rw [List.length_map, hzip]
  have hequals := @equals_eq spec ((sort.zip k).take i)
    (fun p hp => hcols p.1 (List.of_mem_zip (List.mem_of_mem_take hp)).1) args
  have htake : ((sort.zip k).take i).length = i := by rw [List.length_take, hzip]; omega
  intro ks
  have hks : ks = (sort.zip k).map spec.cursorKey ++ [⟨spec.col spec.idColumn, spec.idKind,
    false, jsonArg id⟩] :=
    cursorKeys_json spec sort k id
  have hfirst : ks.take i = ((sort.zip k).take i).map spec.cursorKey := by
    rw [hks, List.take_append_of_le_length (by omega), List.map_take]
  rw [Spec.after]
  cases hget : (sort.zip k)[i]? with
  | some p =>
      obtain ⟨o, v⟩ := p
      have hmem := hcols o (List.of_mem_zip (List.mem_of_getElem? hget)).1
      have hkey : ks[i]? = some (spec.cursorKey (o, v)) := by
        rw [hks, List.getElem?_append_left
          (by have := (List.getElem?_eq_some_iff.mp hget).1; simpa using this),
          List.getElem?_map, hget]
        rfl
      have hargs : rowArgs ks i = ((sort.zip k).take i |>.map spec.cursorKey).map
        CursorKey.value ++ [jsonArg v] := by
        rw [rowArgs, List.take_add_one, hkey, hfirst, List.map_append]
        rfl
      rw [alternative, hkey, hfirst, hargs]
      simp only [bind, StateT.bind, Except.bind, hequals, sortColumn_eq hmem, typed, arg, pure_run,
        List.length_append, List.length_map, htake, List.append_assoc]
      rfl
  | none =>
      have hend : i = sort.length := by
        have := List.getElem?_eq_none_iff.mp hget
        omega
      have hkey : ks[i]? = some ⟨spec.col spec.idColumn, spec.idKind, false, jsonArg id⟩ := by
        rw [hks, hend, ← hlen, List.getElem?_concat_length]
      have hargs : rowArgs ks i = ((sort.zip k).take i |>.map spec.cursorKey).map
        CursorKey.value ++ [jsonArg id] := by
        rw [rowArgs, List.take_add_one, hkey, hfirst, List.map_append]
        rfl
      rw [alternative, hkey, hfirst, hargs]
      simp only [bind, StateT.bind, Except.bind, hequals, typed, arg, pure_run, List.length_append,
        List.length_map, htake, List.append_assoc]
      rfl

/-- What the builder asks of a cursor's members. -/
theorem openCursor_eq_ok_iff [Interp] {raw : Str} {n : Nat} {ms : List (Str × Json)}
    {k : List Json} : openCursor raw n = .ok (ms, k) ↔ readCursor raw = .ok (.obj ms) ∧
    lookup (str "k") ms = some (.list k) ∧
      isOne (lookup (str "v") ms) = true ∧ k.length = n := by
  constructor
  · intro h
    rw [openCursor] at h
    split at h
    · cases h
    · next ms' hread =>
      split at h
      · next k' hk =>
        split at h
        · next hok =>
          obtain ⟨rfl, rfl⟩ := Prod.mk.inj (Except.ok.inj h)
          exact ⟨hread, hk, hok⟩
        · cases h
      · cases h
    · cases h
  · rintro ⟨hread, hk, hone, hlen⟩
    simp only [openCursor, hread, hk]
    rw [if_pos ⟨hone, hlen⟩]

/-- **The builder's condition.** With a cursor that opens and carries the digests, the
builder writes the keyset condition of the cursor's keys and ID. -/
theorem resume_opened [Interp] {raw filterHash planHash : Str} {ms : List (Str × Json)}
    {k : List Json} {id : Json} (hcols : ∀ o ∈ sort, (spec.cols.get? o.field).isSome = true)
    (hopen : openCursor raw sort.length = .ok (ms, k))
    (hf : isText filterHash (lookup (str "f") ms) = true)
    (hp : isText planHash (lookup (str "p") ms) = true) (hid : lookup (str "id") ms = some id)
    (args : List Arg) :
    let ks := spec.cursorKeys sort (k.map jsonArg) (jsonArg id)
    spec.resume raw sort filterHash planHash args = .ok (keyset ks args.length,
      args ++ argsBefore ks ks.length) := by
  intro ks
  have hk : k.length = sort.length := (openCursor_eq_ok_iff.mp hopen).2.2.2
  have hlen : ks.length = sort.length + 1 := by
    simp only [ks, cursorKeys_json, List.length_append, List.length_map, List.length_zip,
      hk, min_self, List.length_singleton]
  have halternatives := mapM_range_eq (n := sort.length + 1)
    (fun i hi args => after_eq hk hcols id hi args) args
  rw [Spec.resume, hopen]
  simp only [hf, hp, hid, Bool.true_eq_false, if_false, bind, StateT.bind, Except.bind,
    halternatives, pure_run, keyset, hlen]
  rfl

/-- The ID is asked for in the last alternative only. -/
theorem after_congr {k : List Json} (hk : k.length = sort.length) (id id' : Option Json) {i : Nat}
    (hi : i < sort.length) : spec.after (sort.zip k) id i = spec.after (sort.zip k) id' i := by
  have hlt : i < (sort.zip k).length := by rw [List.length_zip, hk, min_self]; exact hi
  rw [Spec.after, Spec.after, List.getElem?_eq_getElem hlt]

/-- Without an ID the builder fails as a dictionary does. -/
theorem resume_missing [Interp] {raw filterHash planHash : Str} {ms : List (Str × Json)}
    {k : List Json} (hcols : ∀ o ∈ sort, (spec.cols.get? o.field).isSome = true)
    (hopen : openCursor raw sort.length = .ok (ms, k))
    (hf : isText filterHash (lookup (str "f") ms) = true)
    (hp : isText planHash (lookup (str "p") ms) = true) (hid : lookup (str "id") ms = none)
    (args : List Arg) :
    spec.resume raw sort filterHash planHash args = .error .keyError := by
  have hk : k.length = sort.length := (openCursor_eq_ok_iff.mp hopen).2.2.2
  have hprev := mapM_range_eq (n := sort.length) (f := spec.after (sort.zip k) none)
    (fun i hi args => by
      rw [after_congr hk none (some .null) hi]
      exact after_eq hk hcols .null (by omega) args) args
  have hend : (sort.zip k)[sort.length]? = none := by
    rw [List.getElem?_eq_none_iff, List.length_zip, hk, min_self]
  have htake : ∀ p ∈ (sort.zip k).take sort.length, (spec.cols.get? p.1.field).isSome =
    true := fun p hp =>
    hcols p.1 (List.of_mem_zip (List.mem_of_mem_take hp)).1
  have hlast : ∀ args, spec.after (sort.zip k) none sort.length args = .error .keyError := by
    intro args
    rw [Spec.after, hend]
    simp only [bind, StateT.bind, Except.bind, equals_eq htake, throw, throwThe,
      MonadExceptOf.throw]
    rfl
  rw [Spec.resume, hopen]
  simp only [hf, hp, hid, Bool.true_eq_false, if_false, List.range_succ, List.mapM_append,
    List.mapM_cons, bind, StateT.bind, Except.bind, hprev, hlast]

end

/-! ## Pages with and without a cursor -/

/-- The fields narrowed to are those named, each once. -/
theorem narrow_eq {r : Option Resource} :
    ∀ {names seen out : List Str}, narrow r names seen = .ok out →
    out = names.foldl (fun seen name => if name ∈ seen then seen else seen ++ [name]) seen
  | [], seen, out, h => (Except.ok.inj h).symm
  | name :: names, seen, out, h => by
      rw [narrow] at h
      split at h
      · cases h
      split at h
      · cases h
      rw [List.foldl_cons]
      exact narrow_eq h

section
variable {spec spec' : Spec} {req req' : Request} {plan plan' : Plan} {r r' : Option Resource}
    {p p' : Prepared}

/-- What is known of a request that is prepared. -/
theorem prepare_ok (h : prepare r plan spec req = .ok p) :
    (∀ o ∈ req.sort, (spec.cols.get? o.field).isSome = true) ∧
    ∃ narrowed, narrow r req.readableOnly [] = .ok narrowed ∧
      digest (req.record req.keyword (narrowed.insertionSort (· ≤ ·))) = .ok p.filterHash := by
  obtain ⟨narrowed, hnarrow, h⟩ := bind_eq_ok_iff.mp h
  obtain ⟨⟨filters, args⟩, -, h⟩ := bind_eq_ok_iff.mp h
  dsimp only at h
  split at h
  · cases h
  · simp only [bind_eq_ok_iff, pure_eq_ok_iff] at h
    obtain ⟨⟨⟩, hsorts, filterHash, hhash, rfl⟩ := h
    exact ⟨fun o ho => (mem_checkSorts hsorts o ho).1, narrowed, hnarrow, hhash⟩

/-- The filter digest is of the filters, the keyword, the sort and the narrowing. -/
theorem filterHash_congr (h : prepare r plan spec req = .ok p)
    (h' : prepare r' plan' spec' req' = .ok p') (hfilters : req'.filters = req.filters)
    (hsort : req'.sort = req.sort) (hkeyword : req'.keyword = req.keyword)
    (hnarrowed : req'.readableOnly = req.readableOnly) : p'.filterHash = p.filterHash := by
  obtain ⟨-, narrowed, hnarrow, hhash⟩ := prepare_ok h
  obtain ⟨-, narrowed', hnarrow', hhash'⟩ := prepare_ok h'
  have hsame : narrowed' = narrowed := by rw [narrow_eq hnarrow', narrow_eq hnarrow, hnarrowed]
  have hrecord : ∀ q names, req'.record q names = req.record q names := by
    intro q names
    rw [Request.record, Request.record, hfilters, hsort]
  rw [hsame, hrecord, hkeyword, hhash] at hhash'
  exact (Except.ok.inj hhash').symm

/-- The pages of a request, with a cursor and without. -/
structure Compiles [Interp] (subj : Subject) (clock : Clock) (spec : Spec) (req : Request)
    (q : Query) (conditions : List (Pred ColumnRef)) : Prop where
  prepared : ∃ r plan p, prepare r plan spec req = .ok p ∧ q.plan = some plan ∧
    q.planHash = plan.digest ∧ q.filterHash = p.filterHash
  paired : Paired q.filterHash ∧ Paired q.planHash
  sorts : ∀ o ∈ req.sort, (spec.cols.get? o.field).isSome = true
  where_ : q.where_ = .chain conditions
  first : build subj clock spec { req with cursor := [] } = .ok q
  next : ∀ cursor ≠ [], build subj clock spec { req with cursor } =
    (spec.resume cursor req.sort q.filterHash q.planHash q.args).map fun c =>
      { q with where_ := .chain (conditions ++ [c.1]), args := c.2 }

/-- A request fails whatever its cursor, or what its cursor does to its page is known. -/
theorem build_cases [Interp] (subj : Subject) (clock : Clock) (spec : Spec) (req : Request) :
    (∃ e, ∀ cursor, build subj clock spec { req with cursor } = .error e) ∨
      ∃ q conditions, Compiles subj clock spec req q conditions := by
  have hbuild : ∀ cursor, build subj clock spec { req with cursor } =
      if (if req.limit = 0 then defaultLimit else req.limit) < 1 ∨
          maxLimit < (if req.limit = 0 then defaultLimit else req.limit) then
          .error (.error badLimit)
      else subj.list clock spec.operation spec.alias_ 0 >>= fun plan =>
        compile ((subj.defs.operation spec.operation).bind fun o => subj.defs.resource
          o.resourceType) plan spec (if req.limit = 0 then defaultLimit else req.limit)
          { req with cursor } := by
    intro cursor
    rw [build]
    split
    · rfl
    · rfl
  generalize (if req.limit = 0 then defaultLimit else req.limit) = limit at hbuild
  by_cases hlimit : limit < 1 ∨ maxLimit < limit
  · refine .inl ⟨.error badLimit, fun cursor => ?_⟩
    rw [hbuild, if_pos hlimit]
  simp only [if_neg hlimit] at hbuild
  cases hplan : subj.list clock spec.operation spec.alias_ 0 with
  | error e =>
      refine .inl ⟨e, fun cursor => ?_⟩
      rw [hbuild, hplan]
      rfl
  | ok plan =>
      obtain ⟨_, _, _, _, _, hcompiled⟩ := list_compiled hplan
      have hdigest := paired_compilePlan hcompiled
      simp only [hplan, bind, Except.bind] at hbuild
      generalize ((subj.defs.operation spec.operation).bind fun o => subj.defs.resource
        o.resourceType) = r at hbuild
      cases hprepare : prepare r plan spec req with
      | error e =>
          refine .inl ⟨e, fun cursor => ?_⟩
          have hcursor : prepare r plan spec { req with cursor } = .error e := hprepare
          rw [hbuild, compile, hcursor]
          rfl
      | ok p =>
          obtain ⟨hsorts, narrowed, -, hhash⟩ := prepare_ok hprepare
          refine .inr ⟨p.query plan spec req limit p.conditions p.args, p.conditions,
            ⟨r, plan, p, hprepare, rfl, rfl, rfl⟩, ⟨paired_digest hhash, hdigest⟩, hsorts,
            rfl, ?_, fun cursor hne => ?_⟩
          · rw [hbuild]
            exact (compile_eq hprepare hsorts limit req.limit []).trans (if_pos rfl)
          · rw [hbuild]
            exact (compile_eq hprepare hsorts limit req.limit cursor).trans (if_neg hne)

/-- A request's page has the digests and the plan of its page without a cursor. -/
theorem Compiles.digests [Interp] {subj : Subject} {clock : Clock} {q q' : Query}
    {conditions : List (Pred ColumnRef)} (h : Compiles subj clock spec req q conditions)
    (hbuild : build subj clock spec req = .ok q') :
    q'.filterHash = q.filterHash ∧ q'.planHash = q.planHash ∧ q'.plan = q.plan := by
  have hcursor : ∀ cursor, req.cursor = cursor → build subj clock spec { req with cursor } =
    .ok q' := by
    intro cursor hcursor
    subst hcursor
    exact hbuild
  by_cases hne : req.cursor = []
  · have hfirst := hcursor [] hne
    rw [h.first] at hfirst
    cases hfirst
    exact ⟨rfl, rfl, rfl⟩
  · have hnext := hcursor req.cursor rfl
    rw [h.next req.cursor hne] at hnext
    obtain ⟨c, -, rfl⟩ := map_eq_ok_iff.mp hnext
    exact ⟨rfl, rfl, rfl⟩

/-- Pages of the same filters, sort, keyword and narrowing under one plan carry the same
digests. -/
theorem Compiles.same_digests [Interp] {subj subj' : Subject} {clock clock' : Clock} {q q' : Query}
    {conditions conditions' : List (Pred ColumnRef)} (h : Compiles subj clock spec req q conditions)
    (h' : Compiles subj' clock' spec' req' q' conditions') (hfilters : req'.filters = req.filters)
    (hsort : req'.sort = req.sort) (hkeyword : req'.keyword = req.keyword)
    (hnarrowed : req'.readableOnly = req.readableOnly) (hplan : q'.plan = q.plan) :
    q'.filterHash = q.filterHash ∧ q'.planHash = q.planHash := by
  obtain ⟨r, plan, p, hp, hqplan, hqhash, hqfilter⟩ := h.prepared
  obtain ⟨r', plan', p', hp', hqplan', hqhash', hqfilter'⟩ := h'.prepared
  constructor
  · rw [hqfilter, hqfilter', filterHash_congr hp hp' hfilters hsort hkeyword hnarrowed]
  · rw [hqplan, hqplan'] at hplan
    rw [hqhash, hqhash', Option.some.inj hplan]

/-- The page behind a cursor is the page without one, continued. -/
theorem Compiles.continued [Interp] {subj : Subject} {clock : Clock} {q : Query}
    {conditions : List (Pred ColumnRef)} (h : Compiles subj clock spec req q conditions)
    {cursor : Str} (hne : cursor ≠ []) {ks : List CursorKey}
    (hresume : spec.resume cursor req.sort q.filterHash q.planHash q.args =
      .ok (keyset ks q.args.length, q.args ++ argsBefore ks ks.length)) :
    build subj clock spec { req with cursor } = .ok (q.continued ks) := by
  rw [h.next cursor hne, hresume, Query.continued, h.where_]
  rfl

end

/-! ## What a cursor must be -/

/-- A cursor decodes to version 1 with these keys and this ID, for a page with these digests. -/
def Decodes [Interp] (cursor : Str) (keys : List Str) (id filterHash planHash : Str) : Prop :=
  ∃ ms v, readCursor cursor = .ok (.obj ms) ∧ lookup (str "v") ms = some v ∧ isOne (some v) = true ∧
    (∀ b, v ≠ .bool b) ∧ lookup (str "k") ms = some (.list (keys.map .str)) ∧
    lookup (str "id") ms = some (.str id) ∧ lookup (str "f") ms = some (.str filterHash) ∧
    lookup (str "p") ms = some (.str planHash)

/-- A cursor is refused as one, or it decodes to what the page is built with. Where the
request fails without a cursor it fails so with any. -/
def FailsClosed [Interp] (subj : Subject) (clock : Clock) (spec : Spec) (req : Request)
    (cursor : Str) : Prop :=
  match build subj clock spec { req with cursor := [] } with
  | .error e => build subj clock spec { req with cursor } = .error e
  | .ok q =>
      (∃ why, build subj clock spec { req with cursor } = .error (.error (cursorInvalid why))) ∨
      build subj clock spec { req with cursor } = .error (.error planChanged) ∨
      ∃ keys id, keys.length = req.sort.length ∧ Decodes cursor keys id q.filterHash q.planHash ∧
        build subj clock spec { req with cursor } =
        .ok (q.continued (spec.cursorKeys req.sort (keys.map .text) (.text id)))

/-- Where a cursor opens and carries the digests, its version is no `true`, and its keys
and its ID are texts. -/
def Typed [Interp] (cursor : Str) (sorts : Nat) (filterHash planHash : Str) : Prop :=
  ∀ ms k, openCursor cursor sorts = .ok (ms, k) → isText filterHash (lookup (str "f") ms) = true →
    isText planHash (lookup (str "p") ms) = true →
    lookup (str "v") ms ≠ some (.bool true) ∧ (∀ x ∈ k, ∃ s, x = .str s) ∧
    ∃ s, lookup (str "id") ms = some (.str s)

theorem isText_iff {s : Str} {v : Option Json} : isText s v = true ↔ v = some (.str s) := by
  cases v with
  | none => simp [isText]
  | some v => cases v <;> simp [isText]

/-- The version that is no number. -/
theorem isOne_bool {v : Json} (h : isOne (some v) = true) :
    (∀ b, v ≠ .bool b) ↔ some v ≠ some (.bool true) := by
  cases v with
  | bool b =>
      obtain rfl : b = true := h
      simp
  | _ => simp

/-- The cursor goes deeper than `json.loads` does. -/
def TooDeepCursor [Interp] (cursor : Str) : Prop := ∃ b, cursorBytes cursor = some b ∧ TooDeep b

theorem openCursor_recursionError_iff [Interp] {raw : Str} {n : Nat} :
    openCursor raw n = .error .recursionError ↔ TooDeepCursor raw := by
  have hread : readCursor raw = .error .recursionError ↔ TooDeepCursor raw := by
    simp only [TooDeepCursor, ← loads_eq_recursionError_iff]
    rw [readCursor]
    cases cursorBytes raw <;> simp
  rw [← hread, openCursor]
  split
  · next e he =>
    rw [he]
    simp
  · next ms hms =>
    rw [hms]
    split
    · split <;> simp
    · simp
  · next v hv =>
    rw [hv]
    simp

/-- A cursor that goes too deep raises. -/
theorem resume_tooDeep [Interp] {spec : Spec} {cursor : Str} {sort : List Order}
    (filterHash planHash : Str) (h : TooDeepCursor cursor) (args : List Arg) :
    spec.resume cursor sort filterHash planHash args = .error .recursionError := by
  rw [Spec.resume, openCursor_recursionError_iff.mpr h]
  rfl

/-- A cursor that does not open, or carries other digests, is refused. -/
theorem resume_refuses [Interp] {spec : Spec} {cursor : Str} {sort : List Order}
    {filterHash planHash : Str} (hdeep : ¬ TooDeepCursor cursor)
    (h : ∀ ms k, openCursor cursor sort.length = .ok (ms, k) →
      isText filterHash (lookup (str "f") ms) = true → isText planHash (lookup (str "p") ms) =
      false) (args : List Arg) :
    (∃ why, spec.resume cursor sort filterHash planHash args =
      .error (.error (cursorInvalid why))) ∨ spec.resume cursor sort filterHash planHash
      args = .error (.error planChanged) := by
  rw [Spec.resume]
  cases hopen : openCursor cursor sort.length with
  | error e =>
      cases e with
      | valueError => exact .inl ⟨_, rfl⟩
      | recursionError => exact absurd (openCursor_recursionError_iff.mp hopen) hdeep
  | ok opened =>
      obtain ⟨ms, k⟩ := opened
      dsimp only
      cases hf : isText filterHash (lookup (str "f") ms) with
      | false => exact .inl ⟨_, rfl⟩
      | true =>
          rw [if_neg (by simp), h ms k hopen hf]
          exact .inr rfl

/-- Keys that are texts are given to the database as texts. -/
theorem map_jsonArg_str (keys : List Str) :
    (keys.map Json.str).map jsonArg = keys.map Arg.text := by
  rw [List.map_map]
  rfl

theorem exists_texts {k : List Json} (h : ∀ x ∈ k, ∃ s, x = .str s) :
    ∃ keys : List Str, k = keys.map .str := by
  induction k with
  | nil => exact ⟨[], rfl⟩
  | cons x k ih =>
      rw [List.forall_mem_cons] at h
      obtain ⟨s, rfl⟩ := h.1
      obtain ⟨keys, rfl⟩ := ih h.2
      exact ⟨s :: keys, rfl⟩

section
variable [Interp] {subj : Subject} {clock : Clock} {spec : Spec} {req : Request} {q : Query}
  {conditions : List (Pred ColumnRef)} (h : Compiles subj clock spec req q conditions)
include h

/-- A cursor that opens and carries the digests is used as it is, or lacks an ID. -/
theorem Compiles.opened {cursor : Str} (hne : cursor ≠ []) {ms : List (Str × Json)} {k : List Json}
    (hopen : openCursor cursor req.sort.length = .ok (ms, k))
    (hf : isText q.filterHash (lookup (str "f") ms) = true)
    (hp : isText q.planHash (lookup (str "p") ms) = true) :
    build subj clock spec { req with cursor } =
      match lookup (str "id") ms with
      | none => .error .keyError
      | some id => .ok (q.continued (spec.cursorKeys req.sort (k.map jsonArg) (jsonArg id))) := by
  cases hid : lookup (str "id") ms with
  | none =>
      rw [h.next cursor hne, resume_missing h.sorts hopen hf hp hid]
      rfl
  | some id => exact h.continued hne (resume_opened h.sorts hopen hf hp hid q.args)

/-- **A cursor of any origin**: the page fails closed exactly where the cursor is not nested
too deep, and the members that the builder does not look at are what they should be. -/
theorem failsClosed_iff {cursor : Str} (hne : cursor ≠ []) :
    FailsClosed subj clock spec req cursor ↔
      ¬ TooDeepCursor cursor ∧ Typed cursor req.sort.length q.filterHash q.planHash := by
  rw [FailsClosed, h.first]
  dsimp only
  constructor
  · intro hclosed
    refine ⟨fun hdeep => ?_, fun ms k hopen hf hp => ?_⟩
    · have hraised : build subj clock spec { req with cursor } = .error .recursionError := by
        rw [h.next cursor hne, resume_tooDeep q.filterHash q.planHash hdeep]
        rfl
      rw [hraised] at hclosed
      rcases hclosed with ⟨why, herror⟩ | herror | ⟨keys, id, -, -, hok⟩
      · cases herror
      · cases herror
      · cases hok
    have hbuild := h.opened hne hopen hf hp
    obtain ⟨hread, hk, hone, -⟩ := openCursor_eq_ok_iff.mp hopen
    -- the page is built or lacks an ID, so of the three ways only the last is left
    have hused : ∃ keys id, Decodes cursor keys id q.filterHash q.planHash := by
      cases hid : lookup (str "id") ms with
      | none =>
          rw [hid] at hbuild
          rw [hbuild] at hclosed
          rcases hclosed with ⟨why, herror⟩ | herror | ⟨keys, id, -, -, hok⟩
          · cases herror
          · cases herror
          · cases hok
      | some id =>
          rw [hid] at hbuild
          rw [hbuild] at hclosed
          rcases hclosed with ⟨why, herror⟩ | herror | ⟨keys, id, -, hdecodes, -⟩
          · cases herror
          · cases herror
          · exact ⟨keys, id, hdecodes⟩
    obtain ⟨keys, id, ms', v, hread', hv, hv1, hbool, hk', hid, -, -⟩ := hused
    obtain rfl : ms' = ms := by simpa using hread'.symm.trans hread
    obtain rfl : k = keys.map .str := by simpa using hk.symm.trans hk'
    refine ⟨?_, fun x hx => ?_, id, hid⟩
    · rw [hv]
      exact (isOne_bool hv1).mp hbool
    · obtain ⟨s, -, rfl⟩ := List.mem_map.mp hx
      exact ⟨s, rfl⟩
  · intro ⟨hdeep, htyped⟩
    by_cases hopens : ∃ ms k, openCursor cursor req.sort.length = .ok (ms, k) ∧
        isText q.filterHash (lookup (str "f") ms) = true ∧
        isText q.planHash (lookup (str "p") ms) = true
    · obtain ⟨ms, k, hopen, hf, hp⟩ := hopens
      obtain ⟨hread, hk, hone, hlen⟩ := openCursor_eq_ok_iff.mp hopen
      obtain ⟨hversion, htexts, id, hid⟩ := htyped ms k hopen hf hp
      obtain ⟨keys, rfl⟩ := exists_texts htexts
      have hbuild := h.opened hne hopen hf hp
      rw [hid, map_jsonArg_str] at hbuild
      rw [List.length_map] at hlen
      cases hv : lookup (str "v") ms with
      | none =>
          rw [hv] at hone
          cases hone
      | some v =>
          rw [hv] at hone hversion
          exact .inr (.inr ⟨keys, id, hlen,
            ⟨ms, v, hread, hv, hone, (isOne_bool hone).mpr hversion, hk, hid,
            isText_iff.mp hf, isText_iff.mp hp⟩, hbuild⟩)
    · have hrefused := @resume_refuses _ spec cursor req.sort q.filterHash q.planHash hdeep
        (fun ms k hopen hf => by
        by_contra hp
        exact hopens ⟨ms, k, hopen, hf, by simpa using hp⟩) q.args
      rw [h.next cursor hne]
      rcases hrefused with ⟨why, hwhy⟩ | hplan
      · exact .inl ⟨why, by rw [hwhy]; rfl⟩
      · exact .inr (.inl (by rw [hplan]; rfl))

/-- **A cursor that a page wrote**: the next page is built with exactly the keys and the
ID it was written for, where no surrogate pair stands in them in two halves. -/
theorem next_continued_iff {q' : Query} (hf : q'.filterHash = q.filterHash)
    (hp : q'.planHash = q.planHash) {keys : List Str} (hlen : keys.length = req.sort.length)
    (id : Str) : ∃ cursor, q'.next keys id = .ok cursor ∧
      (build subj clock spec { req with cursor } =
        .ok (q.continued (spec.cursorKeys req.sort (keys.map .text) (.text id))) ↔
        ∀ s ∈ id :: keys, Unsplit s) := by
  have hpaired : Paired q'.filterHash ∧ Paired q'.planHash := by rw [hf, hp]; exact h.paired
  obtain ⟨cursor, hnext, hopens⟩ := next_opens_joined keys id hpaired.1 hpaired.2
  obtain ⟨ms, hopen, htextf, htextp, hid⟩ := hopens.opens
  rw [hf] at htextf
  rw [hp] at htextp
  rw [List.length_map, hlen] at hopen
  have hbuild := h.opened hopens.nonempty hopen htextf htextp
  rw [hid, map_jsonArg_str] at hbuild
  refine ⟨cursor, hnext, ?_⟩
  rw [hbuild, Except.ok.injEq]
  constructor
  · intro heq
    have hvalues := values_of_continued (by simp [Spec.cursorKeys]) heq
    rw [cursorKeys_values (by simp [hlen]), cursorKeys_values (by simp [hlen])] at hvalues
    obtain ⟨hkeys, hlast⟩ := List.append_inj hvalues (by simp)
    have hjoined : joinPairs id = id := by simpa [jsonArg] using hlast
    rw [List.map_map] at hkeys
    refine List.forall_mem_cons.mpr ⟨(joinPairs_eq_self_iff id).mp hjoined, fun k hk => ?_⟩
    have hsame := List.map_inj_left.mp hkeys k hk
    exact (joinPairs_eq_self_iff k).mp (Arg.text.inj hsame)
  · intro hs
    rw [List.forall_mem_cons] at hs
    have hkeys : keys.map joinPairs = keys := by
      refine (List.map_congr_left fun k hk => ?_).trans (List.map_id' keys)
      exact (joinPairs_eq_self_iff k).mpr (hs.2 k hk)
    rw [hkeys, (joinPairs_eq_self_iff id).mpr hs.1]
    rfl

end

/-- **Cursors.** What `next` wrote on any page of the same filters, sort, keyword and
narrowing under the same plan is used with exactly the keys and the ID it was written
for, where no surrogate pair stands in them in two halves. A cursor of any origin is
refused as a cursor or used as what it decodes to, exactly where it is not nested too
deep, its version is no `true`, and its keys and its ID are texts, if it opens and carries
the digests at all. -/
theorem cursors_exact [Interp] (subj : Subject) (clock : Clock) (spec : Spec) (req : Request) :
    (∀ subj' clock' spec' req' q q', build subj clock spec { req with cursor := [] } = .ok q →
      build subj' clock' spec' req' = .ok q' → req'.filters = req.filters → req'.sort = req.sort →
      req'.keyword = req.keyword → req'.readableOnly = req.readableOnly → q'.plan = q.plan →
      ∀ keys id, keys.length = req.sort.length → ∃ cursor, q'.next keys id = .ok cursor ∧
        (build subj clock spec { req with cursor } =
          .ok (q.continued (spec.cursorKeys req.sort (keys.map .text) (.text id))) ↔
          ∀ s ∈ id :: keys, Unsplit s)) ∧
    ∀ cursor ≠ [], FailsClosed subj clock spec req cursor ↔
      ∀ q, build subj clock spec { req with cursor := [] } = .ok q →
        ¬ TooDeepCursor cursor ∧ Typed cursor req.sort.length q.filterHash q.planHash := by
  refine ⟨?_, fun cursor hne => ?_⟩
  · intro subj' clock' spec' req' q q' hq hq' hfilters hsort hkeyword hnarrowed hplan keys id hlen
    rcases build_cases subj clock spec req with ⟨e, herror⟩ | ⟨q₀, conditions, h⟩
    · rw [herror] at hq
      cases hq
    obtain rfl : q₀ = q := Except.ok.inj (h.first.symm.trans hq)
    rcases build_cases subj' clock' spec' req' with ⟨e, herror⟩ | ⟨q₁, conditions', h'⟩
    · have hfails : build subj' clock' spec' req' = .error e := herror req'.cursor
      rw [hfails] at hq'
      cases hq'
    obtain ⟨hf', hp', hplan'⟩ := h'.digests hq'
    obtain ⟨hf, hp⟩ := h.same_digests h' hfilters hsort hkeyword hnarrowed (hplan'.symm.trans hplan)
    exact next_continued_iff h (hf'.trans hf) (hp'.trans hp) hlen id
  · rcases build_cases subj clock spec req with ⟨e, herror⟩ | ⟨q₀, conditions, h⟩
    · have hfirst := herror []
      rw [FailsClosed, hfirst]
      exact iff_of_true (herror cursor) fun q hq => by cases hq
    · rw [failsClosed_iff h hne]
      constructor
      · intro htyped q hq
        obtain rfl : q₀ = q := Except.ok.inj (h.first.symm.trans hq)
        exact htyped
      · intro htyped
        exact htyped q₀ h.first

/-- The documents of the department, without a cursor. -/
theorem docBuild : ∃ q, @build Interp.ascii docSubject docClock docSpec
    { docRequest with cursor := [], limit := 2 } = .ok q := by
  obtain ⟨plan, hplan, -, -, -, -⟩ := docPlan
  obtain ⟨p, hp, -, -⟩ := docPrepare plan
  have hcompile := @compile_eq _ _ _ _ _ Interp.ascii hp (by decide +kernel) 2 2 []
  rw [if_pos rfl] at hcompile
  exact ⟨_, (@build_eq docSpec _ plan Interp.ascii _ _ hplan (by decide)).trans hcompile⟩

/-- The members of a cursor but its ID. -/
def membersWithoutId (keys : List Str) (q : Query) : List (Str × Json) :=
  [(str "v", .int 1), (str "k", .list (keys.map .str)), (str "f", .str q.filterHash),
    (str "p", .str q.planHash)]

/-- A cursor with the right digests and without an ID is a `KeyError`. -/
theorem Compiles.without_id [Interp] {subj : Subject} {clock : Clock} {spec : Spec}
    {req : Request} {q : Query} {conditions : List (Pred ColumnRef)}
    (h : Compiles subj clock spec req q conditions) {keys : List Str}
    (hkeys : ∀ k ∈ keys, Paired k) (hlen : keys.length = req.sort.length) :
    ∃ b, utf8Encode (dumps (.obj (membersWithoutId keys q))) = some b ∧
      let cursor := Canon.rstrip (chr '=') (urlsafeB64Encode b)
      build subj clock spec { req with cursor } = .error .keyError ∧
      ¬ FailsClosed subj clock spec req cursor := by
  have hpaired : ∀ s ∈ [str "v", str "k", str "f", str "p"], Paired s := by
    have hall : ∀ s ∈ [str "v", str "k", str "f", str "p"], s.all (fun c => !isSurrogate c) =
      true := by decide
    exact fun s hs c hc => by simpa using List.all_eq_true.mp (hall s hs) c hc
  simp only [List.forall_mem_cons] at hpaired
  obtain ⟨hv, hk, hf, hp, -⟩ := hpaired
  have hone : (1 : Int).natAbs < 10 ^ maxStrDigits := Nat.one_lt_pow (by decide) (by decide)
  have hplain : (Json.obj (membersWithoutId keys q)).Plain Paired Paired fun n => n.natAbs <
    10 ^ maxStrDigits := by
    refine ⟨hv, hone, hk, plainElems_iff.mpr ?_, hf, h.paired.1, hp, h.paired.2, trivial⟩
    rw [List.forall_mem_map]
    exact hkeys
  have hdistinct : (Json.obj (membersWithoutId keys q)).Distinct := by
    have hnames : [str "v", str "k", str "f", str "p"].Nodup := by decide
    refine ⟨hnames, trivial, distinctElems_iff.mpr ?_, trivial, trivial, trivial⟩
    rw [List.forall_mem_map]
    exact fun _ _ => trivial
  have hroom : (Json.obj (membersWithoutId keys q)).depth ≤ Interp.nesting := by
    have hkeys : depthElems (keys.map .str) = 0 :=
      Nat.le_zero.mp (depthElems_le_iff.mpr (List.forall_mem_map.mpr fun _ _ => Nat.le_refl 0))
    refine le_trans ?_ (le_trans (by decide : 2 ≤ 3) Interp.room)
    simp [membersWithoutId, Json.depth, depthMembers, hkeys]
  obtain ⟨b, hb, hloads⟩ := loads_dumps hplain hdistinct hroom
  have hne : Canon.rstrip (chr '=') (urlsafeB64Encode b) ≠ [] := by
    intro hnil
    rw [(rstrip_encode b).2 hnil] at hloads
    cases hloads
  have hopen : openCursor (Canon.rstrip (chr '=') (urlsafeB64Encode b)) req.sort.length =
      .ok (membersWithoutId keys q, keys.map .str) :=
    openCursor_eq_ok_iff.mpr ⟨(readCursor_encode b).trans hloads, rfl, rfl,
      (List.length_map _).trans hlen⟩
  have hf : isText q.filterHash (lookup (str "f") (membersWithoutId keys q)) = true :=
    decide_eq_true rfl
  have hp : isText q.planHash (lookup (str "p") (membersWithoutId keys q)) = true :=
    decide_eq_true rfl
  refine ⟨b, hb, h.opened hne hopen hf hp, fun hclosed => ?_⟩
  obtain ⟨-, -, id, hid⟩ := ((failsClosed_iff h hne).mp hclosed).2 _ _ hopen hf hp
  cases hid

/-- For the documents by their title, the cursor of the title `x` without an ID. -/
theorem cursor_without_id : ∃ (q : Query) (b : Bytes),
    @build Interp.ascii docSubject docClock docSpec { docRequest with cursor := [], limit := 2 } =
      .ok q ∧
    utf8Encode (dumps (.obj (membersWithoutId [str "x"] q))) = some b ∧
    let cursor := Canon.rstrip (chr '=') (urlsafeB64Encode b)
    @build Interp.ascii docSubject docClock docSpec { docRequest with cursor, limit := 2 } =
      .error .keyError ∧
    ¬ @FailsClosed Interp.ascii docSubject docClock docSpec { docRequest with limit := 2 }
      cursor := by
  obtain ⟨q, hq⟩ := docBuild
  rcases @build_cases Interp.ascii docSubject docClock docSpec { docRequest with limit := 2 } with
    ⟨e, herror⟩ | ⟨q₀, conditions, h⟩
  · have hfails := herror []
    rw [hq] at hfails
    cases hfails
  have hx : ∀ k ∈ [str "x"], Paired k := by
    intro k hk c hc
    obtain rfl := List.mem_singleton.mp hk
    obtain rfl := List.mem_singleton.mp hc
    rfl
  obtain ⟨b, hb, hbuild, hopen⟩ := @Compiles.without_id Interp.ascii _ _ _ _ _ _ h [str "x"] hx rfl
  exact ⟨q₀, b, @Compiles.first Interp.ascii _ _ _ _ _ _ h, hb, hbuild, hopen⟩

end BeSdk.Lists
