/-
BeSdk.Errwire.Foreign — `from_http` on the answer of any server.

`BeSdk.Errwire` reads what this protocol wrote. Here nothing is taken for granted: the
body is any bytes, its members are of any JSON type, and the Retry-After header is any
text. An error read back therefore holds JSON values where the source annotates texts.

* `fromHttp_reads_iff`: reading returns a code, with an error exactly where the body is
  a problem with a reason and a domain, exactly where a body with truthy ones is `Sound`.
* `redirect_raises`: an answer under a status below 400 that the catalogue does not have.
* `fromHttp_texts`: on bodies of texts this is the function of `BeSdk.Errwire`.
-/
import BeSdk.Errwire
import BeSdk.Authz.View
import BeSdk.Py.Float
import BeSdk.Lib.Fallible
import BeSdk.Py.JsonTheorems

namespace BeSdk

/-- The table behind `str.isdigit`: which code points outside ASCII are digits but no
decimal ones, as the superscripts are. -/
class DigitTable where
  otherDigit : CodePoint → Bool

/-- The table on ASCII text. -/
abbrev DigitTable.ascii : DigitTable := ⟨fun _ => false⟩

/-- `s.isdigit()` -/
def Str.isDigits [Interp] [DigitTable] (s : Str) : Bool :=
  !s.isEmpty && s.all fun c =>
    isDigit c || (decide (127 < c.val) && ((Interp.toDecimal c).isSome || DigitTable.otherDigit c))

/-- `bool(v)` -/
def Json.truthy : Json → Bool
  | .null => false
  | .bool b => b
  | .int n => decide (n ≠ 0)
  | .float text => decide (floatOf text ≠ .finite 0)
  | .str s => !s.isEmpty
  | .list xs => !xs.isEmpty
  | .obj ms => !ms.isEmpty

/-- Whether a dictionary takes the value as a key. -/
def Json.hashable : Json → Bool
  | .list _ => false
  | .obj _ => false
  | _ => true

/-- The items of an iterable value: a text's characters, an object's keys. -/
def Json.items : Json → Option (List Json)
  | .str s => some (s.map fun c => .str [c])
  | .list xs => some xs
  | .obj ms => some (ms.map fun m => .str m.1)
  | _ => none

/-- The entries of `dict(xs)`, each item a key and a value, in the order they are set. -/
def dictOfPairs : List Json → Except Exc (List (Json × Json))
  | [] => .ok []
  | x :: xs =>
      match x.items with
      | none => .error .typeError
      | some [k, v] => if k.hashable then do return (k, v) :: (← dictOfPairs xs)
          else .error .typeError
      | some _ => .error .valueError

/-- `dict(v)` -/
def dictOf : Json → Except Exc (List (Json × Json))
  | .obj ms => .ok (ms.map fun m => (.str m.1, m.2))
  | v =>
      match v.items with
      | none => .error .typeError
      | some xs => dictOfPairs xs

namespace Errwire.Foreign

/-- A violation read back. -/
structure Violation where
  field : Json
  reason : Json
  description : Json

/-- An error read back. -/
structure Error where
  reason : Json
  domain : Json
  code : Code
  http : Nat
  title : Json
  detail : Json
  metadata : List (Json × Json)
  violations : List Violation
  /-- In seconds, the float next to it in the source. -/
  retryAfter : Int := 0

/-- `p.get(key, "")` -/
def get (key : Str) (ms : List (Str × Json)) : Json := (lookup key ms).getD (.str [])

/-- `p.get(key) or None`: the member where it is truthy. -/
def member (key : Str) (ms : List (Str × Json)) : Option Json := (lookup key ms).filter Json.truthy

/-- `errs.PLATFORM.get(reason) if domain == errs.PLATFORM_DOMAIN else None` -/
def entryOf (domain reason : Json) : Except Exc (Option Entry) :=
  match domain with
  | .str d =>
      if d = platformDomain then
        match reason with
        | .str r => .ok (catalogued d r)
        | r => if r.hashable then .ok none else .error .typeError
      else .ok none
  | _ => .ok none

/-- `dict(p.get("metadata") or {})` -/
def metadataOf (ms : List (Str × Json)) : Except Exc (List (Json × Json)) :=
  match member (str "metadata") ms with
  | none => .ok []
  | some v => dictOf v

/-- One violation: `v.get` is a dictionary's. -/
def violationOf : Json → Except Exc Violation
  | .obj ns => .ok ⟨get (str "field") ns, get (str "reason") ns, get (str "description") ns⟩
  | _ => .error .attributeError

def violationsOf (ms : List (Str × Json)) : Except Exc (List Violation) :=
  match member (str "violations") ms with
  | none => .ok []
  | some v =>
      match v.items with
      | none => .error .typeError
      | some xs => xs.mapM violationOf

/-- The seconds of a Retry-After value; zero where there is none. -/
def retryOf [Interp] [DigitTable] (retryAfter : Str) : Except Exc Int :=
  if retryAfter.isDigits then
    match toInt retryAfter with
    | none => .error .valueError
    | some n => .ok (if 0 < n then n else 0)
  else .ok 0

/-- `errs.Code(code)`, of the entry or else of the status; OK is none. -/
def codeOf (entry : Option Entry) (status : Nat) : Except Exc Code :=
  match (entry.map Entry.code).or (codeOfStatus status) with
  | none => .error .valueError
  | some c => .ok c

/-- The error of a body with a reason and a domain. -/
def errorOf [Interp] [DigitTable] (status : Nat) (retryAfter : Str) (ms : List (Str × Json))
    (reason domain : Json) : Except Exc Error := do
  let entry ← entryOf domain reason
  let code ← codeOf entry status
  let metadata ← metadataOf ms
  let violations ← violationsOf ms
  let retryAfter ← retryOf retryAfter
  return { reason, domain, code, http := status, title := get (str "title") ms,
           detail := get (str "detail") ms, metadata, violations, retryAfter }

/-- `from_http` -/
def fromHttp [Interp] [DigitTable] (status : Nat) (contentType retryAfter : Str) (body : Bytes) :
    Except Exc (Option Error × Option Code) :=
  if mediaType contentType ≠ problemContentType then .ok (none, codeOfStatus status)
  else
    match loads body with
    -- the source catches a ValueError only
    | .error .recursionError => .error .recursionError
    | .ok (.obj ms) =>
        match member (str "reason") ms, member (str "domain") ms with
        | some reason, some domain =>
            (errorOf status retryAfter ms reason domain).map fun e => (some e, some e.code)
        | _, _ => .ok (none, codeOfStatus status)
    | _ => .ok (none, codeOfStatus status)

/-! ## What a body must be -/

/-- A value that makes a dictionary: an object, or pairs of a key and a value. -/
def IsEntries (v : Json) : Prop :=
  (∃ ms, v = .obj ms) ∨ ∃ xs, v = .list xs ∧ ∀ x ∈ xs, ∃ k w, x.items = some [k, w] ∧
    k.hashable = true

/-- A body that a reason and a domain can be read of. -/
structure Sound [Interp] [DigitTable] (status : Nat) (retryAfter : Str)
    (ms : List (Str × Json)) : Prop where
  code : ∃ reason domain, lookup (str "reason") ms = some (.str reason) ∧
    lookup (str "domain") ms = some (.str domain) ∧
    (400 ≤ status ∨ (catalogued domain reason).isSome = true)
  metadata : ∀ v ∈ member (str "metadata") ms, IsEntries v
  violations : ∀ v ∈ member (str "violations") ms, ∃ xs, v = .list xs ∧ ∀ x ∈ xs, ∃ ns, x = .obj ns
  retry : retryAfter.isDigits = true → (toInt retryAfter).isSome = true

/-- The body is a problem with a reason and a domain. -/
def IsProblem [Interp] (contentType : Str) (body : Bytes) : Prop :=
  mediaType contentType = problemContentType ∧ ∃ ms reason domain, loads body = .ok (.obj ms) ∧
    lookup (str "reason") ms = some (.str reason) ∧ reason ≠ [] ∧
    lookup (str "domain") ms = some (.str domain) ∧ domain ≠ []

theorem mem_member {key : Str} {ms : List (Str × Json)} {v : Json} :
    v ∈ member key ms ↔ lookup key ms = some v ∧ v.truthy = true := by
  rw [member, Option.mem_def, Option.filter_eq_some_iff]

theorem truthy_str {s : Str} : (Json.str s).truthy = true ↔ s ≠ [] := by
  cases s <;> simp [Json.truthy]

/-- A status has a code exactly from 400 on. -/
theorem codeOfStatus_isSome {status : Nat} :
    (codeOfStatus status).isSome = true ↔ 400 ≤ status := by
  rw [codeOfStatus]
  split
  · next h => simp; omega
  split
  · simp; omega
  split
  · simp; omega
  split
  · simp; omega
  split
  · simp; omega
  · simp; omega

/-! ## Each part -/

/-- Pairs make a dictionary where each has two items and a hashable key. -/
theorem dictOfPairs_ok_iff {xs : List Json} :
    (∃ d, dictOfPairs xs = .ok d) ↔ ∀ x ∈ xs, ∃ k w, x.items = some [k, w] ∧ k.hashable = true := by
  induction xs with
  | nil => simp [dictOfPairs]
  | cons x xs ih =>
      rw [List.forall_mem_cons, ← ih, dictOfPairs]
      split
      · next hitems => simp [hitems]
      · next k w hitems =>
        split
        · next hk => simp only [hitems, bind_eq_ok_iff, pure_eq_ok_iff]; simp [hk]
        · next hk => simp [hitems, hk]
      · next items hpair hitems =>
        simp only [reduceCtorEq, exists_false, false_iff, not_and, hitems, Option.some.injEq]
        rintro ⟨k, w, rfl, -⟩
        exact absurd rfl (hpair k w)

/-- What `dict` takes of the values that are not falsy. -/
theorem dictOf_ok_iff {v : Json} (hv : v.truthy = true) :
    (∃ d, dictOf v = .ok d) ↔ IsEntries v := by
  cases v with
  | obj ms => exact iff_of_true ⟨_, rfl⟩ (.inl ⟨ms, rfl⟩)
  | list xs =>
      have hpairs : dictOf (.list xs) = dictOfPairs xs := rfl
      simp only [hpairs, dictOfPairs_ok_iff, IsEntries, reduceCtorEq, exists_false, false_or,
        Json.list.injEq, exists_eq_left']
  | str s =>
      have hpairs : dictOf (.str s) = dictOfPairs (s.map fun c => .str [c]) := rfl
      simp only [hpairs, dictOfPairs_ok_iff, IsEntries, reduceCtorEq, exists_false, false_and,
        or_self, iff_false]
      intro hall
      cases s with
      | nil => cases hv
      | cons c s =>
          obtain ⟨k, w, hitems, -⟩ := hall (.str [c]) (by simp)
          simp [Json.items] at hitems
  | _ => simp [dictOf, Json.items, IsEntries]

/-- Metadata is read where it is one. -/
theorem metadataOf_ok_iff {ms : List (Str × Json)} :
    (∃ d, metadataOf ms = .ok d) ↔ ∀ v ∈ member (str "metadata") ms, IsEntries v := by
  rw [metadataOf]
  cases h : member (str "metadata") ms with
  | none => simp
  | some v =>
      have hv := (mem_member.mp h).2
      simp [dictOf_ok_iff hv]

theorem violationOf_ok_iff {x : Json} : (∃ v, violationOf x = .ok v) ↔ ∃ ns, x = .obj ns := by
  cases x <;> simp [violationOf]

/-- Violations are a list of objects. -/
theorem violationsOf_ok_iff {ms : List (Str × Json)} : (∃ vs, violationsOf ms = .ok vs) ↔
    ∀ v ∈ member (str "violations") ms, ∃ xs, v = .list xs ∧ ∀ x ∈ xs, ∃ ns, x = .obj ns := by
  have hall : ∀ xs : List Json, (∃ vs, xs.mapM violationOf = .ok vs) ↔
    ∀ x ∈ xs, ∃ ns, x = .obj ns := by
    intro xs
    simp only [← violationOf_ok_iff]
    exact ⟨fun ⟨vs, hvs⟩ => exists_ok_of_mapM hvs, exists_mapM⟩
  rw [violationsOf]
  cases h : member (str "violations") ms with
  | none => simp
  | some v =>
      have hv := (mem_member.mp h).2
      cases v with
      | list xs => simp [Json.items, hall]
      | str s =>
          cases s with
          | nil => cases hv
          | cons c s =>
              simp only [Json.items, hall]
              simp
      | obj ns =>
          cases ns with
          | nil => cases hv
          | cons m ns =>
              simp only [Json.items, hall]
              simp
      | _ => simp [Json.items]

/-- A delay is read where its digits are. -/
theorem retryOf_ok_iff [Interp] [DigitTable] {retryAfter : Str} :
    (∃ n, retryOf retryAfter = .ok n) ↔
    (retryAfter.isDigits = true → (toInt retryAfter).isSome = true) := by
  rw [retryOf]
  split
  · next h =>
    cases hn : toInt retryAfter with
    | none => simp [h]
    | some n => simp
  · next h => simp [h]

/-- A code is found for an error status or a catalogued entry. -/
theorem codeOf_ok_iff {entry : Option Entry} {status : Nat} :
    (∃ c, codeOf entry status = .ok c) ↔ 400 ≤ status ∨ entry.isSome = true := by
  rw [← codeOfStatus_isSome, codeOf]
  cases entry with
  | some e => simp
  | none => cases codeOfStatus status <;> simp

theorem entryOf_texts {domain reason : Str} :
    entryOf (.str domain) (.str reason) = .ok (catalogued domain reason) := by
  rw [entryOf, catalogued]
  split <;> rfl

/-! ## Reading -/

section
variable [Interp] [DigitTable] {status : Nat} {retryAfter : Str} {ms : List (Str × Json)}

/-- The error of a reason and a domain that are texts. -/
theorem errorOf_ok_iff {reason domain : Str} :
    (∃ e, errorOf status retryAfter ms (.str reason) (.str domain) = .ok e) ↔
    (400 ≤ status ∨ (catalogued domain reason).isSome = true) ∧
      (∀ v ∈ member (str "metadata") ms, IsEntries v) ∧
      (∀ v ∈ member (str "violations") ms, ∃ xs, v = .list xs ∧ ∀ x ∈ xs, ∃ ns, x = .obj ns) ∧
      (retryAfter.isDigits = true → (toInt retryAfter).isSome = true) := by
  rw [← codeOf_ok_iff, ← metadataOf_ok_iff, ← violationsOf_ok_iff, ← retryOf_ok_iff]
  simp only [errorOf, entryOf_texts, bind_eq_ok_iff, pure_eq_ok_iff, Except.ok.injEq,
    exists_eq_left']
  constructor
  · intro ⟨e, c, hc, metadata, hmetadata, violations, hviolations, n, hn, he⟩
    exact ⟨⟨c, hc⟩, ⟨metadata, hmetadata⟩, ⟨violations, hviolations⟩, ⟨n, hn⟩⟩
  · intro ⟨⟨c, hc⟩, ⟨metadata, hmetadata⟩, ⟨violations, hviolations⟩, ⟨n, hn⟩⟩
    exact ⟨_, c, hc, metadata, hmetadata, violations, hviolations, n, hn, rfl⟩

end

/-- A body that is an object is read by its members. -/
theorem fromHttp_obj [Interp] [DigitTable] {status : Nat} {contentType retryAfter : Str}
    {body : Bytes} {ms : List (Str × Json)}
    (hmedia : mediaType contentType = problemContentType) (hms : loads body = .ok (.obj ms)) :
    fromHttp status contentType retryAfter body =
      match member (str "reason") ms, member (str "domain") ms with
      | some reason, some domain => (errorOf status retryAfter ms reason domain).map fun e =>
          (some e, some e.code)
      | _, _ => .ok (none, codeOfStatus status) := by
  rw [fromHttp, if_neg (not_not.mpr hmedia), hms]

/-- A body is a problem by its members. -/
theorem isProblem_iff [Interp] {contentType : Str} {body : Bytes} {ms : List (Str × Json)}
    (hmedia : mediaType contentType = problemContentType) (hms : loads body = .ok (.obj ms)) :
    IsProblem contentType body ↔ ∃ reason domain, member (str "reason") ms = some (.str reason) ∧
      member (str "domain") ms = some (.str domain) := by
  simp only [← Option.mem_def, mem_member, truthy_str]
  constructor
  · intro ⟨_, ms', reason, domain, hms', hreason, hr, hdomain, hd⟩
    obtain rfl : ms = ms' := by simpa using hms.symm.trans hms'
    exact ⟨reason, domain, ⟨hreason, hr⟩, hdomain, hd⟩
  · intro ⟨reason, domain, ⟨hreason, hr⟩, hdomain, hd⟩
    exact ⟨hmedia, ms, reason, domain, hms, hreason, hr, hdomain, hd⟩

/-- **Reading the error answer of any server** returns a code, and an error exactly where
the body is a problem with a reason and a domain, never with a code of success; this
exactly where the body is not nested too deep and, with a reason and a domain that are
not falsy, is sound. -/
theorem fromHttp_reads_iff [Interp] [DigitTable] (status : Nat) (contentType retryAfter : Str)
    (body : Bytes) : (∃ e code, fromHttp status contentType retryAfter body = .ok (e, code) ∧
      (e.isSome = true ↔ IsProblem contentType body) ∧ ∀ err ∈ e, code = some err.code) ↔
    (mediaType contentType = problemContentType → ¬ TooDeep body) ∧
      ∀ ms, mediaType contentType = problemContentType → loads body = .ok (.obj ms) →
        (member (str "reason") ms).isSome = true → (member (str "domain") ms).isSome = true →
        Sound status retryAfter ms := by
  -- without an error the body is no problem, and nothing is asked of it
  have hnone : fromHttp status contentType retryAfter body = .ok (none, codeOfStatus status) →
      ¬ IsProblem contentType body → ∃ e code, fromHttp status contentType retryAfter body =
      .ok (e, code) ∧
        (e.isSome = true ↔ IsProblem contentType body) ∧ ∀ err ∈ e, code = some err.code := by
    intro h hproblem
    exact ⟨none, _, h, by simpa using hproblem, by simp⟩
  by_cases hmedia : mediaType contentType = problemContentType
  swap
  · refine iff_of_true (hnone ?_ fun h => hmedia h.1) ⟨fun h => absurd h hmedia,
      fun ms h => absurd h hmedia⟩
    rw [fromHttp, if_pos hmedia]
  by_cases hdeep : TooDeep body
  · have hraised := loads_eq_recursionError_iff.mpr hdeep
    refine iff_of_false ?_ fun h => h.1 hmedia hdeep
    rintro ⟨e, code, h, -⟩
    rw [fromHttp, if_neg (not_not.mpr hmedia), hraised] at h
    cases h
  rw [and_iff_right fun _ => hdeep]
  by_cases hobj : ∃ ms, loads body = .ok (.obj ms)
  swap
  · refine iff_of_true (hnone ?_ fun h => ?_) fun ms _ h => absurd ⟨ms, h⟩ hobj
    · rw [fromHttp, if_neg (not_not.mpr hmedia)]
      split
      · next h => exact absurd (loads_eq_recursionError_iff.mp h) hdeep
      · next ms h => exact absurd ⟨ms, h⟩ hobj
      · rfl
    · obtain ⟨-, ms, -, -, h, -⟩ := h
      exact hobj ⟨ms, h⟩
  obtain ⟨ms, hms⟩ := hobj
  have hread := @fromHttp_obj _ _ status contentType retryAfter body ms hmedia hms
  have hproblem := isProblem_iff hmedia hms
  cases hreason : member (str "reason") ms with
  | none =>
      refine iff_of_true (hnone ?_ fun h => ?_) fun ms' _ hms' hr => ?_
      · rw [hread, hreason]
      · obtain ⟨reason, domain, h, -⟩ := hproblem.mp h
        rw [hreason] at h
        cases h
      · obtain rfl : ms = ms' := by simpa using hms.symm.trans hms'
        rw [hreason] at hr
        cases hr
  | some reason =>
  cases hdomain : member (str "domain") ms with
  | none =>
      refine iff_of_true (hnone ?_ fun h => ?_) fun ms' _ hms' _ hd => ?_
      · rw [hread, hreason, hdomain]
      · obtain ⟨reason, domain, -, h⟩ := hproblem.mp h
        rw [hdomain] at h
        cases h
      · obtain rfl : ms = ms' := by simpa using hms.symm.trans hms'
        rw [hdomain] at hd
        cases hd
  | some domain =>
      rw [hreason, hdomain] at hread hproblem
      constructor
      · intro hok ms' _ hms' _ _
        obtain ⟨e, code, h, hsome, -⟩ := hok
        obtain rfl : ms = ms' := by simpa using hms.symm.trans hms'
        rw [hread] at h
        obtain ⟨err, herr, heq⟩ := map_eq_ok_iff.mp h
        obtain ⟨rfl, -⟩ := Prod.mk.inj heq
        obtain ⟨r, d, hr, hd⟩ := hproblem.mp (hsome.mp rfl)
        obtain rfl := Option.some.inj hr
        obtain rfl := Option.some.inj hd
        obtain ⟨hcode, hmetadata, hviolations, hretry⟩ := errorOf_ok_iff.mp ⟨err, herr⟩
        exact ⟨⟨r, d, (mem_member.mp hreason).1, (mem_member.mp hdomain).1, hcode⟩, hmetadata,
          hviolations, hretry⟩
      · intro hsound
        obtain ⟨⟨r, d, hr, hd, hcode⟩, hmetadata, hviolations, hretry⟩ :=
          hsound ms hmedia hms (by rw [hreason]; rfl) (by rw [hdomain]; rfl)
        obtain rfl : reason = .str r := by simpa using (mem_member.mp hreason).1.symm.trans hr
        obtain rfl : domain = .str d := by simpa using (mem_member.mp hdomain).1.symm.trans hd
        obtain ⟨err, herr⟩ := errorOf_ok_iff.mpr ⟨hcode, hmetadata, hviolations, hretry⟩
        refine ⟨some err, some err.code, ?_,
          iff_of_true rfl (hproblem.mpr ⟨r, d, rfl, rfl⟩), by simp⟩
        rw [hread]
        simp only [herr]
        rfl

/-- A redirection with a problem of a component. -/
def movedMembers : List (Str × Json) :=
    [(str "reason", .str (str "MOVED")), (str "domain", .str (str "files"))]

/-- Reading it raises: its status has no error code, and the catalogue no such reason. -/
theorem redirect_raises : ∃ body, utf8Encode (dumps (.obj movedMembers)) = some body ∧
    @fromHttp Interp.ascii DigitTable.ascii 307 problemContentType [] body = .error .valueError ∧
    ¬ ∃ e code, @fromHttp Interp.ascii DigitTable.ascii 307 problemContentType [] body =
    .ok (e, code) ∧
      (e.isSome = true ↔ @IsProblem Interp.ascii problemContentType body) ∧
      ∀ err ∈ e, code = some err.code := by
  have hpaired : ∀ s ∈ [str "reason", str "MOVED", str "domain", str "files"], Paired s := by
    have hall : ∀ s ∈ [str "reason", str "MOVED", str "domain", str "files"], s.all
      (fun c => !isSurrogate c) = true := by
      decide
    exact fun s hs c hc => by simpa using List.all_eq_true.mp (hall s hs) c hc
  simp only [List.forall_mem_cons] at hpaired
  obtain ⟨hreason, hmoved, hdomain, hfiles, -⟩ := hpaired
  obtain ⟨body, hbody, hloads⟩ := @loads_dumps Interp.ascii (.obj movedMembers)
    ⟨hreason, hmoved, hdomain, hfiles, trivial⟩ ⟨by decide, trivial, trivial, trivial⟩ (by decide)
  have hmedia : mediaType problemContentType = problemContentType := by decide
  have hraises : @fromHttp Interp.ascii DigitTable.ascii 307 problemContentType [] body =
    .error .valueError :=
    (@fromHttp_obj Interp.ascii DigitTable.ascii _ _ _ _ _ hmedia hloads).trans rfl
  refine ⟨body, hbody, hraises, ?_⟩
  rintro ⟨e, code, hok, -⟩
  rw [hraises] at hok
  cases hok

/-! ## Bodies of this protocol -/

/-- An error of this protocol as it is read of an answer. -/
def ofTexts (retryAfter : Int) (e : Errs.Error) : Error where
  reason := .str e.reason
  domain := .str e.domain
  code := e.code
  http := e.http
  title := .str e.title
  detail := .str e.detail
  metadata := e.metadata.map fun m => (.str m.1, .str m.2)
  violations := e.violations.map fun v => ⟨.str v.field, .str v.reason, .str v.description⟩
  retryAfter := retryAfter

/-- The member is a text where it is there. -/
def TextMember (key : Str) (ms : List (Str × Json)) : Prop := ∀ v ∈ lookup key ms, ∃ s, v = .str s

/-- The members are of the protocol's types. -/
structure Typed (ms : List (Str × Json)) : Prop where
  texts : ∀ key ∈ [str "reason", str "domain", str "title", str "detail"], TextMember key ms
  metadata : ∀ v ∈ lookup (str "metadata") ms, ∃ ns : List (Str × Str), v =
    .obj (ns.map fun m => (m.1, .str m.2))
  violations : ∀ v ∈ lookup (str "violations") ms, ∃ xs, v = .list xs ∧
    ∀ x ∈ xs, ∃ ns, x = .obj ns ∧ ∀ key ∈ [str "field", str "reason", str "description"],
    TextMember key ns

theorem get_of_text {key : Str} {ms : List (Str × Json)} (h : TextMember key ms) :
    get key ms = .str (textOf key ms) := by
  rw [get, textOf]
  cases hv : lookup key ms with
  | none => rfl
  | some v =>
      obtain ⟨s, rfl⟩ := h v hv
      rfl

theorem member_of_text {key : Str} {ms : List (Str × Json)} (h : TextMember key ms) :
    member key ms = if textOf key ms = [] then none else some (.str (textOf key ms)) := by
  rw [member, textOf]
  cases hv : lookup key ms with
  | none => rfl
  | some v =>
      obtain ⟨s, rfl⟩ := h v hv
      cases s <;> rfl

/-- Typed metadata is read as it is. -/
theorem metadataOf_of_typed {ms : List (Str × Json)} (h : Typed ms) :
    metadataOf ms = .ok ((Errwire.metadataOf ms).map fun m => (.str m.1, .str m.2)) := by
  rw [metadataOf, member]
  cases hv : lookup (str "metadata") ms with
  | none =>
      rw [Errwire.metadataOf, hv]
      rfl
  | some v =>
      obtain ⟨ns, rfl⟩ := h.metadata v hv
      have hns : Errwire.metadataOf ms = ns := by
        rw [Errwire.metadataOf, hv]
        dsimp only
        rw [List.filterMap_map]
        exact List.filterMap_some
      rw [hns]
      cases ns with
      | nil => rfl
      | cons m ns =>
          simp only [Option.filter_some, Json.truthy, List.map_cons, List.isEmpty_cons,
            Bool.not_false, if_true, dictOf, List.map_map]
          rfl

/-- The violations of objects with texts. -/
theorem mapM_violationOf : ∀ {xs : List Json}, (∀ x ∈ xs, ∃ ns, x = .obj ns ∧
      ∀ key ∈ [str "field", str "reason", str "description"], TextMember key ns) →
    xs.mapM violationOf = .ok ((xs.filterMap fun
      | .obj ns =>
          some (⟨textOf (str "field") ns, textOf (str "reason") ns,
            textOf (str "description") ns⟩ : BeSdk.Violation)
      | _ => none).map fun v => ⟨.str v.field, .str v.reason, .str v.description⟩)
  | [], _ => rfl
  | x :: xs, h => by
      rw [List.forall_mem_cons] at h
      obtain ⟨⟨ns, rfl, htexts⟩, hrest⟩ := h
      simp only [List.forall_mem_cons] at htexts
      obtain ⟨hfield, hreason, hdescription, -⟩ := htexts
      have hone : violationOf (.obj ns) = .ok ⟨.str (textOf (str "field") ns),
        .str (textOf (str "reason") ns),
          .str (textOf (str "description") ns)⟩ := by
        rw [violationOf, get_of_text hfield, get_of_text hreason, get_of_text hdescription]
      rw [List.mapM_cons, hone, mapM_violationOf hrest]
      rfl

/-- Typed violations are read as they are. -/
theorem violationsOf_of_typed {ms : List (Str × Json)} (h : Typed ms) : violationsOf ms =
    .ok ((Errwire.violationsOf ms).map fun v => ⟨.str v.field, .str v.reason,
      .str v.description⟩) := by
  rw [violationsOf, Errwire.violationsOf, member]
  cases hv : lookup (str "violations") ms with
  | none => rfl
  | some v =>
      obtain ⟨xs, rfl, htexts⟩ := h.violations v hv
      cases xs with
      | nil => rfl
      | cons x xs => exact mapM_violationOf htexts

/-- **Answers of this protocol** are read as `BeSdk.Errwire` has it. -/
theorem fromHttp_texts [Interp] [DigitTable] {status : Nat} {contentType retryAfter : Str}
    {body : Bytes} {n : Int} (htyped : ∀ ms, loads body = .ok (.obj ms) → Typed ms)
    (hretry : retryOf retryAfter = .ok n) : fromHttp status contentType retryAfter body =
      (Errwire.fromHttp ⟨status, contentType, body⟩).map fun r => (r.1.map (ofTexts n), r.2) := by
  rw [fromHttp, Errwire.fromHttp]
  by_cases hmedia : mediaType contentType = problemContentType
  swap
  · rw [if_pos hmedia, if_pos hmedia]
    rfl
  rw [if_neg (not_not.mpr hmedia), if_neg (not_not.mpr hmedia)]
  cases hv : loads body with
  | error e => cases e <;> rfl
  | ok v =>
  cases v with
  | obj ms =>
      have h := htyped ms hv
      have htexts := h.texts
      simp only [List.forall_mem_cons] at htexts
      obtain ⟨hreason, hdomain, htitle, hdetail, -⟩ := htexts
      dsimp only
      rw [member_of_text hreason, member_of_text hdomain]
      generalize hr : textOf (str "reason") ms = reason
      generalize hd : textOf (str "domain") ms = domain
      by_cases hempty : reason = [] ∨ domain = []
      · rw [if_pos hempty]
        rcases hempty with rfl | rfl
        · rfl
        · by_cases hnil : reason = []
          · rw [if_pos hnil]
            rfl
          · rw [if_neg hnil]
            rfl
      · rw [if_neg hempty]
        rw [not_or] at hempty
        rw [if_neg hempty.1, if_neg hempty.2]
        simp only [errorOf, entryOf_texts, metadataOf_of_typed h, violationsOf_of_typed h,
          hretry, get_of_text htitle, get_of_text hdetail, codeOf, bind, Except.bind]
        cases ((catalogued domain reason).map Entry.code).or (codeOfStatus status) with
        | none => rfl
        | some c => rfl
  | _ => rfl

end Errwire.Foreign

end BeSdk
