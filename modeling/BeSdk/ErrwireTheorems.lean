/-
BeSdk.ErrwireTheorems — whether a caller judges an error alike on both surfaces.

The system surface keeps the code. The user surface carries a reason, a domain and an
HTTP status; reading it back, `from_http` takes the code of a platform reason from the
catalogue and that of any other reason from the status (`httpCode`). Both surfaces
rewrite an internal error to be/INTERNAL.

* `classes_agree`: the attempt falls into one class on both surfaces exactly when what
  the user surface makes of the code is UNAVAILABLE and DEADLINE_EXCEEDED where the code
  is, or the class does not depend on the code; in particular for every platform error.
* `class_differs`: a component's reason with the code ABORTED and the status 503.
-/
import BeSdk.Errwire
import BeSdk.CanonTheorems
import BeSdk.Calls.Outcome

namespace BeSdk

namespace Errwire

/-! ## What a caller makes of an answer -/

/-- The result of an attempt that was answered with an error. -/
def failed (read : Option Errs.Error × Option Code) : Result :=
  { err := some ((read.1.map Raised.error).getD .other), code := read.2, remote := read.1 }

/-- The class of an attempt over the system surface. -/
def grpcClass (st : Status) (callerCancelled : Bool) : Except Exc Class := do
  return classify (failed (← fromGrpc st.code st.message (some st))) callerCancelled

/-- The class of an attempt over the user surface. -/
def httpClass [Interp] (r : Response) (callerCancelled : Bool) : Except Exc Class := do
  return classify (failed (← fromHttp r)) callerCancelled

/-- The code the user surface gives an error. -/
def httpCode (domain reason : Str) (status : Nat) : Option Code :=
  ((catalogued domain reason).map Entry.code).or (codeOfStatus status)

/-- A platform reason that reports a failure further down. -/
def isRelayed (domain reason : Str) : Bool := domain = platformDomain ∧ reason ∈ relayedReasons

/-- The class of an answer by what is read of it. -/
def classOf (domain reason : Str) (code : Option Code) : Class :=
  if isRelayed domain reason then .relayed
  else if code = some .unavailable then .unavailable
  else if code = some .deadlineExceeded then .deadline
  else .other

/-- An error without a reason or a domain is no platform reason. -/
theorem catalogued_of_empty {domain reason : Str} (h : reason = [] ∨ domain = []) :
    catalogued domain reason = none := by
  rw [catalogued]
  rcases h with rfl | rfl
  · have hreasons : ∀ e ∈ platform, e.reason ≠ [] := by simp [platform, str_eq_nil_iff]
    split
    · exact List.find?_eq_none.mpr fun e he => by simpa using hreasons e he
    · rfl
  · rw [if_neg (by decide)]

theorem isRelayed_of_empty {domain reason : Str} (h : reason = [] ∨ domain = []) :
    isRelayed domain reason = false := by
  rcases h with rfl | rfl
  · rw [isRelayed, decide_eq_false_iff_not]
    exact fun h => absurd h.2 (by decide)
  · rw [isRelayed, decide_eq_false_iff_not]
    exact fun h => absurd h.1 (by decide)

theorem classify_failed {read : Option Errs.Error × Option Code} {domain reason : Str}
    {code : Option Code} (hcode : read.2 = code)
    (hread : (∃ e, read.1 = some e ∧ e.domain = domain ∧ e.reason = reason) ∨
      (read.1 = none ∧ (reason = [] ∨ domain = []))) (callerCancelled : Bool) :
    classify (failed read) callerCancelled = if callerCancelled then .cancelled
    else classOf domain reason code := by
  subst hcode
  cases callerCancelled with
  | true => rfl
  | false =>
      rcases hread with ⟨e, he, rfl, rfl⟩ | ⟨hnone, hempty⟩
      · simp [classify, failed, he, classOf, isRelayed]
      · simp [classify, failed, hnone, classOf, isRelayed_of_empty hempty]

/-! ## The system surface -/

theorem grpcClass_toStatus (e : Errs.Error) (callerCancelled : Bool) :
    grpcClass (toStatus e) callerCancelled = .ok (if callerCancelled then .cancelled else
      classOf (e.problem []).domain (e.problem []).reason (toStatus e).code) := by
  have hread : ∃ e', fromGrpc (toStatus e).code (toStatus e).message (some (toStatus e)) =
    .ok (some e', (toStatus e).code) ∧
      e'.domain = (e.problem []).domain ∧ e'.reason = (e.problem []).reason := by
    have hinfo : (toStatus e).errorInfo = some ((e.problem []).reason, (e.problem []).domain,
      (e.problem []).metadata) := by
      rw [Status.errorInfo, toStatus]
      by_cases h : (e.problem []).violations = []
      · simp [h]
      · simp [h]
    unfold fromGrpc
    dsimp only
    rw [hinfo]
    exact ⟨_, rfl, rfl, rfl⟩
  obtain ⟨e', hread, hdomain, hreason⟩ := hread
  rw [grpcClass, hread]
  exact congrArg Except.ok (classify_failed rfl (.inl ⟨e', rfl, hdomain, hreason⟩) callerCancelled)

/-! ## The user surface -/

theorem nodup_members (p : ProblemBody) : (p.members.map Prod.fst).Nodup := by
  have hkeys : ([str "type", str "title", str "status", str "detail", str "reason",
    str "domain", str "trace_id"] ++
      [str "metadata"] ++ [str "violations"]).Nodup := by decide +kernel
  refine hkeys.sublist ?_
  rw [ProblemBody.members, List.map_append, List.map_append]
  refine ((List.Sublist.refl _).append ?_).append ?_
  · split
    · exact List.nil_sublist _
    · exact List.Sublist.refl _
  · split
    · exact List.nil_sublist _
    · exact List.Sublist.refl _

theorem plain_members (p : ProblemBody) (h : p.status < 10 ^ maxStrDigits) :
    (Json.obj p.members).Plain (fun _ => True) (fun _ => True) fun n => n.natAbs <
    10 ^ maxStrDigits := by
  have hmetadata : ∀ m ∈ p.metadata.map fun m => (m.1, Json.str m.2),
      True ∧ m.2.Plain (fun _ => True) (fun _ => True) fun n => n.natAbs < 10 ^ maxStrDigits := by
    intro m hm
    obtain ⟨x, -, rfl⟩ := List.mem_map.mp hm
    exact ⟨trivial, trivial⟩
  have hviolations : ∀ v ∈ p.violations.map Violation.json,
      v.Plain (fun _ => True) (fun _ => True) fun n => n.natAbs < 10 ^ maxStrDigits := by
    intro v hv
    obtain ⟨x, -, rfl⟩ := List.mem_map.mp hv
    exact plainMembers_iff.mpr (by simp [Json.Plain])
  have hstatus : (p.status : Int).natAbs < 10 ^ maxStrDigits := by simpa using h
  rw [Json.Plain, plainMembers_iff, ProblemBody.members, List.forall_mem_append,
    List.forall_mem_append]
  refine ⟨⟨?_, ?_⟩, ?_⟩
  · simp only [List.forall_mem_cons, Json.Plain, hstatus]
    simp
  · split
    · simp
    · exact List.forall_mem_singleton.mpr ⟨trivial, plainMembers_iff.mpr hmetadata⟩
  · split
    · simp
    · exact List.forall_mem_singleton.mpr ⟨trivial, plainElems_iff.mpr hviolations⟩

theorem dedupeMembers_eq_map (ms : List (Str × Json)) :
    dedupeMembers ms = ms.map fun m => (m.1, m.2.dedupe) := by
  induction ms with
  | nil => rfl
  | cons m ms ih => rw [dedupeMembers, ih, List.map_cons]

theorem textOf_dedupe (key : Str) (ms : List (Str × Json)) :
    textOf key (dedupeMembers ms) = textOf key ms := by
  rw [textOf, textOf, dedupeMembers_eq_map, lookup_map]
  cases lookup key ms with
  | none => rfl
  | some v => cases v <;> rfl

/-- The body of a problem opens three levels: its violations are a list of objects. -/
theorem depth_members [Interp] (p : ProblemBody) : (Json.obj p.members).depth ≤ Interp.nesting := by
  have hmetadata : depthMembers (p.metadata.map fun m => (m.1, .str m.2)) ≤ 0 :=
    depthMembers_le_iff.mpr (List.forall_mem_map.mpr fun _ _ => Nat.le_refl 0)
  have hviolations : depthElems (p.violations.map Violation.json) ≤ 1 :=
    depthElems_le_iff.mpr (List.forall_mem_map.mpr fun _ _ => Nat.le_refl 1)
  refine le_trans (Nat.succ_le_succ (depthMembers_le_iff.mpr ?_)) Interp.room
  rw [ProblemBody.members, List.forall_mem_append, List.forall_mem_append]
  refine ⟨⟨?_, ?_⟩, ?_⟩
  · simp [Json.depth]
  · split
    · simp
    · exact List.forall_mem_singleton.mpr (Nat.succ_le_succ (hmetadata.trans (Nat.zero_le 1)))
  · split
    · simp
    · exact List.forall_mem_singleton.mpr (Nat.succ_le_succ hviolations)

/-- The body of a response is read back as the problem's members. -/
theorem loads_problem [Interp] {p : ProblemBody} {b : Bytes}
    (hb : Canon.utf8 (compact Canon.escape (.obj p.members)) = .ok b)
    (hs : p.status < 10 ^ maxStrDigits) : loads b = .ok (.obj (dedupeMembers p.members)) := by
  rw [Canon.loads_compact (plain_members p hs) (depth_members p) (Canon.utf8_eq_ok_iff.mp hb),
    Json.dedupe, Dict.entries_ofPairs]
  rw [dedupeMembers_eq_map, List.map_map]
  exact nodup_members p

/-- What a caller makes of a problem: the class of its reason under the code the user
surface gives it. -/
theorem httpClass_problem [Interp] {p : ProblemBody} {b : Bytes}
    (hb : Canon.utf8 (compact Canon.escape (.obj p.members)) = .ok b)
    (hs : p.status < 10 ^ maxStrDigits) (herror : 400 ≤ p.status) (callerCancelled : Bool) :
    httpClass ⟨p.status, problemContentType, b⟩ callerCancelled =
    .ok (if callerCancelled then .cancelled else
      classOf p.domain p.reason (httpCode p.domain p.reason p.status)) := by
  have hreason : textOf (str "reason") (dedupeMembers p.members) = p.reason := by
    rw [textOf_dedupe]; rfl
  have hdomain : textOf (str "domain") (dedupeMembers p.members) = p.domain := by
    rw [textOf_dedupe]; rfl
  obtain ⟨c, hc⟩ : ∃ c, codeOfStatus p.status = some c := by
    rw [codeOfStatus, if_neg (by omega)]
    repeat' split
    all_goals exact ⟨_, rfl⟩
  have hmedia : mediaType problemContentType = problemContentType := by decide
  rw [httpClass, fromHttp]
  dsimp only
  rw [hmedia, if_neg (by simp), loads_problem hb hs]
  dsimp only
  rw [hreason, hdomain]
  split
  · next hempty =>
      refine congrArg Except.ok (classify_failed ?_ (.inr ⟨rfl, hempty⟩) callerCancelled)
      rw [httpCode, catalogued_of_empty hempty]
      rfl
  · obtain ⟨c', hc'⟩ : ∃ c', ((catalogued p.domain p.reason).map Entry.code).or
      (codeOfStatus p.status) = some c' := by
      rw [hc]
      cases (catalogued p.domain p.reason).map Entry.code <;> exact ⟨_, rfl⟩
    rw [hc']
    exact congrArg Except.ok (@classify_failed _ p.domain p.reason _ hc'.symm
      (.inl ⟨_, rfl, rfl, rfl⟩) callerCancelled)

/-! ## Both surfaces -/

/-- Whether the class of an error can be told from what the user surface carries: it is
rendered as INTERNAL, it relays a failure, or the code the user surface gives it is
UNAVAILABLE and DEADLINE_EXCEEDED where its own is. -/
def Told (e : Errs.Error) : Prop :=
  e.internal = true ∨ e.reason = str "INTERNAL" ∨ isRelayed e.domain e.reason = true ∨
    ((httpCode e.domain e.reason e.http = some .unavailable ↔ e.code = .unavailable) ∧
      (httpCode e.domain e.reason e.http = some .deadlineExceeded ↔ e.code = .deadlineExceeded))

/-- The classes of two codes under one reason. -/
theorem classOf_eq_iff {domain reason : Str} {a b : Option Code} :
    classOf domain reason a = classOf domain reason b ↔ isRelayed domain reason = true ∨
      ((b = some .unavailable ↔ a = some .unavailable) ∧
        (b = some .deadlineExceeded ↔ a = some .deadlineExceeded)) := by
  rw [classOf, classOf]
  cases isRelayed domain reason with
  | true => simp
  | false =>
      simp only [Bool.false_eq_true, if_false, false_or]
      by_cases ha : a = some .unavailable <;> by_cases hb : b = some .unavailable <;>
        by_cases ha' : a = some .deadlineExceeded <;> by_cases hb' : b = some .deadlineExceeded <;>
        simp_all

/-- INTERNAL of the platform is INTERNAL in the catalogue. -/
theorem httpCode_internal (status : Nat) :
    httpCode platformDomain (str "INTERNAL") status = some .internal := by
  have hentry : (⟨str "INTERNAL", .internal, 0, .no, str "Internal error"⟩ : Entry) ∈
    platform := by simp [platform]
  rw [httpCode, catalogued, if_pos rfl, Errs.find_platform hentry]
  rfl

/-- The classes of an error on the two surfaces. -/
theorem classes_eq_iff {e : Errs.Error} (hinternal : e.reason = str "INTERNAL" →
    e.domain = platformDomain) : classOf (e.problem []).domain (e.problem []).reason
    (toStatus e).code =
      classOf (e.problem []).domain (e.problem []).reason
        (httpCode (e.problem []).domain (e.problem []).reason (e.problem []).status) ↔ Told e := by
  rw [toStatus, Errs.Error.problem, Told]
  split
  · next hint =>
      simp only [if_true, httpCode_internal, hint, true_or]
  · next hint =>
      simp only [hint, Bool.false_eq_true, false_or]
      by_cases hreason : e.reason = str "INTERNAL"
      · simp only [hreason, hinternal hreason, if_true, httpCode_internal, true_or]
      · simp only [hreason, if_false, false_or, classOf_eq_iff, Option.some.injEq]

/-- The user surface gives a platform reason its code, whatever the status. -/
theorem httpCode_platform {entry : Entry} (h : entry ∈ platform) (status : Nat) :
    httpCode platformDomain entry.reason status = some entry.code := by
  rw [httpCode, catalogued, if_pos rfl, Errs.find_platform h]
  rfl

/-- A status of three digits. -/
theorem status_lt_of_three {status : Nat} (h : status < 1000) : status < 10 ^ maxStrDigits := by
  have h3 : 10 ^ 3 ≤ 10 ^ maxStrDigits := Nat.pow_le_pow_right (by decide) (by decide)
  omega

/-- The statuses of the catalogue are error statuses. -/
theorem status_platform : ∀ entry ∈ platform, 400 ≤ entry.status ∧ entry.status < 1000 := by
    decide +kernel

/-- An error of the catalogue, whatever its detail, metadata and violations. -/
def IsPlatform (e : Errs.Error) : Prop :=
  ∃ entry ∈ platform, e.domain = platformDomain ∧ e.reason = entry.reason ∧
    e.code = entry.code ∧ e.http = entry.status

theorem told_of_isPlatform {e : Errs.Error} (h : IsPlatform e) : Told e := by
  obtain ⟨entry, hentry, hdomain, hreason, hcode, -⟩ := h
  refine .inr (.inr (.inr ?_))
  rw [hdomain, hreason, hcode, httpCode_platform hentry, Option.some.injEq, Option.some.injEq]
  exact ⟨Iff.rfl, Iff.rfl⟩

/-- The trace ID is no part of the verdict. -/
theorem problem_traceId (e : Errs.Error) (traceId : Str) :
    (e.problem traceId).domain = (e.problem []).domain ∧
    (e.problem traceId).reason = (e.problem []).reason ∧ (e.problem traceId).status =
    (e.problem []).status := by
  rw [Errs.Error.problem, Errs.Error.problem]
  split <;> exact ⟨rfl, rfl, rfl⟩

theorem problem_status {e : Errs.Error} (h400 : 400 ≤ e.http)
    (hdigits : e.http < 10 ^ maxStrDigits) (traceId : Str) :
    400 ≤ (e.problem traceId).status ∧ (e.problem traceId).status < 10 ^ maxStrDigits := by
  rw [Errs.Error.problem]
  split
  · exact ⟨Nat.le_of_ble_eq_true rfl, status_lt_of_three (Nat.le_of_ble_eq_true rfl)⟩
  · exact ⟨h400, hdigits⟩

/-- The classes of an error, rendered on both surfaces. -/
theorem classes_of_rendered [Interp] {e : Errs.Error} {traceId : Str} {r : Response}
    (hr : problemResponse e traceId = .ok r) (h400 : 400 ≤ e.http)
    (hdigits : e.http < 10 ^ maxStrDigits)
    (hinternal : e.reason = str "INTERNAL" → e.domain = platformDomain)
    (callerCancelled : Bool) : ∃ grpc http, grpcClass (toStatus e) callerCancelled = .ok grpc ∧
      httpClass r callerCancelled = .ok http ∧ (grpc = http ↔ callerCancelled = true ∨ Told e) := by
  obtain ⟨b, hb, hresp⟩ := bind_eq_ok_iff.mp hr
  obtain rfl := Except.ok.inj hresp
  have hstatus := problem_status h400 hdigits traceId
  obtain ⟨hdomain, hreason, hsame⟩ := problem_traceId e traceId
  refine ⟨_, _, grpcClass_toStatus e callerCancelled, httpClass_problem hb hstatus.2 hstatus.1
    callerCancelled, ?_⟩
  rw [hdomain, hreason, hsame]
  cases callerCancelled with
  | true => exact ⟨fun _ => .inl rfl, fun _ => rfl⟩
  | false => simpa using classes_eq_iff hinternal

/-- **Both surfaces give callers the same verdict on an error** exactly when its class can
be told from the user surface, for every error whose status is an error status, of no
more digits than JSON is read with, and whose reason INTERNAL, if it has that, is the
platform's; and on every error of the catalogue. -/
theorem classes_agree [Interp] (e : Errs.Error) (traceId : Str) (r : Response)
    (hr : problemResponse e traceId = .ok r) (callerCancelled : Bool) :
    (400 ≤ e.http → e.http < 10 ^ maxStrDigits →
      (e.reason = str "INTERNAL" → e.domain = platformDomain) →
      ∃ grpc http, grpcClass (toStatus e) callerCancelled = .ok grpc ∧
      httpClass r callerCancelled = .ok http ∧
        (grpc = http ↔ callerCancelled = true ∨ Told e)) ∧
    (IsPlatform e → ∃ c, grpcClass (toStatus e) callerCancelled = .ok c ∧
      httpClass r callerCancelled = .ok c) := by
  refine ⟨fun h400 hdigits hinternal => classes_of_rendered hr h400 hdigits hinternal
    callerCancelled, fun hplatform => ?_⟩
  obtain ⟨entry, hentry, hdomain, -, -, hhttp⟩ := id hplatform
  obtain ⟨grpc, http, hgrpc, hhttp, hiff⟩ :=
    classes_of_rendered hr (by rw [hhttp]; exact (status_platform entry hentry).1)
    (by rw [hhttp]; exact status_lt_of_three (status_platform entry hentry).2)
      (fun _ => hdomain) callerCancelled
  exact ⟨grpc, hgrpc, hiff.mpr (.inr (told_of_isPlatform hplatform)) ▸ hhttp⟩

/-- A reason a component declares. -/
def declared (code : Code) (http : Nat) : Errs.Error :=
  Errs.ofEntry (str "erp/inventory") ⟨str "MAINTENANCE", code, http, .yes,
    str "Under maintenance"⟩ []

theorem exists_ok {α : Type} {x : Except Exc α} (h : x.toOption.isSome = true) :
    ∃ a, x = .ok a := by
  cases x with
  | error e => cases h
  | ok a => exact ⟨a, rfl⟩

theorem classes_agree_maintenance : ∃ r c, problemResponse (declared .unavailable 0) [] = .ok r ∧
    grpcClass (toStatus (declared .unavailable 0)) false = .ok c ∧
    @httpClass Interp.ascii r false = .ok c := by
  obtain ⟨r, hr⟩ := @exists_ok _ (problemResponse (declared .unavailable 0) []) (by decide +kernel)
  obtain ⟨grpc, http, hgrpc, hhttp, hiff⟩ :=
    (@classes_agree Interp.ascii (declared .unavailable 0) [] r hr false).1 (by decide)
    (status_lt_of_three (by decide)) (by decide)
  exact ⟨r, grpc, hr, hgrpc, hiff.mpr (.inr (.inr (.inr (.inr (by decide))))) ▸ hhttp⟩

/-- **The verdicts differ** on a component's reason whose status says more than its code. -/
theorem class_differs : ∃ r, problemResponse (declared .aborted 503) [] = .ok r ∧
    grpcClass (toStatus (declared .aborted 503)) false = .ok .other ∧
    @httpClass Interp.ascii r false = .ok .unavailable := by
  obtain ⟨b, hb⟩ :=
    @exists_ok _
      (Canon.utf8 (compact Canon.escape (.obj ((declared .aborted 503).problem []).members)))
    (by decide +kernel)
  refine ⟨⟨503, problemContentType, b⟩, bind_eq_ok_iff.mpr ⟨b, hb, rfl⟩, by
    rw [grpcClass_toStatus]; rfl, ?_⟩
  exact @httpClass_problem Interp.ascii _ _ hb (status_lt_of_three (by decide)) (by decide) false

end Errwire

end BeSdk
