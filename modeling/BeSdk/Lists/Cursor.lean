/-
BeSdk.Lists.Cursor — a cursor written for a row is read back as that row's sort values
and ID, under the digests it was written with.

The writer strips the base64 padding and the reader adds what the length asks for;
these agree because stripping takes the padding and nothing else (`rstrip_encode`). The
JSON inside brings texts back with their surrogate pairs joined (`next_opens_joined`),
so it is a round trip for texts without surrogates, which a database does not have.
-/
import BeSdk.Lists
import BeSdk.Authz.PlanTheorems
import BeSdk.Py.Surrogates

namespace BeSdk.Lists

/-! ## Padding -/

theorem rstrip_replicate {c : CodePoint} {s : Str} (h : ∀ x ∈ s, x ≠ c) (n : Nat) :
    Canon.rstrip c (s ++ List.replicate n c) = s := by
  rw [Canon.rstrip, List.reverse_append, List.reverse_replicate,
    List.dropWhile_append_of_pos (fun x hx => by simp [(List.mem_replicate.mp hx).2])]
  cases hs : s.reverse with
  | nil => simp [List.reverse_eq_nil_iff.mp hs]
  | cons x rest =>
      have hx : x ≠ c := h x (List.mem_reverse.mp (by simp [hs]))
      rw [List.dropWhile_cons_of_neg (by simpa using hx), ← hs, List.reverse_reverse]

/-- What is stripped of an encoding is what the reader adds. -/
theorem rstrip_encode (b : Bytes) : let s := Canon.rstrip (chr '=') (urlsafeB64Encode b)
    s ++ List.replicate ((4 - s.length % 4) % 4) (chr '=') = urlsafeB64Encode b ∧
    (s = [] → b = []) := by
  obtain ⟨bare, hbare, heq⟩ := urlsafeB64Encode_eq b
  have hstrip : Canon.rstrip (chr '=') (urlsafeB64Encode b) = bare := by
    rw [heq, rstrip_replicate hbare]
  dsimp only
  rw [hstrip]
  refine ⟨heq.symm, ?_⟩
  rintro rfl
  have hdecode := urlsafeB64Decode_encode b
  rw [heq] at hdecode
  exact (Option.some.inj hdecode).symm

/-- The reader gets the bytes that the writer encoded. -/
theorem cursorBytes_encode (b : Bytes) :
    cursorBytes (Canon.rstrip (chr '=') (urlsafeB64Encode b)) = some b := by
  rw [cursorBytes, (rstrip_encode b).1, urlsafeB64Decode_encode]

theorem readCursor_encode [Interp] (b : Bytes) :
    readCursor (Canon.rstrip (chr '=') (urlsafeB64Encode b)) = loads b := by
  rw [readCursor, cursorBytes_encode]

/-! ## The record -/

section
variable {keys : List Str} {id filterHash planHash : Str}

/-- The members' texts satisfy what texts without surrogates and the cursor's own do. -/
theorem cursorMembers_plain {P : Str → Prop} (hpaired : ∀ s, Paired s → P s)
    (hkeys : ∀ k ∈ keys, P k) (hid : P id) (hf : P filterHash) (hp : P planHash) :
    (Json.obj (cursorMembers keys id filterHash planHash)).Plain P P fun n => n.natAbs <
    10 ^ maxStrDigits := by
  have hname : ∀ s ∈ [str "v", str "k", str "id", str "f", str "p"], s.all
    (fun c => !isSurrogate c) = true := by
    decide
  have hnames : ∀ s ∈ [str "v", str "k", str "id", str "f", str "p"], P s :=
    fun s hs => hpaired s fun c hc => by
    simpa using List.all_eq_true.mp (hname s hs) c hc
  simp only [List.forall_mem_cons] at hnames
  obtain ⟨hv, hk, hi, hff, hpp, -⟩ := hnames
  have hone : (1 : Int).natAbs < 10 ^ maxStrDigits := Nat.one_lt_pow (by decide) (by decide)
  refine ⟨hv, hone, hk, plainElems_iff.mpr ?_, hi, hid, hff, hf, hpp, hp, trivial⟩
  rw [List.forall_mem_map]
  exact hkeys

theorem cursorMembers_distinct :
    (Json.obj (cursorMembers keys id filterHash planHash)).Distinct := by
  have hkeys : [str "v", str "k", str "id", str "f", str "p"].Nodup := by decide
  refine ⟨hkeys, trivial, distinctElems_iff.mpr ?_, trivial, trivial, trivial, trivial⟩
  rw [List.forall_mem_map]
  exact fun _ _ => trivial

/-- Members of which one is a list of texts open two levels. -/
theorem cursorMembers_room [Interp] :
    (Json.obj (cursorMembers keys id filterHash planHash)).depth ≤ Interp.nesting := by
  have hkeys : depthElems (keys.map .str) = 0 :=
    Nat.le_zero.mp (depthElems_le_iff.mpr (List.forall_mem_map.mpr fun _ _ => Nat.le_refl 0))
  refine le_trans ?_ (le_trans (by decide : 2 ≤ 3) Interp.room)
  simp [cursorMembers, Json.depth, depthMembers, hkeys]

/-- A text is written as the text with its surrogate pairs joined. -/
theorem quoted_joinPairs (s : Str) : quoted asciiEscape (joinPairs s) = quoted asciiEscape s := by
  rw [quoted, quoted, flatMap_joinPairs]

/-- A cursor is written as the one of the keys and ID with their surrogate pairs joined. -/
theorem dumps_cursorMembers_joined (keys : List Str) (id filterHash planHash : Str) :
    dumps (.obj (cursorMembers (keys.map joinPairs) (joinPairs id) filterHash planHash)) =
      dumps (.obj (cursorMembers keys id filterHash planHash)) := by
  have hkeys : compactElems asciiEscape ((keys.map joinPairs).map .str) =
    compactElems asciiEscape (keys.map .str) := by
    simp only [compactElems_eq_map, List.map_map]
    refine List.map_congr_left fun k _ => ?_
    simp only [Function.comp_apply, compact, quoted_joinPairs]
  simp only [dumps, compact, compactMembers_eq_map, cursorMembers, List.map_cons,
    List.map_nil, quoted_joinPairs, hkeys]

end

/-- What a cursor opens to. -/
structure Opens [Interp] (cursor : Str) (keys : List Str) (id filterHash planHash : Str) :
    Prop where
  nonempty : cursor ≠ []
  opens : ∃ ms, openCursor cursor keys.length = .ok (ms, keys.map .str) ∧
    isText filterHash (lookup (str "f") ms) = true ∧ isText planHash (lookup (str "p") ms) = true ∧
    lookup (str "id") ms = some (.str id)

/-- What is written for a row opens to the row's keys and ID, with their surrogate pairs
joined, under the page's digests. -/
theorem next_opens_joined [Interp] {q : Query} (keys : List Str) (id : Str)
    (hf : Paired q.filterHash) (hp : Paired q.planHash) :
    ∃ cursor, q.next keys id = .ok cursor ∧
      Opens cursor (keys.map joinPairs) (joinPairs id) q.filterHash q.planHash := by
  have hpaired : ∀ s, Paired s → ReadsText asciiEscape s := fun s hs => readsText_of_unsplit
    (unsplit_of_paired hs)
  have hjoined : ∀ s, ReadsText asciiEscape (joinPairs s) :=
    fun s => readsText_of_unsplit (unsplit_joinPairs s)
  have hkeys : ∀ k ∈ keys.map joinPairs, ReadsText asciiEscape k :=
    List.forall_mem_map.mpr fun k _ => hjoined k
  obtain ⟨b, hb, hloads⟩ := loads_dumps_of_reads
    (cursorMembers_plain hpaired hkeys (hjoined id) (hpaired _ hf) (hpaired _ hp))
    cursorMembers_distinct cursorMembers_room
  rw [dumps_cursorMembers_joined] at hb
  refine ⟨Canon.rstrip (chr '=') (urlsafeB64Encode b), ?_, ?_, ?_⟩
  · simp only [Query.next, Canon.utf8, hb, bind, Except.bind, pure, Except.pure]
  · intro hnil
    rw [(rstrip_encode b).2 hnil] at hloads
    cases hloads
  · generalize keys.map joinPairs = keys at hloads
    generalize joinPairs id = id at hloads
    have hread : readCursor (Canon.rstrip (chr '=') (urlsafeB64Encode b)) =
        .ok (.obj (cursorMembers keys id q.filterHash q.planHash)) := by
      rw [readCursor_encode, hloads]
    have hkey : lookup (str "k") (cursorMembers keys id q.filterHash q.planHash) =
      some (.list (keys.map .str)) := rfl
    refine ⟨cursorMembers keys id q.filterHash q.planHash, ?_, ?_, ?_, rfl⟩
    · have hone : isOne (lookup (str "v") (cursorMembers keys id q.filterHash q.planHash)) =
        true := rfl
      simp only [openCursor, hread, hkey]
      rw [if_pos ⟨hone, List.length_map _⟩]
    · exact decide_eq_true rfl
    · exact decide_eq_true rfl

/-- **Round trip.** The cursor of a row opens to the row's keys and ID, under its digests. -/
theorem next_opens [Interp] {q : Query} {keys : List Str} {id : Str}
    (hkeys : ∀ k ∈ keys, Paired k) (hid : Paired id) (hf : Paired q.filterHash)
    (hp : Paired q.planHash) : ∃ cursor, q.next keys id = .ok cursor ∧
    Opens cursor keys id q.filterHash q.planHash := by
  have hsame : ∀ s, Paired s → joinPairs s = s := fun s hs => (joinPairs_eq_self_iff s).mpr
    (unsplit_of_paired hs)
  have hopens := next_opens_joined keys id hf hp
  rwa [List.map_congr_left fun k hk => hsame k (hkeys k hk), List.map_id', hsame id hid] at hopens

/-! ## Digests -/

theorem paired_take_sha256Hex (b : Bytes) (n : Nat) : Paired ((sha256Hex b).take n) := fun c hc =>
  isSurrogate_sha256Hex b c (List.mem_of_mem_take hc)

theorem paired_digest {v : Json} {s : Str} (h : digest v = .ok s) : Paired s := by
  obtain ⟨b, -, h⟩ := bind_eq_ok_iff.mp h
  rw [← pure_eq_ok_iff.mp h]
  exact paired_take_sha256Hex b 32

theorem paired_planDigest [Interp] {r : Resource} {used : List Segment} {op s : Str}
    (h : planDigest r used op = .ok s) : Paired s := by
  obtain ⟨digests, -, h⟩ := bind_eq_ok_iff.mp h
  obtain ⟨d, -, h⟩ := bind_eq_ok_iff.mp h
  obtain ⟨b, -, h⟩ := bind_eq_ok_iff.mp h
  rw [← pure_eq_ok_iff.mp h]
  exact paired_take_sha256Hex b 32

/-- The digest of a compiled plan. -/
theorem paired_compilePlan [Interp] {r : Resource} {segs : List Segment} {op principal : Str}
    {at_ : Instant} {alias_ : Str} {base : Nat} {plan : Plan}
    (h : compilePlan r segs op principal at_ alias_ base = .ok plan) :
    Paired plan.digest := by
  rw [compilePlan] at h
  obtain ⟨⟨viewPreds, args⟩, -, h⟩ := bind_eq_ok_iff.mp h
  by_cases hop : op = r.viewOperation
  · simp only [hop, ne_eq, not_true_eq_false, if_false, pure_bind, bind_eq_ok_iff,
      pure_eq_ok_iff] at h
    obtain ⟨digest, hdigest, rfl⟩ := h
    exact paired_planDigest hdigest
  · simp only [ne_eq, hop, not_false_eq_true, if_true, bind_eq_ok_iff, pure_eq_ok_iff] at h
    obtain ⟨_, -, _, rfl, digest, hdigest, rfl⟩ := h
    exact paired_planDigest hdigest

/-- The plan of a list is compiled from the segments of a grant. -/
theorem list_compiled [Interp] {subj : Subject} {clock : Clock} {op alias_ : Str} {plan : Plan}
    (h : subj.list clock op alias_ 0 = .ok plan) : ∃ o r g, subj.defs.operation op = some o ∧
      subj.defs.resource o.resourceType = some r ∧
      compilePlan r g o.key subj.principal subj.at_ alias_ 0 = .ok plan := by
  obtain ⟨⟨o, r, g⟩, hgrant, hcompile⟩ := bind_eq_ok_iff.mp h
  rw [Subject.grant] at hgrant
  split at hgrant
  · cases hgrant
  next o' ho =>
    split at hgrant
    · cases hgrant
    next r' hr =>
      obtain ⟨g', -, hg⟩ := bind_eq_ok_iff.mp hgrant
      obtain ⟨rfl, rfl, rfl⟩ := pure_eq_ok_iff.mp hg
      exact ⟨o, r, _, ho, hr, hcompile⟩

end BeSdk.Lists
