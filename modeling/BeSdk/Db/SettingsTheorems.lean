/-
BeSdk.Db.SettingsTheorems — reading the settings of a parsed configuration.

`Parsed` is what `parse` leaves: each key is found under its name, and what is kept for it
is of its type, or is its default. A key whose default is of its type is then read
without raising, and so are the settings of a database (`settingsFrom_ok`), whatever the
source gave.
-/
import BeSdk.ConfigTheorems
import BeSdk.Db.Settings

namespace BeSdk.Config

/-! ## What is kept -/

/-- A value as a key of the type reads it. -/
def Value.HasType : Value → KeyType → Prop
  | .raw _, .string => True
  | .raw _, .enum_ => True
  | .int _, .integer => True
  | .bool _, .boolean => True
  | .duration _, .duration => True
  | _, _ => False

theorem parseInteger_hasType {k : Key} {s : Str} {x : Value}
    (h : parseInteger k s = .ok (.ok x)) : ∃ n, x = .int n := by
  by_cases hread : ∃ n, s = intText n
  · obtain ⟨n, rfl⟩ := hread
    rw [parseInteger_intText] at h
    split at h
    · cases h
    split at h
    · cases h
    split at h <;> cases h
    exact ⟨n, rfl⟩
  · rw [parseInteger_other k (not_exists.mp hread)] at h
    cases h

theorem parseDuration_hasType {s : Str} {x : Value} (h : parseDuration s = .ok (.ok x)) :
    ∃ d, x = .duration d := by
  simp only [parseDuration] at h
  split at h
  · cases h
  split at h
  · cases h
  obtain ⟨n, -, h⟩ := bind_eq_ok_iff.mp h
  split at h
  · cases h
  obtain ⟨d, -, h⟩ := bind_eq_ok_iff.mp h
  cases h
  exact ⟨d, rfl⟩

theorem parseOne_hasType {k : Key} {raw : Json} {x : Value}
    (h : parseOne k raw = .ok (.ok x)) : x.HasType k.type := by
  unfold parseOne at h
  split at h
  case h_1 htype => cases h; rw [htype]; trivial
  case h_2 htype => obtain ⟨n, rfl⟩ := parseInteger_hasType h; rw [htype]; trivial
  case h_3 => cases h
  case h_4 htype =>
    split at h
    · cases h; rw [htype]; trivial
    split at h
    · cases h; rw [htype]; trivial
    · cases h
  case h_5 => cases h
  case h_6 htype => obtain ⟨d, rfl⟩ := parseDuration_hasType h; rw [htype]; trivial
  case h_7 => cases h
  case h_8 htype =>
    split at h <;> cases h
    rw [htype]; trivial
  case h_9 => cases h

/-- What one key adds is of its type, or its default. -/
theorem parseKey_keeps {o : Objects} {src : Source} {k : Key} {v v' : Values}
    {ps ps' : List Problem} (h : parseKey o src k v ps = .ok (v', ps')) :
    v'.keys = v.keys ∧ ∀ name x, v'.vals.get? name = some x →
      v.vals.get? name = some x ∨ (name = k.name ∧ (x.HasType k.type ∨ k.default_ = some x)) := by
  have hset : ∀ y : Value, (y.HasType k.type ∨ k.default_ = some y) →
    ∀ name x, (v.vals.set k.name y).get? name = some x →
      v.vals.get? name = some x ∨ (name = k.name ∧ (x.HasType k.type ∨ k.default_ = some x)) := by
    intro y hy name x hx
    rw [Dict.get?_set] at hx
    split at hx
    · next hname =>
      cases hx
      exact .inr ⟨hname, hy⟩
    · exact .inl hx
  have hunset : parseKey.unset k v ps = .ok (v', ps') → v'.keys = v.keys ∧
    ∀ name x, v'.vals.get? name = some x →
      v.vals.get? name = some x ∨ (name = k.name ∧ (x.HasType k.type ∨ k.default_ = some x)) := by
    intro h
    unfold parseKey.unset at h
    split at h
    · cases h
      exact ⟨rfl, fun _ _ hx => .inl hx⟩
    split at h
    · next d hd =>
      cases h
      exact ⟨rfl, hset d (.inr hd)⟩
    · cases h
      exact ⟨rfl, fun _ _ hx => .inl hx⟩
  unfold parseKey at h
  split at h
  · cases h
    exact ⟨rfl, fun _ _ hx => .inl hx⟩
  · exact hunset h
  split at h
  · exact hunset h
  obtain ⟨r, hone, h⟩ := bind_eq_ok_iff.mp h
  cases r with
  | error kind =>
    simp only at h
    split at h <;> obtain ⟨got, -, h⟩ := bind_eq_ok_iff.mp h <;> cases h <;>
      exact ⟨rfl, fun _ _ hx => .inl hx⟩
  | ok y =>
    cases h
    exact ⟨rfl, hset y (.inl (parseOne_hasType hone))⟩

theorem parseKeys_keeps {o : Objects} {src : Source} {ks : List Key} {v v' : Values}
    {ps ps' : List Problem} (h : parseKeys o src ks v ps = .ok (v', ps')) :
    v'.keys = v.keys ∧ ∀ name x, v'.vals.get? name = some x →
      v.vals.get? name = some x ∨ ∃ k ∈ ks, name = k.name ∧
      (x.HasType k.type ∨ k.default_ = some x) := by
  induction ks generalizing v ps with
  | nil =>
    cases h
    exact ⟨rfl, fun _ _ hx => .inl hx⟩
  | cons k ks ih =>
    obtain ⟨⟨u, qs⟩, hkey, hrest⟩ := bind_eq_ok_iff.mp h
    obtain ⟨hkeys, hvals⟩ := parseKey_keeps hkey
    obtain ⟨hkeys', hvals'⟩ := ih hrest
    refine ⟨hkeys'.trans hkeys, fun name x hx => ?_⟩
    rcases hvals' name x hx with hx | ⟨j, hj, hkept⟩
    · exact (hvals name x hx).imp_right fun hkept => ⟨k, List.mem_cons_self, hkept⟩
    · exact .inr ⟨j, List.mem_cons_of_mem _ hj, hkept⟩

/-- What a parse of the keys leaves. -/
structure Parsed (ks : List Key) (v : Values) : Prop where
  nodup : (ks.map Key.name).Nodup
  keys : v.keys = ks
  typed : ∀ k ∈ ks, ∀ x, v.vals.get? k.name = some x → x.HasType k.type ∨ k.default_ = some x

theorem parsed_of_parse {o : Objects} {ks : List Key} {src : Source} {v : Values}
    (h : parse o ks src = .ok (.ok v)) : Parsed ks v := by
  unfold parse at h
  split at h
  · cases h
  · next hchecked =>
    have hnodup := nodup_of_checked (not_not.mp hchecked)
    obtain ⟨⟨u, ps⟩, hkeys, h⟩ := bind_eq_ok_iff.mp h
    simp only at h
    split at h <;> cases h
    obtain ⟨hsame, hvals⟩ := parseKeys_keeps hkeys
    refine ⟨hnodup, hsame, fun k hk x hx => ?_⟩
    rcases hvals _ x hx with hx | ⟨j, hj, hname, hkept⟩
    · cases hx
    · rwa [List.inj_on_of_nodup_map hnodup hk hj hname]

/-! ## Reading -/

namespace Parsed

variable {ks : List Key} {v : Values} {k : Key}

theorem key? (h : Parsed ks v) (hk : k ∈ ks) : v.key? k.name = some k := by
  have hsome : (v.keys.reverse.find? (·.name = k.name)).isSome = true := by
    rw [List.find?_isSome, h.keys]
    exact ⟨k, List.mem_reverse.mpr hk, by simp⟩
  obtain ⟨j, hj⟩ := Option.isSome_iff_exists.mp hsome
  have hmem : j ∈ ks := by
    have := List.mem_of_find?_eq_some hj
    rwa [List.mem_reverse, h.keys] at this
  have hname : j.name = k.name := by simpa using List.find?_some hj
  rw [Values.key?, hj, List.inj_on_of_nodup_map h.nodup hmem hk hname]

/-- A key whose default is of its type has a value of its type, if any. -/
theorem get (h : Parsed ks v) (hk : k ∈ ks)
    (hdefault : ∀ d, k.default_ = some d → d.HasType k.type) :
    v.get k.name k.type = .ok none ∨ ∃ x, v.get k.name k.type = .ok (some x) ∧
    x.HasType k.type := by
  have hget : v.get k.name k.type = .ok (v.vals.get? k.name) := by simp [Values.get, h.key? hk]
  rw [hget]
  cases hx : v.vals.get? k.name with
  | none => exact .inl rfl
  | some x => exact .inr ⟨x, rfl, (h.typed k hk x hx).elim id (hdefault x)⟩

theorem string (h : Parsed ks v) (o : Objects) (hk : k ∈ ks) (htype : k.type = .string) :
    ∃ s, v.string o k.name = .ok s := by
  unfold Values.string
  split
  · exact ⟨_, rfl⟩
  · simp [Values.get, h.key? hk, htype, Except.map]

theorem int (h : Parsed ks v) (hk : k ∈ ks) (htype : k.type = .integer)
    (hdefault : ∀ d, k.default_ = some d → d.HasType .integer) : ∃ n, v.int k.name = .ok n := by
  have hget := h.get hk (htype ▸ hdefault)
  rw [htype] at hget
  unfold Values.int
  rcases hget with hget | ⟨x, hget, hx⟩ <;> rw [hget]
  · exact ⟨_, rfl⟩
  · cases x <;> first | exact ⟨_, rfl⟩ | cases hx

theorem bool (h : Parsed ks v) (hk : k ∈ ks) (htype : k.type = .boolean)
    (hdefault : ∀ d, k.default_ = some d → d.HasType .boolean) : ∃ b, v.bool k.name = .ok b := by
  have hget := h.get hk (htype ▸ hdefault)
  rw [htype] at hget
  unfold Values.bool
  rcases hget with hget | ⟨x, hget, hx⟩ <;> rw [hget]
  · exact ⟨_, rfl⟩
  · cases x <;> first | exact ⟨_, rfl⟩ | cases hx

theorem duration (h : Parsed ks v) (hk : k ∈ ks) (htype : k.type = .duration)
    (hdefault : ∀ d, k.default_ = some d → d.HasType .duration) :
    ∃ d, v.duration k.name = .ok d := by
  have hget := h.get hk (htype ▸ hdefault)
  rw [htype] at hget
  unfold Values.duration
  rcases hget with hget | ⟨x, hget, hx⟩ <;> rw [hget]
  · exact ⟨_, rfl⟩
  · cases x <;> first | exact ⟨_, rfl⟩ | cases hx

theorem secret (h : Parsed ks v) (hk : k ∈ ks) (hsecret : k.secret = true) :
    v.secret k.name = .ok (v.secrets.get? k.name) := by
  simp [Values.secret, h.key? hk, hsecret]

end Parsed

end BeSdk.Config

namespace BeSdk.Db

open Config

/-- A default of the connection keys is of its key's type. -/
theorem serveKeys_default : ∀ k ∈ serveKeys, ∀ d, k.default_ = some d → d.HasType k.type := by
  intro k hk d hd
  simp only [serveKeys, List.mem_cons, List.not_mem_nil, or_false] at hk
  rcases hk with rfl | rfl | rfl | rfl | rfl | rfl | rfl | rfl | rfl | rfl | rfl | rfl <;>
    cases hd <;> trivial

/-- The settings of a database are read from any configuration that parsed its keys. -/
theorem settingsFrom_ok {ks : List Key} {v : Values} (h : Parsed ks v) (o : Objects)
    (hserve : ∀ k ∈ serveKeys, k ∈ ks) : ∃ s, settingsFrom o v = .ok s := by
  have hstring : ∀ k ∈ serveKeys, k.type = .string → ∃ s, v.string o k.name = .ok s :=
    fun k hk htype => h.string o (hserve k hk) htype
  have hint : ∀ k ∈ serveKeys, k.type = .integer → ∃ n, v.int k.name = .ok n :=
    fun k hk htype => h.int (hserve k hk) htype (htype ▸ serveKeys_default k hk)
  have hbool : ∀ k ∈ serveKeys, k.type = .boolean → ∃ b, v.bool k.name = .ok b :=
    fun k hk htype => h.bool (hserve k hk) htype (htype ▸ serveKeys_default k hk)
  have hduration : ∀ k ∈ serveKeys, k.type = .duration → ∃ d, v.duration k.name = .ok d :=
    fun k hk htype => h.duration (hserve k hk) htype (htype ▸ serveKeys_default k hk)
  have hsecret : ∀ k ∈ serveKeys, k.secret = true → v.secret k.name = .ok (v.secrets.get? k.name) :=
    fun k hk hsecret => h.secret (hserve k hk) hsecret
  simp only [serveKeys, List.forall_mem_cons, reduceCtorEq, forall_const, false_implies,
    Bool.false_eq_true, true_and] at hstring hint hbool hduration hsecret
  obtain ⟨⟨host, hhost⟩, ⟨database, hdatabase⟩, ⟨user, huser⟩, -, ⟨schema, hschema⟩, -⟩ := hstring
  obtain ⟨⟨port, hport⟩, ⟨foreground, hforeground⟩, ⟨background, hbackground⟩, -⟩ := hint
  obtain ⟨⟨prepared, hprepared⟩, -⟩ := hbool
  obtain ⟨⟨statement, hstatement⟩, ⟨lock, hlock⟩, ⟨idle, hidle⟩, -⟩ := hduration
  exact ⟨_, by simp only [settingsFrom, hhost, hport, hdatabase, huser, hsecret.1, hschema,
    hprepared, hstatement, hlock, hidle, hforeground, hbackground]; rfl⟩

end BeSdk.Db
