/-
BeSdk.Identity.TokenTheorems — which tokens are accepted, and what a refused token
raises.

`Accepted` is the conjunction of all checks, written without the order the code makes
them in; `verify_eq_ok_iff` is the equivalence. The other half is about exceptions: each
check has a lemma that says what it raises, and few of them raise anything but a
`TokenError`: a header or claims nested too deep for `json.loads`, an integer too large
for a float among the times, and a security version that is an infinity or no number.

* `verify_exact`: a token is accepted or refused as it should be exactly where none of
  these is reached (`Tame`).
* `huge_expiry_raises`: a token whose expiry is an integer too large for a float.
-/
import BeSdk.Identity.Token
import BeSdk.Lib.Fallible

namespace BeSdk.Identity

/-! ## The checks -/

/-- The key types of the algorithms. -/
inductive Fits : Str → PublicKey → Prop
  | rs256 : Fits (str "RS256") .rsa
  | es256 : Fits (str "ES256") (.ec (str "secp256r1"))
  | edDsa : Fits (str "EdDSA") .ed25519

/-- A token of three parts, whose header has an allowed algorithm, the type and a kid. -/
structure Reads [Interp] (token alg kid : Str) : Prop where
  header : ∃ first payload signature h, token = first ++ chr '.' ::
    (payload ++ chr '.' :: signature) ∧ chr '.' ∉ first ∧ chr '.' ∉ payload ∧
    chr '.' ∉ signature ∧ b64json first = .ok h ∧ lookup (str "alg") h = some (.str alg) ∧
    lookup (str "typ") h = some (.str tokenType) ∧ lookup (str "kid") h = some (.str kid)
  allowed : alg ∈ algorithms
  named : kid ≠ []

/-- The key of a kid, of keys that may be used, fits the algorithm. -/
structure KeyFits (keys : KeySet Jwk) (mono : Seconds) (alg kid : Str) (jwk : Jwk) : Prop where
  usable : keys.usable mono = true
  known : keys.keys.get? kid = some jwk
  fits : Fits alg jwk.key
  algorithm : jwk.algorithmName = [] ∨ jwk.algorithmName = alg

/-- A number that is too large for a float. -/
def Huge (n : Int) : Prop := (2 : ℚ) ^ (1024 : ℤ) - 2 ^ (970 : ℤ) ≤ |(n : ℚ)|

/-- The float of a number. -/
def IsTime (v : Json) (q : ℚ) : Prop :=
  (∃ n : Int, v = .int n ∧ ¬ Huge n ∧ q = Binary64.nearest n) ∨ ∃ text, v = .float text ∧
    floatOf text = .finite q

/-- A claim that is missing or null. -/
def Absent (claims : List (Str × Json)) (name : Str) : Prop :=
  lookup name claims = none ∨ lookup name claims = some .null

/-- A claim that is a time. -/
def HasTime (claims : List (Str × Json)) (name : Str) (q : ℚ) : Prop :=
  ∃ v, lookup name claims = some v ∧ IsTime v q

/-- A claim that is no time because it is too large. -/
def HugeTime (claims : List (Str × Json)) (name : Str) : Prop :=
  ∃ n, lookup name claims = some (.int n) ∧ Huge n

/-- A claim that is missing, null or a time. -/
def Readable (claims : List (Str × Json)) (name : Str) : Prop :=
  Absent claims name ∨ ∃ q, HasTime claims name q

/-- No time raises `OverflowError` when the times are read in order. -/
def TimesTame (claims : List (Str × Json)) : Prop :=
  ¬ HugeTime claims (str "exp") ∧ (Readable claims (str "exp") →
    ¬ HugeTime claims (str "nbf") ∧ (Readable claims (str "nbf") → ¬ HugeTime claims (str "iat")))

/-- Within the leeway the claims are not expired, not before their time and not of the future. -/
structure InTime (now : ℚ) (claims : List (Str × Json)) (exp : ℚ) : Prop where
  expires : HasTime claims (str "exp") exp
  current : (addFloat exp leeway).atMost now = false
  nbf : Absent claims (str "nbf") ∨
    ∃ nbf, HasTime claims (str "nbf") nbf ∧ (addFloat nbf (-leeway)).exceeds now = false
  iat : Absent claims (str "iat") ∨
    ∃ iat, HasTime claims (str "iat") iat ∧ (addFloat iat (-leeway)).exceeds now = false

/-- The subject is a principal id. -/
def HasSubject (claims : List (Str × Json)) (sub : Str) : Prop :=
  lookup (str "sub") claims = some (.str sub) ∧ isId sub = true

/-- `be_sv` is an integral number from 1 to `2 ^ 53`. -/
def HasVersion (claims : List (Str × Json)) (n : Int) : Prop :=
  (lookup (str "be_sv") claims = some (.int n) ∨
    ∃ text, lookup (str "be_sv") claims = some (.float text) ∧ floatOf text = .finite n) ∧
    1 ≤ n ∧ n ≤ 2 ^ 53

/-- `be_sv` is positive infinity, or no number. -/
def Endless (claims : List (Str × Json)) : Prop :=
  ∃ text, lookup (str "be_sv") claims = some (.float text) ∧
    (floatOf text = .nan ∨ floatOf text = .infinite false)

/-- No number of the claims raises before a check refuses them. -/
structure ClaimsTame (now : ℚ) (claims : List (Str × Json)) : Prop where
  times : TimesTame claims
  version : ∀ exp sub, InTime now claims exp → HasSubject claims sub → ¬ Endless claims

/-- **Every check passed**, with the values of the user. -/
def Accepted [Interp] [Jwt] (v : Verifier) (keys : KeySet Jwk) (mono : Seconds) (now : ℚ)
    (token : Str) (u : User) : Prop :=
  ∃ alg kid jwk claims, Reads token alg kid ∧ KeyFits keys mono alg kid jwk ∧
    Jwt.decode token jwk alg v.issuer v.audience = .ok claims ∧
    InTime now claims u.expiry ∧ HasSubject claims u.subject ∧ HasVersion claims u.securityVersion

/-- The token has three parts, and the JSON in the first goes too deep. -/
def HeaderTooDeep [Interp] (token : Str) : Prop :=
  ∃ first payload signature raw, token = first ++ chr '.' :: (payload ++ chr '.' :: signature) ∧
    chr '.' ∉ first ∧ chr '.' ∉ payload ∧ chr '.' ∉ signature ∧ partBytes first = some raw ∧
    TooDeep raw

/-- The header and the claims are not nested too deep, and no number of the claims raises. -/
structure Tame [Interp] [Jwt] (v : Verifier) (keys : KeySet Jwk) (mono : Seconds) (now : ℚ)
    (token : Str) : Prop where
  header : ¬ HeaderTooDeep token
  nesting : ∀ alg kid jwk, Reads token alg kid → KeyFits keys mono alg kid jwk →
    Jwt.decode token jwk alg v.issuer v.audience ≠ .error .recursionError
  claims : ∀ alg kid jwk claims, Reads token alg kid → KeyFits keys mono alg kid jwk →
    Jwt.decode token jwk alg v.issuer v.audience = .ok claims → ClaimsTame now claims

/-! ## The header -/

theorem splitDots_ne_nil (token : Str) : splitDots token ≠ [] := by
  cases token with
  | nil => simp [splitDots]
  | cons c rest =>
      rw [splitDots]
      split
      · simp
      · split <;> simp

/-- A text without a dot is one part. -/
theorem splitDots_eq_singleton_iff {p : Str} :
    ∀ {token : Str}, splitDots token = [p] ↔ token = p ∧ chr '.' ∉ p := by
  intro token
  induction token generalizing p with
  | nil =>
      constructor
      · intro h
        obtain rfl : [] = p := by simpa [splitDots] using h
        simp
      · rintro ⟨rfl, -⟩
        rfl
  | cons c rest ih =>
      rw [splitDots]
      by_cases hc : c = chr '.'
      · rw [if_pos hc]
        refine iff_of_false (fun h => splitDots_ne_nil rest (List.cons.inj h).2) ?_
        rintro ⟨rfl, hdot⟩
        exact hdot (by rw [hc]; exact List.mem_cons_self)
      · rw [if_neg hc]
        cases hrest : splitDots rest with
        | nil => exact absurd hrest (splitDots_ne_nil rest)
        | cons part parts =>
            dsimp only
            constructor
            · intro h
              obtain ⟨rfl, rfl⟩ := List.cons.inj h
              obtain ⟨rfl, hdot⟩ := ih.mp hrest
              exact ⟨rfl, by simpa [Ne.symm hc] using hdot⟩
            · rintro ⟨rfl, hdot⟩
              rw [List.mem_cons, not_or] at hdot
              have hsplit := ih.mpr ⟨rfl, hdot.2⟩
              obtain ⟨rfl, rfl⟩ := List.cons.inj (hrest.symm.trans hsplit)
              rfl

/-- The first of several parts is the text before the first dot. -/
theorem splitDots_eq_cons_iff {p q : Str} {ps : List Str} :
    ∀ {token : Str}, splitDots token = p :: q :: ps ↔ ∃ rest, token = p ++ chr '.' :: rest ∧
    chr '.' ∉ p ∧ splitDots rest = q :: ps := by
  intro token
  induction token generalizing p with
  | nil => simp [splitDots]
  | cons c rest ih =>
      rw [splitDots]
      by_cases hc : c = chr '.'
      · rw [if_pos hc]
        constructor
        · intro h
          obtain ⟨rfl, hrest⟩ := List.cons.inj h
          exact ⟨rest, by rw [hc]; rfl, by simp, hrest⟩
        · rintro ⟨tail, htoken, hdot, hsplit⟩
          cases p with
          | nil =>
              obtain ⟨-, rfl⟩ := List.cons.inj htoken
              rw [hsplit]
          | cons d p =>
              obtain ⟨rfl, -⟩ := List.cons.inj htoken
              exact absurd (by rw [hc]; exact List.mem_cons_self) hdot
      · rw [if_neg hc]
        cases hrest : splitDots rest with
        | nil => exact absurd hrest (splitDots_ne_nil rest)
        | cons part parts =>
            dsimp only
            constructor
            · intro h
              obtain ⟨rfl, rfl⟩ := List.cons.inj h
              obtain ⟨tail, rfl, hdot, hsplit⟩ := ih.mp hrest
              exact ⟨tail, rfl, by simpa [Ne.symm hc] using hdot, hsplit⟩
            · rintro ⟨tail, htoken, hdot, hsplit⟩
              cases p with
              | nil => exact absurd (List.cons.inj htoken).1 hc
              | cons d p =>
                  obtain ⟨rfl, rfl⟩ := List.cons.inj htoken
                  rw [List.mem_cons, not_or] at hdot
                  obtain ⟨rfl, rfl⟩ := List.cons.inj
                    (hrest.symm.trans (ih.mpr ⟨tail, rfl, hdot.2, hsplit⟩))
                  rfl

/-- Three parts, with a dot between two of them and none inside. -/
theorem splitDots_eq_three_iff {token a b c : Str} : splitDots token = [a, b, c] ↔
    token = a ++ chr '.' :: (b ++ chr '.' :: c) ∧ chr '.' ∉ a ∧ chr '.' ∉ b ∧ chr '.' ∉ c := by
  simp only [splitDots_eq_cons_iff, splitDots_eq_singleton_iff]
  constructor
  · rintro ⟨_, rfl, ha, _, rfl, hb, rfl, hc⟩
    exact ⟨rfl, ha, hb, hc⟩
  · rintro ⟨rfl, ha, hb, hc⟩
    exact ⟨_, rfl, ha, _, rfl, hb, rfl, hc⟩

/-- What a header member is read as. -/
theorem headerText_eq_some_iff {key : Str} {ms : List (Str × Json)} {s : Str} :
    headerText key ms = .ok (some s) ↔ lookup key ms = some (.str s) := by
  rw [headerText]
  cases lookup key ms with
  | none => simp
  | some v => cases v <;> simp

theorem headerText_error {key : Str} {ms : List (Str × Json)} {e : Raised}
    (h : headerText key ms = .error e) : ∃ p, e = .tokenError p := by
  rw [headerText] at h
  split at h
  · cases h
  · cases h
  · cases h
  · cases h
    exact ⟨_, rfl⟩

/-- What it takes for a token to have a header. -/
theorem header_eq_ok_iff [Interp] {token : Str} {h : List (Str × Json)} : header token = .ok h ↔
    ∃ first payload signature, token = first ++ chr '.' :: (payload ++ chr '.' :: signature) ∧
      chr '.' ∉ first ∧ chr '.' ∉ payload ∧ chr '.' ∉ signature ∧ b64json first = .ok h := by
  rw [header]
  constructor
  · intro hok
    split at hok
    · next first payload signature hsplit =>
      obtain ⟨htoken, hfirst, hpayload, hsignature⟩ := splitDots_eq_three_iff.mp hsplit
      split at hok
      · cases hok
      · cases hok
      · next h' hread =>
        cases hok
        exact ⟨first, payload, signature, htoken, hfirst, hpayload, hsignature, hread⟩
    · cases hok
  · rintro ⟨first, payload, signature, htoken, hfirst, hpayload, hsignature, hread⟩
    rw [splitDots_eq_three_iff.mpr ⟨htoken, hfirst, hpayload, hsignature⟩]
    simp only [hread]

/-- A part raises `RecursionError` exactly where its bytes nest too deep. -/
theorem b64json_recursionError_iff [Interp] {part : Str} :
    b64json part = .error .recursionError ↔ ∃ raw, partBytes part = some raw ∧ TooDeep raw := by
  simp only [← loads_eq_recursionError_iff]
  rw [b64json]
  cases partBytes part with
  | none => simp
  | some raw =>
      cases hread : loads raw with
      | error e => simp [hread]
      | ok v => cases v <;> simp [hread]

/-- A header is refused as a token, or goes too deep. -/
theorem header_error [Interp] {token : Str} {e : Raised} (h : header token = .error e) :
    (∃ p, e = .tokenError p) ∨ (e = .recursionError ∧ HeaderTooDeep token) := by
  rw [header] at h
  split at h
  · next first payload signature hsplit =>
    obtain ⟨htoken, hfirst, hpayload, hsignature⟩ := splitDots_eq_three_iff.mp hsplit
    split at h
    · cases h
      exact .inl ⟨_, rfl⟩
    · next hdeep =>
      cases h
      obtain ⟨raw, hraw, hraised⟩ := b64json_recursionError_iff.mp hdeep
      exact .inr ⟨rfl, first, payload, signature, raw, htoken, hfirst, hpayload, hsignature,
        hraw, hraised⟩
    · cases h
  · cases h
    exact .inl ⟨_, rfl⟩

/-- A header that nests too deep raises. -/
theorem header_of_tooDeep [Interp] {token : Str} (h : HeaderTooDeep token) :
    header token = .error .recursionError := by
  obtain ⟨first, payload, signature, raw, htoken, hfirst, hpayload, hsignature, hraw, hdeep⟩ := h
  have hread := b64json_recursionError_iff.mpr ⟨raw, hraw, hdeep⟩
  rw [header, splitDots_eq_three_iff.mpr ⟨htoken, hfirst, hpayload, hsignature⟩]
  simp only [hread]

/-- Which algorithm, type and key ID are allowed. -/
theorem allowed_eq_ok_iff {alg typ kid : Option Str} {a k : Str} :
    allowed alg typ kid = .ok (a, k) ↔ alg = some a ∧ typ = some tokenType ∧ kid = some k ∧
    a ∈ algorithms ∧ k ≠ [] := by
  rw [allowed.eq_def]
  constructor
  · intro h
    split at h
    · cases h
    split at h
    · cases h
    next hallowed =>
      split at h
      · cases h
      next htyp =>
        split at h
        · cases h
        split at h
        · cases h
        next hkid =>
          cases h
          exact ⟨rfl, not_not.mp htyp, rfl, not_not.mp hallowed, hkid⟩
  · rintro ⟨rfl, rfl, rfl, hallowed, hkid⟩
    simp [hallowed, hkid]

/-- Any other is refused. -/
theorem allowed_error {alg typ kid : Option Str} {e : Raised} (h : allowed alg typ kid = .error e) :
    ∃ p, e = .tokenError p := by
  rw [allowed.eq_def] at h
  split at h
  · cases h
    exact ⟨_, rfl⟩
  split at h
  · cases h
    exact ⟨_, rfl⟩
  split at h
  · cases h
    exact ⟨_, rfl⟩
  split at h
  · cases h
    exact ⟨_, rfl⟩
  split at h
  · cases h
    exact ⟨_, rfl⟩
  · cases h

/-- What it takes for a token to name its algorithm and key. -/
theorem names_eq_ok_iff [Interp] {token alg kid : Str} :
    names token = .ok (alg, kid) ↔ Reads token alg kid := by
  simp only [names, bind_eq_ok_iff, allowed_eq_ok_iff]
  constructor
  · rintro ⟨h, hheader, alg', halg, typ', htyp, kid', hkid, rfl, rfl, rfl, hallowed, hnamed⟩
    obtain ⟨first, payload, signature, htoken, hfirst, hpayload, hsignature, hread⟩ :=
      header_eq_ok_iff.mp hheader
    rw [headerText_eq_some_iff] at halg htyp hkid
    exact ⟨⟨first, payload, signature, h, htoken, hfirst, hpayload, hsignature, hread, halg,
      htyp, hkid⟩, hallowed, hnamed⟩
  · rintro ⟨⟨first, payload, signature, h, htoken, hfirst, hpayload, hsignature, hread, halg,
      htyp, hkid⟩, hallowed, hnamed⟩
    have hheader := header_eq_ok_iff.mpr ⟨first, payload, signature, htoken, hfirst, hpayload,
      hsignature, hread⟩
    exact ⟨h, hheader, _, headerText_eq_some_iff.mpr halg, _, headerText_eq_some_iff.mpr htyp, _,
      headerText_eq_some_iff.mpr hkid, rfl, rfl, rfl, hallowed, hnamed⟩

/-- Naming fails by a refusal, or on a header that nests too deep. -/
theorem names_error [Interp] {token : Str} {e : Raised} (h : names token = .error e) :
    (∃ p, e = .tokenError p) ∨ (e = .recursionError ∧ HeaderTooDeep token) := by
  simp only [names, bind_eq_error_iff] at h
  rcases h with h | ⟨_, -, h | ⟨_, -, h | ⟨_, -, h | ⟨_, -, h⟩⟩⟩⟩
  · exact header_error h
  · exact .inl (headerText_error h)
  · exact .inl (headerText_error h)
  · exact .inl (headerText_error h)
  · exact .inl (allowed_error h)

/-! ## The key -/

/-- A key is given where the set is usable and has it. -/
theorem judge_eq_ok_iff {κ : Type} {keys : KeySet κ} {mono : Seconds} {kid : Str} {key : κ} :
    keys.judge mono kid = .ok key ↔ keys.usable mono = true ∧ keys.keys.get? kid = some key := by
  rw [KeySet.judge]
  cases keys.usable mono with
  | false => simp
  | true => cases keys.keys.get? kid <;> simp

/-- On the algorithms that are allowed the last branch of `_fits` is the one of EdDSA. -/
theorem fits_iff {alg : Str} (halg : alg ∈ algorithms) {key : PublicKey} :
    fits alg key = true ↔ Fits alg key := by
  constructor
  · intro h
    simp only [algorithms, List.mem_cons, List.not_mem_nil, or_false] at halg
    rcases halg with rfl | rfl | rfl
    · cases key with
      | rsa => exact .rs256
      | _ => exact absurd h Bool.false_ne_true
    · cases key with
      | ec curve =>
          have hcurve : fits (str "ES256") (.ec curve) = decide (curve = str "secp256r1") := rfl
          rw [hcurve] at h
          obtain rfl := of_decide_eq_true h
          exact .es256
      | _ => exact absurd h Bool.false_ne_true
    · cases key with
      | ed25519 => exact .edDsa
      | _ => exact absurd h Bool.false_ne_true
  · intro h
    cases h with
    | rs256 => rfl
    | es256 => rfl
    | edDsa => rfl

/-- What it takes for a key to fit. -/
theorem keyFor_eq_ok_iff {keys : KeySet Jwk} {mono : Seconds} {alg kid : Str} {jwk : Jwk}
    (halg : alg ∈ algorithms) : keyFor keys mono alg kid = .ok jwk ↔
    KeyFits keys mono alg kid jwk := by
  rw [keyFor]
  constructor
  · intro h
    split at h
    · cases h
    · cases h
    · next jwk' hjudge =>
      obtain ⟨husable, hknown⟩ := judge_eq_ok_iff.mp hjudge
      split at h
      · cases h
      · next hfits =>
        cases h
        rw [not_or, Bool.not_eq_false, not_and_or, not_not, not_not] at hfits
        exact ⟨husable, hknown, (fits_iff halg).mp hfits.1, hfits.2⟩
  · rintro ⟨husable, hknown, hfits, halgorithm⟩
    have hjudge := judge_eq_ok_iff.mpr ⟨husable, hknown⟩
    simp only [hjudge]
    rw [if_neg]
    rw [not_or, Bool.not_eq_false, not_and_or, not_not, not_not]
    exact ⟨(fits_iff halg).mpr hfits, halgorithm⟩

/-- No key fits by a refusal, or because the set is not usable. -/
theorem keyFor_error {keys : KeySet Jwk} {mono : Seconds} {alg kid : Str} {e : Raised}
    (h : keyFor keys mono alg kid = .error e) :
    (∃ p, e = .tokenError p) ∨ (e = .error keysUnavailable ∧ keys.usable mono = false) := by
  rw [keyFor] at h
  split at h
  · next hjudge =>
    cases h
    refine .inr ⟨rfl, ?_⟩
    rw [KeySet.judge] at hjudge
    split at hjudge
    · assumption
    · split at hjudge <;> cases hjudge
  · cases h
    exact .inl ⟨_, rfl⟩
  · split at h
    · cases h
      exact .inl ⟨_, rfl⟩
    · cases h

/-- A token is decoded where the library decodes it. -/
theorem decode_eq_ok_iff [Jwt] {v : Verifier} {token alg : Str} {jwk : Jwk}
    {claims : List (Str × Json)} : decode v token jwk alg = .ok claims ↔
    Jwt.decode token jwk alg v.issuer v.audience = .ok claims := by
  rw [decode]
  cases Jwt.decode token jwk alg v.issuer v.audience <;> simp

/-- Decoding fails by a refusal, or with the library's `RecursionError`. -/
theorem decode_error [Jwt] {v : Verifier} {token alg : Str} {jwk : Jwk} {e : Raised}
    (h : decode v token jwk alg = .error e) : (∃ p, e = .tokenError p) ∨
      (e = .recursionError ∧ Jwt.decode token jwk alg v.issuer v.audience =
        .error .recursionError) := by
  rw [decode] at h
  split at h
  · cases h
  · next d hd =>
    cases h
    cases d with
    | recursionError => exact .inr ⟨rfl, hd⟩
    | _ => exact .inl ⟨_, rfl⟩

/-! ## Times -/

section
variable {claims : List (Str × Json)} {name : Str}

/-- A time is left out where the claim is absent. -/
theorem num_eq_none_iff : num claims name = .ok none ↔ Absent claims name := by
  rw [num, Absent]
  cases lookup name claims with
  | none => simp
  | some v =>
      cases v with
      | null => simp
      | int n =>
          dsimp only
          cases Binary64.round n <;> simp
      | float text =>
          dsimp only
          cases floatOf text <;> simp
      | _ => simp

/-- An integer is too large for a float, or has a nearest one. -/
theorem round_int (n : Int) : (Huge n ∧ ∃ negative, Binary64.round n = .infinite negative) ∨
    (¬ Huge n ∧ Binary64.round n = .finite (Binary64.nearest n)) := by
  rw [Huge, not_le, ← Binary64.round_finite_iff]
  rcases Binary64.round_eq (n : ℚ) with hinf | hfin
  · refine .inl ⟨?_, _, hinf⟩
    rw [← not_lt, ← Binary64.round_finite_iff, hinf]
    simp
  · exact .inr ⟨hfin, hfin⟩

/-- A time is read where the claim is a finite number. -/
theorem num_eq_some_iff {q : ℚ} : num claims name = .ok (some q) ↔ HasTime claims name q := by
  rw [num, HasTime]
  cases lookup name claims with
  | none => simp
  | some v =>
      cases v with
      | int n =>
          rcases round_int n with ⟨hhuge, negative, hround⟩ | ⟨hsmall, hround⟩
          · simp [IsTime, hround, hhuge]
          · simp [IsTime, hround, hsmall, eq_comm]
      | float text =>
          dsimp only
          cases hfloat : floatOf text <;> simp [IsTime, hfloat]
      | _ => simp [IsTime]

/-- A time raises `OverflowError` where it is an integer too large for a float. -/
theorem num_overflow_iff : num claims name = .error .overflowError ↔ HugeTime claims name := by
  rw [num, HugeTime]
  cases lookup name claims with
  | none => simp
  | some v =>
      cases v with
      | int n =>
          rcases round_int n with ⟨hhuge, negative, hround⟩ | ⟨hsmall, hround⟩
          · simp [hround, hhuge]
          · simp [hround, hsmall]
      | float text =>
          dsimp only
          cases floatOf text <;> simp
      | _ => simp

/-- A claim that is no time is refused, or too large for a float. -/
theorem num_error {e : Raised} (h : num claims name = .error e) :
    e = .overflowError ∨ ∃ p, e = .tokenError p := by
  rw [num] at h
  split at h
  · cases h
  · cases h
  · split at h
    · cases h
    · cases h
      exact .inl rfl
  · split at h
    · cases h
    · cases h
      exact .inr ⟨_, rfl⟩
  · cases h
    exact .inr ⟨_, rfl⟩

/-- A claim is read where it is missing, null or a time. -/
theorem readable_iff : (∃ t, num claims name = .ok t) ↔ Readable claims name := by
  rw [Option.exists, num_eq_none_iff, Readable]
  simp only [num_eq_some_iff]

/-- A time that is missing has begun. -/
theorem begun_iff {now : ℚ} {t : Option ℚ} (h : num claims name = .ok t) :
    ¬ (t.any fun t => (addFloat t (-leeway)).exceeds now) = true ↔
      Absent claims name ∨ ∃ t, HasTime claims name t ∧
      (addFloat t (-leeway)).exceeds now = false := by
  simp only [← num_eq_none_iff, ← num_eq_some_iff, h]
  cases t with
  | none => simp
  | some t => simp

end

section
variable {claims : List (Str × Json)} {now : ℚ}

/-- What it takes for the times to be current. -/
theorem current_eq_ok_iff {exp nbf iat : Option ℚ} {q : ℚ} : current now exp nbf iat = .ok q ↔
    exp = some q ∧ (addFloat q leeway).atMost now = false ∧
      (¬ (nbf.any fun t => (addFloat t (-leeway)).exceeds now) = true) ∧
      ¬ (iat.any fun t => (addFloat t (-leeway)).exceeds now) = true := by
  constructor
  · intro h
    rw [current.eq_def] at h
    split at h
    · cases h
    split at h
    · cases h
    next hcurrent =>
      split at h
      · cases h
      next hbegun =>
        split at h
        · cases h
        next hissued =>
          cases h
          exact ⟨rfl, Bool.not_eq_true _ ▸ hcurrent, hbegun, hissued⟩
  · rintro ⟨rfl, hcurrent, hbegun, hissued⟩
    rw [current, if_neg (by simp [hcurrent]), if_neg hbegun, if_neg hissued]

/-- Other times are refused. -/
theorem current_error {exp nbf iat : Option ℚ} {e : Raised}
    (h : current now exp nbf iat = .error e) : ∃ p, e = .tokenError p := by
  rw [current.eq_def] at h
  split at h
  · cases h
    exact ⟨_, rfl⟩
  split at h
  · cases h
    exact ⟨_, rfl⟩
  split at h
  · cases h
    exact ⟨_, rfl⟩
  split at h
  · cases h
    exact ⟨_, rfl⟩
  · cases h

/-- The claims are in time exactly where the three times are. -/
theorem times_eq_ok_iff {exp : ℚ} : times now claims = .ok exp ↔ InTime now claims exp := by
  simp only [times, bind_eq_ok_iff, current_eq_ok_iff]
  constructor
  · rintro ⟨_, hexp, nbf, hnbf, iat, hiat, rfl, hcurrent, hbegun, hissued⟩
    exact ⟨num_eq_some_iff.mp hexp, hcurrent, (begun_iff hnbf).mp hbegun,
      (begun_iff hiat).mp hissued⟩
  · intro h
    have hreads : ∀ {name}, (Absent claims name ∨ ∃ t, HasTime claims name t ∧
      (addFloat t (-leeway)).exceeds now = false) →
        ∃ t, num claims name = .ok t := by
      rintro name (habsent | ⟨t, htime, -⟩)
      · exact ⟨_, num_eq_none_iff.mpr habsent⟩
      · exact ⟨_, num_eq_some_iff.mpr htime⟩
    obtain ⟨nbf, hnbf⟩ := hreads h.nbf
    obtain ⟨iat, hiat⟩ := hreads h.iat
    exact ⟨some exp, num_eq_some_iff.mpr h.expires, nbf, hnbf, iat, hiat, rfl, h.current,
      (begun_iff hnbf).mpr h.nbf, (begun_iff hiat).mpr h.iat⟩

/-- The times are read in order; the first that is not read ends it. -/
theorem times_overflow_iff : times now claims = .error .overflowError ↔ ¬ TimesTame claims := by
  have hcurrent : ∀ exp nbf iat, current now exp nbf iat ≠ .error .overflowError := by
    intro exp nbf iat h
    obtain ⟨p, hp⟩ := current_error h
    cases hp
  simp only [times, bind_eq_error_iff, hcurrent, and_false, exists_false, or_false,
    num_overflow_iff, TimesTame, ← readable_iff, exists_and_right]
  rw [not_and_or, not_not, Classical.not_imp, not_and_or, not_not, Classical.not_imp, not_not]

/-- On whole seconds the leeway is exact. -/
theorem expires_intCast {n : Int} (h : (n + 60).natAbs ≤ 2 ^ 53) :
    (addFloat n leeway).atMost now = false ↔ now < n + 60 := by
  have hsum : addFloat n leeway = .finite (n + 60) := by exact_mod_cast addFloat_intCast h
  rw [hsum]
  simp [Double.atMost]

/-- A start of ordinary size is compared without rounding. -/
theorem begins_intCast {n : Int} (h : (n + -60).natAbs ≤ 2 ^ 53) :
    (addFloat n (-leeway)).exceeds now = false ↔ n - 60 ≤ now := by
  have hsum : addFloat n (-leeway) = .finite (n + -60) := by exact_mod_cast addFloat_intCast h
  rw [hsum]
  simp [Double.exceeds, sub_eq_add_neg]

/-- Times fail by a refusal, or on a number too large. -/
theorem times_error {e : Raised} (h : times now claims = .error e) :
    e = .overflowError ∨ ∃ p, e = .tokenError p := by
  simp only [times, bind_eq_error_iff] at h
  rcases h with h | ⟨_, -, h | ⟨_, -, h | ⟨_, -, h⟩⟩⟩
  · exact num_error h
  · exact num_error h
  · exact num_error h
  · exact .inr (current_error h)

/-! ## The user -/

/-- What it takes to have a subject. -/
theorem subject_eq_ok_iff {sub : Str} : subject claims = .ok sub ↔ HasSubject claims sub := by
  rw [subject, HasSubject]
  cases lookup (str "sub") claims with
  | none => simp
  | some v =>
      cases v with
      | str s =>
          dsimp only
          split
          · next hid =>
            constructor
            · intro h
              cases h
              exact ⟨rfl, hid⟩
            · rintro ⟨h, -⟩
              cases h
              rfl
          · next hid =>
            refine iff_of_false (by simp) ?_
            rintro ⟨h, hid'⟩
            cases h
            exact hid hid'
      | _ => simp

/-- Any other subject is refused. -/
theorem subject_error {e : Raised} (h : subject claims = .error e) : ∃ p, e = .tokenError p := by
  rw [subject] at h
  split at h
  · split at h
    · cases h
    · cases h
      exact ⟨_, rfl⟩
  · cases h
    exact ⟨_, rfl⟩

/-- What it takes to have a security version. -/
theorem version_eq_ok_iff {n : Int} : version claims = .ok n ↔ HasVersion claims n := by
  rw [version, HasVersion]
  cases lookup (str "be_sv") claims with
  | none => simp
  | some v =>
      cases v with
      | int m =>
          dsimp only
          split
          · next hbad =>
            refine iff_of_false (by simp) ?_
            rintro ⟨h | ⟨_, h, -⟩, hlow, hhigh⟩
            · cases h
              omega
            · cases h
          · next hgood =>
            constructor
            · intro h
              cases h
              exact ⟨.inl rfl, by omega, by omega⟩
            · rintro ⟨h | ⟨_, h, -⟩, -⟩
              · cases h
                rfl
              · cases h
      | float text =>
          dsimp only
          constructor
          · intro h
            split at h
            · cases h
            · cases h
            · cases h
            · next q hfloat =>
              split at h
              · cases h
              next hgood =>
                cases h
                rw [not_or, not_or, not_not, not_lt, not_lt] at hgood
                obtain ⟨hlow, hint, hhigh⟩ := hgood
                rw [hint] at hlow hhigh
                exact ⟨.inr ⟨text, rfl, by rw [hfloat, ← hint]⟩, by exact_mod_cast hlow, by
                  exact_mod_cast hhigh⟩
          · rintro ⟨h | ⟨_, h, hfloat⟩, hlow, hhigh⟩
            · cases h
            · cases h
              rw [hfloat]
              dsimp only
              rw [Int.floor_intCast, if_neg]
              rw [not_or, not_or, not_not, not_lt, not_lt]
              exact ⟨by exact_mod_cast hlow, rfl, by exact_mod_cast hhigh⟩
      | _ => simp

/-- Any other version is refused, unless it has no end. -/
theorem version_error {e : Raised} (h : version claims = .error e) :
    Endless claims ∨ ∃ p, e = .tokenError p := by
  rw [version] at h
  split at h
  · split at h
    · cases h
      exact .inr ⟨_, rfl⟩
    · cases h
  · next text htext =>
    split at h
    · next hfloat => exact .inl ⟨text, htext, .inl hfloat⟩
    · cases h
      exact .inr ⟨_, rfl⟩
    · next hfloat => exact .inl ⟨text, htext, .inr hfloat⟩
    · split at h
      · cases h
        exact .inr ⟨_, rfl⟩
      · cases h
  · cases h
    exact .inr ⟨_, rfl⟩

/-- A version without an end raises. -/
theorem version_raises (h : Endless claims) :
    version claims = .error .valueError ∨ version claims = .error .overflowError := by
  obtain ⟨text, htext, hfloat | hfloat⟩ := h
  · refine .inl ?_
    simp only [version, htext, hfloat]
  · refine .inr ?_
    simp only [version, htext, hfloat]

/-- The user is made of the times, the subject and the version. -/
theorem userOf_eq_ok_iff {u : User} : userOf now claims = .ok u ↔
    InTime now claims u.expiry ∧ HasSubject claims u.subject ∧
    HasVersion claims u.securityVersion := by
  simp only [userOf, bind_eq_ok_iff, pure_eq_ok_iff, times_eq_ok_iff, subject_eq_ok_iff,
    version_eq_ok_iff]
  constructor
  · rintro ⟨expiry, hexpiry, sub, hsub, sv, hsv, rfl⟩
    exact ⟨hexpiry, hsub, hsv⟩
  · rintro ⟨hexpiry, hsub, hsv⟩
    exact ⟨_, hexpiry, _, hsub, _, hsv, rfl⟩

/-- Claims are refused as a token exactly where no number among them raises. -/
theorem userOf_refuses_iff : (∀ e, userOf now claims = .error e → ∃ p, e = .tokenError p) ↔
    ClaimsTame now claims := by
  constructor
  · intro h
    constructor
    · by_contra htimes
      obtain ⟨p, hp⟩ := h _ (bind_eq_error_iff.mpr (.inl (times_overflow_iff.mpr htimes)))
      cases hp
    · intro exp sub hexp hsub hendless
      have hraised : ∀ {e}, version claims = .error e → userOf now claims = .error e := by
        intro e he
        refine bind_eq_error_iff.mpr (.inr ⟨exp, times_eq_ok_iff.mpr hexp, ?_⟩)
        refine bind_eq_error_iff.mpr (.inr ⟨sub, subject_eq_ok_iff.mpr hsub, ?_⟩)
        exact bind_eq_error_iff.mpr (.inl he)
      rcases version_raises hendless with he | he
      · obtain ⟨p, hp⟩ := h _ (hraised he)
        cases hp
      · obtain ⟨p, hp⟩ := h _ (hraised he)
        cases hp
  · rintro ⟨htimes, hversion⟩ e he
    simp only [userOf, bind_eq_error_iff] at he
    rcases he with he | ⟨exp, hexp, he | ⟨sub, hsub, he | ⟨sv, -, he⟩⟩⟩
    · rcases times_error he with rfl | hp
      · exact absurd htimes (times_overflow_iff.mp he)
      · exact hp
    · exact subject_error he
    · exact (version_error he).resolve_left (hversion exp sub (times_eq_ok_iff.mp hexp)
        (subject_eq_ok_iff.mp hsub))
    · cases he

end

/-! ## The token -/

section
variable [Interp] [Jwt] {v : Verifier} {keys : KeySet Jwk} {mono : Seconds} {now : ℚ} {token : Str}

/-- A token is accepted exactly where it should be. -/
theorem verify_eq_ok_iff {u : User} :
    verify v keys mono now token = .ok u ↔ Accepted v keys mono now token u := by
  simp only [verify, bind_eq_ok_iff, Prod.exists, names_eq_ok_iff, decode_eq_ok_iff,
    userOf_eq_ok_iff]
  constructor
  · rintro ⟨alg, kid, hreads, jwk, hkey, claims, hdecode, huser⟩
    exact ⟨alg, kid, jwk, claims, hreads, (keyFor_eq_ok_iff hreads.allowed).mp hkey, hdecode, huser⟩
  · rintro ⟨alg, kid, jwk, claims, hreads, hkey, hdecode, huser⟩
    exact ⟨alg, kid, hreads, jwk, (keyFor_eq_ok_iff hreads.allowed).mpr hkey, claims,
      hdecode, huser⟩

/-- Past the header and the key the claims decide. -/
theorem verify_eq_userOf {alg kid : Str} {jwk : Jwk} {claims : List (Str × Json)}
    (hreads : Reads token alg kid) (hkey : KeyFits keys mono alg kid jwk)
    (hdecode : Jwt.decode token jwk alg v.issuer v.audience = .ok claims) :
    verify v keys mono now token = userOf now claims := by
  have hnames := names_eq_ok_iff.mpr hreads
  have hfound := (keyFor_eq_ok_iff hreads.allowed).mpr hkey
  have hdecoded := decode_eq_ok_iff.mpr hdecode
  simp only [verify, hnames, hfound, hdecoded, bind, Except.bind]

/-- Claims that go too deep raise past the header and the key. -/
theorem verify_of_recursionError {alg kid : Str} {jwk : Jwk} (hreads : Reads token alg kid)
    (hkey : KeyFits keys mono alg kid jwk)
    (hdecode : Jwt.decode token jwk alg v.issuer v.audience = .error .recursionError) :
    verify v keys mono now token = .error .recursionError := by
  have hnames := names_eq_ok_iff.mpr hreads
  have hfound := (keyFor_eq_ok_iff hreads.allowed).mpr hkey
  simp only [verify, hnames, hfound, decode, hdecode, DecodeError.raised, bind, Except.bind]

/-- A token fails only as documented exactly where it is tame. -/
theorem verify_refuses_iff : (∀ e, verify v keys mono now token = .error e →
      (∃ p, e = .tokenError p) ∨ (e = .error keysUnavailable ∧ keys.usable mono = false)) ↔
    Tame v keys mono now token := by
  constructor
  · intro h
    have hescapes : verify v keys mono now token ≠ .error .recursionError := by
      intro hraised
      rcases h _ hraised with ⟨p, hp⟩ | ⟨hp, -⟩
      · cases hp
      · cases hp
    constructor
    · intro hdeep
      refine hescapes (bind_eq_error_iff.mpr (.inl ?_))
      exact bind_eq_error_iff.mpr (.inl (header_of_tooDeep hdeep))
    · intro alg kid jwk hreads hkey hdecode
      exact hescapes (verify_of_recursionError hreads hkey hdecode)
    · intro alg kid jwk claims hreads hkey hdecode
      refine userOf_refuses_iff.mp fun e he => ?_
      rw [verify_eq_userOf hreads hkey hdecode] at h
      refine (h e he).resolve_right ?_
      rintro ⟨-, hunusable⟩
      rw [hkey.usable] at hunusable
      cases hunusable
  · intro htame e he
    simp only [verify, bind_eq_error_iff, Prod.exists] at he
    rcases he with he | ⟨alg, kid, hnames, he | ⟨jwk, hkey, he | ⟨claims, hdecode, he⟩⟩⟩
    · exact .inl ((names_error he).resolve_right fun hdeep => htame.header hdeep.2)
    · exact keyFor_error he
    · have hreads := names_eq_ok_iff.mp hnames
      have hfits := (keyFor_eq_ok_iff hreads.allowed).mp hkey
      exact .inl ((decode_error he).resolve_right fun hdeep => htame.nesting alg kid jwk
        hreads hfits hdeep.2)
    · have hreads := names_eq_ok_iff.mp hnames
      have hfits := (keyFor_eq_ok_iff hreads.allowed).mp hkey
      exact .inl (userOf_refuses_iff.mpr (htame.claims alg kid jwk claims hreads hfits
        (decode_eq_ok_iff.mp hdecode)) e he)

/-- **Tokens.** A token is accepted exactly with every check passed, and with these
values; and refused as a token, or for want of keys, exactly where neither its nesting
nor a number of its claims raises. -/
theorem verify_exact :
    ((∀ u, verify v keys mono now token = .ok u ↔ Accepted v keys mono now token u) ∧
      ∀ e, verify v keys mono now token = .error e →
        (∃ p, e = .tokenError p) ∨ (e = .error keysUnavailable ∧ keys.usable mono = false)) ↔
    Tame v keys mono now token :=
  ⟨fun h => verify_refuses_iff.mp h.2,
    fun h => ⟨fun _ => verify_eq_ok_iff, verify_refuses_iff.mpr h⟩⟩

end

theorem huge_ten_pow : Huge (10 ^ 400) := by
  have hpow : (2 : ℚ) ^ (1024 : ℤ) ≤ 10 ^ 400 := by
    calc (2 : ℚ) ^ (1024 : ℤ) = (2 ^ 128) ^ 8 := by rw [← pow_mul]; exact zpow_natCast 2 1024
      _ ≤ (10 ^ 50) ^ 8 := by gcongr; norm_num
      _ = 10 ^ 400 := by rw [← pow_mul]
  have hpos : (0 : ℚ) < 2 ^ (970 : ℤ) := Binary64.scale_pos 970
  rw [Huge, Int.cast_pow, abs_of_nonneg (by positivity)]
  exact (sub_le_self _ hpos.le).trans hpow

/-- A signed token whose expiry has 401 digits. -/
@[reducible] def hugeExpiry : Jwt where
  decode _ _ _ issuer audience := .ok [(str "iss", .str issuer), (str "aud", .str audience),
    (str "exp", .int (10 ^ 400))]

/-- The keys of the issuer: one. -/
def oneKey : KeySet Jwk where
  keys := Dict.empty.set (str "k") { key := .ed25519, algorithmName := str "EdDSA" }
  fetchedAt := some 0

/-- The header is that of a valid token, and the signature is the issuer's: what is
raised is an `OverflowError`. -/
theorem huge_expiry_raises :
    let verified := @verify Interp.ascii hugeExpiry ⟨str "iss", str "aud"⟩ oneKey 0 0
      (str "eyJhbGciOiJFZERTQSIsInR5cCI6ImF0K2p3dCIsImtpZCI6ImsifQ.e30.c2ln")
    verified = .error .overflowError ∧
      ¬ ∀ e, verified = .error e →
      (∃ p, e = .tokenError p) ∨ (e = .error keysUnavailable ∧ oneKey.usable 0 = false) := by
  have hreads : @names Interp.ascii
    (str "eyJhbGciOiJFZERTQSIsInR5cCI6ImF0K2p3dCIsImtpZCI6ImsifQ.e30.c2ln") =
    .ok (str "EdDSA", str "k") := by
    decide +kernel
  have hkey : KeyFits oneKey 0 (str "EdDSA") (str "k")
    { key := .ed25519, algorithmName := str "EdDSA" } :=
    ⟨by decide +kernel, rfl, .edDsa, .inr rfl⟩
  have hraised : @verify Interp.ascii hugeExpiry ⟨str "iss", str "aud"⟩ oneKey 0 0
      (str "eyJhbGciOiJFZERTQSIsInR5cCI6ImF0K2p3dCIsImtpZCI6ImsifQ.e30.c2ln") =
      .error .overflowError := by
    rw [@verify_eq_userOf Interp.ascii hugeExpiry _ _ _ _ _ _ _ _ _
      ((@names_eq_ok_iff Interp.ascii _ _ _).mp hreads) hkey rfl]
    refine bind_eq_error_iff.mpr (.inl (times_overflow_iff.mpr fun htame => htame.1
      ⟨10 ^ 400, rfl, ?_⟩))
    exact huge_ten_pow
  refine ⟨hraised, fun h => ?_⟩
  rcases h _ hraised with ⟨p, hp⟩ | ⟨hp, -⟩
  · cases hp
  · cases hp

end BeSdk.Identity
