/-
BeSdk.SystemTheorems — which callers reach a method of the system surface.

`caller` says the component of a certificate of this deployment that may authenticate
a client, and the empty text for every other certificate (`caller_eq_iff`). The chain
then looks the caller up in the method's callers, where `*` admits any: the empty text
too.

* `behaviour_authorized_iff`: only components of this deployment reach a method, exactly
  where the certificate names one or the callers have neither `*` nor the empty text.
* `foreign_admitted`: a certificate of another deployment reaches a method for any
  component.
-/
import BeSdk.System

namespace BeSdk

section
variable [X509]

/-! ## The caller of a certificate -/

/-- The first certificate of a connection names a component of the deployment and may
authenticate a client. -/
structure Names (t : ServiceTLS) (pem : List Bytes) (component : Str) : Prop where
  certificate : ∃ p rest cert, pem = p :: rest ∧ X509.load p = some cert ∧
    cert.identity = spiffe t.deployment component ∧ cert.usableFor clientAuth = true

omit [X509] in
theorem spiffe_append (deployment component : Str) :
    spiffe deployment component = spiffe deployment [] ++ component := by
  rw [spiffe, spiffe, List.append_nil]

omit [X509] in
/-- The identity of a certificate is one of its names. -/
theorem Certificate.identity_mem {c : Certificate} {u : Str} (h : c.identity = u)
    (hu : u ≠ []) : u ∈ c.sans.1 := by
  rw [Certificate.identity] at h
  cases hfind : c.sans.1.find? fun u => Str.startsWith u (str "spiffe://") with
  | none => rw [hfind] at h; exact absurd h.symm hu
  | some v =>
      rw [hfind] at h
      obtain rfl : v = u := h
      exact List.mem_of_find?_eq_some hfind

/-- **The caller**: a component the certificate names, or the empty text. -/
theorem ServiceTLS.caller_cases (t : ServiceTLS) (pem : List Bytes) :
    Names t pem (t.caller pem) ∨ (t.caller pem = [] ∧ ∀ component, component ≠ [] →
      ¬ Names t pem component) := by
  cases pem with
  | nil =>
      refine .inr ⟨rfl, ?_⟩
      rintro _ _ ⟨_, _, _, ⟨⟩, _⟩
  | cons p rest =>
      rw [ServiceTLS.caller]
      cases hload : X509.load p with
      | none =>
          refine .inr ⟨rfl, ?_⟩
          rintro _ _ ⟨_, _, cert, ⟨⟩, hcert, _⟩
          rw [hload] at hcert
          cases hcert
      | some cert =>
          dsimp only
          split
          · next hno =>
              refine .inr ⟨rfl, ?_⟩
              rintro component _ ⟨_, _, cert', ⟨⟩, hcert, hident, husable⟩
              rw [hload] at hcert
              obtain rfl := Option.some.inj hcert
              have hbelow : Str.startsWith cert.identity (spiffe t.deployment []) = true :=
                (Str.startsWith_iff _ _).mpr ⟨component, by rw [hident, spiffe_append]⟩
              rw [hbelow, husable] at hno
              cases hno
          · next hyes =>
              simp only [Bool.or_eq_true, Bool.not_eq_true', not_or, Bool.not_eq_false] at hyes
              obtain ⟨component, hident⟩ := (Str.startsWith_iff _ _).mp hyes.1
              refine .inl ⟨p, rest, cert, rfl, hload, ?_, hyes.2⟩
              rw [hident, List.drop_left, spiffe_append _ component]

/-- A certificate names one component at most. -/
theorem Names.caller_eq {t : ServiceTLS} {pem : List Bytes} {component : Str}
    (h : Names t pem component) (hne : component ≠ []) : t.caller pem = component := by
  rcases t.caller_cases pem with hnames | ⟨-, hnone⟩
  · obtain ⟨p, rest, cert, rfl, hload, hident, -⟩ := h
    obtain ⟨_, _, cert', ⟨⟩, hload', hident', -⟩ := hnames
    rw [hload] at hload'
    obtain rfl := Option.some.inj hload'
    rw [hident, spiffe_append _ component, spiffe_append _ (t.caller _)] at hident'
    exact (List.append_cancel_left hident').symm
  · exact absurd h (hnone component hne)

/-! ## Who reaches a method -/

theorem Method.ran_eq_some_iff {ρ : Type} {m : Method} {t : ServiceTLS}
    {behaviour : Behaviour ρ} {pem : List Bytes} {timeRemaining : Option Rat} {who : Str} :
    (m.call t behaviour pem timeRemaining).ran = some who ↔
      t.caller pem = who ∧ m.admits who = true := by
  unfold Method.call
  dsimp only
  split
  · next h =>
      constructor
      · intro hran
        obtain rfl := Option.some.inj hran
        exact ⟨rfl, h⟩
      · rintro ⟨rfl, -⟩
        rfl
  · next h =>
      constructor
      · intro hran
        cases hran
      · rintro ⟨rfl, hadmits⟩
        exact absurd hadmits h

omit [X509] in
theorem Method.admits_iff {m : Method} {who : Str} :
    m.admits who = true ↔ who ∈ m.callers ∨ anyComponent ∈ m.callers := by
  rw [Method.admits, Bool.or_eq_true, List.contains_iff_mem, List.contains_iff_mem]

/-- A caller that may reach a method: a component of this deployment, by a certificate
that may authenticate a client, among the method's callers. -/
structure Authorized (m : Method) (t : ServiceTLS) (pem : List Bytes) (who : Str) : Prop where
  component : who ≠ []
  certificate : ∃ p rest cert, pem = p :: rest ∧ X509.load p = some cert ∧
    spiffe t.deployment who ∈ cert.sans.1 ∧ cert.usableFor clientAuth = true
  listed : who ∈ m.callers ∨ anyComponent ∈ m.callers

/-- **Only components of this deployment reach a method**, exactly where the certificate
names one, or the method's callers have neither `*` nor the empty text. -/
theorem behaviour_authorized_iff (m : Method) (t : ServiceTLS) (pem : List Bytes) :
    (∀ (ρ : Type) (behaviour : Behaviour ρ) timeRemaining who,
      (m.call t behaviour pem timeRemaining).ran = some who → Authorized m t pem who) ↔
    (∃ component, component ≠ [] ∧ Names t pem component) ∨
    (anyComponent ∉ m.callers ∧ [] ∉ m.callers) := by
  have hauthorized : ∀ component, component ≠ [] → Names t pem component →
    m.admits component = true →
      Authorized m t pem component := by
    rintro component hne ⟨p, rest, cert, hpem, hload, hident, husable⟩ hadmits
    have hspiffe : spiffe t.deployment component ≠ [] := by simp [spiffe, str]
    exact ⟨hne, ⟨p, rest, cert, hpem, hload, cert.identity_mem hident hspiffe, husable⟩,
      Method.admits_iff.mp hadmits⟩
  constructor
  · intro hall
    by_cases hne : t.caller pem = []
    · -- the empty text is run wherever it is admitted, and is no component
      refine .inr ?_
      rw [← not_or, or_comm, ← hne, ← Method.admits_iff]
      intro hadmits
      exact (hall Unit (fun _ _ => .ok ()) none _
        (Method.ran_eq_some_iff.mpr ⟨rfl, hadmits⟩)).component hne
    · rcases t.caller_cases pem with hnames | ⟨hempty, -⟩
      · exact .inl ⟨_, hne, hnames⟩
      · exact absurd hempty hne
  · rintro hcond ρ behaviour timeRemaining who hran
    obtain ⟨rfl, hadmits⟩ := Method.ran_eq_some_iff.mp hran
    rcases hcond with ⟨component, hne, hnames⟩ | ⟨hany, hnone⟩
    · rw [hnames.caller_eq hne] at hadmits ⊢
      exact hauthorized component hne hnames hadmits
    · by_cases hne : t.caller pem = []
      · rw [hne] at hadmits
        exact absurd (Method.admits_iff.mp hadmits) (not_or.mpr ⟨hnone, hany⟩)
      · rcases t.caller_cases pem with hnames | ⟨hempty, -⟩
        · exact hauthorized _ hne hnames hadmits
        · exact absurd hempty hne

end

/-- A certificate with one URI name, which may authenticate a client. -/
def certificateOf (uri : Str) : Certificate where
  subjectAltName := some ([uri], [])
  extendedKeyUsage := some [clientAuth]

/-- Certificates that are their own URI name. -/
abbrev X509.plain : X509 := ⟨fun b => (utf8Decode b).map certificateOf⟩

/-- The bytes of an ASCII text. -/
def asciiBytes (s : String) : Bytes := s.toList.map fun c => UInt8.ofNat c.toNat

/-- **A foreign certificate is admitted** to a method for any component. -/
theorem foreign_admitted : ∃ (m : Method) (t : ServiceTLS) (pem : List Bytes)
    (behaviour : Behaviour Unit) (who : Str),
    (@Method.call X509.plain _ m t behaviour pem none).ran = some who ∧
    ¬ @Authorized X509.plain m t pem who :=
  ⟨{ operation := str "infra.print", callers := [anyComponent] }, ⟨str "d1"⟩,
    [asciiBytes "spiffe://d2/component/erp/sales"], fun _ _ => .ok (), [], by decide +kernel,
    fun h => @Authorized.component X509.plain _ _ _ _ h rfl⟩

end BeSdk
