/-
BeSdk.ShellTheorems — what a shell hosts, and on which connections.

`Fit` is what is asked of one member, `Admissible` what is asked of all of them together,
both told without the loops of `check`. The loop is inverted once for a member
(`fit_of_checkMember`, `checkMember_of_fit`) and then goes through the list. The checks of agreement
compare each member with the first that sets a key, or is on a target; that is agreement of
any two (`agrees_iff_pairwise`). They read what the parse of each member left, so they do not raise.

* `check_admits_iff`: the shell hosts exactly the lists of members that are admissible.
* `pools_cover`: each database target of an admitted list has one pool, as each of its
  members asks for.
-/
import BeSdk.Shell
import BeSdk.Db.SettingsTheorems
import BeSdk.Events.EnvelopeTheorems
import BeSdk.Lib.Agreement

namespace BeSdk.Shell

open Config BeSdk.Host

variable {V : Type}

/-! ## One member -/

/-- Two versions are equal as versions, or as texts where one is no version. -/
def SameVersion (p : Packaging V) (a b : Str) : Prop :=
  match p.version a, p.version b with
  | some v, some w => p.same v w = true
  | _, _ => a = b

/-- Of the lines that can be read, the first that requires the SDK here has a minimum, and
the SDK meets it. -/
def MinimumMet (p : Packaging V) (sdk : Str) (requires : List Str) : Prop :=
  ∃ before line after req v, requires = before ++ line :: after ∧
    (∀ l ∈ before, ∀ r, p.requirement l = some r → r.onSdk p = .ok false) ∧
    p.requirement line = some req ∧ req.onSdk p = .ok true ∧ req.hasMinimum = true ∧
    p.version sdk = some v ∧ req.contains v = true

/-- A distribution may provide the code of a member at the version. -/
structure Provides (h : Host V) (inst : Installed) (version : Str) : Prop where
  version : SameVersion h.packaging inst.version version
  sdk : MinimumMet h.packaging h.sdk inst.requires
  url : ∃ url, inst.url = .str url ∧
    (Str.startsWith url (str "file:") = true → h.allowReplace = true)

/-- A planned member is installed as it was asked for, and configured. -/
structure Fit (h : Host V) (p : Planned) : Prop where
  id : p.served.componentId = .str p.definition.id
  definition : h.definition? p.definition.id = some p.definition
  version : p.served.version = .str p.definition.version
  provided : ∃ inst top, h.lookup p.definition = (some inst, top) ∧
    Provides h inst p.definition.version
  configured : parse h.objects (keys p.definition) p.served.source = .ok (.ok p.values)

theorem sameVersion_iff {p : Packaging V} {a b : Str} :
    sameVersion p a (.str b) = .ok true ↔ SameVersion p a b := by
  unfold sameVersion SameVersion
  cases p.version a with
  | none => simp
  | some v => cases hb : p.version b <;> simp [hb]

/-- No requirement is unmet exactly where the minimum is met. -/
theorem sdkUnmetIn_iff {p : Packaging V} {inst : Installed} {sdk : Str} : ∀ {lines : List Str},
    sdkUnmetIn p inst sdk lines = .ok none ↔ MinimumMet p sdk lines
  | [] => by simp [sdkUnmetIn, MinimumMet]
  | line :: lines => by
      -- a line that is passed over says nothing
      have hskip : (∀ r, p.requirement line = some r → r.onSdk p = .ok false) →
          (MinimumMet p sdk (line :: lines) ↔ MinimumMet p sdk lines) := by
        intro hline
        constructor
        · rintro ⟨before, l, after, req, v, heq, hbefore, hreq, hon, hrest⟩
          cases before with
          | nil =>
            obtain ⟨rfl, rfl⟩ := List.cons.inj heq
            rw [hline req hreq] at hon
            cases hon
          | cons b before =>
            obtain ⟨rfl, rfl⟩ := List.cons.inj heq
            exact ⟨before, l, after, req, v, rfl,
              fun x hx => hbefore x (List.mem_cons_of_mem _ hx), hreq, hon, hrest⟩
        · rintro ⟨before, l, after, req, v, rfl, hbefore, hrest⟩
          exact ⟨line :: before, l, after, req, v, rfl,
            List.forall_mem_cons.mpr ⟨hline, hbefore⟩, hrest⟩
      -- a line on the SDK decides
      have hhere : ∀ req, p.requirement line = some req → req.onSdk p = .ok true →
        (MinimumMet p sdk (line :: lines) ↔
          req.hasMinimum = true ∧ ∃ v, p.version sdk = some v ∧ req.contains v = true) := by
        intro req hreq hon
        constructor
        · rintro ⟨before, l, after, req', v, heq, hbefore, hreq', hon', hmin, hv, hcontains⟩
          cases before with
          | nil =>
            obtain ⟨rfl, rfl⟩ := List.cons.inj heq
            rw [hreq, Option.some.injEq] at hreq'
            rw [hreq']
            exact ⟨hmin, v, hv, hcontains⟩
          | cons b before =>
            obtain ⟨rfl, rfl⟩ := List.cons.inj heq
            have hfalse := hbefore line List.mem_cons_self req hreq
            rw [hon] at hfalse
            cases hfalse
        · rintro ⟨hmin, v, hv, hcontains⟩
          exact ⟨[], line, lines, req, v, rfl, by simp, hreq, hon, hmin, hv, hcontains⟩
      rw [sdkUnmetIn]
      cases hreq : p.requirement line with
      | none =>
        rw [hskip (by simp [hreq])]
        exact sdkUnmetIn_iff
      | some req =>
        simp only [bind, Except.bind]
        cases hon : req.onSdk p with
        | error e =>
          simp only [reduceCtorEq, false_iff]
          rintro ⟨before, l, after, req', v, heq, hbefore, hreq', hon', -⟩
          cases before with
          | nil =>
            obtain ⟨rfl, rfl⟩ := List.cons.inj heq
            rw [hreq, Option.some.injEq] at hreq'
            rw [← hreq', hon] at hon'
            cases hon'
          | cons b before =>
            obtain ⟨rfl, rfl⟩ := List.cons.inj heq
            have hfalse := hbefore line List.mem_cons_self req hreq
            rw [hon] at hfalse
            cases hfalse
        | ok b =>
        cases b with
        | false =>
          rw [hskip (by rintro r hr; rw [hreq, Option.some.injEq] at hr; rw [← hr]; exact hon)]
          simpa using sdkUnmetIn_iff
        | true =>
          rw [hhere req hreq hon]
          cases req.hasMinimum with
          | false => simp
          | true =>
            cases p.version sdk with
            | none => simp
            | some v => cases hcontains : req.contains v <;> simp [hcontains]

/-- The same over the requirements of a distribution. -/
theorem sdkUnmet_iff {p : Packaging V} {inst : Installed} {sdk : Str} :
    sdkUnmet p inst sdk = .ok none ↔ MinimumMet p sdk inst.requires := sdkUnmetIn_iff

/-- A distribution is accepted exactly where it provides the version. -/
theorem checkInstalled_iff {h : Host V} (mid : Str) {s : Served} {inst : Installed} {version : Str}
    (hversion : s.version = .str version) :
    (∃ warnings, checkInstalled h mid s inst = .ok ([], warnings)) ↔ Provides h inst version := by
  constructor
  · rintro ⟨warnings, hok⟩
    obtain ⟨same, hsame, hok⟩ := bind_eq_ok_iff.mp hok
    obtain ⟨unmet, hunmet, hok⟩ := bind_eq_ok_iff.mp hok
    have hparts : same = true ∧ unmet = none ∧
        ∃ url, inst.url = .str url ∧ (Str.startsWith url (str "file:") = true →
          h.allowReplace = true) := by
      cases hurl : inst.url with
      | str url =>
        rw [hurl] at hok
        cases same <;> cases unmet <;> cases hfile : Str.startsWith url (str "file:") <;>
          cases hallow : h.allowReplace <;>
          simp_all [pure, Except.pure]
      | _ => rw [hurl] at hok; cases hok
    obtain ⟨rfl, rfl, hurl⟩ := hparts
    rw [hversion] at hsame
    exact ⟨sameVersion_iff.mp hsame, sdkUnmet_iff.mp hunmet, hurl⟩
  · rintro ⟨hsame, hsdk, url, hurl, hallowed⟩
    have hsame' := sameVersion_iff.mpr hsame
    have hunmet := sdkUnmet_iff.mpr hsdk
    unfold checkInstalled
    rw [hversion, hsame', hunmet, hurl]
    simp only [bind, Except.bind, if_true, Option.map_none, Option.toList_none, List.append_nil]
    cases hfile : Str.startsWith url (str "file:") with
    | false => exact ⟨_, rfl⟩
    | true =>
      rw [hallowed hfile]
      exact ⟨_, rfl⟩

/-- The values of a member, or problems. -/
theorem parse_error {o : Objects} {ks : List Key} {src : Source} {problems : List Config.Problem}
    (h : parse o ks src = .ok (.error problems)) : problems ≠ [] := by
  unfold parse at h
  split at h
  · next hchecked =>
    cases h
    exact hchecked
  · obtain ⟨⟨v, ps⟩, -, h⟩ := bind_eq_ok_iff.mp h
    simp only at h
    split at h
    · cases h
    · next hps =>
      cases h
      exact hps

/-- The version is refused unless it is the one installed. -/
theorem versionRefusals_iff {h : Host V} {mid : Str} {s : Served} {d : Definition} :
    versionRefusals h mid s d = [] ↔ s.version = .str d.version := by
  unfold versionRefusals
  split
  · next v hv =>
    rw [hv, Json.str.injEq]
    by_cases hsame : d.version = v
    · simp [hsame]
    · simp [hsame, Ne.symm hsame]
  · next hv =>
    simp only [List.cons_ne_nil, false_iff]
    exact fun h => hv _ h

/-- A member is planned without a refusal exactly where it fits. -/
theorem checkDefinition_iff {h : Host V} {s : Served} {d : Definition} {out : List Planned} :
    (∃ warnings, checkDefinition h d.id s d = .ok (out, [], warnings)) ↔ ∃ values, out =
    [⟨d, s, values⟩] ∧
      s.version = .str d.version ∧ (∃ inst top, h.lookup d = (some inst, top) ∧
        Provides h inst d.version) ∧
      parse h.objects (keys d) s.source = .ok (.ok values) := by
  unfold checkDefinition
  cases hlookup : h.lookup d with
  | mk inst top =>
  cases inst with
  | none =>
    constructor
    · rintro ⟨warnings, hok⟩
      obtain ⟨x, hx, hok⟩ := bind_eq_ok_iff.mp hok
      cases hx
      obtain ⟨parsed, -, hok⟩ := bind_eq_ok_iff.mp hok
      cases parsed <;> simp [pure, Except.pure] at hok
    · rintro ⟨values, -, -, ⟨inst, top', hinst, -⟩, -⟩
      cases hinst
  | some inst =>
    constructor
    · rintro ⟨warnings, hok⟩
      obtain ⟨⟨refusals, w⟩, hinst, hok⟩ := bind_eq_ok_iff.mp hok
      obtain ⟨parsed, hparse, hok⟩ := bind_eq_ok_iff.mp hok
      cases parsed with
      | ok values =>
        simp only [pure_eq_ok_iff, Prod.mk.injEq, List.append_eq_nil_iff] at hok
        obtain ⟨hout, ⟨hversion, rfl⟩, -⟩ := hok
        have hversion' := versionRefusals_iff.mp hversion
        exact ⟨values, hout.symm, hversion',
          ⟨inst, top, rfl, (checkInstalled_iff d.id hversion').mp ⟨w, hinst⟩⟩, hparse⟩
      | error problems =>
        simp only [pure_eq_ok_iff, Prod.mk.injEq, List.append_eq_nil_iff,
          List.map_eq_nil_iff] at hok
        exact absurd hok.2.1.2 (parse_error hparse)
    · rintro ⟨values, rfl, hversion, ⟨inst', top', hinst, hprovides⟩, hparse⟩
      cases hinst
      obtain ⟨w, hw⟩ := (checkInstalled_iff d.id hversion).mpr hprovides
      refine ⟨w, ?_⟩
      simp only [versionRefusals_iff.mpr hversion, hw, hparse, bind, Except.bind]
      rfl

/-! ## The ports -/

/-- The ports of a member. -/
def Planned.ports (p : Planned) : List Int := p.served.httpPort :: p.served.extraPorts.map Prod.snd

theorem ports_snd (o : Objects) (p : Planned) : (p.served.ports o).map Prod.snd = p.ports := by
  simp [Served.ports, Planned.ports, Function.comp_def]

/-- The ports that were seen are those of the members so far. -/
theorem portRefusals_seen (mid : Str) : ∀ (ports : List (Str × Int)) (seen : List (Int × Str)),
    (portRefusals mid ports seen).2.map Prod.fst = (ports.map Prod.snd).reverse ++ seen.map Prod.fst
  | [], seen => rfl
  | (name, port) :: ports, seen => by
      rw [portRefusals]
      split <;> simp [portRefusals_seen mid ports]

/-- No port is refused exactly where all are positive, and none was seen. -/
theorem portRefusals_iff (mid : Str) : ∀ (ports : List (Str × Int)) (seen : List (Int × Str)),
    (portRefusals mid ports seen).1 = [] ↔
      (∀ p ∈ ports, 0 < p.2) ∧ (ports.map Prod.snd).Nodup ∧ ∀ p ∈ ports, p.2 ∉ seen.map Prod.fst
  | [], seen => by simp [portRefusals]
  | (name, port) :: ports, seen => by
      rw [portRefusals, List.map_cons, List.nodup_cons]
      simp only [List.forall_mem_cons]
      by_cases hbad : port ≤ 0 ∨ port ∈ seen.map Prod.fst
      · rw [if_pos hbad]
        simp only [List.cons_ne_nil, false_iff]
        rintro ⟨⟨hpos, -⟩, -, hnew, -⟩
        rcases hbad with hbad | hbad
        · omega
        · exact hnew hbad
      · rw [if_neg hbad, portRefusals_iff mid ports]
        rw [not_or, not_le] at hbad
        simp only [List.map_cons, List.mem_cons, not_or, hbad.1, hbad.2, not_false_eq_true,
          true_and, forall_and, List.mem_map, not_exists, not_and]
        constructor
        · rintro ⟨hpos, hnodup, hne, hseen⟩
          exact ⟨hpos, ⟨fun p hp => hne p hp, hnodup⟩, hseen⟩
        · rintro ⟨hpos, ⟨hne, hnodup⟩, hseen⟩
          exact ⟨hpos, hnodup, fun p hp => hne p hp, hseen⟩

/-! ## The loop -/

/-- The member's id and ports are not among those seen. -/
structure Fresh (seen : Seen) (p : Planned) : Prop where
  id : p.definition.id ∉ seen.seenIds
  positive : ∀ port ∈ p.ports, 0 < port
  distinct : p.ports.Nodup
  ports : ∀ port ∈ p.ports, port ∉ seen.seenPorts.map Prod.fst

/-- What is seen after a member that fits. -/
structure Adds (h : Host V) (seen : Seen) (p : Planned) (seen' : Seen) : Prop where
  ids : seen'.seenIds = p.definition.id :: seen.seenIds
  ports : seen'.seenPorts.map Prod.fst = p.ports.reverse ++ seen.seenPorts.map Prod.fst
  out : seen'.out = seen.out ++ [p]
  refusals : seen'.refusals = seen.refusals

theorem definition_id {h : Host V} {mid : Str} {d : Definition}
    (hd : h.definition? mid = some d) : d.id = mid := by
  simpa using List.find?_some hd

/-- The ports of a member are fresh where none is refused. -/
theorem fresh_ports_iff (o : Objects) (mid : Str) {seen : Seen} {p : Planned} :
    (portRefusals mid (p.served.ports o) seen.seenPorts).1 = [] ↔
      (∀ port ∈ p.ports, 0 < port) ∧ p.ports.Nodup ∧
      ∀ port ∈ p.ports, port ∉ seen.seenPorts.map Prod.fst := by
  rw [portRefusals_iff, ← ports_snd o p]
  simp only [List.forall_mem_map]

/-- What the check of a member does that refuses nothing. -/
theorem fit_of_checkMember {h : Host V} {seen seen' : Seen} {s : Served}
    (hok : checkMember h seen s = .ok seen') (hnone : seen'.refusals = []) :
    seen.refusals = [] ∧ ∃ p, p.served = s ∧ Fit h p ∧ Fresh seen p ∧ Adds h seen p seen' := by
  unfold checkMember at hok
  split at hok
  swap
  · cases hok
  next mid hid =>
  split at hok
  · cases hok
    simp at hnone
  next hseen =>
  simp only at hok
  split at hok
  · cases hok
    simp at hnone
  next d hd =>
  obtain ⟨⟨out, refusals, warnings⟩, hcheck, hok⟩ := bind_eq_ok_iff.mp hok
  rw [pure_eq_ok_iff] at hok
  rw [← hok] at hnone ⊢
  simp only [List.append_eq_nil_iff] at hnone
  obtain ⟨⟨hbefore, hports⟩, rfl⟩ := hnone
  have hmid := definition_id hd
  rw [← hmid] at hcheck hid hd hseen
  obtain ⟨values, rfl, hversion, hprovided, hparse⟩ := checkDefinition_iff.mp ⟨warnings, hcheck⟩
  have hfresh := (fresh_ports_iff h.objects mid (p := ⟨d, s, values⟩)).mp hports
  refine ⟨hbefore, ⟨d, s, values⟩, rfl, ⟨hid, hd, hversion, hprovided, hparse⟩,
    ⟨hseen, hfresh.1, hfresh.2.1, hfresh.2.2⟩, ?_⟩
  refine ⟨by rw [hmid], ?_, rfl, by simp [hports]⟩
  rw [portRefusals_seen, ← ports_snd h.objects]

/-- A member that fits and takes nothing twice is added. -/
theorem checkMember_of_fit {h : Host V} {seen : Seen} {p : Planned} (hfit : Fit h p)
    (hfresh : Fresh seen p) : ∃ seen', checkMember h seen p.served = .ok seen' ∧
    Adds h seen p seen' := by
  obtain ⟨warnings, hcheck⟩ := checkDefinition_iff.mpr
    ⟨p.values, rfl, hfit.version, hfit.provided, hfit.configured⟩
  have hports := (fresh_ports_iff h.objects p.definition.id).mpr
    ⟨hfresh.positive, hfresh.distinct, hfresh.ports⟩
  unfold checkMember
  rw [hfit.id]
  simp only [hfresh.id, if_false, hfit.definition, hcheck, hports, bind, Except.bind,
    List.append_nil]
  refine ⟨_, rfl, rfl, ?_, rfl, rfl⟩
  rw [portRefusals_seen, ← ports_snd h.objects]

/-- What the members of a list have together, on what was seen before it. -/
structure Together (h : Host V) (seen : Seen) (plans : List Planned) : Prop where
  fit : ∀ p ∈ plans, Fit h p
  ids : (plans.map (·.definition.id) ++ seen.seenIds).Nodup
  positive : ∀ p ∈ plans, ∀ port ∈ p.ports, 0 < port
  ports : (plans.flatMap Planned.ports ++ seen.seenPorts.map Prod.fst).Nodup

/-- The first of members that stand together fits on its own. -/
theorem Together.head {h : Host V} {seen : Seen} {p : Planned} {plans : List Planned}
    (htogether : Together h seen (p :: plans)) : Fit h p ∧ Fresh seen p := by
  obtain ⟨hfit, hnodup, hpositive, hdistinct⟩ := htogether
  rw [List.forall_mem_cons] at hfit hpositive
  refine ⟨hfit.1, ?_, hpositive.1, ?_, ?_⟩
  · rw [List.map_cons, List.cons_append, List.nodup_cons, List.mem_append, not_or] at hnodup
    exact hnodup.1.2
  · rw [List.flatMap_cons, List.append_assoc] at hdistinct
    exact hdistinct.of_append_left
  · rw [List.flatMap_cons, List.append_assoc, List.nodup_append] at hdistinct
    intro port hport hseen
    exact hdistinct.2.2 port hport port (List.mem_append_right _ hseen) rfl

/-- Members stand together where the first fits and the others stand beside it. -/
theorem together_cons {h : Host V} {seen seen' : Seen} {p : Planned} {plans : List Planned}
    (hadds : Adds h seen p seen') : Together h seen (p :: plans) ↔ Fit h p ∧ Fresh seen p ∧
    Together h seen' plans := by
  have hids : ((p :: plans).map (·.definition.id) ++ seen.seenIds).Nodup ↔
      (plans.map (·.definition.id) ++ seen'.seenIds).Nodup := by
    rw [hadds.ids, List.map_cons, List.cons_append]
    exact List.perm_middle.symm.nodup_iff
  have hports : ((p :: plans).flatMap Planned.ports ++ seen.seenPorts.map Prod.fst).Nodup ↔
      (plans.flatMap Planned.ports ++ seen'.seenPorts.map Prod.fst).Nodup := by
    rw [hadds.ports, List.flatMap_cons]
    have hmove : (p.ports ++ plans.flatMap Planned.ports).Perm (plans.flatMap Planned.ports ++
      p.ports.reverse) :=
      List.perm_append_comm.trans ((List.reverse_perm p.ports).symm.append_left _)
    rw [← List.append_assoc]
    exact (hmove.append_right _).nodup_iff
  constructor
  · intro htogether
    obtain ⟨hfit, hfresh⟩ := htogether.head
    exact ⟨hfit, hfresh, (List.forall_mem_cons.mp htogether.fit).2, hids.mp htogether.ids,
      (List.forall_mem_cons.mp htogether.positive).2, hports.mp htogether.ports⟩
  · rintro ⟨hfit, hfresh, hall, hnodup, hpositive, hdistinct⟩
    exact ⟨List.forall_mem_cons.mpr ⟨hfit, hall⟩, hids.mpr hnodup,
      List.forall_mem_cons.mpr ⟨hfresh.positive, hpositive⟩, hports.mpr hdistinct⟩

/-- A refusal is never taken back. -/
theorem refusals_of_loop {h : Host V} {served : List Served} {seen seen' : Seen}
    (hok : served.foldlM (checkMember h) seen = .ok seen') (hnone : seen'.refusals = []) :
    seen.refusals = [] := by
  induction served generalizing seen with
  | nil =>
    cases hok
    exact hnone
  | cons s served ih =>
    rw [List.foldlM_cons] at hok
    obtain ⟨next, hstep, hok⟩ := bind_eq_ok_iff.mp hok
    exact (fit_of_checkMember hstep (ih hok)).1

/-- A loop that refuses nothing planned its members, which fit together. -/
theorem together_of_loop {h : Host V} {served : List Served} {seen seen' : Seen}
    (hok : served.foldlM (checkMember h) seen = .ok seen') (hnone : seen'.refusals = [])
    (hids : seen.seenIds.Nodup) (hports : (seen.seenPorts.map Prod.fst).Nodup) :
    ∃ plans, served = plans.map Planned.served ∧ seen'.out = seen.out ++ plans ∧
    Together h seen plans := by
  induction served generalizing seen with
  | nil =>
    cases hok
    exact ⟨[], rfl, by simp, by simp, by simpa, by simp, by simpa⟩
  | cons s served ih =>
    rw [List.foldlM_cons] at hok
    obtain ⟨next, hstep, hrest⟩ := bind_eq_ok_iff.mp hok
    obtain ⟨-, p, rfl, hfit, hfresh, hadds⟩ :=
      fit_of_checkMember hstep (refusals_of_loop hrest hnone)
    have hids' : next.seenIds.Nodup := by
      rw [hadds.ids]
      exact List.nodup_cons.mpr ⟨hfresh.id, hids⟩
    have hports' : (next.seenPorts.map Prod.fst).Nodup := by
      rw [hadds.ports, List.nodup_append]
      refine ⟨List.nodup_reverse.mpr hfresh.distinct, hports, ?_⟩
      rintro a ha b hb rfl
      exact hfresh.ports a (List.mem_reverse.mp ha) hb
    obtain ⟨plans, rfl, hout, htogether⟩ := ih hrest hids' hports'
    refine ⟨p :: plans, rfl, ?_, (together_cons hadds).mpr ⟨hfit, hfresh, htogether⟩⟩
    rw [hout, hadds.out, List.append_assoc, List.singleton_append]

/-- Members that fit together are planned without a refusal. -/
theorem loop_of_together {h : Host V} {plans : List Planned} {seen : Seen}
    (htogether : Together h seen plans) : ∃ seen', (plans.map Planned.served).foldlM
    (checkMember h) seen = .ok seen' ∧ seen'.out = seen.out ++ plans ∧
      seen'.refusals = seen.refusals := by
  induction plans generalizing seen with
  | nil => exact ⟨seen, rfl, by simp, rfl⟩
  | cons p plans ih =>
    obtain ⟨hfit, hfresh⟩ := htogether.head
    obtain ⟨next, hstep, hadds⟩ := checkMember_of_fit hfit hfresh
    obtain ⟨seen', hok, hout, hrefusals⟩ := ih ((together_cons hadds).mp htogether).2.2
    refine ⟨seen', ?_, ?_, hrefusals.trans hadds.refusals⟩
    · rw [List.map_cons, List.foldlM_cons, hstep]
      exact hok
    · rw [hout, hadds.out, List.append_assoc, List.singleton_append]

/-! ## Agreement -/

/-- A member sets a process-level key. -/
def Sets (p : Planned) (name : Str) (v : Value) : Prop :=
  ∃ k ∈ keys p.definition, k.process = true ∧ k.name = name ∧ processValue p k = .ok (some v)

/-- A member owns a database, with the settings. -/
def Owns (o : Objects) (p : Planned) (s : Db.Settings) : Prop :=
  p.definition.migrations = true ∧ Db.settingsFrom o p.values = .ok s

theorem Fit.parsed {h : Host V} {p : Planned} (hfit : Fit h p) :
    Parsed (keys p.definition) p.values :=
  parsed_of_parse hfit.configured

/-- A planned member has a value for each of its keys. -/
theorem processValue_ok {p : Planned} (hparsed : Parsed (keys p.definition) p.values) {k : Key}
    (hk : k ∈ keys p.definition) : ∃ v, processValue p k = .ok v := by
  unfold processValue
  cases hsecret : k.secret with
  | false => exact ⟨_, rfl⟩
  | true => exact ⟨_, by simp only [if_true, hparsed.secret hk hsecret]; rfl⟩

/-- The setting of a key, as `processSettings` makes it. -/
def settingOf (p : Planned) (k : Key) : Except Exc (Option Setting) := do
  return (← processValue p k).map fun v => { member := p.definition.id, key := k.name, value := v }

/-- A setting is the member's value of the key. -/
theorem settingOf_iff {p : Planned} {k : Key} {s : Setting} : settingOf p k = .ok (some s) ↔
    ∃ v, processValue p k = .ok (some v) ∧ s = ⟨p.definition.id, k.name, v⟩ := by
  unfold settingOf
  rw [bind_eq_ok_iff]
  constructor
  · rintro ⟨x, hx, h⟩
    rw [pure_eq_ok_iff, Option.map_eq_some_iff] at h
    obtain ⟨v, rfl, rfl⟩ := h
    exact ⟨v, hx, rfl⟩
  · rintro ⟨v, hv, rfl⟩
    exact ⟨some v, hv, rfl⟩

theorem settingOf_key {p : Planned} {k : Key} {s : Setting}
    (h : settingOf p k = .ok (some s)) : s.key = k.name := by
  obtain ⟨v, -, rfl⟩ := settingOf_iff.mp h
  rfl

/-- The settings of a member are of different keys. -/
theorem sublist_of_mapM_settingOf {p : Planned} {ks : List Key} {values : List (Option Setting)}
    (h : ks.mapM (settingOf p) = .ok values) :
    ((values.filterMap id).map Setting.key).Sublist (ks.map Key.name) := by
  induction mapM_eq_ok_iff.mp h with
  | nil => exact .slnil
  | @cons k value ks values hk hrest ih =>
    have ih := ih (mapM_eq_ok_iff.mpr hrest)
    cases value with
    | none => exact ih.cons _
    | some s =>
      simp only [List.filterMap_cons, id_eq, List.map_cons, settingOf_key hk]
      exact ih.cons_cons _

/-- The settings of a member are one for each process-level key that it sets. -/
theorem processSettings_ok {p : Planned} (hparsed : Parsed (keys p.definition) p.values) :
    ∃ settings, processSettings p = .ok settings ∧ (settings.map Setting.key).Nodup ∧
      ∀ name v, (∃ s ∈ settings, s.key = name ∧ s.value = v) ↔ Sets p name v := by
  have hprocess : ∀ k, k ∈ (keys p.definition).filter Key.process ↔ k ∈ keys p.definition ∧
    k.process = true :=
    fun k => List.mem_filter
  have hall : ∀ k ∈ (keys p.definition).filter Key.process, ∃ x, settingOf p k = .ok x := by
    intro k hk
    obtain ⟨v, hv⟩ := processValue_ok hparsed ((hprocess k).mp hk).1
    exact ⟨_, by unfold settingOf; rw [hv]; rfl⟩
  obtain ⟨values, hvalues⟩ := exists_mapM hall
  refine ⟨values.filterMap id, ?_, ?_, fun name v => ?_⟩
  · show ((keys p.definition).filter Key.process).mapM (settingOf p) >>= _ = _
    rw [hvalues]
    rfl
  · exact (sublist_of_mapM_settingOf hvalues).nodup
      ((List.filter_sublist.map Key.name).nodup hparsed.nodup)
  constructor
  · rintro ⟨s, hs, rfl, rfl⟩
    obtain ⟨x, hx, hsome⟩ := List.mem_filterMap.mp hs
    rw [id_eq] at hsome
    rw [hsome] at hx
    obtain ⟨k, hk, hsetting⟩ := exists_of_mem_mapM hvalues _ hx
    obtain ⟨v, hv, rfl⟩ := settingOf_iff.mp hsetting
    exact ⟨k, ((hprocess k).mp hk).1, ((hprocess k).mp hk).2, rfl, hv⟩
  · rintro ⟨k, hk, hkprocess, rfl, hv⟩
    obtain ⟨x, hx, hsetting⟩ := exists_mem_zip_of_mapM hvalues k ((hprocess k).mpr ⟨hk, hkprocess⟩)
    have hsome : settingOf p k = .ok (some ⟨p.definition.id, k.name, v⟩) :=
      settingOf_iff.mpr ⟨v, hv, rfl⟩
    rw [hsetting, Except.ok.injEq] at hsome
    refine ⟨⟨p.definition.id, k.name, v⟩, List.mem_filterMap.mpr ⟨x, (List.of_mem_zip hx).2,
      ?_⟩, rfl, rfl⟩
    rw [id_eq, hsome]

/-- What a member sets is among its settings. -/
theorem mem_of_sets {p : Planned} (hparsed : Parsed (keys p.definition) p.values)
    {settings : List Setting} (h : processSettings p = .ok settings)
    {name : Str} {v : Value} (hsets : Sets p name v) :
    ∃ s ∈ settings, s.key = name ∧ s.value = v := by
  obtain ⟨settings', hok, -, hiff⟩ := processSettings_ok hparsed
  rw [h, Except.ok.injEq] at hok
  exact hok ▸ (hiff name v).mpr hsets

/-- No setting is refused exactly where each agrees with the first of its key. -/
theorem settingsAgree_iff {o : Objects} :
    ∀ {settings first : List Setting}, settingsAgree o first settings = [] ↔
    FirstAgrees Setting.key (fun s t => o.same s.value t.value = true) first settings
  | [], first => by simp [settingsAgree, FirstAgrees]
  | s :: rest, first => by
      rw [settingsAgree, FirstAgrees]
      cases first.find? (·.key = s.key) with
      | none => exact settingsAgree_iff
      | some f =>
        simp only
        split
        · next hsame => simp [hsame, settingsAgree_iff]
        · next hsame => simp [hsame]

/-- No target is refused exactly where each agrees with the first of its target. -/
theorem preparedAgree_iff : ∀ {members first : List (Planned × Db.Settings)}, preparedAgree
    first members = [] ↔ FirstAgrees (·.2.target)
    (fun m n => m.2.prepared = n.2.prepared) first members
  | [], first => by simp [preparedAgree, FirstAgrees]
  | (m, s) :: rest, first => by
      rw [preparedAgree, FirstAgrees]
      cases first.find? (·.2.target = s.target) with
      | none => exact preparedAgree_iff
      | some f =>
        simp only
        split
        · next hsame => simp [hsame, preparedAgree_iff]
        · next hsame => simp [hsame]

/-- The process-level keys agree exactly where any two members that set one do. -/
theorem processKeysAgree_iff {o : Objects} (symm : ∀ v w, o.same v w = true → o.same w v = true)
    (trans : ∀ u v w, o.same u v = true → o.same v w = true → o.same u w = true)
    {plans : List Planned} (hparsed : ∀ p ∈ plans, Parsed (keys p.definition) p.values) :
    processKeysAgree o plans = .ok [] ↔
      plans.Pairwise fun p q => ∀ name v w, Sets p name v → Sets q name w → o.same v w = true := by
  obtain ⟨settings, hsettings⟩ := exists_mapM fun p hp =>
    (processSettings_ok (hparsed p hp)).imp fun _ h => h.1
  have hempty : processKeysAgree o plans = .ok [] ↔ settingsAgree o [] settings.flatten = [] := by
    unfold processKeysAgree
    rw [hsettings, bind_eq_ok_iff]
    simp only [Except.ok.injEq, exists_eq_left', pure_eq_ok_iff]
    rw [← List.length_eq_zero_iff, List.length_insertionSort, List.length_eq_zero_iff]
  -- within one member no key is set twice
  have hown : ∀ l ∈ settings, l.Pairwise fun s t => s.key = t.key →
    o.same s.value t.value = true := by
    intro l hl
    obtain ⟨p, hp, hpl⟩ := exists_of_mem_mapM hsettings l hl
    obtain ⟨l', hl', hnodup, -⟩ := processSettings_ok (hparsed p hp)
    rw [hpl, Except.ok.injEq] at hl'
    rw [← hl', List.Nodup, List.pairwise_map] at hnodup
    exact hnodup.imp fun hne heq => absurd heq hne
  rw [hempty, settingsAgree_iff, agrees_iff_pairwise (fun (s t : Setting) => symm s.value t.value)
    (fun s t u => trans s.value t.value u.value), List.pairwise_flatten,
    and_iff_right hown, pairwise_of_mapM_iff hsettings]
  refine List.Pairwise.iff_of_mem fun {p q} hp hq => ?_
  obtain ⟨sp, hsp, -, hmemp⟩ := processSettings_ok (hparsed p hp)
  obtain ⟨sq, hsq, -, hmemq⟩ := processSettings_ok (hparsed q hq)
  constructor
  · intro h name v w hv hw
    obtain ⟨s, hs, hsname, rfl⟩ := (hmemp name v).mpr hv
    obtain ⟨t, ht, htname, rfl⟩ := (hmemq name w).mpr hw
    exact h sp sq hsp hsq s hs t ht (hsname.trans htname.symm)
  · intro h b b' hb hb' s hs t ht hkey
    rw [hsp, Except.ok.injEq] at hb
    rw [hsq, Except.ok.injEq] at hb'
    rw [← hb] at hs
    rw [← hb'] at ht
    exact h s.key s.value t.value ((hmemp _ _).mp ⟨s, hs, rfl, rfl⟩)
      ((hmemq _ _).mp ⟨t, ht, hkey.symm, rfl⟩)

/-- A member that owns a database has its keys. -/
theorem owns_ok {o : Objects} {p : Planned} (hparsed : Parsed (keys p.definition) p.values)
    (hmigrations : p.definition.migrations = true) : ∃ s, Owns o p s := by
  obtain ⟨s, hs⟩ := Db.settingsFrom_ok hparsed o fun k hk => by simp [keys, hmigrations, hk]
  exact ⟨s, hmigrations, hs⟩

/-- The members that own a database have their settings. -/
theorem exists_settings {o : Objects} {plans : List Planned}
    (hparsed : ∀ p ∈ plans, Parsed (keys p.definition) p.values) :
    ∃ settings, ((plans.filter (·.definition.migrations)).mapM fun m => do
      return (m, ← Db.settingsFrom o m.values) : Except Exc (List (Planned × Db.Settings))) =
      .ok settings := by
  refine exists_mapM fun p hp => ?_
  obtain ⟨hp, hmigrations⟩ := List.mem_filter.mp hp
  obtain ⟨s, -, hs⟩ := owns_ok (hparsed p hp) hmigrations (o := o)
  exact ⟨(p, s), by rw [hs]; rfl⟩

/-- No target is refused exactly where any two members on one agree. -/
theorem targetsAgree_iff {o : Objects} {plans : List Planned}
    (hparsed : ∀ p ∈ plans, Parsed (keys p.definition) p.values) :
    targetsAgree o plans = .ok [] ↔ plans.Pairwise fun p q => ∀ s t, Owns o p s → Owns o q t →
      s.target = t.target → s.prepared = t.prepared := by
  obtain ⟨settings, hsettings⟩ := exists_settings hparsed (o := o)
  have hempty : targetsAgree o plans = .ok [] ↔ preparedAgree [] settings = [] := by
    unfold targetsAgree
    rw [hsettings, bind_eq_ok_iff]
    simp only [Except.ok.injEq, exists_eq_left', pure_eq_ok_iff]
  rw [hempty, preparedAgree_iff, agrees_iff_pairwise
    (fun (m n : Planned × Db.Settings) (h : m.2.prepared = n.2.prepared) => h.symm)
    (fun m n u h h' => h.trans h'), pairwise_of_mapM_iff hsettings, List.pairwise_filter]
  refine List.Pairwise.iff_of_mem fun {p q} hp hq => ?_
  constructor
  · rintro h s t ⟨hmp, hs⟩ ⟨hmq, ht⟩
    exact h hmp hmq (p, s) (q, t) (by rw [hs]; rfl) (by rw [ht]; rfl)
  · intro h hmp hmq b b' hb hb'
    obtain ⟨s, hs, hb⟩ := bind_eq_ok_iff.mp hb
    obtain ⟨t, ht, hb'⟩ := bind_eq_ok_iff.mp hb'
    rw [pure_eq_ok_iff] at hb hb'
    rw [← hb, ← hb']
    exact h s t ⟨hmp, hs⟩ ⟨hmq, ht⟩

/-! ## The check -/

/-- The members of a list may be hosted together. -/
structure Admissible (h : Host V) (plans : List Planned) : Prop where
  fit : ∀ p ∈ plans, Fit h p
  ids : (plans.map (·.definition.id)).Nodup
  positive : ∀ p ∈ plans, ∀ port ∈ p.ports, 0 < port
  ports : (plans.flatMap Planned.ports).Nodup
  process : plans.Pairwise fun p q => ∀ name v w, Sets p name v → Sets q name w →
    h.objects.same v w = true
  prepared : plans.Pairwise fun p q => ∀ s t, Owns h.objects p s → Owns h.objects q t →
    s.target = t.target → s.prepared = t.prepared

/-- What it is for a list of members to stand together from the start. -/
theorem together_iff {h : Host V} {plans : List Planned} :
    Together h {} plans ↔ (∀ p ∈ plans, Fit h p) ∧ (plans.map (·.definition.id)).Nodup ∧
    (∀ p ∈ plans, ∀ port ∈ p.ports, 0 < port) ∧ (plans.flatMap Planned.ports).Nodup :=
  ⟨fun ⟨hfit, hids, hpositive, hports⟩ => ⟨hfit, by simpa using hids,
    hpositive, by simpa using hports⟩, fun ⟨hfit, hids, hpositive, hports⟩ =>
    ⟨hfit, by simpa using hids, hpositive, by simpa using hports⟩⟩

/-- What a check that refuses nothing found. -/
theorem of_checkServed {h : Host V} {served : List Served} {c : Checked}
    (hok : checkServed h served = .ok c) (hnone : c.refusals = []) :
    served = c.plans.map Planned.served ∧ Together h {} c.plans ∧
      processKeysAgree h.objects c.plans = .ok [] ∧ targetsAgree h.objects c.plans = .ok [] := by
  obtain ⟨seen, hloop, hok⟩ := bind_eq_ok_iff.mp hok
  obtain ⟨settings, hsettings, hok⟩ := bind_eq_ok_iff.mp hok
  obtain ⟨targets, htargets, hok⟩ := bind_eq_ok_iff.mp hok
  rw [pure_eq_ok_iff] at hok
  rw [← hok] at hnone ⊢
  simp only [List.append_eq_nil_iff] at hnone
  obtain ⟨⟨hrefusals, rfl⟩, rfl⟩ := hnone
  obtain ⟨plans, hserved, hout, htogether⟩ := together_of_loop hloop hrefusals List.nodup_nil
    List.nodup_nil
  rw [List.nil_append] at hout
  rw [hout] at hsettings htargets
  simp only [hout]
  exact ⟨hserved, htogether, hsettings, htargets⟩

/-- The members served are hosted exactly where they are admissible. -/
theorem checkServed_iff {h : Host V} (symm : ∀ v w, h.objects.same v w = true →
    h.objects.same w v = true) (trans : ∀ u v w, h.objects.same u v = true →
    h.objects.same v w = true → h.objects.same u w = true)
    {served : List Served} {plans : List Planned} :
    (∃ c, checkServed h served = .ok c ∧ c.plans = plans ∧ c.refusals = []) ↔
      served = plans.map Planned.served ∧ Admissible h plans := by
  constructor
  · rintro ⟨c, hok, rfl, hnone⟩
    obtain ⟨hserved, htogether, hsettings, htargets⟩ := of_checkServed hok hnone
    obtain ⟨hfit, hids, hpositive, hports⟩ := together_iff.mp htogether
    have hparsed := fun p hp => (hfit p hp).parsed
    exact ⟨hserved, hfit, hids, hpositive, hports,
      (processKeysAgree_iff symm trans hparsed).mp hsettings,
      (targetsAgree_iff hparsed).mp htargets⟩
  · rintro ⟨rfl, hfit, hids, hpositive, hports, hprocess, hprepared⟩
    obtain ⟨seen, hloop, hout, hrefusals⟩ :=
      loop_of_together (together_iff.mpr ⟨hfit, hids, hpositive, hports⟩)
    rw [List.nil_append] at hout
    have hparsed := fun p hp => (hfit p hp).parsed
    refine ⟨{ plans := seen.out, refusals := seen.refusals, warnings := seen.warnings }, ?_,
      hout, hrefusals⟩
    unfold checkServed
    simp only [hloop, hout, (processKeysAgree_iff symm trans hparsed).mpr hprocess,
      (targetsAgree_iff hparsed).mpr hprepared, bind, Except.bind, List.append_nil]
    rfl

section
variable [Interp]

/-- A check that refuses nothing read a list of members. -/
theorem checkServed_of_check {h : Host V} {raw : Str} {c : Checked}
    (hok : check h raw = .ok c) (hnone : c.refusals = []) :
    ∃ served, Served.parse h.objects raw = .ok served ∧ checkServed h served = .ok c := by
  unfold check at hok
  split at hok
  · next served hserved => exact ⟨served, hserved, hok⟩
  · split at hok <;> cases hok
    simp [unreadable] at hnone

/-- The shell hosts exactly the lists of members that are admissible, planned in their order. -/
theorem check_admits_iff (h : Host V)
    (symm : ∀ v w, h.objects.same v w = true → h.objects.same w v = true)
    (trans : ∀ u v w, h.objects.same u v = true → h.objects.same v w = true →
      h.objects.same u w = true)
    (raw : Str) (plans : List Planned) :
    (∃ c, check h raw = .ok c ∧ c.plans = plans ∧ c.refusals = []) ↔
      Served.parse h.objects raw = .ok (plans.map Planned.served) ∧ Admissible h plans := by
  constructor
  · rintro ⟨c, hok, hplans, hnone⟩
    obtain ⟨served, hserved, hok⟩ := checkServed_of_check hok hnone
    obtain ⟨rfl, hadmissible⟩ := (checkServed_iff symm trans).mp ⟨c, hok, hplans, hnone⟩
    exact ⟨hserved, hadmissible⟩
  · rintro ⟨hserved, hadmissible⟩
    unfold check
    rw [hserved]
    exact (checkServed_iff symm trans).mpr ⟨rfl, hadmissible⟩

end

/-! ### A shell of two members on one database -/

/-- A module that owns a database. -/
def billing : Definition := { id := str "be/billing", version := str "1", migrations := true }

def ledger : Definition := { id := str "be/ledger", version := str "1", migrations := true }

/-- Values that are compared as texts only. -/
def sameText : Value → Value → Bool
  | .raw (.str a), .raw (.str b) => a = b
  | _, _ => false

def sameTextKey : Json → Json → Bool
  | .str a, .str b => a = b
  | _, _ => false

/-- The requirement of the SDK, in the one version that there is. -/
def sdkRequirement (line : Str) : Option (Requirement Nat) :=
  if line = str "be-sdk>=1" then
    some { name := str "be-sdk", operators := [str ">="], contains := fun v => 1 ≤ v }
  else none

def billingShell : Host Nat where
  objects := { intOfFloat := fun _ => .error .valueError, boolOfFloat := fun _ => true,
               same := sameText, sameKey := sameTextKey, text := fun _ => [],
               message := fun _ => [] }
  packaging := { version := fun s => if s = str "1" then some 1 else none,
                 same := fun a b => a = b, requirement := sdkRequirement,
                 canonicalizeName := id }
  defs := [billing, ledger]
  lookup d :=
    (some { name := d.id, version := str "1", requires := [str "be-sdk>=1"] }, d.id)
  allowReplace := false
  sdk := str "1"

def memberConfig (schema : String) : List (Str × Json) :=
  [(str "OTEL_URL", .str (str "http://otel")), (str "PG_HOST", .str (str "db")),
   (str "PG_DATABASE", .str (str "erp")), (str "PG_USER", .str (str "u")),
   (str "PG_PASSWORD", .str (str "p")), (str "PG_SCHEMA", .str (str schema))]

def memberText (id : String) (port : Int) (schema : String) : Json :=
  .obj [(str "componentId", .str (str id)), (str "version", .str (str "1")),
    (str "httpPort", .int port), (str "config", .obj (memberConfig schema))]

/-- Two members with a schema each. -/
def billingMembers : Json :=
  .list [memberText "be/billing" 8080 "billing", memberText "be/ledger" 8090 "ledger"]

def memberServed (id : String) (port : Int) (schema : String) : Served where
  componentId := .str (str id)
  version := .str (str "1")
  httpPort := port
  extraPorts := []
  config := Dict.ofPairs (memberConfig schema)

def billingServed : Served := memberServed "be/billing" 8080 "billing"

def ledgerServed : Served := memberServed "be/ledger" 8090 "ledger"

theorem memberText_plain {id schema : String} {port : Int} (hid : Paired (str id))
    (hport : port.natAbs < 10 ^ maxStrDigits) (hschema : Paired (str schema)) :
    (memberText id port schema).Plain Paired Paired fun n => n.natAbs < 10 ^ maxStrDigits := by
  simp only [memberText, memberConfig, Json.Plain, PlainMembers]
  refine ⟨?_, hid, ?_, ?_, ?_, hport, ?_, ⟨?_, ?_, ?_, ?_, ?_, ?_, ?_, ?_, ?_, ?_, ?_,
    hschema, trivial⟩, trivial⟩ <;>
    exact Events.paired_of_all rfl

theorem loadsText_billing : @loadsText Interp.ascii (dumps billingMembers) =
    .ok billingMembers := by
  have hlarge : 10 ^ 4 ≤ 10 ^ maxStrDigits := Nat.pow_le_pow_right (by norm_num) (by decide)
  have hport : (8080 : Int).natAbs < 10 ^ 4 ∧ (8090 : Int).natAbs < 10 ^ 4 := by norm_num
  have hplain : billingMembers.Plain Paired Paired fun n => n.natAbs < 10 ^ maxStrDigits :=
    ⟨memberText_plain (Events.paired_of_all rfl) (hport.1.trans_le hlarge)
        (Events.paired_of_all rfl),
      memberText_plain (Events.paired_of_all rfl) (hport.2.trans_le hlarge)
        (Events.paired_of_all rfl), trivial⟩
  have hdistinct : billingMembers.Distinct := by
    simp only [billingMembers, memberText, memberConfig, Json.Distinct, DistinctElems,
      DistinctMembers]
    decide
  exact @loadsText_dumps Interp.ascii _ hplain hdistinct (by decide)

theorem parse_billing :
    @Served.parse Interp.ascii billingShell.objects (dumps billingMembers) =
    .ok [billingServed, ledgerServed] := by
  unfold Served.parse
  rw [loadsText_billing]
  rfl

theorem billing_same_iff {v w : Value} :
    billingShell.objects.same v w = true ↔ ∃ s, v = .raw (.str s) ∧ w = .raw (.str s) := by
  simp only [billingShell, sameText]
  split
  · next a b =>
    simp only [decide_eq_true_eq, Value.raw.injEq, Json.str.injEq]
    exact ⟨fun h => ⟨a, rfl, h.symm⟩, fun ⟨_, ha, hb⟩ => ha.trans hb.symm⟩
  · next hne =>
    simp only [Bool.false_eq_true, false_iff]
    rintro ⟨s, rfl, rfl⟩
    exact hne s s rfl rfl

theorem billing_same_symm (v w : Value) (h : billingShell.objects.same v w = true) :
    billingShell.objects.same w v = true := by
  obtain ⟨s, rfl, rfl⟩ := billing_same_iff.mp h
  exact billing_same_iff.mpr ⟨s, rfl, rfl⟩

theorem billing_same_trans (u v w : Value) (h : billingShell.objects.same u v = true)
    (h' : billingShell.objects.same v w = true) : billingShell.objects.same u w = true := by
  obtain ⟨s, rfl, rfl⟩ := billing_same_iff.mp h
  obtain ⟨t, heq, rfl⟩ := billing_same_iff.mp h'
  exact billing_same_iff.mpr ⟨s, rfl, heq ▸ rfl⟩

/-- A distribution that asks for the SDK that is there provides its version. -/
theorem billing_provided (d : Definition) (hversion : d.version = str "1") :
    ∃ inst top, billingShell.lookup d = (some inst, top) ∧
    Provides billingShell inst d.version := by
  rw [hversion]
  refine ⟨_, _, rfl, rfl, ?_, [], rfl, by decide⟩
  exact ⟨[], str "be-sdk>=1", [], _, _, rfl, by simp, rfl, rfl, rfl, rfl, rfl⟩

/-- Two members on one database are hosted: they agree on its statements and on the URL that
both set. -/
theorem admits_billing : ∃ p q c, p.served = billingServed ∧ q.served = ledgerServed ∧
    @check Nat Interp.ascii billingShell (dumps billingMembers) = .ok c ∧ c.plans = [p, q] ∧
    c.refusals = [] := by
  have hbilling : ∃ values s, parse billingShell.objects (keys billing) billingServed.source =
    .ok (.ok values) ∧
      Db.settingsFrom billingShell.objects values = .ok s ∧ s.prepared = true ∧
      processSettings ⟨billing, billingServed, values⟩ =
        .ok [⟨billing.id, str "OTEL_URL", .raw (.str (str "http://otel"))⟩] :=
        ⟨_, _, rfl, rfl, rfl, rfl⟩
  have hledger : ∃ values s, parse billingShell.objects (keys ledger) ledgerServed.source =
    .ok (.ok values) ∧
      Db.settingsFrom billingShell.objects values = .ok s ∧ s.prepared = true ∧
      processSettings ⟨ledger, ledgerServed, values⟩ =
        .ok [⟨ledger.id, str "OTEL_URL", .raw (.str (str "http://otel"))⟩] :=
        ⟨_, _, rfl, rfl, rfl, rfl⟩
  obtain ⟨values, s, hvalues, hs, hprepared, hsettings⟩ := hbilling
  obtain ⟨values', s', hvalues', hs', hprepared', hsettings'⟩ := hledger
  have hfit : Fit billingShell ⟨billing, billingServed, values⟩ :=
    ⟨rfl, rfl, rfl, billing_provided billing rfl, hvalues⟩
  have hfit' : Fit billingShell ⟨ledger, ledgerServed, values'⟩ :=
    ⟨rfl, rfl, rfl, billing_provided ledger rfl, hvalues'⟩
  have hadmissible : Admissible billingShell [⟨billing, billingServed, values⟩,
    ⟨ledger, ledgerServed, values'⟩] := by
    have hids : [billing.id, ledger.id].Nodup := by decide
    have hports : [(8080 : Int), 8090].Nodup := by decide
    have hpositive : (∀ port ∈ [(8080 : Int)], 0 < port) ∧ ∀ port ∈ [(8090 : Int)], 0 <
      port := by decide
    refine ⟨?_, hids, ?_, hports, List.pairwise_pair.mpr ?_, List.pairwise_pair.mpr ?_⟩
    · exact List.forall_mem_cons.mpr ⟨hfit, List.forall_mem_singleton.mpr hfit'⟩
    · exact List.forall_mem_cons.mpr ⟨hpositive.1, List.forall_mem_singleton.mpr hpositive.2⟩
    · intro name v w hv hw
      obtain ⟨x, hx, -, rfl⟩ := mem_of_sets hfit.parsed hsettings hv
      obtain ⟨y, hy, -, rfl⟩ := mem_of_sets hfit'.parsed hsettings' hw
      rw [List.mem_singleton.mp hx, List.mem_singleton.mp hy]
      exact billing_same_iff.mpr ⟨_, rfl, rfl⟩
    · intro t t' ht ht' _
      rw [← Except.ok.inj (hs.symm.trans ht.2), ← Except.ok.inj (hs'.symm.trans ht'.2),
        hprepared, hprepared']
  obtain ⟨c, hok, hplans, hnone⟩ :=
    (@check_admits_iff Nat Interp.ascii billingShell billing_same_symm billing_same_trans
    (dumps billingMembers) [⟨billing, billingServed, values⟩,
      ⟨ledger, ledgerServed, values'⟩]).mpr ⟨parse_billing, hadmissible⟩
  exact ⟨_, _, c, rfl, rfl, hok, hplans, hnone⟩

/-! ## The pools -/

/-- The settings of the members on a target, in the order of the members. -/
def settingsOn (o : Objects) (t : Db.Target) (plans : List Planned) : List Db.Settings :=
  (plans.filter (·.definition.migrations)).filterMap fun p =>
    (Db.settingsFrom o p.values).toOption.filter (·.target = t)

/-- What a member asks for on its target. -/
def budget (s : Db.Settings) : Int := s.foreground + s.background

/-- The settings on a target are those of the members that own it. -/
theorem mem_settingsOn {o : Objects} {t : Db.Target} {plans : List Planned} {s : Db.Settings} :
    s ∈ settingsOn o t plans ↔ s.target = t ∧ ∃ p ∈ plans, Owns o p s := by
  have hread : ∀ p : Planned, (Db.settingsFrom o p.values).toOption = some s ↔
    Db.settingsFrom o p.values = .ok s := by
    intro p
    cases Db.settingsFrom o p.values <;> simp [Except.toOption]
  simp only [settingsOn, Owns, List.mem_filterMap, List.mem_filter, Option.filter_eq_some_iff,
    hread, decide_eq_true_eq]
  constructor
  · rintro ⟨p, ⟨hp, hmigrations⟩, hs, rfl⟩
    exact ⟨rfl, p, hp, hmigrations, hs⟩
  · rintro ⟨rfl, p, hp, hmigrations, hs⟩
    exact ⟨p, ⟨hp, hmigrations⟩, hs, rfl⟩

/-- The entry of a target after one more member on it. -/
def entryOf (b : Option (Int × Bool)) (s : Db.Settings) : Option (Int × Bool) :=
  some ((b.map Prod.fst).getD 0 + budget s, s.prepared)

/-- A member's settings are on its own target only. -/
theorem settingsOn_owner {o : Objects} {p : Planned} {s : Db.Settings} (hs : Owns o p s)
    (t : Db.Target) : settingsOn o t [p] = if s.target = t then [s] else [] := by
  simp only [settingsOn, List.filter_cons, hs.1, if_true, List.filter_nil,
    List.filterMap_cons, hs.2, Except.toOption, List.filterMap_nil, Option.filter_some,
    decide_eq_true_eq]
  by_cases ht : s.target = t <;> simp [ht]

/-- A member adds to the budget of its target. -/
theorem addBudget_ok {o : Objects} (budgets : Dict Db.Target (Int × Bool)) {p : Planned}
    (hparsed : Parsed (keys p.definition) p.values) :
    ∃ budgets', addBudget o budgets p = .ok budgets' ∧
      ∀ t, budgets'.get? t = (settingsOn o t [p]).foldl entryOf (budgets.get? t) := by
  cases hmigrations : p.definition.migrations with
  | false => exact ⟨budgets, by simp [addBudget, hmigrations, pure, Except.pure],
      fun t => by simp [settingsOn, hmigrations]⟩
  | true =>
    obtain ⟨s, hs⟩ := owns_ok hparsed hmigrations (o := o)
    simp only [addBudget, hmigrations, if_true, hs.2, bind, Except.bind]
    refine ⟨_, rfl, fun t => ?_⟩
    rw [settingsOn_owner hs, Dict.get?_set]
    by_cases ht : s.target = t
    · rw [if_pos ht, if_pos ht.symm, ht]
      cases budgets.get? t <;> simp [entryOf, budget, Int.add_assoc]
    · rw [if_neg ht, if_neg (Ne.symm ht), List.foldl_nil]

theorem settingsOn_cons (o : Objects) (t : Db.Target) (p : Planned) (plans : List Planned) :
    settingsOn o t (p :: plans) = settingsOn o t [p] ++ settingsOn o t plans := by
  simp only [settingsOn, ← List.filterMap_append, ← List.filter_append, List.singleton_append]

/-- The members' budgets are added up, target by target. -/
theorem foldlM_addBudget_ok {o : Objects} {plans : List Planned}
    (budgets : Dict Db.Target (Int × Bool))
    (hparsed : ∀ p ∈ plans, Parsed (keys p.definition) p.values) :
    ∃ budgets', plans.foldlM (addBudget o) budgets = .ok budgets' ∧
      ∀ t, budgets'.get? t = (settingsOn o t plans).foldl entryOf (budgets.get? t) := by
  induction plans generalizing budgets with
  | nil => exact ⟨budgets, rfl, fun _ => rfl⟩
  | cons p plans ih =>
    rw [List.forall_mem_cons] at hparsed
    obtain ⟨next, hnext, hstep⟩ := addBudget_ok (o := o) budgets hparsed.1
    obtain ⟨budgets', hrest, hget⟩ := ih next hparsed.2
    refine ⟨budgets', ?_, fun t => ?_⟩
    · rw [List.foldlM_cons, hnext]
      exact hrest
    · rw [hget, hstep, ← List.foldl_append, ← settingsOn_cons]

/-- The entry of a target on which the members agree. -/
theorem foldl_entryOf {prepared : Bool} {l : List Db.Settings}
    (hagree : ∀ s ∈ l, s.prepared = prepared) : ∀ b : Option (Int × Bool), l ≠ [] →
    l.foldl entryOf b = some ((b.map Prod.fst).getD 0 + (l.map budget).sum, prepared) := by
  induction l with
  | nil => exact fun b h => absurd rfl h
  | cons s l ih =>
    rw [List.forall_mem_cons] at hagree
    intro b _
    rw [List.foldl_cons]
    by_cases hlast : l = []
    · rw [hlast, List.foldl_nil, entryOf, hagree.1]
      simp
    · rw [ih hagree.2 _ hlast, entryOf, List.map_cons, List.sum_cons, Option.map_some,
        Option.getD_some, Int.add_assoc]

/-- Two members on one target agree on how statements run there. -/
theorem prepared_eq {o : Objects} {plans : List Planned}
    (hagree : plans.Pairwise fun p q => ∀ s t, Owns o p s → Owns o q t →
    s.target = t.target → s.prepared = t.prepared) {s s' : Db.Settings} {t : Db.Target} (hs :
    s ∈ settingsOn o t plans) (hs' : s' ∈ settingsOn o t plans) : s.prepared = s'.prepared := by
  obtain ⟨rfl, p, hp, hown⟩ := mem_settingsOn.mp hs
  obtain ⟨htarget, q, hq, hown'⟩ := mem_settingsOn.mp hs'
  refine List.Pairwise.forall_of_forall_of_flip ?_ hagree (hagree.imp ?_) hp hq s s' hown
    hown' htarget.symm
  · intro p _ s t hs ht _
    rw [Except.ok.inj (hs.2.symm.trans ht.2)]
  · intro p q h s t hs ht heq
    exact (h t s ht hs heq.symm).symm

/-- Every target of an admitted list has one pool. It is as large as the members on it ask for
together, so where each asks for a connection on both of its sides the transactions that
their handles let run at once all have one; and it keeps statements where they do. -/
theorem pools_cover [Interp] (h : Host V) {raw : Str} {c : Checked}
    (hok : check h raw = .ok c) (hnone : c.refusals = []) :
    ∃ pools, openPools h.objects c.plans = .ok pools ∧
      (∀ p ∈ c.plans, ∀ s, Owns h.objects p s → ∃ pool, pools.get? s.target = some pool ∧
        pool.statementCacheSize = if s.prepared then 100 else 0) ∧
      ∀ t pool, pools.get? t = some pool → settingsOn h.objects t c.plans ≠ [] ∧
        pool.maxSize = max ((settingsOn h.objects t c.plans).map budget).sum 1 ∧
        ((∀ s ∈ settingsOn h.objects t c.plans, 1 ≤ s.foreground ∧ 1 ≤ s.background) →
          ((settingsOn h.objects t c.plans).map places).sum ≤ pool.maxSize) := by
  obtain ⟨served, -, hchecked⟩ := checkServed_of_check hok hnone
  obtain ⟨-, htogether, -, htargets⟩ := of_checkServed hchecked hnone
  have hparsed := fun p hp => (htogether.fit p hp).parsed
  have hagree := (targetsAgree_iff hparsed).mp htargets
  obtain ⟨budgets, hbudgets, hget⟩ := foldlM_addBudget_ok (o := h.objects) Dict.empty hparsed
  have hpool : ∀ t, settingsOn h.objects t c.plans ≠ [] → ∀ s ∈ settingsOn h.objects t c.plans,
      budgets.get? t = some (((settingsOn h.objects t c.plans).map budget).sum, s.prepared) := by
    intro t hne s hs
    rw [hget, foldl_entryOf (fun s' hs' => prepared_eq hagree hs' hs) _ hne]
    simp
  refine ⟨budgets.map fun b => Pool.open_ b.1 b.2, ?_, ?_, ?_⟩
  · unfold openPools
    rw [hbudgets]
    rfl
  · intro p hp s hs
    have hmem := mem_settingsOn.mpr ⟨rfl, p, hp, hs⟩
    exact ⟨_, by rw [Dict.get?_map, hpool _ (List.ne_nil_of_mem hmem) s hmem]; rfl, rfl⟩
  · intro t pool ht
    rw [Dict.get?_map] at ht
    have hne : settingsOn h.objects t c.plans ≠ [] := by
      intro hnil
      rw [hget, hnil] at ht
      cases ht
    obtain ⟨s, hs⟩ := List.exists_mem_of_ne_nil _ hne
    rw [hpool t hne s hs, Option.map_some, Option.some.injEq] at ht
    rw [← ht]
    refine ⟨hne, rfl, fun hpositive => ?_⟩
    have hplaces : (settingsOn h.objects t c.plans).map places =
      (settingsOn h.objects t c.plans).map budget := by
      refine List.map_congr_left fun s hs => ?_
      obtain ⟨hforeground, hbackground⟩ := hpositive s hs
      rw [places, budget, max_eq_left hforeground, max_eq_left hbackground]
    rw [hplaces]
    exact le_max_left _ _

/-- The members' twelve connections each make one pool of twenty-four. -/
theorem pools_cover_billing : ∃ c pools pool, @check Nat Interp.ascii billingShell
    (dumps billingMembers) = .ok c ∧ openPools billingShell.objects c.plans = .ok pools ∧
    pools.get? ⟨str "db", 5432, str "erp"⟩ = some pool ∧
    pool.maxSize = 24 := by
  have hok : ∃ c, @check Nat Interp.ascii billingShell (dumps billingMembers) = .ok c ∧
    c.refusals = [] ∧
      ∃ p ∈ c.plans, ∃ s, Owns billingShell.objects p s ∧ s.target = ⟨str "db", 5432, str "erp"⟩ ∧
      ((settingsOn billingShell.objects s.target c.plans).map budget).sum = 24 := by
    unfold check
    rw [parse_billing]
    exact ⟨_, rfl, rfl, _, List.mem_cons_self, _, ⟨rfl, rfl⟩, rfl, rfl⟩
  obtain ⟨c, hok, hnone, p, hp, s, hs, htarget, hsum⟩ := hok
  obtain ⟨pools, hpools, hfound, hsize⟩ := @pools_cover Nat Interp.ascii billingShell _ c hok hnone
  obtain ⟨pool, hpool, -⟩ := hfound p hp s hs
  refine ⟨c, pools, pool, hok, hpools, htarget ▸ hpool, ?_⟩
  rw [(hsize s.target pool hpool).2.1, hsum]
  rfl

end BeSdk.Shell
