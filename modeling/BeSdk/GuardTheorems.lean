/-
BeSdk.GuardTheorems — no transaction commits on authority that has run out.

Three machines are put together here: the keys that tokens are verified with, the view
that lookups are answered from, and the requests with their cutoffs. What each of them
keeps is used as it stands (`Identity.Inv`, `BackedShards`, `TracedShards`). A cell stands
for what its request rests on: below its value every admission and decision of the request
still holds (`Sound.cells`), since an admission and a decision set it to at most their own
cutoffs and it never rises. A transaction that read the cutoff keeps that (`ReadAt`) while
the machine goes on.

* `commits_authorized`: what a request rested on when its transaction read the cutoff
  still holds at the check before COMMIT.
-/
import BeSdk.Guard
import BeSdk.CutoffTheorems
import BeSdk.Authz.StaleTheorems
import BeSdk.Identity.KeySetTheorems
import BeSdk.Identity.TokenTheorems

namespace BeSdk.Guard

open Identity (Jwt Jwk KeySet Accepted keyMaxAge)
open Cutoff (Task Act)

/-! ## What the past says -/

/-- The events of the key set. -/
def keyEvents : List Event → List (Identity.Event Jwk)
  | [] => []
  | .keys es :: h => es ++ keyEvents h
  | _ :: h => keyEvents h

/-- The holder's log. -/
def views : List Event → List Note
  | [] => []
  | .view notes :: h => notes ++ views h
  | _ :: h => views h

/-- The admission of a request. -/
def admission (k : Nat) : List Event → Option Admission
  | [] => none
  | .admitted j a :: h => if j = k then some a else admission k h
  | _ :: h => admission k h

/-! ## Authority -/

/-- The grant is what a view says of the principal. -/
structure TakenFrom (view : Shard) (resourceType principal : Str) (grant : Grant) : Prop where
  applies : resourceType ∈ view.applicability
  segments : grant.segments = view.segmentsFor resourceType principal
  version : grant.securityVersion = (view.entry principal).securityVersion

/-- What a lookup's grant rests on at a time `now`. -/
inductive Evidence (log : List Note) (clock : Clock) (resourceType principal risk : Str)
    (tighteningOnly : Bool) (grant : Grant) (now : Seconds) : Prop
  /-- The view was renewed by an answer to a question of `S`, for high risk not read-only, and
  nothing took that away. -/
  | valid (name : Option Str) (S : Seconds) (view : Shard) : now < S + validity risk →
      Since (Note.undisturbing name) (Note.renewsAt name S (risk = str "high")) log →
      Since Note.noRollback (Note.renews name) log → lastAdopted name log = some view →
      TakenFrom view resourceType principal grant → Evidence log clock resourceType principal
      risk tighteningOnly grant now
  /-- The authorization member last said that the view's source is stale, and the operation
  only tightens. -/
  | stale (name : Option Str) (S : Seconds) (view : Shard) (a : ShardAnswer) :
      tighteningOnly = true → now < clock.nowStale + wRead * (1 - drift) →
      lastMention name log = some a → a.saysStale → LastFull name S log →
      lastAdopted name log = some view → TakenFrom view resourceType principal grant →
      Evidence log clock resourceType principal risk tighteningOnly grant now

/-- What an admission rests on at a time `now`. -/
structure Admitted [Interp] [Jwt] (g : UserGuard) (past : List Event) (a : Admission)
    (now : Seconds) : Prop where
  /-- The token passed every check, with a key of the last fetch, which was not too long ago. -/
  verified : ∃ token set fetchedAt, a.auth = str "Bearer " ++ token ∧
    set.fetchedAt = some fetchedAt ∧ Identity.lastFetch (keyEvents past) =
    some (fetchedAt, set.keys) ∧ a.mono - fetchedAt ≤ keyMaxAge ∧
    Accepted g.verifier set a.mono a.clocks.verified token a.user
  unexpired : now < a.clocks.boot + (a.user.expiry - a.clocks.now)
  granted : ∃ o grant, g.defs.operation a.operation = some o ∧ grant.securityVersion ≤
    a.user.securityVersion ∧ Evidence (views past) a.clocks.view o.resourceType a.user.subject
    o.riskClass o.tighteningOnly grant now

/-- What a decision of a request rests on at a time `now`: it is made for the user that the
request was admitted with. -/
def Decided (g : UserGuard) (past : List Event) (k : Nat) (op : Str) (clock : Clock)
    (now : Seconds) : Prop :=
  ∃ a o r grant, admission k past = some a ∧ g.defs.operation op = some o ∧
    g.defs.resource o.resourceType = some r ∧ Evidence (views past) clock r.type
    a.user.subject (g.defs.risk o r) o.tighteningOnly grant now

/-- What an event brings into a request holds at `now`. -/
def Permits [Interp] [Jwt] (g : UserGuard) (k : Nat) (now : Seconds) (past : List Event) :
    Event → Prop
  | .admitted j a => j = k → Admitted g past a now
  | .decided j op clock => j = k → Decided g past j op clock now
  | _ => True

/-- The admission of a request and all its decisions hold at `now`. -/
def Authorized [Interp] [Jwt] (g : UserGuard) (k : Nat) (now : Seconds) : List Event → Prop
  | [] => True
  | e :: past => Permits g k now past e ∧ Authorized g k now past

/-- A transaction of a request reaches COMMIT only if at its check everything held that the
request had rested on when the transaction read the cutoff. -/
def CommitsAuthorized [Interp] [Jwt] (g : UserGuard) (h : List Event) : Prop :=
  ∀ i k checked older, .commit i (some k) checked :: older <:+ h →
    ∃ now newer past, checked = some now ∧ older = newer ++ .read i :: past ∧
    .read i ∉ newer ∧ (admission k past).isSome ∧ Authorized g k now past

/-! ## Lookups -/

/-- A grant rests on evidence until its cutoff. -/
theorem evidence_of_lookupFor {s : Holder} {log : List Note} (hbacked : BackedShards log s.shards)
    (htraced : TracedShards log s.shards) {clock : Clock} {resourceType principal risk : Str}
    {tighteningOnly : Bool} {grant : Grant}
    (hg : s.lookupFor clock.now clock.nowStale clock.wall resourceType principal risk
      tighteningOnly = .ok grant)
    {now : Seconds} (hnow : now < grant.cutoff) :
    Evidence log clock resourceType principal risk tighteningOnly grant now := by
  rw [Holder.lookupFor] at hg
  split at hg
  · next g' hl =>
    obtain rfl := Except.ok.inj hg
    rw [Holder.lookup] at hl
    split at hl
    · cases hl
    next name held ha =>
    obtain ⟨hget, hans⟩ := s.of_answering ha
    obtain ⟨hstop, hsusp, happ, start, hstart, -⟩ := Held.answers_iff.mp hans
    have hb := hbacked name held hget hstop
    obtain rfl := Except.ok.inj hl
    simp only [hstart, Option.getD_some] at hnow
    refine .valid name start held.shard hnow ?_ (hb.resumed hsusp) hb.view ⟨happ, rfl, rfl⟩
    rw [Held.startFor] at hstart
    split at hstart
    · next hrisk => simpa [hrisk] using hb.highAt start hstart
    · next hrisk =>
      obtain rfl := Option.some.inj hstart
      simpa [hrisk] using hb.sentAt
  · next e hl =>
    split at hg
    · next hfall =>
      rw [Holder.lookupStale] at hg
      split at hg
      · cases hg
      next name held ha =>
      obtain ⟨hget, hans⟩ := s.of_answeringStale ha
      obtain ⟨hstale, ⟨S, hS⟩, hstop, -, happ⟩ := Held.answersStale_iff.mp hans
      obtain ⟨a, hmention, hcalled⟩ := (htraced name held hget hstop).mention
      obtain rfl := Except.ok.inj hg
      exact .stale name S held.shard a (Bool.and_eq_true_iff.mp hfall).1 hnow hmention
        (hcalled.mp hstale) ((htraced name held hget hstop).full S hS)
        (hbacked name held hget hstop).view ⟨happ, rfl, rfl⟩
    · cases hg
  · cases hg

/-- What an admission read, and the cutoffs it comes to. -/
theorem UserGuard.admit_eq_ok [Interp] [Jwt] {g : UserGuard} {keys : KeySet Jwk}
    {mono : Seconds} {holder : Holder} {c : Clocks} {operation auth : Str}
    {user : Identity.User} {token grant : Seconds}
    (h : g.admit_ keys mono holder c operation auth = .ok (user, token, grant)) :
    (∃ credential, auth = str "Bearer " ++ credential ∧
      Accepted g.verifier keys mono c.verified credential user) ∧
      token = c.boot + (user.expiry - c.now) ∧
      ∃ o granted, g.defs.operation operation = some o ∧ granted.securityVersion ≤
      user.securityVersion ∧
        grant = granted.cutoff ∧ holder.lookupFor c.view.now c.view.nowStale c.view.wall
        o.resourceType user.subject
          o.riskClass o.tighteningOnly = .ok granted := by
  rw [UserGuard.admit_] at h
  split at h
  · cases h
  next hcredential =>
  split at h
  · cases h
  next user' hverify =>
  obtain ⟨⟨t, gr⟩, harrival, heq⟩ := map_eq_ok_iff.mp h
  obtain ⟨rfl, rfl, rfl⟩ : user' = user ∧ t = token ∧ gr = grant := by simpa using heq
  refine ⟨⟨credential auth, ?_, Identity.verify_eq_ok_iff.mp hverify⟩, ?_⟩
  · rw [credential] at hcredential ⊢
    split
    · next hstarts =>
      obtain ⟨rest, rfl⟩ := (Str.startsWith_iff _ _).mp hstarts
      rw [List.drop_left]
    · next hstarts => exact absurd (if_neg hstarts) hcredential
  rw [Cutoff.Arrival.admit_] at harrival
  split at harrival
  · cases harrival
  next o ho =>
  obtain ⟨granted, hlookup, harrival⟩ := bind_eq_ok_iff.mp harrival
  split at harrival
  · cases harrival
  next hversion =>
  obtain ⟨rfl, rfl⟩ := Prod.mk.inj (pure_eq_ok_iff.mp harrival)
  exact ⟨rfl, o, granted, ho, not_lt.mp hversion, rfl, hlookup⟩

/-! ## The invariant -/

section
variable [Interp] [Jwt] {g : UserGuard}

/-- A transaction read the cutoff `c` of its request: below it everything still holds that
the request had rested on. -/
def ReadAt (g : UserGuard) (i k : Nat) (c : Seconds) (h : List Event) : Prop :=
  ∃ newer past, h = newer ++ .read i :: past ∧ .read i ∉ newer ∧ (admission k past).isSome ∧
    ∀ now, now < c → Authorized g k now past

theorem ReadAt.cons {i k : Nat} {c : Seconds} {h : List Event} (hread : ReadAt g i k c h)
    {e : Event} (he : e ≠ .read i) : ReadAt g i k c (e :: h) := by
  obtain ⟨newer, past, rfl, hnone, hadmitted, hall⟩ := hread
  refine ⟨e :: newer, past, rfl, fun hmem => ?_, hadmitted, hall⟩
  rcases List.mem_cons.mp hmem with heq | hmem
  · exact he heq.symm
  · exact hnone hmem

/-- A task's cells exist, and what its transaction read it read of its own request. -/
structure TaskSound (g : UserGuard) (h : List Event) (cells : Nat) (i : Nat) (t : Task) : Prop where
  cell : ∀ k, t.cell = some k → k < cells
  saved : ∀ k, some k ∈ t.saved → k < cells
  waiting : ∀ n c late, t.phase = .waiting n c late → ∃ k, t.cell = some k ∧ ReadAt g i k c h

structure Sound (g : UserGuard) (h : List Event) (s : State) : Prop where
  keys : Identity.Inv (keyEvents h) s.keys
  backed : BackedShards (views h) s.holder.shards
  traced : TracedShards (views h) s.holder.shards
  lengths : s.requests.cells.length = s.users.length
  users : ∀ k, s.users[k]?.map Prod.fst = (admission k h).map Admission.user
  cells : ∀ (k : Nat) c, s.requests.cells[k]? = some c → ∀ now, now < c → Authorized g k now h
  fresh : ∀ k, s.requests.cells.length ≤ k → ∀ now, Authorized g k now h
  tasks : ∀ (i : Nat) t, s.requests.tasks[i]? = some t → TaskSound g h s.requests.cells.length i t
  commits : CommitsAuthorized g h

theorem CommitsAuthorized.cons {h : List Event} (hh : CommitsAuthorized g h) {e : Event}
    (he : ∀ i k checked, e = .commit i (some k) checked → ∃ now c, checked = some now ∧
      now < c ∧ ReadAt g i k c h) :
    CommitsAuthorized g (e :: h) := by
  intro i k checked older hsuffix
  rcases List.suffix_cons_iff.mp hsuffix with heq | hold
  · obtain ⟨rfl, rfl⟩ := List.cons.inj heq
    obtain ⟨now, c, rfl, hlt, newer, past, rfl, hnone, hadmitted, hall⟩ := he i k checked rfl
    exact ⟨now, newer, past, rfl, rfl, hnone, hadmitted, hall now hlt⟩
  · exact hh i k checked older hold

variable {h : List Event} {s : State}

theorem TaskSound.cons {cells i : Nat} {t : Task} (ht : TaskSound g h cells i t)
    {e : Event} (he : e ≠ .read i) : TaskSound g (e :: h) cells i t where
  cell := ht.cell
  saved := ht.saved
  waiting n c late hphase := by
    obtain ⟨k, hk, hread⟩ := ht.waiting n c late hphase
    exact ⟨k, hk, hread.cons he⟩

/-- A task that does not wait. -/
theorem TaskSound.turn {cells i : Nat} {t : Task} (hcell : ∀ k, t.cell = some k → k < cells)
    (hsaved : ∀ k, some k ∈ t.saved → k < cells)
    (hphase : ∀ n c late, t.phase ≠ .waiting n c late) :
    TaskSound g h cells i t :=
  ⟨hcell, hsaved, fun n c late heq => absurd heq (hphase n c late)⟩

/-- A request is admitted if and only if its cell is there. -/
theorem Sound.admission_isSome (hs : Sound g h s)
    {k : Nat} (hk : k < s.requests.cells.length) : (admission k h).isSome := by
  have huser := hs.users k
  rw [hs.lengths] at hk
  rw [List.getElem?_eq_getElem hk] at huser
  cases hadmission : admission k h with
  | none =>
    rw [hadmission] at huser
    cases huser
  | some a => rfl

/-- The events of a task's own steps. -/
def Event.isTurn : Event → Bool
  | .read _ => true
  | .commit _ _ _ => true
  | .quiet => true
  | _ => false

/-- A task goes on, and no cell changes. -/
theorem Sound.turn (hs : Sound g h s) {requests : Cutoff.State} {e : Event} (he : e.isTurn = true)
    (hcells : requests.cells = s.requests.cells)
    (htasks : ∀ (i : Nat) t, requests.tasks[i]? = some t →
      TaskSound g (e :: h) s.requests.cells.length i t)
    (hcommit : ∀ i k checked, e = .commit i (some k) checked → ∃ now c, checked = some now ∧
      now < c ∧ ReadAt g i k c h) :
    Sound g (e :: h) { s with requests } := by
  have hkeys : keyEvents (e :: h) = keyEvents h := by cases e <;> first | rfl | cases he
  have hviews : views (e :: h) = views h := by cases e <;> first | rfl | cases he
  have hadmission : ∀ k, admission k (e :: h) = admission k h := by intro k; cases e <;>
    first | rfl | cases he
  have hpermits : ∀ k now, Permits g k now h e := by
    intro k now
    cases e <;> first | exact trivial | cases he
  refine ⟨?_, ?_, ?_, ?_, fun k => ?_, fun k c hc now hnow => ?_, fun k hk now => ?_, ?_,
    hs.commits.cons hcommit⟩
  · rw [hkeys]
    exact hs.keys
  · rw [hviews]
    exact hs.backed
  · rw [hviews]
    exact hs.traced
  · rw [hcells]
    exact hs.lengths
  · rw [hadmission]
    exact hs.users k
  · exact ⟨hpermits k now, hs.cells k c (hcells ▸ hc) now hnow⟩
  · exact ⟨hpermits k now, hs.fresh k (hcells ▸ hk) now⟩
  · rw [hcells]
    exact htasks

theorem Sound.quiet (hs : Sound g h s) : Sound g (.quiet :: h) s :=
  hs.turn rfl rfl (fun i t ht => (hs.tasks i t ht).cons (by simp)) (by simp)

/-- One task goes on. -/
theorem Sound.put (hs : Sound g h s) {i : Nat} {t : Task} {e : Event} (he : e.isTurn = true)
    (hread : ∀ j, e = .read j → j = i) (ht : TaskSound g (e :: h) s.requests.cells.length i t)
    (hcommit : ∀ i k checked, e = .commit i (some k) checked → ∃ now c, checked = some now ∧
      now < c ∧ ReadAt g i k c h) :
    Sound g (e :: h) { s with requests := s.requests.put i t } := by
  refine hs.turn he rfl (fun j u hu => ?_) hcommit
  rcases getElem?_set_cases hu with ⟨rfl, rfl⟩ | ⟨hne, hold⟩
  · exact ht
  · exact (hs.tasks j u hold).cons fun heq => hne (hread j heq)

/-- A task joins. -/
theorem Sound.join (hs : Sound g h s)
    {t : Task} (hcell : ∀ k, t.cell = some k → k < s.requests.cells.length)
    (hsaved : t.saved = []) (hphase : t.phase = .idle) :
    Sound g (.quiet :: h) { s with requests :=
      { s.requests with tasks := s.requests.tasks ++ [t] } } := by
  refine hs.turn rfl rfl (fun j u hu => ?_) (by simp)
  rcases getElem?_join_cases hu with hold | ⟨-, rfl⟩
  · exact (hs.tasks j u hold).cons (by simp)
  · exact ⟨hcell, by simp [hsaved], by simp [hphase]⟩

/-! ## The steps -/

theorem Sound.act (hs : Sound g h s) {i : Nat} {t : Task} (hi : s.requests.tasks[i]? = some t)
    {a : Act} (hentry : ∀ x, a ≠ .admit_ x) (hdecide : ∀ x y z, a ≠ .decide x y z) :
    Sound g ((s.act i t a).2 :: h) (s.act i t a).1 := by
  have ht := hs.tasks i t hi
  have hturn : ∀ {phase : Cutoff.Phase} {inTx : Bool} {e : Event},
    (∀ n c late, phase ≠ .waiting n c late) →
      TaskSound g (e :: h) s.requests.cells.length i { t with phase, inTx } :=
    fun hphase => .turn ht.cell ht.saved hphase
  have hput : ∀ {phase : Cutoff.Phase} {inTx : Bool}, (∀ n c late, phase ≠ .waiting n c late) →
      Sound g (.quiet :: h) { s with requests := s.requests.put i { t with phase, inTx } } :=
    fun hphase => hs.put rfl (by simp) (hturn hphase) (by simp)
  cases a with
  | admit_ x => exact absurd rfl (hentry x)
  | decide x y z => exact absurd rfl (hdecide x y z)
  | spawn =>
    simp only [State.act, Cutoff.State.act]
    split
    · exact @Sound.join _ _ g h s hs { cell := t.cell, inTx := t.inTx } ht.cell rfl rfl
    · exact hs.quiet
  | leave =>
    simp only [State.act, Cutoff.State.act]
    split
    · next cell saved hactive hsaved =>
      refine hs.put (e := .quiet) rfl (by simp)
        (.turn (fun k hk => ?_) (fun k hk => ?_) fun n c late hphase => ?_) (by simp)
      · exact ht.saved k (hsaved ▸ hk ▸ List.mem_cons_self ..)
      · exact ht.saved k (hsaved ▸ List.mem_cons_of_mem _ hk)
      · rw [Cutoff.Task.active, show t.phase = _ from hphase] at hactive
        cases hactive
    · exact hs.quiet
  | begin_ =>
    simp only [State.act, Cutoff.State.act]
    split
    · exact hput fun _ _ _ => Cutoff.Phase.noConfusion
    · exact hs.quiet
  | finish =>
    simp only [State.act, Cutoff.State.act, reads]
    cases hphase : t.phase with
    | running n =>
      cases hcutoff : s.requests.cutoff t with
      | none =>
        refine hs.put (e := .commit i t.cell none) rfl (by simp)
          (hturn fun _ _ _ => Cutoff.Phase.noConfusion) fun j k checked heq => ?_
        -- a task inside a request has its cutoff
        obtain ⟨-, hk, -⟩ := Event.commit.inj heq
        rw [Cutoff.State.cutoff, hk, Option.bind_some, List.getElem?_eq_none_iff] at hcutoff
        exact absurd (ht.cell k hk) (Nat.not_lt.mpr hcutoff)
      | some c =>
        obtain ⟨k, hk, hv⟩ := Option.bind_eq_some_iff.mp hcutoff
        refine hs.put (e := .read i) rfl (by simp) ⟨ht.cell, ht.saved,
          fun n' c' late heq => ?_⟩ (by simp)
        obtain ⟨-, rfl, -⟩ := Cutoff.Phase.waiting.inj heq
        exact ⟨k, hk, [], h, rfl, by simp, hs.admission_isSome (ht.cell k hk), hs.cells k _ hv⟩
    | _ => exact hs.quiet
  | check now =>
    simp only [State.act, Cutoff.State.act]
    split
    · next n c late hphase =>
      split
      · exact hput fun _ _ _ => Cutoff.Phase.noConfusion
      · next hnow =>
        refine hs.put (e := .commit i t.cell (some now)) rfl (by simp)
          (hturn fun _ _ _ => Cutoff.Phase.noConfusion) fun j k checked heq => ?_
        obtain ⟨rfl, hk, rfl⟩ := Event.commit.inj heq
        obtain ⟨k', hk', hread⟩ := ht.waiting n c late hphase
        obtain rfl : k' = k := Option.some.inj (hk'.symm.trans hk)
        exact ⟨now, c, rfl, not_le.mp hnow, hread⟩
    · exact hs.quiet
  | conflict =>
    simp only [State.act, Cutoff.State.act]
    split
    · refine hput fun n c late => ?_
      split <;> exact Cutoff.Phase.noConfusion
    · exact hs.quiet
  | retry =>
    simp only [State.act, Cutoff.State.act]
    split
    · exact hput fun _ _ _ => Cutoff.Phase.noConfusion
    · exact hs.quiet
  | fail =>
    simp only [State.act, Cutoff.State.act]
    split
    · exact hs.quiet
    · exact hput fun _ _ _ => Cutoff.Phase.noConfusion
  | committed =>
    simp only [State.act, Cutoff.State.act]
    split
    · exact hput fun _ _ _ => Cutoff.Phase.noConfusion
    · exact hs.quiet

/-- What an admission rests on, below the cutoffs it comes to. -/
theorem Sound.admitted (hs : Sound g h s) {auth operation : Str} {c : Clocks}
    {user : Identity.User} {token grant : Seconds}
    (hentry : g.admit_ s.keys.set s.keys.clock s.holder c operation auth =
      .ok (user, token, grant)) {now : Seconds}
    (htoken : now < token) (hgrant : now < grant) :
    Admitted g h { auth, operation, clocks := c, mono := s.keys.clock, user } now := by
  obtain ⟨⟨credential, hauth, haccepted⟩, rfl, o, granted, ho, hversion, rfl, hlookup⟩ :=
    g.admit_eq_ok hentry
  refine ⟨?_, htoken, o, granted, ho, hversion, evidence_of_lookupFor hs.backed hs.traced
    hlookup hgrant⟩
  have hfetch := hs.keys.fetched
  obtain ⟨alg, kid, jwk, claims, -, hkey, -⟩ := id haccepted
  have husable := hkey.usable
  rw [KeySet.usable] at husable
  cases hfetched : s.keys.set.fetchedAt with
  | none =>
    rw [hfetched] at husable
    cases husable
  | some fetchedAt =>
    rw [hfetched] at husable hfetch
    exact ⟨credential, s.keys.set, fetchedAt, hauth, hfetched, hfetch,
      of_decide_eq_true husable, haccepted⟩

theorem Sound.admit_ (hs : Sound g h s)
    {i : Nat} {t : Task} (hi : s.requests.tasks[i]? = some t) (auth operation : Str)
    (c : Clocks) : Sound g ((s.admit_ g i t auth operation c).2 :: h)
    (s.admit_ g i t auth operation c).1 := by
  rw [State.admit_]
  split
  swap
  · exact hs.quiet
  next user token grant hactive hentry =>
  have hle := Cutoff.cutoffScope_le (s.requests.cutoff t) (min token grant)
  rw [Cutoff.State.admit_]
  generalize Cutoff.cutoffScope (s.requests.cutoff t) (min token grant) = at_ at hle ⊢
  have hlengths := hs.lengths
  have hlater : ∀ {k}, k < s.requests.cells.length → k < (s.requests.cells ++ [at_]).length := by
    intro k hk
    rw [List.length_append]
    omega
  have htask : ∀ (j : Nat) u, s.requests.tasks[j]? = some u →
    TaskSound g (.admitted s.requests.cells.length
      { auth, operation, clocks := c, mono := s.keys.clock, user } :: h)
      (s.requests.cells ++ [at_]).length j u := by
    intro j u hu
    have hold := (hs.tasks j u hu).cons (e := .admitted s.requests.cells.length
      { auth, operation, clocks := c, mono := s.keys.clock, user }) (by simp)
    exact ⟨fun k hk => hlater (hold.cell k hk), fun k hk => hlater (hold.saved k hk), hold.waiting⟩
  refine ⟨hs.keys, hs.backed, hs.traced, ?_, fun k => ?_, fun k v hv now hnow => ?_,
    fun k hk now => ?_, fun j u hu => ?_, hs.commits.cons (by simp)⟩
  · simp [hlengths]
  · rw [admission]
    split
    · next hk =>
      rw [← hk, hlengths, List.getElem?_concat_length]
      rfl
    · next hk =>
      rw [← hs.users k]
      rcases Nat.lt_or_gt_of_ne hk with hgt | hlt
      · rw [List.getElem?_eq_none (by simp; omega), List.getElem?_eq_none (by omega)]
      · rw [List.getElem?_append_left (by omega)]
  · rcases getElem?_join_cases hv with hold | ⟨rfl, rfl⟩
    · have hlt := (List.getElem?_eq_some_iff.mp hold).1
      exact ⟨fun heq => absurd heq (Nat.ne_of_gt hlt), hs.cells k v hold now hnow⟩
    · have hmin := lt_of_lt_of_le hnow hle
      exact ⟨fun _ => hs.admitted hentry (hmin.trans_le (min_le_left _ _))
        (hmin.trans_le (min_le_right _ _)), hs.fresh _ (Nat.le_refl _) now⟩
  · have hk : s.requests.cells.length + 1 ≤ k := by simpa using hk
    exact ⟨fun heq => absurd heq (by omega), hs.fresh k (by omega) now⟩
  · rcases getElem?_set_cases hu with ⟨rfl, rfl⟩ | ⟨-, hold⟩
    · have hself := htask _ t hi
      refine .turn (fun k hk => ?_) (fun k hk => ?_) fun n c late hphase => ?_
      · obtain rfl := Option.some.inj hk
        simp
      · rcases List.mem_cons.mp hk with heq | hmem
        · exact hself.cell k heq.symm
        · exact hself.saved k hmem
      · rw [Cutoff.Task.active, show t.phase = _ from hphase] at hactive
        cases hactive
    · exact htask j u hold

/-- What a decision rests on, below its cutoff. -/
theorem Sound.decided (hs : Sound g h s) {t : Task} {k : Nat} (hk : t.cell = some k)
    {subject : Subject} (hsubject : s.subject g t = some subject) {clock : Clock} {op : Str}
    {o : Operation} {r : Resource} {grant : Grant}
    (hgrant : subject.grant clock op = .ok (o, r, grant))
    {now : Seconds} (hnow : now < grant.cutoff) : Decided g h k op clock now := by
  rw [State.subject, hk, Option.bind_some, Option.map_eq_some_iff] at hsubject
  obtain ⟨u, hu, rfl⟩ := hsubject
  have husers := hs.users k
  rw [hu] at husers
  obtain ⟨a, ha, huser⟩ := Option.map_eq_some_iff.mp husers.symm
  rw [Subject.grant] at hgrant
  split at hgrant
  · cases hgrant
  next o' ho =>
  split at hgrant
  · cases hgrant
  next r' hr =>
  obtain ⟨g', hlookup, heq⟩ := bind_eq_ok_iff.mp hgrant
  obtain ⟨rfl, rfl, rfl⟩ : o' = o ∧ r' = r ∧ g' = grant := by simpa [pure_eq_ok_iff] using heq
  refine ⟨a, o', r', g', ha, ho, hr, ?_⟩
  rw [huser]
  exact evidence_of_lookupFor hs.backed hs.traced hlookup hnow

/-- A waiting transaction keeps what it read. -/
theorem TaskSound.miss {cells i : Nat} {t : Task} (ht : TaskSound g h cells i t) (k : Nat)
    (at_ : Seconds) : TaskSound g h cells i (t.miss k at_) := by
  rw [Cutoff.Task.miss]
  split
  · next n c late hphase =>
    split
    · refine ⟨ht.cell, ht.saved, fun n' c' late' heq => ?_⟩
      obtain ⟨-, rfl, -⟩ := Cutoff.Phase.waiting.inj heq
      exact ht.waiting n c late hphase
    · exact ht
  · exact ht

theorem Sound.decide (hs : Sound g h s)
    {i : Nat} {t : Task} (hi : s.requests.tasks[i]? = some t) (op : Str) (clock : Clock) :
    Sound g ((s.decide g t op clock).2 :: h) (s.decide g t op clock).1 := by
  rw [State.decide]
  split
  swap
  · exact hs.quiet
  next k subject hactive hk hsubject =>
  split
  swap
  · exact hs.quiet
  next o r grant hgrant =>
  rw [Cutoff.State.tighten, hk]
  have hlt := (hs.tasks i t hi).cell k hk
  refine ⟨hs.keys, hs.backed, hs.traced, ?_, hs.users, fun j v hv now hnow => ?_,
    fun j hj now => ?_, fun j u hu => ?_, hs.commits.cons (by simp)⟩
  · simpa using hs.lengths
  · rw [List.getElem?_modify] at hv
    obtain ⟨w, hw, rfl⟩ := Option.map_eq_some_iff.mp hv
    by_cases hkj : k = j
    · subst hkj
      rw [if_pos rfl] at hnow
      exact ⟨fun _ => hs.decided hk hsubject hgrant (hnow.trans_le (min_le_right _ _)),
        hs.cells k w hw now (hnow.trans_le (min_le_left _ _))⟩
    · rw [if_neg hkj] at hnow
      exact ⟨fun heq => absurd heq hkj, hs.cells j w hw now hnow⟩
  · rw [List.length_modify] at hj
    exact ⟨fun heq => absurd heq (by omega), hs.fresh j hj now⟩
  · rw [List.length_modify]
    rw [List.getElem?_map] at hu
    obtain ⟨v, hv, rfl⟩ := Option.map_eq_some_iff.mp hu
    exact ((hs.tasks j v hv).miss k grant.cutoff).cons (by simp)

/-- Another part of the member goes on. -/
theorem Sound.other (hs : Sound g h s) {e : Event} {keys : Identity.State Jwk} {holder : Holder}
    (he : ∀ i, e ≠ .read i) (hpermits : ∀ k now, Permits g k now h e)
    (hadmission : ∀ k, admission k (e :: h) = admission k h)
    (hkeys : Identity.Inv (keyEvents (e :: h)) keys)
    (hbacked : BackedShards (views (e :: h)) holder.shards)
    (htraced : TracedShards (views (e :: h)) holder.shards)
    (hcommit : ∀ i k checked, e ≠ .commit i k checked) :
    Sound g (e :: h) { s with keys, holder } where
  keys := hkeys
  backed := hbacked
  traced := htraced
  lengths := hs.lengths
  users k := by
    rw [hadmission]
    exact hs.users k
  cells k c hc now hnow := ⟨hpermits k now, hs.cells k c hc now hnow⟩
  fresh k hk now := ⟨hpermits k now, hs.fresh k hk now⟩
  tasks i t ht := (hs.tasks i t ht).cons (he i)
  commits := hs.commits.cons fun i k checked heq => absurd heq (hcommit i (some k) checked)

theorem Sound.step (hs : Sound g h s) (o : Op) : Sound g ((step g s o).2 :: h) (step g s o).1 := by
  cases o with
  | keys o =>
    exact hs.other (e := .keys _) (by simp) (fun _ _ =>
      trivial) (fun _ => rfl) (hs.keys.step o) hs.backed hs.traced (by simp)
  | view o =>
    exact hs.other (e := .view _) (by simp) (fun _ _ => trivial) (fun _ => rfl) hs.keys
      ((backedShards_preserved (some g.defs)).step trivial hs.backed)
      ((tracedShards_preserved (some g.defs)).step trivial hs.traced) (by simp)
  | start => exact hs.join (by simp) rfl rfl
  | admit_ i auth operation c =>
    simp only [Guard.step]
    split
    · next t hi => exact hs.admit_ hi auth operation c
    · exact hs.quiet
  | decide i op clock =>
    simp only [Guard.step]
    split
    · next t hi => exact hs.decide hi op clock
    · exact hs.quiet
  | task i a =>
    simp only [Guard.step]
    split
    · exact hs.quiet
    · exact hs.quiet
    · next t a hi hentry hdecide =>
        exact hs.act hi (fun x heq => hentry x heq) fun x y z heq => hdecide x y z heq
    · exact hs.quiet

theorem sound_started (clock : Seconds) : Sound g [] (started clock) where
  keys := Identity.inv_init clock
  backed := by
    intro name h hget
    simp [started, Holder.start] at hget
  traced := by
    intro name h hget
    simp [started, Holder.start] at hget
  lengths := rfl
  users _ := by simp [started, admission]
  cells := by simp [started]
  fresh _ _ _ := trivial
  tasks := by simp [started]
  commits := fun _ _ _ _ hsuffix => by cases List.suffix_nil.mp hsuffix

/-- **No transaction commits on authority that has run out**, whatever the keys, the view,
the requests and their tasks do meanwhile. When a transaction of a request reaches COMMIT,
at its check the token it was admitted with is not expired, and the admission and every
decision of the request until the transaction read the cutoff rest on a view renewed by an
answer to a question asked no longer ago than the risk allows; a tightening operation may
rest on a view whose source is said to be stale. -/
theorem commits_authorized {clock : Seconds} {h : List Event} {s : State}
    (hr : Reach (step g) anyOp (started clock) h s) : CommitsAuthorized g h :=
  (@Reach.invariant _ _ _ (step g) anyOp _ (fun h s => Sound g h s) (sound_started clock)
    (fun _ _ o _ hs => hs.step o)
    _ _ hr).commits

end

/-- Every token is signed, for one principal, until 2000. -/
@[reducible] def signed : Jwt where
  decode _ _ _ issuer audience := .ok [(str "iss", .str issuer), (str "aud", .str audience),
    (str "exp", .int 2000), (str "sub", .str (str "0190a000-0000-7000-8000-000000000001")),
    (str "be_sv", .int 1)]

def docGuard : UserGuard := ⟨⟨str "iss", str "aud"⟩, Cutoff.docIndex⟩

/-- The keys are fetched and the view is verified; a request is admitted, decides a high-risk
operation in its transaction, and commits. -/
def oneRequest : List Op :=
  [.keys .schedule, .keys (.acquire 0), .keys (.succeed 0 Identity.oneKey.keys),
    .view (changedTo (sampleShard [revision "1.1"] []) 0), .start,
    .admit_ 0 (str "Bearer eyJhbGciOiJFZERTQSIsInR5cCI6ImF0K2p3dCIsImtpZCI6ImsifQ.e30.c2ln")
    (str "doc.view")
      ⟨1001, ⟨1, 1, 1001⟩, 1, 1001, 0⟩,
    .task 0 .begin_, .decide 0 (str "doc.close") ⟨2, 2, 1002⟩, .task 0 .finish,
      .task 0 (.check (9 / 2))]

/-- When the clock was checked before COMMIT. -/
def Event.checked? : Event → Option Seconds
  | .commit _ _ checked => checked
  | _ => none

theorem commits_authorized_oneRequest :
    ∃ h s, Reach (@step Interp.ascii signed docGuard) anyOp (started 0) h s ∧
    h.filterMap Event.checked? = [9 / 2] ∧ @CommitsAuthorized Interp.ascii signed docGuard h := by
  have hr := reach_runOps (@step Interp.ascii signed docGuard) oneRequest (started 0)
  exact ⟨_, _, hr, by decide +kernel, @commits_authorized Interp.ascii signed docGuard _ _ _ hr⟩

end BeSdk.Guard
