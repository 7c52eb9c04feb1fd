/-
BeSdk.Db.PoolTheorems — what a pooled connection carries from one transaction to the next.

While no call has it, a connection has the reported settings that it connected with
(`Conn.Clean`). A call's settings are local to its transaction, so what changes is what
its statements set for the session (`Conn.Faithful`, by `Session.keeps_acts`), and where
the client has heard the end of the transaction, `release_check` compares what the
server holds: `_base` has the settings of each open connection, since no two of them
have one process ID.
-/
import BeSdk.Db.Pool
import BeSdk.Lib.History

namespace BeSdk.Db.Pool

open SessionValues

/-! ## The settings of a call -/

/-- What `_in_tx` sets. -/
def settingNames : List Str :=
  [str "role", str "search_path", str "statement_timeout", str "lock_timeout",
    str "idle_in_transaction_session_timeout", str "application_name"]

/-- A call that sets values sets all four of them. -/
theorem names_of_settings {c : Call} {own : List (Str × Str)} (h : c.settings = some own) :
    own.map Prod.fst = settingNames := by
  simp only [Call.settings, Option.bind_eq_bind, Option.bind_eq_some_iff, Option.pure_def,
    Option.some.injEq] at h
  obtain ⟨_, _, _, _, _, _, rfl⟩ := h
  rfl

theorem set_nodup : settingNames.Nodup := by simp [settingNames, str_inj]

theorem reported_set : ∀ k ∈ reported, k ≠ str "application_name" → k ∉ settingNames := by
    simp [reported, settingNames, str_inj]

theorem transaction_not_set : str "transaction_timeout" ∉ settingNames ∧
    str "transaction_timeout" ∉ reported := by
  simp [reported, settingNames, str_inj]

/-- The values under which a call's function begins: its own, and otherwise, of those
that are reported, the ones that the connection began with. -/
structure Call.Governs (call : Call) (now connected : Str → Str) : Prop where
  own : ∃ own, call.settings = some own ∧ ∀ x ∈ own, now x.1 = x.2
  transaction : ∀ limit, call.limits.transaction = some limit → ∃ ms, millis limit = some ms ∧
    now (str "transaction_timeout") = ms
  others : ∀ k ∈ reported, k ≠ str "application_name" → now k = connected k

/-! ## A connection -/

def Conn.Clean (c : Conn) : Prop := ∀ k ∈ reported, c.session.values k = c.connected k

/-- A reported setting that no statement of the call set for the session is as it was,
and stays so. -/
def Conn.Faithful (c : Conn) : Prop :=
  ∀ k ∈ reported, k ∉ c.lasting → c.session.Settled k ∧ c.session.values k = c.connected k

/-- How far a call is on its connection. -/
def Conn.Shaped (c : Conn) : Prop :=
  match c.stage with
  | .idle => c.session = { values := c.session.values } ∧ c.Clean
  | .acquired _ => c.session = { values := c.session.values } ∧ c.lasting = []
  | .begun _ =>
      c.session = { values := c.session.values,
                    levels := [⟨c.session.values, c.session.values⟩] } ∧ c.lasting = []
  | .configured call =>
      (∃ own, call.settings = some own ∧
        c.session = { values := c.session.values,
                      levels := [⟨Session.assigned c.session.values own, c.session.values⟩] }) ∧
      c.lasting = []
  | .bounded call =>
      (∃ own limit ms, call.settings = some own ∧ call.limits.transaction = some limit ∧
        millis limit = some ms ∧
        c.session = { values := c.session.values,
                      levels := [⟨Session.assigned (Session.assigned c.session.values own)
                        [(str "transaction_timeout", ms)], c.session.values⟩] }) ∧
      c.lasting = []
  | .failed _ => c.lasting = []
  | .running _ => True
  | .ending _ => c.session.levels = []
  | .returning => c.Clean
  | .closed => True

/-- The stages in which a call has the connection. -/
def Stage.taken : Stage → Bool
  | .idle | .returning | .closed => false
  | _ => true

structure Conn.Ok (c : Conn) : Prop where
  shaped : c.Shaped
  faithful : c.stage.taken = true → c.Faithful
  /-- The client knows what it was told. -/
  heard : c.answered = true → c.view = c.session.now
  zone : c.connected (str "TimeZone") = str "UTC"

theorem Conn.Faithful.clean {c : Conn} (h : c.Faithful) (hnone : c.lasting = []) : c.Clean :=
  fun k hk => (h k hk (by rw [hnone]; exact List.not_mem_nil)).2

/-- Statements change only what they set for the session. -/
theorem Conn.Faithful.send {c : Conn} (h : c.Faithful) (as : List (Action Str Str))
    (stage : Stage) : { c.send as stage with lasting := as.filterMap Action.lasting ++
      c.lasting }.Faithful := by
  intro k hk hnot
  rw [List.mem_append, not_or] at hnot
  obtain ⟨hsettled, hvalue⟩ := h k hk hnot.2
  obtain ⟨hsettled', hvalue'⟩ := Session.keeps_acts as hsettled hnot.1
  exact ⟨hsettled', hvalue'.trans hvalue⟩

/-- So does a statement that sets nothing for it. -/
theorem Conn.Faithful.sendLocal {c : Conn} (h : c.Faithful) {as : List (Action Str Str)}
    (stage : Stage) (hlocal : as.filterMap Action.lasting = []) : (c.send as stage).Faithful := by
  have hsent := h.send as stage
  rw [hlocal, List.nil_append] at hsent
  exact hsent

theorem lasting_setLocal (l : List (Str × Str)) :
    (l.map fun x => (.setLocal x.1 x.2 : Action Str Str)).filterMap Action.lasting = [] := by
  induction l with
  | nil => rfl
  | cons x l ih =>
      exact ih

/-- A statement that sets values locally, where its transaction has set `own` so far. -/
theorem Conn.Ok.setLocal {c : Conn} (hok : c.Ok) {call : Call} {set : Str → Str}
    {l : Option (List (Str × Str))} (htaken : c.stage.taken = true) (hnone : c.lasting = [])
    (hsession : c.session = { values := c.session.values,
                              levels := [⟨set, c.session.values⟩] }) (ok : Bool) {stage : Stage}
    (hshaped : ∀ own, l = some own →
      { c.send (own.map fun x : Str × Str => .setLocal x.1 x.2) stage with
        session := { values := c.session.values,
                     levels := [⟨Session.assigned set own, c.session.values⟩] } }.Shaped) :
    (c.setLocal call l ok stage).Ok := by
  have hfaithful := hok.faithful htaken
  cases l with
  | none =>
      exact ⟨hnone, fun _ => hfaithful, hok.heard, hok.zone⟩
  | some own =>
      cases ok with
      | false => exact ⟨hnone, fun _ => hfaithful.sendLocal _ rfl, nofun, hok.zone⟩
      | true =>
          have hacts : c.session.acts (own.map fun x : Str × Str => .setLocal x.1 x.2) =
              { values := c.session.values,
                levels := [⟨Session.assigned set own, c.session.values⟩] } := by
            rw [Session.acts_setLocal own c.session ⟨set, c.session.values⟩ []
              (by rw [hsession]) (by rw [hsession]), hsession]
          refine ⟨?_, fun _ => hfaithful.sendLocal _ (lasting_setLocal own), nofun, hok.zone⟩
          have hshape := hshaped own rfl
          rw [← hacts] at hshape
          exact hshape

/-- Setting local values leaves the rest of the connection. -/
theorem setLocal_same (c : Conn) (call : Call) (l : Option (List (Str × Str))) (ok : Bool)
    {stage : Stage} (hstage : stage.isOpen = true) : (c.setLocal call l ok stage).pid = c.pid ∧
    (c.setLocal call l ok stage).connected = c.connected ∧
    (c.setLocal call l ok stage).stage.isOpen = true := by
  cases l with
  | none => exact ⟨rfl, rfl, rfl⟩
  | some own =>
      cases ok with
      | false => exact ⟨rfl, rfl, rfl⟩
      | true => exact ⟨rfl, rfl, hstage⟩

/-- The end of a transaction leaves none open. -/
theorem levels_end (s : Session Str Str)
    {a : Action Str Str} (ha : a = .commit ∨ a = .rollback) : (s.acts [a]).levels = [] := by
  rcases ha with rfl | rfl
  · simp only [Session.acts_cons, Session.acts_nil, Session.act]
    split
    · assumption
    · rfl
  · rfl

theorem of_unless {b : Bool} {c c' : Conn} (h : (if b then none else some c') = some c) :
    c = c' := by
  cases b with
  | true => cases h
  | false => exact (Option.some.inj h).symm

/-- A call's next statement. -/
theorem Conn.Ok.turn {c c' : Conn} (hok : c.Ok) {o : Op} (h : c.turn o = some c') :
    c'.Ok ∧ c'.pid = c.pid ∧ c'.connected = c.connected ∧ c'.stage.isOpen = true := by
  have hshaped := hok.shaped
  have hfaithful := hok.faithful
  cases o with
  | begin_ =>
      simp only [Conn.turn] at h
      split at h
      · next call hstage =>
        obtain rfl := Option.some.inj h
        rw [Conn.Shaped, hstage] at hshaped
        rw [hstage] at hfaithful
        have hacts : c.session.acts [.begin_] =
            { values := c.session.values, levels := [⟨c.session.values, c.session.values⟩] } := by
          rw [hshaped.1]
          rfl
        refine ⟨⟨⟨?_, hshaped.2⟩, fun _ => (hfaithful rfl).sendLocal _ rfl, nofun, hok.zone⟩,
          rfl, rfl, rfl⟩
        show c.session.acts [.begin_] = _
        rw [Conn.send, hacts]
      · cases h
  | configure i ok =>
      simp only [Conn.turn] at h
      split at h
      · next call hstage =>
        obtain rfl := Option.some.inj h
        rw [Conn.Shaped, hstage] at hshaped
        refine ⟨hok.setLocal (by rw [hstage]; rfl) hshaped.2 hshaped.1 ok fun own hown =>
          ⟨⟨own, hown, rfl⟩, hshaped.2⟩, ?_⟩
        exact setLocal_same c call call.settings ok (by rfl)
      · cases h
  | bound i ok =>
      simp only [Conn.turn] at h
      split at h
      · next call hstage =>
        obtain ⟨limit, hlimit, rfl⟩ := Option.map_eq_some_iff.mp h
        rw [Conn.Shaped, hstage] at hshaped
        obtain ⟨⟨own, hown, hsession⟩, hnone⟩ := hshaped
        refine ⟨hok.setLocal (by rw [hstage]; rfl) hnone hsession ok fun l hl => ?_,
          setLocal_same c call _ ok (by rfl)⟩
        obtain ⟨ms, hms, rfl⟩ := Option.map_eq_some_iff.mp hl
        exact ⟨⟨own, limit, ms, hown, hlimit, hms, rfl⟩, hnone⟩
      · cases h
  | statement i as =>
      simp only [Conn.turn] at h
      split at h
      · next call hstage =>
        obtain rfl := Option.some.inj h
        rw [hstage] at hfaithful
        exact ⟨⟨trivial, fun _ => (hfaithful rfl).send _ _, nofun, hok.zone⟩, rfl, rfl, rfl⟩
      · cases h
  | end_ i commit =>
      have hend : ∀ call, c.stage.taken = true → ∀ a, a = .commit ∨ a = .rollback →
        c' = c.send [a] (.ending call) →
          c'.Ok ∧ c'.pid = c.pid ∧ c'.connected = c.connected ∧ c'.stage.isOpen = true := by
        intro call htaken a ha hc
        subst hc
        refine ⟨⟨?_, fun _ => (hfaithful htaken).sendLocal _ ?_, nofun, hok.zone⟩, rfl, rfl, rfl⟩
        · exact levels_end c.session ha
        · rcases ha with rfl | rfl
          · rfl
          · rfl
      simp only [Conn.turn] at h
      split at h
      · next call hstage => exact hend call (by rw [hstage]; rfl) .rollback (.inr rfl) (of_unless h)
      · next call hstage => exact hend call (by rw [hstage]; rfl) .rollback (.inr rfl) (of_unless h)
      · next call hstage => exact hend call (by rw [hstage]; rfl) .rollback (.inr rfl) (of_unless h)
      · next call hstage => exact hend call (by rw [hstage]; rfl) .rollback (.inr rfl) (of_unless h)
      · next call hstage =>
        refine hend call (by rw [hstage]; rfl) _ ?_ (Option.some.inj h).symm
        cases commit with
        | true => exact .inl rfl
        | false => exact .inr rfl
      · cases h
  | connect | acquire | start | answer | release | return_ | close => cases h

/-! ## The pool -/

structure Sound (s : State) : Prop where
  conns : ∀ (i : Nat) (c : Conn), s.conns[i]? = some c → c.stage.isOpen = true → c.Ok ∧
    s.base c.pid = some (reportedOf c.connected)
  pids : ∀ (i j : Nat) (c c' : Conn), s.conns[i]? = some c → s.conns[j]? = some c' →
    c.stage.isOpen = true → c'.stage.isOpen = true → c.pid = c'.pid → i = j

/-- A connection goes on. -/
theorem Sound.put {s : State} (hs : Sound s)
    {i : Nat} {c c' : Conn} (hi : s.conns[i]? = some c) (hopen : c.stage.isOpen = true)
    (hok : c'.Ok) (hpid : c'.pid = c.pid) (hconnected : c'.connected = c.connected) :
    Sound (s.put i c') := by
  refine ⟨fun j d hj hd => ?_, fun j k d e hj hk hd he heq => ?_⟩
  · rcases getElem?_set_cases hj with ⟨-, rfl⟩ | ⟨-, hj⟩
    · rw [hpid, hconnected]
      exact ⟨hok, (hs.conns i c hi hopen).2⟩
    · exact hs.conns j d hj hd
  · rcases getElem?_set_cases hj with ⟨rfl, rfl⟩ | ⟨-, hj'⟩
    · rcases getElem?_set_cases hk with ⟨rfl, -⟩ | ⟨-, hk'⟩
      · rfl
      · exact hs.pids j k c e hi hk' hopen he (hpid ▸ heq)
    · rcases getElem?_set_cases hk with ⟨rfl, rfl⟩ | ⟨-, hk'⟩
      · exact hs.pids j k d c hj' hi hd hopen (heq.trans hpid)
      · exact hs.pids j k d e hj' hk' hd he heq

/-- A connection is closed, and its record may go with it. -/
theorem Sound.close {s : State} (hs : Sound s) {i : Nat} {c : Conn} (hi : s.conns[i]? = some c)
    {base : Nat → Option (List Str)} (hbase : base = s.base ∨ c.stage.isOpen = true ∧
      base = Function.update s.base c.pid none) :
    Sound { s.put i { c with stage := .closed } with base } := by
  have hleft : ∀ j d, (s.put i { c with stage := .closed }).conns[j]? = some d →
    d.stage.isOpen = true →
      j ≠ i ∧ s.conns[j]? = some d := by
    intro j d hj hd
    rcases getElem?_set_cases hj with ⟨-, rfl⟩ | hleft
    · cases hd
    · exact hleft
  refine ⟨fun j d hj hd => ?_, fun j k d e hj hk hd he heq => ?_⟩
  · obtain ⟨hne, hj'⟩ := hleft j d hj hd
    obtain ⟨hok, hrecord⟩ := hs.conns j d hj' hd
    refine ⟨hok, ?_⟩
    show base d.pid = _
    rcases hbase with rfl | ⟨hopen, rfl⟩
    · exact hrecord
    · rw [Function.update_of_ne fun heq => hne (hs.pids j i d c hj' hi hd hopen heq)]
      exact hrecord
  · exact hs.pids j k d e (hleft j d hj hd).2 (hleft k e hk he).2 hd he heq

theorem ok_opened (appName : Str) (pid : Nat) (defaults : Str → Str) :
    (opened appName pid defaults).Ok :=
  ⟨⟨rfl, fun _ _ => rfl⟩, nofun, fun _ => rfl, by simp [opened]⟩

/-- A new connection keeps the pool sound. -/
theorem Sound.connect {appName : Str} {s : State} (hs : Sound s) {pid : Nat} {defaults : Str → Str}
    (hproper : proper s (.connect pid defaults) = true) :
    Sound (s.connect appName pid defaults) := by
  have hfree : ∀ (i : Nat) (c : Conn), s.conns[i]? = some c → c.stage.isOpen = true →
    c.pid ≠ pid := by
    intro i c hi hopen heq
    have hc := List.all_eq_true.mp hproper c (List.mem_of_getElem? hi)
    rw [hopen, heq] at hc
    simp at hc
  refine ⟨fun j d hj hd => ?_, fun j k d e hj hk hd he heq => ?_⟩
  · rcases getElem?_join_cases hj with hj | ⟨-, rfl⟩
    · obtain ⟨hok, hrecord⟩ := hs.conns j d hj hd
      exact ⟨hok, (Function.update_of_ne (hfree j d hj hd) _ _).trans hrecord⟩
    · exact ⟨ok_opened appName pid defaults, Function.update_self ..⟩
  · rcases getElem?_join_cases hj with hj | ⟨rfl, rfl⟩
    · rcases getElem?_join_cases hk with hk | ⟨rfl, rfl⟩
      · exact hs.pids j k d e hj hk hd he heq
      · exact absurd heq (hfree j d hj hd)
    · rcases getElem?_join_cases hk with hk | ⟨rfl, rfl⟩
      · exact absurd heq.symm (hfree k e hk he)
      · rfl

/-! ## The release check -/

/-- `release_check` compares what the client was told with what the connection had. -/
theorem releaseCheck_eq {base : Nat → Option (List Str)} {c : Conn}
    (h : base c.pid = some (reportedOf c.connected)) : releaseCheck base c =
      (reported.map fun k => (k, c.connected k, c.view k)).find? fun x => decide
      (x.2.2 ≠ x.2.1) := by
  have hzip : reported.zip ((reportedOf c.connected).zip (reportedOf c.view)) =
      reported.map fun k => (k, c.connected k, c.view k) := rfl
  rw [releaseCheck, h, ← hzip]

theorem releaseCheck_none {base : Nat → Option (List Str)} {c : Conn}
    (h : base c.pid = some (reportedOf c.connected)) :
    releaseCheck base c = none ↔ ∀ k ∈ reported, c.view k = c.connected k := by
  rw [releaseCheck_eq h]
  simp

/-- A connection that does not pass has another value for a reported setting. -/
theorem releaseCheck_some {base : Nat → Option (List Str)} {c : Conn}
    (h : base c.pid = some (reportedOf c.connected))
    {k was now : Str} (hcheck : releaseCheck base c = some (k, was, now)) :
    k ∈ reported ∧ was = c.connected k ∧ now = c.view k ∧ c.view k ≠ c.connected k := by
  rw [releaseCheck_eq h] at hcheck
  obtain ⟨k', hk', heq⟩ := List.mem_map.mp (List.mem_of_find?_eq_some hcheck)
  have hne : now ≠ was := by simpa using List.find?_some hcheck
  cases heq
  exact ⟨hk', rfl, rfl, hne⟩

/-- What a call leaves where it gives the connection back. -/
theorem Conn.Ok.ends {c : Conn} (hok : c.Ok) {call : Call} (h : c.ends = some call) :
    c.stage.taken = true ∧ (c.answered = true → c.view = c.session.values) := by
  have hshaped := hok.shaped
  have hheard := hok.heard
  rw [Conn.ends] at h
  split at h
  · next heq =>
    rw [Conn.Shaped, heq] at hshaped
    refine ⟨by rw [heq]; rfl, fun ha => ?_⟩
    rw [hheard ha, hshaped.1]
    rfl
  · next heq =>
    rw [Conn.Shaped, heq] at hshaped
    refine ⟨by rw [heq]; rfl, fun ha => ?_⟩
    rw [hheard ha, Session.now, hshaped]
  all_goals first
    | (next heq =>
        refine ⟨by rw [heq]; rfl, fun ha => ?_⟩
        rw [ha] at h
        cases h)
    | cases h

/-- What lasts on a connection that passes the check. -/
theorem Conn.Ok.clean {c : Conn} (hok : c.Ok) {call : Call} (h : c.ends = some call)
    (htold : (c.answered || !c.untold) = true)
    (hview : ∀ k ∈ reported, c.view k = c.connected k) : c.Clean := by
  intro k hk
  cases ha : c.answered with
  | true =>
      rw [← (hok.ends h).2 ha]
      exact hview k hk
  | false =>
      have huntold : c.untold = false := by simpa [ha] using htold
      have hsame := List.any_eq_false.mp huntold k hk
      by_contra hne
      rw [hview k hk] at hsame
      simp [hne] at hsame

/-! ## Runs -/

/-- What is to be said of an event. A `release_check` that was told everything finds
exactly what lasts, and the call whose connection it closes has set it. -/
def Note.Lawful : Note → Prop
  | .began call now connected => call.Governs now connected ∧ now (str "TimeZone") = str "UTC"
  | .released _ c left => c.answered = true → (left = none ↔ c.Clean) ∧
      ∀ k was now, left = some (k, was, now) →
        k ∈ reported ∧ was = c.connected k ∧ now = c.session.values k ∧ k ∈ c.lasting
  | .quiet => True

/-- The settings of a call are those it asks for. -/
theorem assigned_own {call : Call} {own : List (Str × Str)} (h : call.settings = some own)
    (values : Str → Str) : (∀ x ∈ own, Session.assigned values own x.1 = x.2) ∧
      ∀ k ∈ reported, k ≠ str "application_name" → Session.assigned values own k = values k := by
  have hnames := names_of_settings h
  refine ⟨fun x hx => Session.assigned_of_mem (hnames ▸ set_nodup) hx,
    fun k hk hne => Session.assigned_of_not_mem ?_⟩
  rw [hnames]
  exact reported_set k hk hne

/-- Where everything is set, the function begins under it. -/
theorem Conn.Ok.starts {c : Conn} (hok : c.Ok) {call : Call} (h : c.starts = some call) :
    call.Governs c.session.now c.connected ∧ c.stage.taken = true := by
  have hshaped := hok.shaped
  rw [Conn.starts] at h
  split at h
  · next call' hstage =>
    rw [Conn.Shaped, hstage] at hshaped
    have hclean := (hok.faithful (by rw [hstage]; rfl)).clean hshaped.2
    obtain ⟨⟨own, hown, hsession⟩, -⟩ := hshaped
    have hnow : c.session.now = Session.assigned c.session.values own := by
      rw [hsession]
      rfl
    obtain ⟨hset, hothers⟩ := assigned_own hown c.session.values
    split at h
    · next hnone =>
      obtain rfl := Option.some.inj h
      rw [hnow]
      refine ⟨⟨⟨own, hown, hset⟩, fun limit hlimit => ?_, fun k hk hne => ?_⟩, by rw [hstage]; rfl⟩
      · rw [hlimit] at hnone
        cases hnone
      · exact (hothers k hk hne).trans (hclean k hk)
    · cases h
  · next call' hstage =>
    obtain rfl := Option.some.inj h
    rw [Conn.Shaped, hstage] at hshaped
    have hclean := (hok.faithful (by rw [hstage]; rfl)).clean hshaped.2
    obtain ⟨⟨own, limit, ms, hown, hlimit, hms, hsession⟩, -⟩ := hshaped
    have hnow : c.session.now =
        Function.update (Session.assigned c.session.values own) (str "transaction_timeout") ms := by
      rw [hsession]
      rfl
    obtain ⟨hset, hothers⟩ := assigned_own hown c.session.values
    have hbefore : ∀ k ≠ str "transaction_timeout", c.session.now k = Session.assigned
      c.session.values own k := by
      intro k hk
      rw [hnow, Function.update_of_ne hk]
    refine ⟨⟨⟨own, hown, fun x hx => ?_⟩, fun limit' hlimit' => ?_, fun k hk hne => ?_⟩, by
      rw [hstage]; rfl⟩
    · rw [hbefore x.1 fun heq => transaction_not_set.1 ?_]
      · exact hset x hx
      · rw [← heq, ← names_of_settings hown]
        exact List.mem_map_of_mem hx
    · obtain rfl := Option.some.inj (hlimit.symm.trans hlimit')
      refine ⟨ms, hms, ?_⟩
      rw [hnow, Function.update_self]
    · rw [hbefore k fun heq => transaction_not_set.2 (heq ▸ hk), hothers k hk hne]
      exact hclean k hk
  · cases h

/-- Only an open connection has a turn. -/
theorem turn_open {c c' : Conn} {o : Op} (h : c.turn o = some c') : c.stage.isOpen = true := by
  cases hopen : c.stage.isOpen with
  | true => rfl
  | false =>
      cases hstage : c.stage with
      | closed =>
          cases o <;> simp [Conn.turn, hstage] at h
      | _ => simp [hstage, Stage.isOpen] at hopen

theorem starts_open {c : Conn} {call : Call} (h : c.starts = some call) :
    c.stage.isOpen = true := by
  rw [Conn.starts] at h
  split at h
  · next heq => rw [heq]; rfl
  · next heq => rw [heq]; rfl
  · cases h

theorem ends_open {c : Conn} {call : Call} (h : c.ends = some call) : c.stage.isOpen = true := by
  rw [Conn.ends] at h
  split at h
  all_goals first | (next heq => rw [heq]; rfl) | cases h

/-- Releasing a connection keeps the pool sound. -/
theorem Sound.release {s : State} (hs : Sound s)
    {i : Nat} {c : Conn} (hi : s.conns[i]? = some c) {call : Call}
    (h : c.ends = some call) (hproper : proper s (.release i) = true) :
    Sound (s.act i c (.release i)).1 ∧ (s.act i c (.release i)).2.Lawful := by
  have htold : (c.answered || !c.untold) = true := by
    rw [proper, hi] at hproper
    exact hproper
  have hopen := ends_open h
  obtain ⟨hok, hrecord⟩ := hs.conns i c hi hopen
  simp only [State.act, h]
  cases hcheck : releaseCheck s.base c with
  | some x =>
      obtain ⟨k, was, now⟩ := x
      obtain ⟨hk, hwas, hnow, hne⟩ := releaseCheck_some hrecord hcheck
      refine ⟨hs.close hi (.inr ⟨hopen, rfl⟩), fun ha => ?_⟩
      have hview := (hok.ends h).2 ha
      have hlasting : k ∈ c.lasting := by
        by_contra hnot
        exact hne (hview ▸ (hok.faithful (hok.ends h).1 k hk hnot).2)
      refine ⟨⟨nofun, fun hclean => absurd (hclean k hk) (hview ▸ hne)⟩, fun k' was' now' heq => ?_⟩
      obtain ⟨rfl, rfl, rfl⟩ := Prod.mk.inj (Option.some.inj heq) |>.imp_right Prod.mk.inj
      exact ⟨hk, hwas, hview ▸ hnow, hlasting⟩
  | none =>
      have hview := (releaseCheck_none hrecord).mp hcheck
      have hclean := hok.clean h htold hview
      refine ⟨hs.put hi hopen ⟨hclean, nofun, hok.heard, hok.zone⟩ rfl rfl,
        fun _ => ⟨⟨fun _ => hclean, fun _ => rfl⟩, nofun⟩⟩

/-- So does everything else a connection does. -/
theorem Sound.act {s : State} (hs : Sound s) {i : Nat} {c : Conn} (hi : s.conns[i]? = some c)
    {o : Op} (ho : o.conn = some i) (hproper : proper s o = true) :
    Sound (s.act i c o).1 ∧ (s.act i c o).2.Lawful := by
  have hsends : ∀ {o c'}, c.turn o = some c' → Sound (s.put i c') ∧ Note.quiet.Lawful := by
    intro o c' hturn
    have hopen := turn_open hturn
    obtain ⟨hok, hpid, hconnected, -⟩ := (hs.conns i c hi hopen).1.turn hturn
    exact ⟨hs.put hi hopen hok hpid hconnected, trivial⟩
  cases o with
  | connect => cases ho
  | acquire _ call =>
      simp only [State.act]
      split
      · next hstage =>
        have hopen : c.stage.isOpen = true := by rw [hstage]; rfl
        have hok := (hs.conns i c hi hopen).1
        have hshaped := hok.shaped
        rw [Conn.Shaped, hstage] at hshaped
        refine ⟨hs.put hi hopen ⟨⟨hshaped.1, rfl⟩, fun _ k hk _ => ⟨?_, hshaped.2 k hk⟩,
          hok.heard, hok.zone⟩ rfl rfl, trivial⟩
        show c.session.Settled k
        rw [hshaped.1]
        exact nofun
      · exact ⟨hs, trivial⟩
  | start =>
      simp only [State.act]
      split
      · next call ha hstarts =>
        have hopen : c.stage.isOpen = true := starts_open hstarts
        have hok := (hs.conns i c hi hopen).1
        obtain ⟨hgoverns, htaken⟩ := hok.starts hstarts
        refine ⟨hs.put hi hopen ⟨trivial, fun _ => hok.faithful htaken, hok.heard, hok.zone⟩
          rfl rfl, hgoverns, ?_⟩
        rw [hgoverns.others _ List.mem_cons_self (by simp [str_inj])]
        exact hok.zone
      · exact ⟨hs, trivial⟩
  | answer =>
      simp only [State.act]
      split
      · next hopen =>
        have hok := (hs.conns i c hi hopen).1
        exact ⟨hs.put hi hopen ⟨hok.shaped, hok.faithful, fun _ => rfl, hok.zone⟩ rfl rfl, trivial⟩
      · exact ⟨hs, trivial⟩
  | release j =>
      obtain rfl := Option.some.inj ho
      cases hends : c.ends with
      | some call => exact hs.release hi hends hproper
      | none =>
          simp only [State.act, hends]
          exact ⟨hs, trivial⟩
  | return_ =>
      simp only [State.act]
      split
      · next hstage =>
        have hopen : c.stage.isOpen = true := by rw [hstage]; rfl
        have hok := (hs.conns i c hi hopen).1
        have hshaped := hok.shaped
        rw [Conn.Shaped, hstage] at hshaped
        exact ⟨hs.put hi hopen ⟨⟨rfl, hshaped⟩, nofun, fun _ => rfl, hok.zone⟩ rfl rfl, trivial⟩
      · exact ⟨hs, trivial⟩
  | close => exact ⟨hs.close hi (.inl rfl), trivial⟩
  | begin_ | configure | bound | statement | end_ =>
      simp only [State.act]
      split
      · next hturn => exact hsends hturn
      · exact ⟨hs, trivial⟩

/-- A step lemma. -/
theorem Sound.step {appName : Str} {s : State} (hs : Sound s)
    {o : Op} (hproper : proper s o = true) :
    Sound (step appName s o).1 ∧ (step appName s o).2.Lawful := by
  unfold Pool.step
  split
  · next i ho =>
    split
    · next c hi => exact hs.act hi ho hproper
    · exact ⟨hs, trivial⟩
  · split
    · exact ⟨hs.connect hproper, trivial⟩
    · exact ⟨hs, trivial⟩

/-- The pool is sound in every proper run. -/
theorem sound_reach {appName : Str} {h : List Note} {s : State}
    (hr : Reach (step appName) (fun s o => proper s o = true) {} h s) :
    Sound s ∧ ∀ n ∈ h, n.Lawful := by
  induction hr with
  | nil => exact ⟨⟨fun i c hi => by simp at hi, fun i j c c' hi => by simp at hi⟩,
      fun _ hn => absurd hn List.not_mem_nil⟩
  | snoc o hok _ ih =>
      obtain ⟨hsound, hlawful⟩ := ih.1.step hok
      refine ⟨hsound, fun n hn => ?_⟩
      rcases List.mem_cons.mp hn with rfl | hn
      · exact hlawful
      · exact ih.2 n hn

/-- **No setting travels between the members of a shell.** In every run of any calls over
one pool, whatever their statements set, wherever a call is cancelled and whenever a
connection is lost: the function of a transaction begins under its own member's role,
schema, limits and name, in UTC and with the reported settings that its connection began
with; a call that was answered closes its connection exactly when it leaves one of these
settings otherwise, of which the log has one that a statement of the call has set for
the session; and a connection that no call has is as it was when it connected. -/
theorem settings_stay (appName : Str) (h : List Note) (s : State)
    (hr : Reach (step appName) (fun s o => proper s o = true) {} h s) :
    (∀ call now connected, .began call now connected ∈ h →
      call.Governs now connected ∧ now (str "TimeZone") = str "UTC") ∧
    (∀ call c left, .released call c left ∈ h → c.answered = true →
      (left = none ↔ c.Clean) ∧ ∀ k was now, left = some (k, was, now) →
        k ∈ reported ∧ was = c.connected k ∧ now = c.session.values k ∧ k ∈ c.lasting) ∧
    ∀ c ∈ s.conns, c.stage = .idle → c.session.levels = [] ∧ c.Clean := by
  obtain ⟨hsound, hlawful⟩ := sound_reach hr
  refine ⟨fun call now connected hn => hlawful _ hn, fun call c left hn => hlawful _ hn,
    fun c hc hidle => ?_⟩
  obtain ⟨i, hi⟩ := List.mem_iff_getElem?.mp hc
  have hshaped := (hsound.conns i c hi (by rw [hidle]; rfl)).1.shaped
  rw [Conn.Shaped, hidle] at hshaped
  refine ⟨?_, hshaped.2⟩
  rw [hshaped.1]

/-- What connections were closed for. -/
def leftovers (h : List Note) : List (Str × Str × Str) :=
  h.filterMap fun n => match n with
    | .released _ _ left => left
    | _ => none

/-- The role and the schema that each function began under. -/
def begun (h : List Note) : List (Str × Str) :=
  h.filterMap fun n => match n with
    | .began _ now _ => some (now (str "role"), now (str "search_path"))
    | _ => none

/-- A call of a member of the example. -/
def call (name : Str) : Call where
  db :=
    { member := str "erp/" ++ name,
      settings :=
        { target := ⟨str "db", 5432, str "erp"⟩, user := name ++ str "_rw", password := none,
          schema := name, prepared := true, timeouts := ⟨5000000, 2000000, 10000000⟩,
          foreground := 8, background := 4 } }
  options := { lockTimeout := some 1 }
  version := 180000

/-- A transaction up to its end. -/
def transaction (i : Nat) (c : Call) (as : List (Action Str Str)) : List Op :=
  [.acquire i c, .begin_ i, .answer i, .configure i true, .answer i, .start i,
    .statement i as, .answer i, .end_ i true]

/-- A function that the first transaction calls sets the time zone for the session. The
next transaction begins on another connection, and is cancelled while it commits. -/
def leaking : List Op :=
  .connect 7 (fun _ => []) ::
    transaction 0 (call (str "inventory")) [.set (str "TimeZone") (str "Asia/Tokyo"),
      .set (str "work_mem") (str "7MB")] ++
    [.answer 0, .release 0, .connect 7 (fun _ => [])] ++
    transaction 1 (call (str "billing")) [.setLocal (str "DateStyle") (str "German")] ++
      [.release 1]

theorem settings_stay_leaked :
    let run := runOps (step (str "erp/shell")) {} leaking
    (∀ call now connected, .began call now connected ∈ run.1 →
      call.Governs now connected ∧ now (str "TimeZone") = str "UTC") ∧
      leftovers run.1 =
        [(str "DateStyle", [], str "German"), (str "TimeZone", str "UTC", str "Asia/Tokyo")] ∧
      begun run.1 = [(str "billing_rw", str "\"billing\""),
        (str "inventory_rw", str "\"inventory\"")] := by
  have hok : allAllowed (step (str "erp/shell")) (fun s o => proper s o = true) {} leaking =
    true := by decide +kernel
  have hlaw := settings_stay (str "erp/shell") _ _ (reach_of_allAllowed leaking hok)
  exact ⟨hlaw.1, by decide +kernel, by decide +kernel⟩

end BeSdk.Db.Pool
