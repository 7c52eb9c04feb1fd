/-
BeSdk.Calls.AttemptTheorems — the attempts of one call: how many, when, and what the
call ends with.

The call is one of a dependency's calls, and the others go on as they like: their
results move the breaker and the budget between any two of its steps, so every state
of these is among the ones it is in. What is seen of the call is its log, newest entry
first. `Tried` and `Sent` say what a log looks like between two attempts and during
one; the invariant holds the call's place against them.
-/
import BeSdk.Calls.ClientTheorems

namespace BeSdk.Calls

/-! ## The log of a call -/

/-- What is seen of a call. -/
inductive Entry where
  /-- Attempt `n` was sent with what was left until the deadline, and given its timeout. -/
  | sent (n : Nat) (left : Option Seconds) (timeout : Seconds)
  /-- Its result came in; the tokens of the budget after it was recorded, and the backoff. -/
  | settled (n : Nat) (r : Result) (tokens : Int) (backoff : Seconds)

def Entry.isSent : Entry → Bool
  | .sent _ _ _ => true
  | .settled _ _ _ _ => false

/-- The attempts of call `i` among the notes of a step, as they were sent. -/
def sends (i : Nat) (notes : List Note) : List Entry :=
  notes.filterMap fun
    | .sent j n left timeout => if j = i then some (.sent n left timeout) else none
    | _ => none

/-- What an attempt returned, when it did. -/
def Exit.result : Exit → Option Result
  | .returned r => some r
  | .raised .timeout => some timedOut
  | .raised _ => none

/-- What a step is for the log of call `i`. -/
def logged (i : Nat) (s : State) (o : Op) : List Entry :=
  match o with
  | .do_ .. => sends i (step s o).2
  | .attempted j exit _ _ backoff =>
      match s.place j, exit.result with
      | some (.attempting n _), some r =>
          if j = i then [.settled n r (step s o).1.dep.budget.tokens backoff] else []
      | _, _ => []
  | .woke .. => sends i (step s o).2
  | .interrupted _ _ => []

/-- The machine, watched for call `i`. -/
def watch (i : Nat) (s : State) (o : Op) : State × List Entry := ((step s o).1, logged i s o)

/-- The steps of call `i` are those of attempts that return or time out, with the
backoffs `random.uniform` gives, and nothing interrupts it. -/
def Answered (i : Nat) (s : State) : Op → Prop
  | .attempted j exit _ _ backoff => j = i → exit.result.isSome = true ∧
      ∀ n permit, s.place i = some (.attempting n permit) → 0 ≤ backoff ∧ backoff ≤ maxBackoff n
  | .interrupted j _ => j ≠ i
  | _ => True

/-! ## Logs -/

/-- A failure another attempt may follow. -/
def Retryable (r : Result) : Prop := classify r false = .unavailable ∨ classify r false =
    .connectFailed

mutual

/-- The log after `n` attempts, each with leave for another. -/
inductive Tried (idempotent : Bool) : Nat → List Entry → Prop
  | none : Tried idempotent 0 []
  | again {n : Nat} {log : List Entry} {r : Result} {tokens : Int} {backoff : Seconds} :
      Sent idempotent n log → idempotent = true → n < 3 → Retryable r → Budget.maximum < 2 *
      tokens → 0 ≤ backoff → backoff ≤ maxBackoff n →
      Tried idempotent n (.settled n r tokens backoff :: log)

/-- The log while attempt `n` is awaited. -/
inductive Sent (idempotent : Bool) : Nat → List Entry → Prop
  | sent {n : Nat} {log : List Entry} {left timeout : Seconds} :
      Tried idempotent n log → 1 / 20 ≤ left → timeout ≤ min 3 (left - 1 / 20) →
      Sent idempotent (n + 1) (.sent (n + 1) (some left) timeout :: log)

end

/-- What a call ends with after its last attempt. -/
def outcome (id : Str) (idempotent : Bool) (r : Result) : Finish :=
  if classify r false = .success then .returned else raiseUpward id idempotent r (classify r false)

/-- The log of a call that ended. -/
inductive Ended (id : Str) (idempotent : Bool) : Finish → List Entry → Prop
  | unsent (e : Raised) : Ended id idempotent (.raised e) []
  | after {n : Nat} {log : List Entry} {r : Result} {tokens : Int} {backoff : Seconds} :
      Sent idempotent n log → Ended id idempotent (outcome id idempotent r)
      (.settled n r tokens backoff :: log)

/-- The log of a call at its place. -/
def Logged (id : Str) (c : Call) (log : List Entry) : Prop :=
  match c.place with
  | .attempting n _ => Sent c.idempotent n log
  | .backingOff n last lastClass => lastClass = classify last false ∧ Tried c.idempotent n log ∧
      ∃ tokens backoff older, log = .settled n last tokens backoff :: older
  | .finished how => Ended id c.idempotent how log

/-! ## One step -/

/-- An attempt has at least 50 ms left and takes no longer than that leaves. -/
theorem attemptTimeout_spec {remaining : Option Seconds} {timeout : Seconds}
    (h : attemptTimeout remaining = some timeout) :
    ∃ left, remaining = some left ∧ 1 / 20 ≤ left ∧ timeout ≤ min 3 (left - 1 / 20) := by
  cases remaining with
  | none => cases h
  | some left =>
      simp only [attemptTimeout] at h
      split at h
      · cases h
      · next hleft =>
        cases h
        exact ⟨left, rfl, not_lt.mp hleft, le_refl _⟩

/-- The head of the loop sends attempt `n`, or ends the call on what came before. -/
theorem attempt_logged (d : Dependency) (i : Nat) (c : Call) {n : Nat} {log : List Entry}
    {last : Result} {lastClass : Class} (remaining : Option Seconds) (now : Seconds)
    (hlog : Tried c.idempotent n log) (hlast : 0 < n → lastClass = classify last false ∧
      ∃ tokens backoff older, log = .settled n last tokens backoff :: older) :
    ∀ r, r = attempt d i c (n + 1) last lastClass remaining now →
      Logged d.id { c with place := r.2.1 } (sends i r.2.2 ++ log) := by
  rintro r rfl
  have hended : ∀ e : Raised, Ended d.id c.idempotent
      (if 1 < n + 1 then raiseUpward d.id c.idempotent last lastClass else .raised e) log := by
    intro e
    cases hlog with
    | none => exact .unsent e
    | again hsent hidem hn hretry htokens hback hmax =>
        obtain ⟨rfl, tokens', backoff', older, heq⟩ := hlast (by cases hsent; omega)
        cases heq
        have hfail : classify last false ≠ .success := by
          rcases hretry with h | h <;> rw [h] <;> exact Class.noConfusion
        have hout : outcome d.id c.idempotent last = raiseUpward d.id c.idempotent last
          (classify last false) :=
          if_neg hfail
        rw [if_pos (by cases hsent; omega), ← hout]
        exact .after hsent
  unfold attempt
  cases htimeout : attemptTimeout remaining with
  | none => exact hended _
  | some timeout =>
      obtain ⟨left, rfl, hleft, hle⟩ := attemptTimeout_spec htimeout
      have hsends : ∀ notes, sends i (.sent i (n + 1) (some left) timeout :: notes) =
          .sent (n + 1) (some left) timeout :: sends i notes := by
        intro notes
        simp [sends]
      have hissued : ∀ permit, sends i [.issued i permit] = [] := fun _ => rfl
      dsimp only
      split
      · rcases d.breaker.start now with ⟨b, _ | permit⟩
        · exact hended _
        · rw [hsends, hissued]
          exact .sent hlog hleft hle
      · rw [hsends]
        exact .sent hlog hleft hle

/-- What a retry needs. -/
theorem shouldRetry_spec {idempotent allows : Bool} {o : RetryOutcome} {n : Nat}
    {remaining : Option Seconds} (h : shouldRetry idempotent o n allows remaining = true) :
    idempotent = true ∧ o ≠ .none ∧ n < 3 ∧ allows = true := by
  unfold shouldRetry at h
  split at h
  · cases h
  · next hout =>
    split at h
    · cases h
    · next hallow =>
      simp only [Bool.or_eq_true, Bool.not_eq_true', decide_eq_true_eq, not_or,
        Bool.not_eq_false] at hout hallow
      exact ⟨hout.1, hout.2, by simpa [maxAttempts] using hallow.1, hallow.2⟩

/-- Only results of the retryable kinds are tried again. -/
theorem retryable_of_retryOutcome {r : Result} (h : (classify r false).retryOutcome ≠ .none) :
    Retryable r := by
  unfold Retryable
  cases hc : classify r false with
  | unavailable => exact .inl rfl
  | connectFailed => exact .inr rfl
  | _ => exact absurd (by rw [hc]; rfl) h

/-- The rest of the loop ends the call with its result, or gives leave for another
attempt. -/
theorem settle_logged (d : Dependency) (i : Nat) (c : Call) {n : Nat} {permit : Option Nat}
    {log : List Entry} {r : Result} {remaining : Option Seconds} {now backoff : Seconds}
    (hlog : Sent c.idempotent n log) (hnonneg : 0 ≤ backoff) (hmax : backoff ≤ maxBackoff n) :
    ∀ x, x = settle d i c n permit r remaining now backoff →
      Logged d.id { c with place := x.2.1 } (.settled n r x.1.budget.tokens backoff :: log) := by
  rintro x rfl
  unfold settle
  dsimp only
  split
  · next hsuccess =>
    have hout : outcome d.id c.idempotent r = .returned := if_pos hsuccess
    exact hout ▸ .after hlog
  · next hfail =>
    split
    · next hretry =>
      obtain ⟨hidem, hout, hn, hallow⟩ := shouldRetry_spec hretry
      have htokens : Budget.maximum < 2 * (d.budget.record (classify r false).budget).tokens := by
        rw [Budget.allowsRetry, decide_eq_true_eq, Budget.threshold] at hallow
        rw [Budget.maximum]
        omega
      exact ⟨rfl, .again hlog hidem hn (retryable_of_retryOutcome hout) htokens hnonneg hmax,
        _, _, _, rfl⟩
    · have hout : outcome d.id c.idempotent r = raiseUpward d.id c.idempotent r
        (classify r false) := if_neg hfail
      exact hout ▸ .after hlog

/-- The call's log so far, wherever the call is. -/
structure Watched (i : Nat) (id : Str) (log : List Entry) (s : State) : Prop where
  dep : s.dep.id = id
  unborn : s.calls[i]? = none → log = []
  call : ∀ c, s.calls[i]? = some c → Logged id c log

/-- A call that goes on changes its place. -/
theorem resume_some {s : State} {j : Nat} {c : Call} (hc : s.calls[j]? = some c)
    {go : Call → Option (Dependency × Place × List Note)} {d : Dependency} {place : Place}
    {notes : List Note} (hgo : go c = some (d, place, notes)) :
    s.resume j go = ({ dep := d, calls := s.calls.set j { c with place } }, notes) := by
  simp only [State.resume, hc, hgo]

theorem resume_none {s : State} {j : Nat} {go : Call → Option (Dependency × Place × List Note)}
    (hgo : ∀ c, s.calls[j]? = some c → go c = none) : s.resume j go = (s, []) := by
  unfold State.resume
  split
  · rfl
  · next c hc => rw [hgo c hc]

section
variable {i : Nat} {id : Str} {log : List Entry} {s : State}

/-- Another call went. -/
theorem Watched.other (h : Watched i id log s) {j : Nat} (hj : j ≠ i)
    {d : Dependency} (hd : d.id = id) (c : Call) :
    Watched i id log { dep := d, calls := s.calls.set j c } := by
  refine ⟨hd, fun hnone => h.unborn ?_, fun c' hc' => h.call c' ?_⟩
  · rwa [List.getElem?_set_ne hj] at hnone
  · rwa [List.getElem?_set_ne hj] at hc'

/-- The call itself went. -/
theorem watched_self {c : Call} (hc : s.calls[i]? = some c) {d : Dependency} (hd : d.id = id)
    {place : Place} {log' : List Entry} (hlog : Logged id { c with place } log') :
    Watched i id log' { dep := d, calls := s.calls.set i { c with place } } := by
  obtain ⟨hi, -⟩ := List.getElem?_eq_some_iff.mp hc
  have hget : (s.calls.set i { c with place })[i]? = some { c with place } :=
    List.getElem?_set_self hi
  refine ⟨hd, fun hnone => ?_, fun c' hc' => ?_⟩
  · rw [hget] at hnone
    cases hnone
  · rw [hget] at hc'
    cases hc'
    exact hlog

/-- A call began. -/
theorem Watched.add (h : Watched i id log s) (c : Call) (r : Dependency × Place × List Note)
    (hd : r.1.id = id) {log' : List Entry} (hother : i ≠ s.calls.length → log' = log)
    (hself : i = s.calls.length → Logged id { c with place := r.2.1 } log') :
    Watched i id log' (s.add c r).1 := by
  refine ⟨hd, fun hnone => ?_, fun c' hc' => ?_⟩
  · have hlength : (s.calls ++ [{ c with place := r.2.1 }]).length ≤ i :=
      List.getElem?_eq_none_iff.mp hnone
    rw [List.length_append, List.length_singleton] at hlength
    rw [hother (by omega)]
    exact h.unborn (List.getElem?_eq_none_iff.mpr (by omega))
  · rcases getElem?_join_cases hc' with hold | ⟨hi, heq⟩
    · have hlt := (List.getElem?_eq_some_iff.mp hold).1
      rw [hother (by omega)]
      exact h.call c' hold
    · rw [heq]
      exact hself hi

/-- What another call sends is not this call's. -/
theorem sends_other {i j : Nat} (hj : j ≠ i) (d : Dependency) (c : Call) (n : Nat)
    (last : Result) (lastClass : Class) (remaining : Option Seconds) (now : Seconds) :
    sends i (attempt d j c n last lastClass remaining now).2.2 = [] := by
  unfold attempt
  cases attemptTimeout remaining with
  | none => rfl
  | some timeout =>
      dsimp only
      split
      · rcases d.breaker.start now with ⟨b, _ | permit⟩
        · rfl
        · simp [sends, hj]
      · simp [sends, hj]

/-- An attempt is made of the same dependency. -/
theorem attempt_id (d : Dependency) (j : Nat) (c : Call) (n : Nat) (last : Result)
    (lastClass : Class) (remaining : Option Seconds) (now : Seconds) :
    (attempt d j c n last lastClass remaining now).1.id = d.id := by
  unfold attempt
  cases attemptTimeout remaining with
  | none => rfl
  | some timeout =>
      dsimp only
      split
      · rcases d.breaker.start now with ⟨b, _ | permit⟩ <;> rfl
      · rfl

/-- A settled attempt was of the same dependency. -/
theorem settle_id (d : Dependency) (j : Nat) (c : Call) (n : Nat) (permit : Option Nat) (r : Result)
    (remaining : Option Seconds) (now backoff : Seconds) :
    (settle d j c n permit r remaining now backoff).1.id = d.id := by
  unfold settle
  dsimp only
  split
  · rfl
  · split <;> rfl

/-- A call that begins keeps the log. -/
theorem Watched.begin_ (h : Watched i id log s) (idempotent viaBreaker inTx : Bool)
    (remaining : Option Seconds) (now : Seconds) :
    Watched i id (sends i (s.begin_ idempotent viaBreaker inTx remaining now).2 ++ log)
      (s.begin_ idempotent viaBreaker inTx remaining now).1 := by
  have hunborn : i = s.calls.length → log = [] := fun hi =>
    h.unborn (List.getElem?_eq_none_iff.mpr (by omega))
  unfold State.begin_
  dsimp only
  split
  · exact h.add _ _ h.dep (fun _ => rfl) fun hi => hunborn hi ▸ .unsent _
  · split
    · exact h.add _ _ h.dep (fun _ => rfl) fun hi => hunborn hi ▸ .unsent _
    · refine h.add _ _ ?_ (fun hi => ?_) fun hi => ?_
      · exact (attempt_id ..).trans h.dep
      · show sends i (attempt _ _ _ _ _ _ _ _).2.2 ++ log = log
        rw [sends_other (Ne.symm hi), List.nil_append]
      · rw [hunborn hi, ← hi, ← h.dep]
        exact attempt_logged { s.dep with inFlight := s.dep.inFlight + 1 } i
          ⟨idempotent, viaBreaker, .finished .returned⟩ remaining now .none
          (fun hpos => absurd hpos (Nat.lt_irrefl 0)) _ rfl

/-- A step of a call that does not run on from its place. -/
theorem Watched.stays (h : Watched i id log s)
    {j : Nat} {go : Call → Option (Dependency × Place × List Note)}
    (hgo : ∀ c, s.calls[j]? = some c → go c = none) : Watched i id log (s.resume j go).1 := by
  rw [resume_none hgo]
  exact h

/-- A call runs on from its place, this one with what its log then is. -/
theorem Watched.runs (h : Watched i id log s) {j : Nat} {c : Call} (hc : s.calls[j]? = some c)
    {go : Call → Option (Dependency × Place × List Note)} {r : Dependency × Place × List Note}
    (hgo : go c = some r) (hd : r.1.id = s.dep.id) {log' : List Entry} (hother : j ≠ i → log' = log)
    (hself : j = i → Logged id { c with place := r.2.1 } log') :
    Watched i id log' (s.resume j go).1 := by
  rw [resume_some hc hgo]
  by_cases hj : j = i
  · subst hj
    exact watched_self hc (hd.trans h.dep) (hself rfl)
  · rw [hother hj]
    exact h.other hj (hd.trans h.dep) _

/-- An attempt that ends keeps the log. -/
theorem Watched.settles (h : Watched i id log s) {j n : Nat} {permit : Option Nat} {c : Call}
    (hc : s.calls[j]? = some c) (hplace : c.place = .attempting n permit)
    {r : Result} {remaining : Option Seconds} {now backoff : Seconds}
    {go : Call → Option (Dependency × Place × List Note)}
    (hgo : go c = some (settle s.dep j c n permit r remaining now backoff))
    (hbackoff : j = i → 0 ≤ backoff ∧ backoff ≤ maxBackoff n) :
    Watched i id ((if j = i then [.settled n r (s.resume j go).1.dep.budget.tokens backoff]
      else []) ++ log) (s.resume j go).1 := by
  refine h.runs hc hgo (settle_id ..) (fun hj => by rw [if_neg hj, List.nil_append]) fun hj => ?_
  subst hj
  have hlog := h.call c hc
  rw [Logged, hplace] at hlog
  rw [if_pos rfl, resume_some hc hgo, ← h.dep]
  exact settle_logged s.dep j c hlog (hbackoff rfl).1 (hbackoff rfl).2 _ rfl

/-- So does a call that goes on after its sleep. -/
theorem Watched.continues (h : Watched i id log s) {j n : Nat} {last : Result}
    {lastClass : Class} {c : Call} (hc : s.calls[j]? = some c)
    (hplace : c.place = .backingOff n last lastClass) {remaining : Option Seconds}
    {now : Seconds} {go : Call → Option (Dependency × Place × List Note)}
    (hgo : go c = some (attempt s.dep j c (n + 1) last lastClass remaining now)) :
    Watched i id (sends i (s.resume j go).2 ++ log) (s.resume j go).1 := by
  have hnotes : (s.resume j go).2 = (attempt s.dep j c (n + 1) last lastClass remaining now).2.2 :=
    congrArg Prod.snd (resume_some hc hgo)
  rw [hnotes]
  refine h.runs hc hgo (attempt_id ..) (fun hj => by rw [sends_other hj, List.nil_append])
    fun hj => ?_
  subst hj
  have hlog := h.call c hc
  rw [Logged, hplace] at hlog
  rw [← h.dep]
  exact attempt_logged s.dep j c remaining now hlog.2.1 (fun _ => ⟨hlog.1, hlog.2.2⟩) _ rfl

/-- So does the answer to an attempt. -/
theorem Watched.attempted (h : Watched i id log s)
    {j : Nat} {exit : Exit} {remaining : Option Seconds}
    {now backoff : Seconds} (ho : Answered i s (.attempted j exit remaining now backoff)) :
    Watched i id (logged i s (.attempted j exit remaining now backoff) ++ log)
      (Calls.step s (.attempted j exit remaining now backoff)).1 := by
  have hplaces : s.place j = s.calls[j]?.map Call.place := rfl
  cases hc : s.calls[j]? with
  | none =>
      rw [logged, hplaces, hc]
      exact h.stays fun c hc' => by rw [hc] at hc'; cases hc'
  | some c =>
      have honly : ∀ {go : Call → Option (Dependency × Place × List Note)}, go c = none →
          Watched i id log (s.resume j go).1 := fun hgo => h.stays fun c' hc' => by
          rw [hc] at hc'; cases hc'; exact hgo
      rw [logged, hplaces, hc, Option.map_some]
      cases hplace : c.place with
      | attempting n permit =>
          have hbackoff : j = i → 0 ≤ backoff ∧ backoff ≤ maxBackoff n := by
            rintro rfl
            exact (ho rfl).2 n permit (by rw [hplaces, hc, Option.map_some, hplace])
          cases hexit : exit with
          | returned r => exact h.settles hc hplace (by simp only [hplace]; rfl) hbackoff
          | raised e =>
              cases e with
              | timeout => exact h.settles hc hplace (by simp only [hplace]; rfl) hbackoff
              | _ =>
                  subst hexit
                  refine h.runs hc (by simp only [hplace]; rfl) rfl (fun _ => rfl) fun hj => ?_
                  exact absurd (ho hj).1 (by simp [Exit.result])
      | backingOff n last lastClass => exact honly (by simp only [hplace])
      | finished how => exact honly (by simp only [hplace])

/-- So does the end of a sleep. -/
theorem Watched.woke (h : Watched i id log s) (j : Nat) (remaining : Option Seconds)
    (now : Seconds) : Watched i id (logged i s (.woke j remaining now) ++ log)
    (Calls.step s (.woke j remaining now)).1 := by
  rw [logged, Calls.step]
  cases hc : s.calls[j]? with
  | none =>
      rw [resume_none fun c hc' => by rw [hc] at hc'; cases hc']
      exact h
  | some c =>
      cases hplace : c.place with
      | backingOff n last lastClass =>
          exact h.continues hc hplace (by simp only [hplace]; rfl)
      | attempting n permit =>
          rw [resume_none fun c' hc' => by rw [hc] at hc'; cases hc'; simp only [hplace]]
          exact h
      | finished how =>
          rw [resume_none fun c' hc' => by rw [hc] at hc'; cases hc'; simp only [hplace]]
          exact h

/-- Every step keeps the log. -/
theorem Watched.step (h : Watched i id log s) {o : Op} (ho : Answered i s o) :
    Watched i id (logged i s o ++ log) (Calls.step s o).1 := by
  cases o with
  | do_ idempotent viaBreaker inTx remaining now =>
      exact h.begin_ idempotent viaBreaker inTx remaining now
  | attempted j exit remaining now backoff => exact h.attempted ho
  | woke j remaining now => exact h.woke j remaining now
  | interrupted j e =>
      have hj : j ≠ i := ho
      unfold Calls.step
      cases hc : s.calls[j]? with
      | none => exact h.stays fun c hc' => by rw [hc] at hc'; cases hc'
      | some c =>
          cases hplace : c.place with
          | backingOff n last lastClass =>
              exact h.runs hc (by simp only [hplace]; rfl) rfl (fun _ => rfl) fun hi => absurd hi hj
          | attempting n permit =>
              exact h.stays fun c' hc' => by rw [hc] at hc'; cases hc'; simp only [hplace]
          | finished how =>
              exact h.stays fun c' hc' => by rw [hc] at hc'; cases hc'; simp only [hplace]

end

/-! ## What the logs say -/

/-- An attempt after the first follows a failure with leave for another. -/
def Follows (n : Nat) (older : List Entry) : Prop :=
  older = [] ∨ ∃ r tokens backoff rest, older = .settled (n - 1) r tokens backoff :: rest ∧
    Retryable r ∧ Budget.maximum < 2 * tokens ∧ 0 ≤ backoff ∧ backoff ≤ min 1 (1 / 10 * 2 ^ (n - 2))

/-- The attempts of a log. -/
structure Kept (idempotent : Bool) (log : List Entry) : Prop where
  count : log.countP Entry.isSent ≤ 3
  once : idempotent = false → log.countP Entry.isSent ≤ 1
  timed : ∀ n remaining timeout, .sent n remaining timeout ∈ log →
    ∃ left, remaining = some left ∧ 1 / 20 ≤ left ∧ timeout ≤ min 3 (left - 1 / 20)
  follows : ∀ n left timeout older, .sent n left timeout :: older <:+ log → Follows n older

/-- An attempt is kept where what came before it is, and it may follow that. -/
theorem Kept.sent {idempotent : Bool} {log : List Entry} (h : Kept idempotent log)
    {n : Nat} {left timeout : Seconds} (hcount : log.countP Entry.isSent < 3)
    (honce : idempotent = false → log.countP Entry.isSent = 0)
    (hleft : 1 / 20 ≤ left) (htimeout : timeout ≤ min 3 (left - 1 / 20))
    (hfollows : Follows n log) : Kept idempotent (.sent n (some left) timeout :: log) := by
  have hsucc : (Entry.sent n (some left) timeout :: log).countP Entry.isSent =
    log.countP Entry.isSent + 1 :=
    List.countP_cons_of_pos rfl
  refine ⟨by omega, fun hidem => ?_, fun m left' timeout' hmem => ?_,
    fun m left' timeout' older hsuffix => ?_⟩
  · have hnone := honce hidem
    omega
  · cases hmem with
    | head => exact ⟨left, rfl, hleft, htimeout⟩
    | tail _ hmem => exact h.timed m left' timeout' hmem
  · rcases List.suffix_cons_iff.mp hsuffix with heq | hold
    · cases heq
      exact hfollows
    · exact h.follows m left' timeout' older hold

/-- The end of an attempt sends nothing. -/
theorem Kept.settled {idempotent : Bool} {log : List Entry} (h : Kept idempotent log)
    (n : Nat) (r : Result) (tokens : Int) (backoff : Seconds) :
    Kept idempotent (.settled n r tokens backoff :: log) := by
  have hsame : (Entry.settled n r tokens backoff :: log).countP Entry.isSent =
    log.countP Entry.isSent :=
    List.countP_cons_of_neg (by simp [Entry.isSent])
  refine ⟨hsame ▸ h.count, fun hidem => hsame ▸ h.once hidem, fun m left timeout hmem => ?_,
    fun m left timeout older hsuffix => ?_⟩
  · cases hmem with
    | tail _ hmem => exact h.timed m left timeout hmem
  · rcases List.suffix_cons_iff.mp hsuffix with heq | hold
    · cases heq
    · exact h.follows m left timeout older hold

/-- The longest sleep before each of the retries. -/
theorem maxBackoff_eq {n : Nat} (hpos : 0 < n) (hn : n < 3) :
    maxBackoff n = min 1 (1 / 10 * 2 ^ (n - 1)) := by
  rw [maxBackoff, if_neg (by omega), Nat.min_eq_left (by omega)]
  rfl

/-- Every result of the log is a failure another attempt may follow. -/
def Failing (log : List Entry) : Prop := ∀ n r tokens backoff, .settled n r tokens backoff ∈
    log → Retryable r

mutual

/-- After attempts that failed the rules were kept. -/
theorem Tried.kept {idempotent : Bool} : ∀ {n : Nat} {log : List Entry}, Tried idempotent n log →
    (log.countP Entry.isSent = n ∧ n < 3 ∧ (idempotent = false → n = 0) ∧ Follows (n + 1) log) ∧
      Kept idempotent log ∧ Failing log
  | _, _, .none => by
      refine ⟨⟨rfl, by decide, fun _ => rfl, .inl rfl⟩, ⟨by decide, fun _ => by decide, ?_, ?_⟩, ?_⟩
      · intro n left timeout hmem
        cases hmem
      · intro n left timeout older hsuffix
        cases List.suffix_nil.mp hsuffix
      · intro n r tokens backoff hmem
        cases hmem
  | _, _, .again hsent hidem hn hretry htokens hnonneg hmax => by
      obtain ⟨⟨hcount, hpos⟩, hkept, hfailing⟩ := hsent.kept
      rw [maxBackoff_eq hpos hn] at hmax
      refine ⟨⟨?_, hn, ?_, .inr ⟨_, _, _, _, rfl, hretry, htokens, hnonneg, hmax⟩⟩,
        hkept.settled .., ?_⟩
      · rw [List.countP_cons_of_neg (by simp [Entry.isSent]), hcount]
      · rw [hidem]
        exact fun h => by cases h
      · intro m r tokens backoff hmem
        cases hmem with
        | head => exact hretry
        | tail _ hmem => exact hfailing m r tokens backoff hmem

/-- So they were while an attempt is under way. -/
theorem Sent.kept {idempotent : Bool} : ∀ {n : Nat} {log : List Entry}, Sent idempotent n log →
    (log.countP Entry.isSent = n ∧ 0 < n) ∧ Kept idempotent log ∧ Failing log
  | _, _, .sent htried hleft htimeout => by
      obtain ⟨⟨hcount, hn, honce, hfollows⟩, hkept, hfailing⟩ := htried.kept
      refine ⟨⟨?_, by omega⟩, hkept.sent (by omega) (fun h => hcount.trans (honce h)) hleft
        htimeout hfollows, ?_⟩
      · rw [List.countP_cons_of_pos rfl, hcount]
      · intro m r tokens backoff hmem
        cases hmem with
        | tail _ hmem => exact hfailing m r tokens backoff hmem

end

/-- What is kept of a call's attempts, and what the call ends with. -/
structure AttemptsKept (id : Str) (c : Call) (log : List Entry) :
    Prop extends Kept c.idempotent log where
  success : ∀ n r tokens backoff older, .settled n r tokens backoff :: older <:+ log →
    classify r false = .success → log = .settled n r tokens backoff :: older
  unsent : c.place = .finished .returned → log ≠ []
  ended : ∀ how, c.place = .finished how → log ≠ [] → ∃ n r tokens backoff older,
    log = .settled n r tokens backoff :: older ∧ (how = .returned ↔ classify r false = .success) ∧
      (classify r false ≠ .success → ∃ e, upward (classify r false) r c.idempotent id = some e ∧
        how = .raised (.error e) ∧
        (classify r false = .deadline → c.idempotent = false → e.reason = str "RESULT_UNKNOWN"))

/-- A retryable failure is no success. -/
theorem Retryable.ne_success {r : Result} (h : Retryable r) : classify r false ≠ .success := by
  rcases h with h | h <;> rw [h] <;> exact Class.noConfusion

/-- No attempt of a failing log succeeded. -/
theorem Failing.no_success {log : List Entry} (h : Failing log)
    {n : Nat} {r : Result} {tokens : Int} {backoff : Seconds}
    {older : List Entry} (hsuffix : .settled n r tokens backoff :: older <:+ log) :
    classify r false ≠ .success :=
  (h n r tokens backoff (hsuffix.subset (List.mem_cons_self ..))).ne_success

/-- A deadline is passed on as an unknown result. -/
theorem upward_deadline {r : Result} {id : Str} {e : Errs.Error}
    (h : upward .deadline r false id = some e) : e.reason = str "RESULT_UNKNOWN" := by
  have hreason : str "RESULT_UNKNOWN" ∈ platform.map Entry.reason := by simp [platform]
  simp only [upward, Bool.false_eq_true, if_false, Option.some.injEq] at h
  rw [← h, Errs.with_reason, Errs.new_reason hreason]

/-- What a call ends with, by the class of its last result. -/
theorem outcome_spec (id : Str) (idempotent : Bool) (r : Result) :
    (outcome id idempotent r = .returned ↔ classify r false = .success) ∧
      (classify r false ≠ .success → ∃ e, upward (classify r false) r idempotent id = some e ∧
        outcome id idempotent r = .raised (.error e) ∧
        (classify r false = .deadline → idempotent = false → e.reason = str "RESULT_UNKNOWN")) := by
  by_cases hsuccess : classify r false = .success
  · rw [outcome, if_pos hsuccess]
    exact ⟨iff_of_true rfl hsuccess, fun h => absurd hsuccess h⟩
  · obtain ⟨e, he⟩ := Option.isSome_iff_exists.mp (upward_isSome hsuccess r idempotent id)
    have hraise : raiseUpward id idempotent r (classify r false) = .raised (.error e) := by
      rw [raiseUpward, he]
      rfl
    rw [outcome, if_neg hsuccess, hraise]
    refine ⟨iff_of_false (fun h => by cases h) hsuccess, fun _ => ⟨e, he, rfl, ?_⟩⟩
    intro hdeadline hidem
    rw [hdeadline, hidem] at he
    exact upward_deadline he

/-- The log of any call keeps the rules. -/
theorem Logged.kept {id : Str} {c : Call} {log : List Entry} (h : Logged id c log) :
    AttemptsKept id c log := by
  unfold Logged at h
  cases hplace : c.place with
  | attempting n permit =>
      rw [hplace] at h
      obtain ⟨-, hkept, hfailing⟩ := h.kept
      exact ⟨hkept, fun n r tokens backoff older hsuffix hsuccess => absurd hsuccess
        (hfailing.no_success hsuffix), fun h => (by rw [hplace] at h; cases h),
        fun how h => (by rw [hplace] at h; cases h)⟩
  | backingOff n last lastClass =>
      rw [hplace] at h
      obtain ⟨-, hkept, hfailing⟩ := h.2.1.kept
      exact ⟨hkept, fun n r tokens backoff older hsuffix hsuccess => absurd hsuccess
        (hfailing.no_success hsuffix), fun h => (by rw [hplace] at h; cases h),
        fun how h => (by rw [hplace] at h; cases h)⟩
  | finished how =>
      rw [hplace] at h
      cases h with
      | unsent e =>
          refine ⟨(Tried.none).kept.2.1, ?_, fun h => ?_, fun how' _ hne => absurd rfl hne⟩
          · intro n r tokens backoff older hsuffix
            cases List.suffix_nil.mp hsuffix
          · rw [hplace] at h
            cases h
      | after hsent =>
          obtain ⟨-, hkept, hfailing⟩ := hsent.kept
          refine ⟨hkept.settled .., ?_, fun _ => List.cons_ne_nil _ _, fun how' hplace' _ => ?_⟩
          · intro m r tokens backoff older hsuffix hsuccess
            rcases List.suffix_cons_iff.mp hsuffix with heq | hold
            · exact heq.symm
            · exact absurd hsuccess (hfailing.no_success hold)
          · rw [hplace] at hplace'
            cases hplace'
            exact ⟨_, _, _, _, _, rfl, outcome_spec id c.idempotent _⟩

/-- **A call's attempts** keep to its deadline and to the retry rules, whatever the
other calls of the dependency do meanwhile to its breaker and its budget. -/
theorem attempts_kept {i : Nat} {d : Dependency} {h : List (List Entry)} {s : State}
    (hr : Reach (watch i) (Answered i) { dep := d } h s) {c : Call} (hc : s.calls[i]? = some c) :
    AttemptsKept d.id c h.flatten := by
  have hstart : Watched i d.id [] { dep := d } := ⟨rfl, fun _ => rfl, fun c hc => by cases hc⟩
  have hs : Watched i d.id h.flatten s :=
    @Reach.invariant State Op (List Entry) (watch i) (Answered i) { dep := d }
      (fun h s => Watched i d.id h.flatten s) hstart (fun h s o ho hs => hs.step ho) h s hr
  exact (hs.call c hc).kept

/-! ## A call that is retried -/

instance (i : Nat) (s : State) : (o : Op) → Decidable (Answered i s o)
  | .attempted j exit _ _ backoff =>
      have : Decidable (∀ n permit, s.place i = some (.attempting n permit) → 0 ≤ backoff ∧
        backoff ≤ maxBackoff n) :=
        match h : s.place i with
        | some (.attempting n permit) => decidable_of_iff (0 ≤ backoff ∧ backoff ≤ maxBackoff n)
            ⟨fun hb _ _ heq => by cases heq; exact hb, fun hall => hall n permit rfl⟩
        | some (.backingOff _ _ _) => isTrue fun _ _ heq => by cases heq
        | some (.finished _) => isTrue fun _ _ heq => by cases heq
        | none => isTrue fun _ _ heq => by cases heq
      inferInstanceAs (Decidable (j = i → exit.result.isSome = true ∧
        ∀ n permit, s.place i = some (.attempting n permit) → 0 ≤ backoff ∧ backoff ≤ maxBackoff n))
  | .interrupted j _ => inferInstanceAs (Decidable (j ≠ i))
  | .do_ .. => isTrue trivial
  | .woke .. => isTrue trivial

/-- A dependency that was unavailable once, and then did not answer in time. -/
def retried : List Op := [
  .do_ true true false (some 10) 0,
  .attempted 0 (.returned { err := some .other, code := some .unavailable }) (some 9) 1 (1 / 20),
  .woke 0 (some 8) 2,
  .attempted 0 (.raised .timeout) (some 5) 5 0]

theorem attempts_kept_retried : ∃ h s c, Reach (watch 0) (Answered 0) { dep := { id := [] } } h s ∧
    s.calls[0]? = some c ∧ h.flatten.countP Entry.isSent = 2 ∧ AttemptsKept [] c h.flatten := by
  have hall : allAllowed (watch 0) (Answered 0) { dep := { id := [] } } retried = true := by
    decide +kernel
  have hr := reach_of_allAllowed retried hall
  have hcall : ((runOps (watch 0) { dep := { id := [] } } retried).2.calls[0]?).isSome =
    true := by decide +kernel
  obtain ⟨c, hc⟩ := Option.isSome_iff_exists.mp hcall
  exact ⟨_, _, c, hr, hc, by decide +kernel, attempts_kept hr hc⟩

end BeSdk.Calls
