/-
BeSdk.Audit.DenialTheorems — when every recorded denial is counted.

A window has its denials in two places: a detail row for each of the first twenty, and
the number past them in its own row, until a flush writes a summary with that number and
marks the window for good. A denial that is counted after the mark is in no summary, and
a flush may finish while another, which has the window, is not through: both are steps
that `Proper` leaves out. In a run of proper steps the summaries of a window that is
marked have its number past the budget (`Row.sums`), and a flush that finished has seen
every window whose denials had ended when it began (`Flush.Ok.cover`).

* `denials_counted`: in every run of proper steps every denial is counted.
* `denial_lost`: one that commits after the summary is not.
-/
import BeSdk.Audit.Denial

namespace BeSdk.Audit.Denial

/-! ## What is counted -/

/-- The denials of a window that committed. -/
def State.committed (s : State) (k : Key) : Nat :=
  s.denials.countP fun d => d.stage == .committed && decide (d.window = k)

def Entry.isDetail (k : Key) : Entry → Bool
  | .detail j => decide (j = k)
  | .summary _ _ _ _ => false

/-- The count of a summary row of the window. -/
def Entry.count (k : Key) : Entry → Nat
  | .detail _ => 0
  | .summary j n _ _ => if j = k then n else 0

/-- The detail rows of a window. -/
def State.details (s : State) (k : Key) : Nat := s.log.countP (Entry.isDetail k)

/-- The counts in the summary rows of a window. -/
def State.summed (s : State) (k : Key) : Nat := (s.log.map (Entry.count k)).sum

/-- Every denial of the window is counted, and the details are within the budget. -/
def State.Counted (s : State) (k : Key) : Prop :=
  s.details k + s.summed k = s.committed k ∧ s.details k ≤ denialBudget

/-- The flush began after the denials of the window: those called before had ended, and
none was called since. -/
def Flush.After (s : State) (f : Flush) (k : Key) : Prop :=
  k ∉ f.unsettled ∧ k ∉ (s.denials.map Call.window).drop f.calls

instance (s : State) (f : Flush) (k : Key) :
    Decidable (f.After s k) := inferInstanceAs (Decidable (_ ∧ _))

/-- A flush has finished that began after the denials of the window, later than its
minute. -/
def State.Settled (s : State) (k : Key) : Prop :=
  ∃ f ∈ s.flushes, f.progress = .finished ∧ k.minute < minuteOf f.now ∧ f.After s k

instance (s : State) (k : Key) : Decidable (s.Counted k) := inferInstanceAs (Decidable (_ ∧ _))

instance (s : State) (k : Key) : Decidable (s.Settled k) := inferInstanceAs
    (Decidable (∃ f ∈ s.flushes, _ ∧ _ ∧ _))

/-- A step that loses no denial: none commits on a window that is summarized, and no flush
that began after the denials of a window finishes while the window, which it skipped
because another flush had it, is not summarized. -/
def State.Proper (s : State) : Op → Prop
  | .commit i => ∀ d ∈ s.denials[i]?, d.stage = .counting → (s.window d.window).summarized = false
  | .finish i => ∀ f ∈ s.flushes[i]?, f.progress = .running → ∀ k ∈ f.skipped, f.After s k →
      (s.window k).summarized = true
  | .call _ _ _ | .count _ | .again _ | .fail _ | .select _ | .abort _ => True

instance (s : State) (o : Op) : Decidable (s.Proper o) := by
  cases o <;> unfold State.Proper <;> infer_instance

/-! ## Tables -/

theorem window_set {s s' : State} {k : Key} {w : Window} (h : s'.table = s.table.set k w)
    (j : Key) : s'.window j = if j = k then w else s.window j := by
  rw [State.window, h, Dict.get?_set]
  split
  · rfl
  · rfl

theorem get?_mark (table : Dict Key Window) (k j : Key) :
    (mark table k).get? j = (table.get? j).map fun w => if j = k then
    { w with summarized := true } else w := by
  unfold mark
  cases hk : table.get? k with
  | none =>
      by_cases hj : j = k
      · rw [hj, hk]; rfl
      · simp [hj]
  | some w =>
      rw [Dict.get?_set]
      by_cases hj : j = k
      · simp [hj, hk]
      · simp [hj]

/-- Marking windows changes their mark only. -/
theorem get?_marks (ks : List Key) (table : Dict Key Window) (j : Key) :
    (ks.foldl mark table).get? j = (table.get? j).map fun w => if j ∈ ks then
    { w with summarized := true } else w := by
  induction ks generalizing table with
  | nil => simp
  | cons k ks ih =>
      rw [List.foldl_cons, ih, get?_mark, Option.map_map]
      congr 1
      funext w
      by_cases hk : j = k <;> by_cases hks : j ∈ ks <;> simp [hk, hks]

/-- A window after a flush. -/
theorem window_flush (s : State) (f : Flush) (j : Key)
    (hrow : ∀ x ∈ f.taken, s.window x.1 = x.2) (hover : ∀ x ∈ f.taken,
    0 < x.2.overflow) :
    (s.flush f).window j = if j ∈ f.taken.map Prod.fst then { s.window j with summarized :=
      true } else s.window j := by
  rw [State.window, State.flush, get?_marks]
  cases hj : s.table.get? j with
  | some w => simp only [Option.map_some, Option.getD_some, State.window, hj]
  | none =>
      have hwindow : s.window j = {} := by rw [State.window, hj]; rfl
      have hnot : j ∉ f.taken.map Prod.fst := by
        intro hmem
        obtain ⟨x, hx, rfl⟩ := List.mem_map.mp hmem
        have hpos := hover x hx
        rw [← hrow x hx, hwindow] at hpos
        exact absurd hpos (by decide)
      rw [if_neg hnot, hwindow]
      rfl

/-- The summaries that a flush writes for a window: the one it took. -/
theorem sum_summaries (k : Key) : ∀ {taken : List (Key × Window)}, (taken.map Prod.fst).Nodup →
    ((taken.map summaryOf).map (Entry.count k)).sum = ((lookup k taken).map Window.overflow).getD 0
  | [], _ => rfl
  | (j, w) :: taken, hnodup => by
      obtain ⟨hnotin, hnodup⟩ := List.nodup_cons.mp hnodup
      rw [List.map_cons, List.map_cons, List.sum_cons, sum_summaries k hnodup, lookup]
      by_cases hj : j = k
      · subst hj
        rw [if_pos rfl, lookup_eq_none_iff.mpr hnotin]
        simp [summaryOf, Entry.count]
      · rw [if_neg hj]
        simp [summaryOf, Entry.count, hj]

/-- How a count changes with one element of a list. -/
theorem countP_set {α : Type} {p : α → Bool} : ∀ {l : List α} {i : Nat} {a b : α}, l[i]? = some a →
    (l.set i b).countP p + (if p a then 1 else 0) = l.countP p + if p b then 1 else 0
  | x :: l, 0, a, b, h => by
      obtain rfl : x = a := Option.some.inj h
      rw [List.set_cons_zero, List.countP_cons, List.countP_cons]
      omega
  | x :: l, i + 1, a, b, h => by
      have ih := countP_set (b := b) (p := p) (l := l) (i := i) (a := a) h
      rw [List.set_cons_succ, List.countP_cons, List.countP_cons]
      omega

/-! ## The invariant -/

/-- What the row and the log say of a window is what was committed. -/
structure Row (s : State) (k : Key) : Prop where
  detailed : (s.window k).detailed = s.committed k
  overflow : (s.window k).overflow = s.committed k - denialBudget
  details : s.details k = min (s.committed k) denialBudget
  sums : s.summed k = if (s.window k).summarized then (s.window k).overflow else 0

structure Flush.Ok (s : State) (f : Flush) : Prop where
  calls : f.calls ≤ s.denials.length
  early : ∀ i d, s.denials[i]? = some d → i < f.calls → d.isOpen = true → d.window ∈ f.unsettled
  once : (f.taken.map Prod.fst).Nodup
  rows : f.progress = .running → ∀ x ∈ f.taken, s.window x.1 = x.2 ∧ x.2.summarized = false ∧
    0 < x.2.overflow
  cover : f.progress ≠ .failed → ∀ k, k.minute < minuteOf f.now → f.After s k →
    (s.window k).overflow = 0 ∨ (s.window k).summarized = true ∨
    (f.progress = .running ∧ (k ∈ f.taken.map Prod.fst ∨ k ∈ f.skipped))

structure Sound (s : State) : Prop where
  rows : ∀ k, Row s k
  flushes : ∀ f ∈ s.flushes, f.Ok s
  /-- Two running flushes took no window both. -/
  alone : ∀ (i j : Nat) (f g : Flush), s.flushes[i]? = some f → s.flushes[j]? = some g →
    f.progress = .running → g.progress = .running → ∀ k ∈ f.taken.map Prod.fst, k ∈
    g.taken.map Prod.fst → i = j
  counting : ∀ d ∈ s.denials, d.stage = .counting → s.flushing d.window = false

theorem sound_start : Sound start where
  rows _ := ⟨rfl, rfl, rfl, rfl⟩
  flushes := nofun
  alone i j f g hf := by cases hf
  counting := nofun

/-! ### Locks -/

/-- A window is being flushed where a running flush took it. -/
theorem flushing_iff {s : State} {k : Key} :
    s.flushing k = true ↔ ∃ f ∈ s.flushes, f.progress = .running ∧ k ∈ f.taken.map Prod.fst := by
  simp [State.flushing]

/-- It is not where no running flush took it. -/
theorem flushing_eq_false_iff {s : State} {k : Key} :
    s.flushing k = false ↔ ∀ f ∈ s.flushes, f.progress = .running → k ∉ f.taken.map Prod.fst := by
  rw [Bool.eq_false_iff, Ne, flushing_iff]
  constructor
  · exact fun h f hf hrun hk => h ⟨f, hf, hrun, hk⟩
  · rintro h ⟨f, hf, hrun, hk⟩
    exact h f hf hrun hk

theorem locked_eq_false_iff {s : State} {k : Key} :
    s.locked k = false ↔ s.flushing k = false ∧ ∀ d ∈ s.denials, d.stage = .counting →
    d.window ≠ k := by
  simp [State.locked]

/-! ### Denials -/

/-- A denial that goes on stays in its window. -/
theorem windows_set {l : List Call} {i : Nat} {d : Call} (hd : l[i]? = some d) (stage : Stage) :
    (l.set i { d with stage }).map Call.window = l.map Call.window := by
  obtain ⟨hlt, rfl⟩ := List.getElem?_eq_some_iff.mp hd
  have hmap : i < (l.map Call.window).length := by rwa [List.length_map]
  have hwindow : Call.window { l[i] with stage } = (l.map Call.window)[i] := by simp [Call.window]
  rw [List.map_set, hwindow, List.set_getElem_self]

theorem after_denial {s s' : State} (hwindows : s'.denials.map Call.window =
    s.denials.map Call.window) (f : Flush) (k : Key) : f.After s' k ↔ f.After s k := by
  rw [Flush.After, Flush.After, hwindows]

/-- The denials that a flush had to wait for, when one goes on. -/
theorem early_set {f : Flush} {s : State} (hf : f.Ok s)
    {i : Nat} {d : Call} (hd : s.denials[i]? = some d) {stage : Stage}
    (hopen : Call.isOpen { d with stage } = true → d.isOpen = true) :
    ∀ j e, (s.denials.set i { d with stage })[j]? = some e → j < f.calls → e.isOpen = true →
    e.window ∈ f.unsettled := by
  intro j e he hj heopen
  rcases getElem?_set_cases he with ⟨rfl, rfl⟩ | ⟨-, he⟩
  · exact hf.early j d hd hj (hopen heopen)
  · exact hf.early j e he hj heopen

/-- A denial that commits adds one to its window. -/
theorem committed_set {s : State} {i : Nat} {d : Call} (hd : s.denials[i]? = some d)
    (hnot : d.stage ≠ .committed) (stage : Stage) (k : Key) :
    (s.denial i d stage).committed k = s.committed k + if stage = .committed ∧
    d.window = k then 1 else 0 := by
  have hset := countP_set (p := fun d : Call => d.stage == .committed &&
    decide (d.window = k)) (b := { d with stage }) hd
  rw [if_neg (by simp [hnot]), Nat.add_zero] at hset
  simp only [Bool.and_eq_true, beq_iff_eq, decide_eq_true_iff] at hset
  exact hset

/-- A denial goes on, but does not commit. -/
theorem Sound.denial {s : State} (hs : Sound s)
    {i : Nat} {d : Call} (hd : s.denials[i]? = some d) {stage : Stage}
    (hbefore : d.isOpen = true) (hnext : stage ≠ .committed)
    (hcounting : stage = .counting → s.flushing d.window = false) :
    Sound (s.denial i d stage) := by
  have hnot : d.stage ≠ .committed := by
    rintro heq
    rw [Call.isOpen, heq] at hbefore
    cases hbefore
  have hcommitted : ∀ k, (s.denial i d stage).committed k = s.committed k := fun k => by
    rw [committed_set hd hnot, if_neg (fun h => hnext h.1), Nat.add_zero]
  constructor
  · intro k
    obtain ⟨h₁, h₂, h₃, h₄⟩ := hs.rows k
    rw [← hcommitted k] at h₁ h₂ h₃
    exact ⟨h₁, h₂, h₃, h₄⟩
  · intro f hf
    have hok := hs.flushes f hf
    refine ⟨by rw [State.denial, List.length_set]; exact hok.calls,
      early_set hok hd fun _ => hbefore, hok.once, hok.rows, ?_⟩
    intro hrun k hk hafter
    rw [after_denial (windows_set hd stage)] at hafter
    exact hok.cover hrun k hk hafter
  · exact hs.alone
  · intro e he hstage
    obtain ⟨j, hj⟩ := List.getElem?_of_mem he
    rcases getElem?_set_cases hj with ⟨rfl, rfl⟩ | ⟨-, hj⟩
    · exact hcounting hstage
    · exact hs.counting e (List.mem_of_getElem? hj) hstage

/-- A call changes nothing yet. -/
theorem Sound.call {s : State} (hs : Sound s) (d : Call) (hd : d.stage = .called) :
    Sound { s with denials := s.denials ++ [d] } := by
  constructor
  · intro k
    have hcommitted : ({ s with denials := s.denials ++ [d] } : State).committed k =
      s.committed k := by
      simp [State.committed, List.countP_append, hd]
    obtain ⟨h₁, h₂, h₃, h₄⟩ := hs.rows k
    rw [← hcommitted] at h₁ h₂ h₃
    exact ⟨h₁, h₂, h₃, h₄⟩
  · intro f hf
    have hok := hs.flushes f hf
    refine ⟨?_, fun j e he hj => ?_, hok.once, hok.rows,
      fun hrun k hk hafter => hok.cover hrun k hk ⟨hafter.1, fun h => hafter.2 ?_⟩⟩
    · have := hok.calls
      rw [List.length_append]
      omega
    · rw [List.getElem?_append_left (hj.trans_le hok.calls)] at he
      exact hok.early j e he hj
    · rw [List.map_append, List.drop_append]
      exact List.mem_append_left _ h
  · exact hs.alone
  · intro e he hstage
    rcases List.mem_append.mp he with he | he
    · exact hs.counting e he hstage
    · rw [List.mem_singleton.mp he, hd] at hstage
      cases hstage

theorem window_deny_of_ne {s : State} {d : Call} {k : Key} (hk : k ≠ d.window) :
    (s.deny d).window k = s.window k := by
  unfold State.deny
  simp only
  split
  · exact (window_set rfl k).trans (if_neg hk)
  · exact (window_set rfl k).trans (if_neg hk)

/-- What a commit does to the row of its window. -/
theorem window_deny (s : State) (d : Call) (k : Key) :
    ((s.deny d).window k).summarized = (s.window k).summarized ∧
    ((s.deny d).window k).detailed = (s.window k).detailed + (if k = d.window then 1 else 0) ∧
    ((s.deny d).window k).overflow = (s.window k).overflow +
      (if k = d.window ∧ denialBudget ≤ (s.window k).detailed then 1 else 0) := by
  by_cases hk : k = d.window
  · subst hk
    by_cases hle : (s.window d.window).detailed + 1 ≤ denialBudget
    · have htable : (s.deny d).table = s.table.set d.window
          { s.window d.window with detailed := (s.window d.window).detailed + 1 } := by
          simp only [State.deny, if_pos hle]
      rw [window_set htable, if_pos rfl, if_pos rfl, if_neg (by omega)]
      exact ⟨rfl, rfl, rfl⟩
    · have htable : (s.deny d).table = s.table.set d.window { s.window d.window with
          detailed := (s.window d.window).detailed + 1, overflow := (s.window d.window).overflow + 1
          firstAt := (s.window d.window).firstAt.or (some d.now), lastAt := some d.now } := by
        simp only [State.deny, if_neg hle]
      rw [window_set htable, if_pos rfl, if_pos rfl, if_pos ⟨rfl, by omega⟩]
      exact ⟨rfl, rfl, rfl⟩
  · rw [window_deny_of_ne hk, if_neg hk, if_neg fun h => hk h.1]
    exact ⟨rfl, rfl, rfl⟩

/-- A denial is detailed while its window is within the budget. -/
theorem details_deny (s : State) (d : Call) (k : Key) : (s.deny d).details k = s.details k +
    (if k = d.window ∧ (s.window k).detailed < denialBudget then 1 else 0) := by
  unfold State.deny State.details
  simp only
  split
  · rename_i hle
    by_cases hk : k = d.window
    · subst hk
      rw [if_pos ⟨rfl, hle⟩, List.countP_append]
      simp [Entry.isDetail]
    · rw [if_neg fun h => hk h.1, List.countP_append]
      simp [Entry.isDetail, Ne.symm hk]
  · rename_i hle
    rw [if_neg (by rintro ⟨rfl, hlt⟩; exact hle hlt)]
    rfl

theorem summed_deny (s : State) (d : Call) (k : Key) : (s.deny d).summed k = s.summed k := by
  unfold State.deny State.summed
  simp only
  split
  · simp [Entry.count]
  · rfl

@[simp] theorem denials_deny (s : State) (d : Call) : (s.deny d).denials = s.denials := by
  unfold State.deny
  simp only
  split <;> rfl

@[simp] theorem flushes_deny (s : State) (d : Call) : (s.deny d).flushes = s.flushes := by
  unfold State.deny
  simp only
  split <;> rfl

/-- A denial keeps what is counted of each window. -/
theorem Row.deny {s : State} {d : Call} {k : Key} (hs : Row s k)
    (hunsummarized : (s.window d.window).summarized = false)
    {s' : State} (hwindow : s'.window k = (s.deny d).window k) (hlog : s'.log = (s.deny d).log)
    (hcommitted : s'.committed k = s.committed k + if d.window = k then 1 else 0) : Row s' k := by
  obtain ⟨hsummarized, hdetailed, hoverflow⟩ := window_deny s d k
  have hdetails := details_deny s d k
  have hsummed := summed_deny s d k
  rw [State.details, ← hlog, ← State.details] at hdetails
  rw [State.summed, ← hlog, ← State.summed] at hsummed
  obtain ⟨h₁, h₂, h₃, h₄⟩ := hs
  rw [← hwindow] at hsummarized hdetailed hoverflow
  by_cases hk : k = d.window
  · subst hk
    rw [if_pos rfl] at hdetailed hcommitted
    rw [hunsummarized] at h₄ hsummarized
    simp only [true_and] at hoverflow hdetails
    refine ⟨by omega, ?_, ?_, ?_⟩
    · split at hoverflow <;> omega
    · split at hdetails <;> omega
    · rw [hsummed, h₄, hsummarized]
      rfl
  · rw [if_neg hk] at hdetailed
    rw [if_neg (Ne.symm hk)] at hcommitted
    rw [if_neg fun h => hk h.1] at hoverflow hdetails
    refine ⟨by omega, by omega, by omega, ?_⟩
    rw [hsummed, h₄, hsummarized, hoverflow, Nat.add_zero]

/-- A denial of a window that is not summarized commits. -/
theorem Sound.commit {s : State} (hs : Sound s)
    {i : Nat} {d : Call} (hd : s.denials[i]? = some d) (hstage : d.stage = .counting)
    (hproper : (s.window d.window).summarized = false) :
    Sound ((s.deny d).denial i d .committed) := by
  have hfree := hs.counting d (List.mem_of_getElem? hd) hstage
  have hopen : d.isOpen = true := by rw [Call.isOpen, hstage]; rfl
  have hdenials : ((s.deny d).denial i d .committed).denials = s.denials.set i
    { d with stage := .committed } := by
    rw [State.denial, denials_deny]
  have hflushes : ((s.deny d).denial i d .committed).flushes = s.flushes := flushes_deny s d
  have hwindow : ∀ k, ((s.deny d).denial i d .committed).window k = (s.deny d).window k :=
    fun _ => rfl
  have hwindows := windows_set hd .committed
  rw [← hdenials] at hwindows
  have hlog : ((s.deny d).denial i d .committed).log = (s.deny d).log := rfl
  generalize (s.deny d).denial i d .committed = s' at hdenials hflushes hwindow hwindows hlog
  constructor
  · intro k
    have hcommitted := committed_set hd (by rw [hstage]; decide) .committed k
    rw [State.committed, State.denial, ← hdenials, ← State.committed] at hcommitted
    simp only [true_and] at hcommitted
    exact (hs.rows k).deny hproper (hwindow k) hlog hcommitted
  · intro f hf
    rw [hflushes] at hf
    have hok := hs.flushes f hf
    refine ⟨by rw [hdenials, List.length_set]; exact hok.calls, ?_, hok.once,
      fun hrun x hx => ?_, fun hrun k hk hafter => ?_⟩
    · rw [hdenials]
      exact early_set hok hd fun _ => hopen
    · have hne : x.1 ≠ d.window := by
        rintro heq
        exact flushing_eq_false_iff.mp hfree f hf hrun (heq ▸ List.mem_map_of_mem hx)
      rw [hwindow, window_deny_of_ne hne]
      exact hok.rows hrun x hx
    · rw [after_denial hwindows] at hafter
      have hne : k ≠ d.window := by
        rintro rfl
        rcases Nat.lt_or_ge i f.calls with hlt | hge
        · exact hafter.1 (hok.early i d hd hlt hopen)
        · refine hafter.2 (List.mem_of_getElem? (i := i - f.calls) ?_)
          rw [List.getElem?_drop, Nat.add_sub_cancel' hge, List.getElem?_map, hd]
          rfl
      rw [hwindow, window_deny_of_ne hne]
      exact hok.cover hrun k hk hafter
  · rw [hflushes]
    exact hs.alone
  · intro e he hcounting
    rw [hdenials] at he
    obtain ⟨j, hj⟩ := List.getElem?_of_mem he
    rcases getElem?_set_cases hj with ⟨rfl, rfl⟩ | ⟨-, hj⟩
    · cases hcounting
    · rw [State.flushing, hflushes]
      exact hs.counting e (List.mem_of_getElem? hj) hcounting

/-! ### Flushes -/

theorem mem_due {s : State} {now : Nat} {x : Key × Window} : x ∈ s.due now ↔
    x ∈ s.table.entries ∧ 0 < x.2.overflow ∧ x.2.summarized = false ∧
    x.1.minute < minuteOf now := by
  simp [State.due, and_assoc]

theorem window_of_mem {s : State} {x : Key × Window} (hx : x ∈ s.table.entries) :
    s.window x.1 = x.2 := by
  have hget : s.table.get? x.1 = some x.2 := Dict.get?_eq_some_iff.mpr hx
  rw [State.window, hget]
  rfl

/-- A window that is past the budget and not summarized is due, once its minute is over. -/
theorem due_of_window {s : State} {now : Nat} {k : Key} (hover : (s.window k).overflow ≠ 0)
    (hunsummarized : (s.window k).summarized = false) (hk : k.minute < minuteOf now) :
    ∃ x ∈ s.due now, x.1 = k := by
  cases hget : s.table.get? k with
  | none =>
      rw [State.window, hget] at hover
      exact absurd rfl hover
  | some w =>
      rw [State.window, hget] at hover hunsummarized
      exact ⟨(k, w), mem_due.mpr ⟨Dict.get?_eq_some_iff.mp hget, Nat.pos_of_ne_zero hover,
        hunsummarized, hk⟩, rfl⟩

/-- A new flush takes, skips or waits for every window that it should see. -/
theorem Flush.Ok.select (s : State) (now : Nat) : (s.select now).Ok s where
  calls := Nat.le_refl _
  early i d hd _ hopen := List.mem_map_of_mem (List.mem_filter.mpr ⟨List.mem_of_getElem? hd, hopen⟩)
  once := by
    have hsub : ((s.select now).taken.map Prod.fst).Sublist s.table.keys :=
      (List.filter_sublist.trans List.filter_sublist).map Prod.fst
    exact hsub.nodup s.table.nodup
  rows _ x hx := by
    obtain ⟨hmem, hover, hunsummarized, -⟩ := mem_due.mp (List.mem_of_mem_filter hx)
    exact ⟨window_of_mem hmem, hunsummarized, hover⟩
  cover _ k hk hafter := by
    refine or_iff_not_imp_left.mpr fun hover => or_iff_not_imp_left.mpr fun hsummarized => ⟨rfl, ?_⟩
    obtain ⟨x, hx, rfl⟩ := due_of_window hover (Bool.eq_false_iff.mpr hsummarized) hk
    cases hlocked : s.locked x.1 with
    | false => exact .inl (List.mem_map_of_mem (List.mem_filter.mpr ⟨hx, by rw [hlocked]; rfl⟩))
    | true =>
        cases hflushing : s.flushing x.1 with
        | true => exact .inr (List.mem_map_of_mem (List.mem_filter.mpr ⟨hx, hflushing⟩))
        | false =>
            -- a denial has it, which is still open
            refine absurd ?_ hafter.1
            rw [State.locked, hflushing, Bool.false_or, List.any_eq_true] at hlocked
            obtain ⟨d, hd, hcounting⟩ := hlocked
            obtain ⟨hstage, hwindow⟩ := (Bool.and_eq_true _ _).mp hcounting
            rw [← of_decide_eq_true hwindow]
            exact List.mem_map_of_mem (List.mem_filter.mpr
              ⟨hd, by rw [Call.isOpen, hstage, Bool.or_true]⟩)

/-- A flush begins. -/
theorem Sound.select {s : State} (hs : Sound s) (now : Nat) :
    Sound { s with flushes := s.flushes ++ [s.select now] } := by
  have hfree : ∀ k ∈ (s.select now).taken.map Prod.fst, s.locked k = false := by
    intro k hk
    obtain ⟨x, hx, rfl⟩ := List.mem_map.mp hk
    simpa using (List.mem_filter.mp hx).2
  have hapart : ∀ f ∈ s.flushes, f.progress = .running →
    ∀ k ∈ f.taken.map Prod.fst, k ∉ (s.select now).taken.map Prod.fst :=
    fun f hf hrun k hk hnew => flushing_eq_false_iff.mp
      (locked_eq_false_iff.mp (hfree k hnew)).1 f hf hrun hk
  constructor
  · exact fun k => ⟨(hs.rows k).detailed, (hs.rows k).overflow, (hs.rows k).details,
      (hs.rows k).sums⟩
  · intro f hf
    have hok : f.Ok s := by
      rcases List.mem_append.mp hf with hf | hf
      · exact hs.flushes f hf
      · rw [List.mem_singleton.mp hf]
        exact .select s now
    exact ⟨hok.calls, hok.early, hok.once, hok.rows, hok.cover⟩
  · intro i j f g hf hg hfrun hgrun k hkf hkg
    rcases getElem?_join_cases hf with hf | ⟨rfl, rfl⟩ <;>
      rcases getElem?_join_cases hg with hg | ⟨rfl, rfl⟩
    · exact hs.alone i j f g hf hg hfrun hgrun k hkf hkg
    · exact absurd hkg (hapart f (List.mem_of_getElem? hf) hfrun k hkf)
    · exact absurd hkf (hapart g (List.mem_of_getElem? hg) hgrun k hkg)
    · rfl
  · intro d hd hstage
    have hold := hs.counting d hd hstage
    refine flushing_eq_false_iff.mpr fun f hf hrun hk => ?_
    rcases List.mem_append.mp hf with hf | hf
    · exact flushing_eq_false_iff.mp hold f hf hrun hk
    · rw [List.mem_singleton.mp hf] at hk
      exact (locked_eq_false_iff.mp (hfree _ hk)).2 d hd hstage rfl

/-- A flush ends; the others run on. -/
theorem alone_set {s : State} (hs : Sound s) {i : Nat} {f : Flush} {progress : Progress}
    (hended : progress ≠ .running) :
    ∀ (a b : Nat) (g h : Flush), (s.flushes.set i { f with progress })[a]? = some g →
      (s.flushes.set i { f with progress })[b]? = some h → g.progress = .running →
      h.progress = .running → ∀ k ∈ g.taken.map Prod.fst, k ∈ h.taken.map Prod.fst → a = b := by
  intro a b g h hg hh hgrun hhrun k hkg hkh
  rcases getElem?_set_cases hg with ⟨-, rfl⟩ | ⟨-, hg⟩
  · exact absurd hgrun hended
  · rcases getElem?_set_cases hh with ⟨-, rfl⟩ | ⟨-, hh⟩
    · exact absurd hhrun hended
    · exact hs.alone a b g h hg hh hgrun hhrun k hkg hkh

/-- A flush that ends takes no window. -/
theorem flushing_set {s : State} {i : Nat} {f : Flush} {progress : Progress}
    (hended : progress ≠ .running) {k : Key} (h : s.flushing k = false) :
    (s.flushed i f progress).flushing k = false := by
  refine flushing_eq_false_iff.mpr fun g hg hrun => ?_
  obtain ⟨j, hj⟩ := List.getElem?_of_mem hg
  rcases getElem?_set_cases hj with ⟨-, rfl⟩ | ⟨-, hj⟩
  · exact absurd hrun hended
  · exact flushing_eq_false_iff.mp h g (List.mem_of_getElem? hj) hrun

/-- A flush gives up. -/
theorem Sound.abort {s : State} (hs : Sound s) {i : Nat} {f : Flush} (hf : s.flushes[i]? = some f) :
    Sound (s.flushed i f .failed) := by
  constructor
  · exact fun k => ⟨(hs.rows k).detailed, (hs.rows k).overflow, (hs.rows k).details,
      (hs.rows k).sums⟩
  · intro g hg
    obtain ⟨j, hj⟩ := List.getElem?_of_mem hg
    rcases getElem?_set_cases hj with ⟨-, rfl⟩ | ⟨-, hj⟩
    · have hok := hs.flushes f (List.mem_of_getElem? hf)
      exact ⟨hok.calls, hok.early, hok.once, nofun, fun hne => absurd rfl hne⟩
    · have hok := hs.flushes g (List.mem_of_getElem? hj)
      exact ⟨hok.calls, hok.early, hok.once, hok.rows, hok.cover⟩
  · exact alone_set hs (by decide)
  · exact fun d hd hstage => flushing_set (by decide) (hs.counting d hd hstage)

/-- A flush that commits keeps what is counted of each window. -/
theorem Row.flush {s : State} {f : Flush} {k : Key} (hs : Row s k) (hok : f.Ok s)
    (hrun : f.progress = .running) {s' : State}
    (hwindow : s'.window k = if k ∈ f.taken.map Prod.fst then { s.window k with summarized :=
      true } else s.window k)
    (hlog : s'.log = s.log ++ f.taken.map summaryOf)
      (hcommitted : s'.committed k = s.committed k) : Row s' k := by
  have hdetails : s'.details k = s.details k := by
    have hnone : (f.taken.map summaryOf).countP (Entry.isDetail k) = 0 := by
      rw [List.countP_eq_zero]
      intro e he
      obtain ⟨x, -, rfl⟩ := List.mem_map.mp he
      nofun
    rw [State.details, hlog, List.countP_append, hnone]
    rfl
  have hsummed : s'.summed k = s.summed k + ((lookup k f.taken).map Window.overflow).getD 0 := by
    rw [State.summed, hlog, List.map_append, List.sum_append, sum_summaries k hok.once]
    rfl
  obtain ⟨h₁, h₂, h₃, h₄⟩ := hs
  by_cases hk : k ∈ f.taken.map Prod.fst
  · obtain ⟨x, hx, rfl⟩ := List.mem_map.mp hk
    obtain ⟨hrow, hunsummarized, -⟩ := hok.rows hrun x hx
    rw [if_pos hk] at hwindow
    rw [hrow, hunsummarized] at h₄
    rw [lookup_of_mem hok.once hx, h₄] at hsummed
    refine ⟨?_, ?_, ?_, ?_⟩
    · rw [hwindow, hcommitted, h₁]
    · rw [hwindow, hcommitted, h₂]
    · rw [hdetails, hcommitted, h₃]
    · rw [hwindow, hsummed, hrow]
      simp
  · rw [if_neg hk] at hwindow
    rw [lookup_eq_none_iff.mpr hk] at hsummed
    refine ⟨?_, ?_, ?_, ?_⟩
    · rw [hwindow, hcommitted, h₁]
    · rw [hwindow, hcommitted, h₂]
    · rw [hdetails, hcommitted, h₃]
    · rw [hwindow, hsummed, h₄]
      rfl

/-- A flush finishes when every window that it skipped is summarized. -/
theorem Sound.finish {s : State} (hs : Sound s)
    {i : Nat} {f : Flush} (hf : s.flushes[i]? = some f) (hrun : f.progress = .running)
    (hproper : ∀ k ∈ f.skipped, f.After s k → (s.window k).summarized = true) :
    Sound ((s.flush f).flushed i f .finished) := by
  have hok := hs.flushes f (List.mem_of_getElem? hf)
  have hwindow : ∀ k, ((s.flush f).flushed i f .finished).window k =
      if k ∈ f.taken.map Prod.fst then { s.window k with summarized := true }
      else s.window k := fun k =>
    window_flush s f k (fun x hx => (hok.rows hrun x hx).1) fun x hx => (hok.rows hrun x hx).2.2
  have hoverflow : ∀ k, (((s.flush f).flushed i f .finished).window k).overflow =
    (s.window k).overflow := fun k => by
    rw [hwindow]
    split <;> rfl
  have hsummarized : ∀ k, (s.window k).summarized = true →
    (((s.flush f).flushed i f .finished).window k).summarized = true :=
    fun k h => by
      rw [hwindow]
      split
      · rfl
      · exact h
  constructor
  · exact fun k => (hs.rows k).flush hok hrun (hwindow k) rfl rfl
  · intro g hg
    obtain ⟨j, hj⟩ := List.getElem?_of_mem hg
    rcases getElem?_set_cases hj with ⟨-, rfl⟩ | ⟨hji, hj⟩
    · refine ⟨hok.calls, hok.early, hok.once, nofun, fun _ k hk hafter => ?_⟩
      rcases hok.cover (by rw [hrun]; decide) k hk hafter with hzero | hdone | ⟨-,
        htaken | hskipped⟩
      · exact .inl (by rw [hoverflow, hzero])
      · exact .inr (.inl (hsummarized k hdone))
      · refine .inr (.inl ?_)
        rw [hwindow, if_pos htaken]
      · exact .inr (.inl (hsummarized k (hproper k hskipped hafter)))
    · have hgok := hs.flushes g (List.mem_of_getElem? hj)
      refine ⟨hgok.calls, hgok.early, hgok.once, fun hgrun x hx => ?_, fun hgrun k hk hafter => ?_⟩
      · -- no other running flush has it
        have hnot : x.1 ∉ f.taken.map Prod.fst := fun hmem =>
          hji (hs.alone j i g f hj hf hgrun hrun x.1 (List.mem_map_of_mem hx) hmem)
        rw [hwindow, if_neg hnot]
        exact hgok.rows hgrun x hx
      · rcases hgok.cover hgrun k hk hafter with hzero | hdone | hwaits
        · exact .inl (by rw [hoverflow, hzero])
        · exact .inr (.inl (hsummarized k hdone))
        · exact .inr (.inr hwaits)
  · exact alone_set hs (by decide)
  · exact fun d hd hstage => flushing_set (by decide) (hs.counting d hd hstage)

/-! ### Every run -/

/-- Every proper step keeps the denials sound. -/
theorem Sound.step {s : State} (hs : Sound s) (o : Op) (hok : s.Proper o) : Sound (step s o).1 := by
  cases o with
  | call principal reason now => exact hs.call _ rfl
  | count i =>
      simp only [Denial.step]
      split
      · rename_i d hd
        split
        · rename_i hcall
          exact hs.denial hd (by rw [Call.isOpen, hcall.1]; rfl) (by decide) fun _ =>
            (locked_eq_false_iff.mp hcall.2).1
        · exact hs
      · exact hs
  | commit i =>
      simp only [Denial.step]
      split
      · rename_i d hd
        split
        · rename_i hstage
          exact hs.commit hd hstage (hok d hd hstage)
        · exact hs
      · exact hs
  | again i =>
      simp only [Denial.step]
      split
      · rename_i d hd
        split
        · rename_i hstage
          exact hs.denial hd (by rw [Call.isOpen, hstage]; rfl) (by decide) nofun
        · exact hs
      · exact hs
  | fail i =>
      simp only [Denial.step]
      split
      · rename_i d hd
        split
        · rename_i hopen
          exact hs.denial hd hopen (by decide) nofun
        · exact hs
      · exact hs
  | select now => exact hs.select now
  | finish i =>
      simp only [Denial.step]
      split
      · rename_i f hf
        split
        · rename_i hrun
          exact hs.finish hf hrun (hok f hf hrun)
        · exact hs
      · exact hs
  | abort i =>
      simp only [Denial.step]
      split
      · rename_i f hf
        split
        · exact hs.abort hf
        · exact hs
      · exact hs

theorem sound_of_reach {h : List Unit} {s : State} (hr : Reach step State.Proper start h s) :
    Sound s :=
  @Reach.invariant _ _ _ _ _ _ (fun _ s => Sound s) sound_start
    (fun _ _ o hok hs => Sound.step hs o hok) _ _ hr

/-! ## Every denial is counted -/

/-- In a state with all windows summarized that are past the budget, the log has every
denial. -/
theorem Row.counted {s : State} {k : Key} (hs : Row s k)
    (hdone : (s.window k).overflow = 0 ∨ (s.window k).summarized = true) :
    s.Counted k := by
  obtain ⟨-, hoverflow, hdetails, hsums⟩ := hs
  have hsummed : s.summed k = (s.window k).overflow := by
    rw [hsums]
    split
    · rfl
    · rename_i hnot
      exact (hdone.resolve_right hnot).symm
  rw [State.Counted, hsummed, hdetails, hoverflow]
  omega

/-- **Every recorded denial is counted**: in every run of proper steps, once a flush has
finished that began when the denials of a window had ended, its details and its summaries
have all of them, and the details are within the budget. -/
theorem denials_counted {h : List Unit} {s : State} (hr : Reach step State.Proper start h s)
    (k : Key) (hk : s.Settled k) : s.Counted k := by
  have hs := sound_of_reach hr
  obtain ⟨f, hf, hfinished, hlater, hafter⟩ := hk
  refine (hs.rows k).counted ?_
  rcases (hs.flushes f hf).cover (by rw [hfinished]; decide) k hlater
    hafter with hzero | hdone | ⟨hrun, -⟩
  · exact .inl hzero
  · exact .inr hdone
  · rw [hfinished] at hrun
    cases hrun

/-- One denial past the budget. -/
def overBudget : List Op := (List.range 21).flatMap fun i => [.call [] [] 0, .count i, .commit i]

def summarized : List Op := overBudget ++ [.select 60000000, .finish 0]

theorem denials_counted_over : (runOps step start summarized).2.Counted ⟨[], [], 0⟩ :=
  denials_counted (@reach_of_allAllowed _ _ _ step State.Proper _ summarized start
    (by decide +kernel)) _ (by decide +kernel)

/-- A denial is called in the minute, and commits after the summary. -/
def late : List Op := overBudget ++
  [.call [] [] 0, .select 60000000, .finish 0, .count 21, .commit 21, .select 60000000, .finish 1]

theorem denial_lost : ¬ ∀ h s, Reach step anyOp start h s → ∀ k, s.Settled k → s.Counted k := by
  intro h
  have hcounted := h _ _ (reach_runOps step late start) ⟨[], [], 0⟩
  revert hcounted
  decide +kernel

end BeSdk.Audit.Denial
