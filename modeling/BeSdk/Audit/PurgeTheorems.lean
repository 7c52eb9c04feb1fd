/-
BeSdk.Audit.PurgeTheorems — a purge follows the decision table.

The table (`Mark.decision`) is stated over watermarks and rows whose epochs are pairs of
integers; `epochText` writes an epoch as it travels, and what is written is read back
(`epochPair_epochText`), so that texts compare as epochs do.

A statement decides about the rows that the statements before it kept: a deleted row is
gone, and a row that was reset is pending, which no statement takes. So a purge comes to
the first decision other than `keep` for each row (`delete_tally`, `resend_tally`), and
of the ancestors only the row's own epoch can decide (`foldl_orElse_keyed`).

* `purge_decided`: for every watermark, every set of rows and every age, a purge deletes,
  resets and keeps the rows as the table says, and returns the two counts.
-/
import BeSdk.Audit.Purge
import BeSdk.Py.JsonTheorems
import Mathlib.Data.List.TakeWhile

namespace BeSdk.Audit

/-! ## Epochs -/

/-- A database epoch: the recovery generation and the timeline, compared in this order. -/
abbrev Epoch := Bigint ×ₗ Bigint

/-- `f"{generation}.{timeline}"` -/
def epochText (e : Epoch) : Str := intText (ofLex e).1.val ++ chr '.' :: intText (ofLex e).2.val

theorem mem_intText {n : Int} {c : CodePoint} (h : c ∈ intText n) :
    isDigit c = true ∨ c = chr '-' := by
  rw [intText] at h
  split at h
  · rcases List.mem_append.mp h with h | h
    · exact .inr (by simpa [str] using h)
    · exact .inl (isDigit_of_mem_natText h)
  · exact .inl (isDigit_of_mem_natText h)

/-- An integer's text has none of the characters that are neither a digit nor a sign. -/
theorem not_mem_intText {n : Int} {c : CodePoint} (hdigit : isDigit c = false)
    (hsign : c ≠ chr '-') : c ∉ intText n := by
  intro h
  rcases mem_intText h with h | h
  · exact Bool.false_ne_true (hdigit.symm.trans h)
  · exact hsign h

theorem isBlank_of_mem_intText {n : Int} {c : CodePoint} (h : c ∈ intText n) :
    isBlank c = false := by
  rcases mem_intText h with h | rfl
  · have := digit_range h
    simp only [isBlank, Bool.or_eq_false_iff, Bool.and_eq_false_iff, decide_eq_false_iff_not,
      beq_eq_false_iff_ne]
    omega
  · decide

theorem dropWhile_blank {s : Str} (h : ∀ c ∈ s, isBlank c = false) : s.dropWhile isBlank = s := by
  rw [List.dropWhile_eq_self_iff]
  intro hl
  rw [h _ (List.getElem_mem hl)]
  exact Bool.false_ne_true

/-- A number's text is read without a sign. -/
theorem unsigned_natText (n : Nat) : unsigned (natText n) = some (n : Int) := by
  have hdigits : (natText n).all isDigit = true := List.all_eq_true.mpr fun c hc =>
    isDigit_of_mem_natText hc
  have hne : (natText n).isEmpty = false := List.isEmpty_eq_false_iff.mpr (natText_ne_nil n)
  rw [unsigned, hdigits, hne, digitsVal_natText]
  rfl

theorem bigint?_val (n : Bigint) : bigint? n.val = some n := dif_pos n.property

/-- A 64-bit number is read back from its text. -/
theorem toBigint_intText (n : Bigint) : toBigint (intText n.val) = some n := by
  have hblank : ∀ c ∈ intText n.val, isBlank c = false := fun c hc => isBlank_of_mem_intText hc
  rw [toBigint, dropWhile_blank hblank,
    dropWhile_blank fun c hc => hblank c (List.mem_reverse.mp hc), List.reverse_reverse]
  by_cases hneg : n.val < 0
  · have htext : intText n.val = chr '-' :: natText n.val.natAbs := by simp [intText, hneg, str]
    have habs : -(n.val.natAbs : Int) = n.val := by omega
    simp only [htext, if_true, unsigned_natText, Option.bind_some, habs, bigint?_val]
  · have htext : intText n.val = natText n.val.natAbs := by simp [intText, hneg]
    have habs : (n.val.natAbs : Int) = n.val := by omega
    obtain ⟨c, rest, hc, hdigit⟩ := natText_head n.val.natAbs
    have hminus : c ≠ chr '-' := by rintro rfl; exact absurd hdigit (by decide)
    have hplus : c ≠ chr '+' := by rintro rfl; exact absurd hdigit (by decide)
    have hval : (unsigned (c :: rest)).bind bigint? = some n := by
      rw [← hc, unsigned_natText, Option.bind_some, habs, bigint?_val]
    simp only [htext, hc, if_neg hminus, if_neg hplus, hval]

/-- An epoch's text splits into its two numbers. -/
theorem splitOn_epochText (e : Epoch) :
    (epochText e).splitOn (chr '.') = [intText (ofLex e).1.val, intText (ofLex e).2.val] := by
  have hdot : ∀ n : Int, chr '.' ∉ intText n := fun n => not_mem_intText (by decide) (by decide)
  rw [epochText, List.splitOn_append_cons_self_of_not_mem (hdot _),
    List.splitOn_eq_singleton (hdot _)]

/-- The two parts of a written epoch are its integers. -/
@[simp] theorem epochPair_epochText (e : Epoch) : epochPair (epochText e) = some e := by
  simp [epochPair, splitPart, splitOn_epochText, toBigint_intText]

theorem epochText_inj {e f : Epoch} : epochText e = epochText f ↔ e = f := by
  refine ⟨fun h => ?_, congrArg _⟩
  have hpair := congrArg epochPair h
  rw [epochPair_epochText, epochPair_epochText] at hpair
  exact Option.some.inj hpair

/-! ## The table -/

inductive Decision where
  | delete
  | keep
  | resend
  deriving DecidableEq

/-- A watermark of which the current epoch is not an ancestor. -/
structure Mark where
  epoch : Epoch
  seq : Bigint
  ancestors : Dict Epoch Bigint
  current : epoch ∉ ancestors.keys
  backedUpInEpoch : Bool

/-- A row in state received with its receipt, or a row in another state. -/
inductive Entry (β : Type) where
  | received (epoch : Epoch) (seq : Bigint) (chain : Option Str) (receivedAt : Int) (rest : β)
  | other (row : Row β) (hstate : row.state ≠ .received)

variable {β : Type}

/-- A row is older than the minimum retention. -/
def Retained (now receivedAt : Int) : Prop := receivedAt < now - makeInterval minRetention

instance (now receivedAt : Int) : Decidable (Retained now receivedAt) :=
  inferInstanceAs (Decidable (receivedAt < now - makeInterval minRetention))

/-- What becomes of a row. -/
def Mark.decision (w : Mark) (now : Int) : Entry β → Decision
  | .other _ _ => .keep
  | .received e seq _ receivedAt _ =>
      if e = w.epoch then if seq ≤ w.seq ∧ Retained now receivedAt then .delete else .keep
      else
        match w.ancestors.get? e with
        | some fork =>
            if fork < seq then .resend
            else if w.backedUpInEpoch = true ∧ Retained now receivedAt then .delete else .keep
        | none => if w.epoch < e then .keep else .resend

/-- The row as the table has it. -/
def Entry.row : Entry β → Row β
  | .received e seq chain receivedAt rest =>
      { state := .received,
        receiptEpoch := some (epochText e), receiptSeq := some seq, receiptChain := chain
        receivedAt := some receivedAt, rest }
  | .other row _ => row

/-- The watermark as it travels. -/
def Mark.watermark (w : Mark) : Watermark where
  epoch := epochText w.epoch
  seq := w.seq
  ancestors := ⟨w.ancestors.entries.map fun a => (epochText a.1, a.2), by
    rw [List.map_map, show Prod.fst ∘ (fun a : Epoch × Bigint => (epochText a.1, a.2)) =
      epochText ∘ Prod.fst from rfl, ← List.map_map]
    exact w.ancestors.nodup.map fun _ _ h => epochText_inj.mp h⟩
  backedUpInEpoch := w.backedUpInEpoch

/-- A row after its decision. -/
def Decision.apply : Decision → Row β → Option (Row β)
  | .delete, _ => none
  | .keep, r => some r
  | .resend, r => some r.reset

/-- The rows after their decisions, and how many were deleted and sent again. -/
def tally (d : Entry β → Decision) (xs : List (Entry β)) : Tally β where
  rows := xs.filterMap fun x => (d x).apply x.row
  deleted := xs.countP fun x => decide (d x = .delete)
  resent := xs.countP fun x => decide (d x = .resend)

/-! ## One statement after another -/

/-- The first decision other than `keep`. -/
def Decision.orElse : Decision → Decision → Decision
  | .keep, d => d
  | d, _ => d

@[simp] theorem Decision.keep_orElse (d : Decision) : Decision.keep.orElse d = d := rfl

@[simp] theorem Decision.orElse_keep (d : Decision) : d.orElse .keep = d := by cases d <;> rfl

theorem Decision.orElse_assoc (a b c : Decision) :
    (a.orElse b).orElse c = a.orElse (b.orElse c) := by cases a <;> rfl

/-- A condition that takes no row outside state received. -/
def OnReceived (p : Row β → Bool) : Prop := ∀ r, r.state ≠ .received → p r = false

theorem OnReceived.reset {p : Row β → Bool} (hp : OnReceived p) (r : Row β) : p r.reset = false :=
  hp _ TransferState.noConfusion

/-- A row alone, after its decision. -/
def Decision.one (d : Decision) (r : Row β) : Tally β :=
  match d with
  | .delete => { rows := [], deleted := 1 }
  | .keep => { rows := [r] }
  | .resend => { rows := [r.reset], resent := 1 }

/-- The rows of two tallies together. -/
def Tally.join (t u : Tally β) : Tally β :=
  ⟨t.rows ++ u.rows, t.deleted + u.deleted, t.resent + u.resent⟩

/-- A deletion counts part by part. -/
theorem Tally.delete_join (p : Row β → Bool) (t u : Tally β) :
    (t.join u).delete p = (t.delete p).join (u.delete p) := by
  simp only [Tally.delete, Tally.join, List.filter_append, List.countP_append, Tally.mk.injEq,
    true_and, and_true]
  omega

/-- So does a resend. -/
theorem Tally.resend_join (p : Row β → Bool) (t u : Tally β) :
    (t.join u).resend p = (t.resend p).join (u.resend p) := by
  simp only [Tally.resend, Tally.join, List.map_append, List.countP_append, Tally.mk.injEq,
    true_and]
  omega

/-- The tally of one more entry. -/
theorem tally_cons (d : Entry β → Decision) (x : Entry β) (xs : List (Entry β)) :
    tally d (x :: xs) = ((d x).one x.row).join (tally d xs) := by
  simp only [tally, List.filterMap_cons, List.countP_cons]
  cases d x <;> simp [Decision.apply, Decision.one, Tally.join, Nat.add_comm]

/-- A `DELETE` after the decisions made so far. -/
theorem delete_tally {p : Row β → Bool} (hp : OnReceived p) (d : Entry β → Decision)
    (xs : List (Entry β)) : (tally d xs).delete p = tally
    (fun x => (d x).orElse (if p x.row then .delete else .keep)) xs := by
  have hone : ∀ (d : Decision) (r : Row β), (d.one r).delete p =
    (d.orElse (if p r then .delete else .keep)).one r := by
    intro d r
    cases d with
    | delete => rfl
    | keep => cases hr : p r <;> simp [Decision.one, Tally.delete, hr]
    | resend => simp [Decision.one, Decision.orElse, Tally.delete, hp.reset]
  induction xs with
  | nil => rfl
  | cons x xs ih => rw [tally_cons, tally_cons, Tally.delete_join, ih, hone]

/-- A reset after the decisions made so far. -/
theorem resend_tally {p : Row β → Bool} (hp : OnReceived p) (d : Entry β → Decision)
    (xs : List (Entry β)) : (tally d xs).resend p = tally
    (fun x => (d x).orElse (if p x.row then .resend else .keep)) xs := by
  have hone : ∀ (d : Decision) (r : Row β), (d.one r).resend p =
    (d.orElse (if p r then .resend else .keep)).one r := by
    intro d r
    cases d with
    | delete => rfl
    | keep => cases hr : p r <;> simp [Decision.one, Tally.resend, hr]
    | resend => simp [Decision.one, Decision.orElse, Tally.resend, hp.reset]
  induction xs with
  | nil => rfl
  | cons x xs ih => rw [tally_cons, tally_cons, Tally.resend_join, ih, hone]

/-! ## The decisions of a purge -/

section
variable (w : Mark) (now : Int)

/-- Row by row, the statements for an ancestor. -/
def Mark.ofAncestor (x : Entry β) (a : Epoch × Bigint) : Decision :=
  (if w.backedUpInEpoch && covered now (epochText a.1) a.2 x.row then Decision.delete
    else .keep).orElse (if pastFork (epochText a.1) a.2 x.row then .resend else .keep)

theorem onReceived_covered (e : Str) (n : Bigint) :
    OnReceived (covered now e n : Row β → Bool) := by
  intro r hr
  simp [covered, hr]

theorem onReceived_pastFork (e : Str) (n : Bigint) : OnReceived (pastFork e n : Row β → Bool) := by
  intro r hr
  simp [pastFork, hr]

/-- One ancestor of the watermark, over every entry. -/
theorem ancestor_tally (d : Entry β → Decision) (xs : List (Entry β)) (a : Epoch × Bigint) :
    Tally.ancestor w.watermark now (tally d xs) (epochText a.1, a.2) =
      tally (fun x => (d x).orElse (w.ofAncestor now x a)) xs := by
  have hbacked : w.watermark.backedUpInEpoch = w.backedUpInEpoch := rfl
  simp only [Tally.ancestor, Mark.ofAncestor, hbacked]
  cases w.backedUpInEpoch with
  | false => simp [resend_tally (onReceived_pastFork _ _)]
  | true =>
      simp only [if_true, Bool.true_and, delete_tally (onReceived_covered _ _ _),
        resend_tally (onReceived_pastFork _ _), Decision.orElse_assoc]

/-- All ancestors of the watermark, one after the other. -/
theorem ancestors_tally (xs : List (Entry β)) :
    ∀ (as : List (Epoch × Bigint)) (d : Entry β → Decision),
    (as.map fun a => (epochText a.1, a.2)).foldl (Tally.ancestor w.watermark now) (tally d xs) =
      tally (fun x => as.foldl (fun (d : Decision) a => d.orElse (w.ofAncestor now x a)) (d x)) xs
  | [], _ => rfl
  | a :: as, d => by
      rw [List.map_cons, List.foldl_cons, ancestor_tally, ancestors_tally xs as]
      rfl

/-- The first decision that is not to keep stands. -/
theorem foldl_orElse {α : Type} (rule : α → Decision) : ∀ (as : List α) (d : Decision),
    as.foldl (fun (d : Decision) a => d.orElse (rule a)) d = d.orElse
    (as.foldl (fun (d : Decision) a => d.orElse (rule a)) .keep)
  | [], d => (d.orElse_keep).symm
  | a :: as, d => by
      rw [List.foldl_cons, List.foldl_cons, foldl_orElse rule as (d.orElse (rule a)),
        Decision.keep_orElse, foldl_orElse rule as (rule a), Decision.orElse_assoc]

/-- Where every rule keeps, all of them do. -/
theorem foldl_orElse_of_keep {α : Type} {rule : α → Decision} :
    ∀ {as : List α}, (∀ a ∈ as, rule a = .keep) →
    as.foldl (fun (d : Decision) a => d.orElse (rule a)) .keep = .keep
  | [], _ => rfl
  | a :: as, h => by
      rw [List.foldl_cons, h a List.mem_cons_self, Decision.keep_orElse]
      exact foldl_orElse_of_keep fun b hb => h b (List.mem_cons_of_mem _ hb)

/-- Of a list of distinct keys only one can decide. -/
theorem foldl_orElse_keyed {rule : Epoch × Bigint → Decision} {e : Epoch}
    (hrule : ∀ a, a.1 ≠ e → rule a = .keep) :
    ∀ as : List (Epoch × Bigint), (as.map Prod.fst).Nodup →
      as.foldl (fun (d : Decision) a => d.orElse (rule a)) .keep =
      ((lookup e as).map fun fork => rule (e, fork)).getD .keep
  | [], _ => rfl
  | (e', fork) :: as, hnodup => by
      obtain ⟨hnotin, hnodup⟩ := List.nodup_cons.mp hnodup
      rw [List.foldl_cons, Decision.keep_orElse, lookup, foldl_orElse]
      split
      · next heq =>
        subst heq
        rw [foldl_orElse_of_keep fun b hb => hrule b fun heq => hnotin
          (List.mem_map.mpr ⟨b, hb, heq⟩), Decision.orElse_keep]
        rfl
      · next hne =>
        rw [hrule (e', fork) hne, Decision.keep_orElse]
        exact foldl_orElse_keyed hrule as hnodup

/-- Which received entries are covered up to a number. -/
theorem covered_received (e f : Epoch) (n seq : Bigint) (chain : Option Str)
    (receivedAt : Int) (rest : β) :
    covered now (epochText f) n (Entry.received e seq chain receivedAt rest).row =
      decide (e = f ∧ seq ≤ n ∧ Retained now receivedAt) := by
  simp only [covered, Entry.row, Option.any_some,
    Option.some.injEq, epochText_inj, Retained, decide_true, Bool.true_and]
  rw [← Bool.decide_and, ← Bool.decide_and]
  exact decide_eq_decide.mpr ⟨fun ⟨⟨hage, hef⟩, hseq⟩ => ⟨hef, hseq, hage⟩,
    fun ⟨hef, hseq, hage⟩ => ⟨⟨hage, hef⟩, hseq⟩⟩

/-- Which received entries lie past a fork. -/
theorem pastFork_received (e f : Epoch) (n seq : Bigint) (chain : Option Str)
    (receivedAt : Int) (rest : β) : pastFork (epochText f) n
    (Entry.received e seq chain receivedAt rest).row = decide (e = f ∧ n < seq) := by
  simp [pastFork, Entry.row, epochText_inj, Bool.decide_and]

theorem mem_keys_watermark (e : Epoch) :
    epochText e ∈ w.watermark.ancestors.keys ↔ e ∈ w.ancestors.keys := by
  simp [Mark.watermark, Dict.keys, epochText_inj]

/-- The epoch is neither the current one nor an ancestor nor later. -/
def Mark.Lost (e : Epoch) : Prop := e ≠ w.epoch ∧ e ∉ w.ancestors.keys ∧ ¬ w.epoch < e

instance (e : Epoch) : Decidable (w.Lost e) := inferInstanceAs (Decidable (_ ∧ _ ∧ _))

/-- Which received entries are lost. -/
theorem lost_received (e : Epoch) (seq : Bigint) (chain : Option Str) (receivedAt : Int)
    (rest : β) : lost w.watermark (Entry.received e seq chain receivedAt rest).row =
    some (decide (w.Lost e)) := by
  have hepoch : w.watermark.epoch = epochText w.epoch := rfl
  simp only [lost, Entry.row, mem_keys_watermark, hepoch, epochText_inj, epochPair_epochText]
  split
  · next h =>
    rw [Option.some.injEq, eq_comm, decide_eq_false_iff_not]
    exact fun hlost => h.elim hlost.1 hlost.2.1
  · next h =>
    have hlost : w.Lost e ↔ ¬ w.epoch < e :=
      ⟨fun hlost => hlost.2.2, fun hlt => ⟨not_or.mp h |>.1, not_or.mp h |>.2, hlt⟩⟩
    simp only [Option.bind_eq_bind, Option.bind_some, Option.pure_def, hlost, decide_not]

theorem lost_other {r : Row β} (hr : r.state ≠ .received) (W : Watermark) : lost W
    r = some false := by
  obtain ⟨state, _, _, _, _, _⟩ := r
  cases state with
  | received => exact absurd rfl hr
  | pending => rfl
  | conflict => rfl

/-- Whether an entry is lost is always decided. -/
theorem lost_isSome (d : Entry β → Decision) (xs : List (Entry β)) :
    ((tally d xs).rows.all fun r => (lost w.watermark r).isSome) = true := by
  rw [List.all_eq_true]
  intro r hr
  obtain ⟨x, -, hx⟩ := List.mem_filterMap.mp hr
  cases hd : d x with
  | delete => rw [hd] at hx; cases hx
  | resend =>
      rw [hd] at hx
      obtain rfl := Option.some.inj hx
      rw [lost_other TransferState.noConfusion]
      rfl
  | keep =>
      rw [hd] at hx
      obtain rfl := Option.some.inj hx
      cases x with
      | received e seq chain receivedAt rest => rw [lost_received]; rfl
      | other row hstate => rw [Entry.row, lost_other hstate]; rfl

/-- Row by row, a whole purge. -/
def Mark.purged (x : Entry β) : Decision :=
  (w.ancestors.entries.foldl (fun (d : Decision) a => d.orElse (w.ofAncestor now x a))
      (if covered now (epochText w.epoch) w.seq x.row then .delete else .keep)).orElse
    (if (lost w.watermark x.row).getD false then .resend else .keep)

/-- The purge decides entry by entry. -/
theorem purge_tally (xs : List (Entry β)) :
    purge w.watermark now (xs.map Entry.row) = some (tally (w.purged now) xs) := by
  have hstart : ({ rows := xs.map Entry.row } : Tally β) = tally (fun _ => .keep) xs := by
    simp [tally, Decision.apply]
  have hlost : OnReceived fun r : Row β => (lost w.watermark r).getD false := by
    intro r hr
    simp [lost_other hr]
  have hentries : w.watermark.ancestors.entries = w.ancestors.entries.map fun a =>
    (epochText a.1, a.2) := rfl
  rw [purge]
  simp only [hstart,
    delete_tally (onReceived_covered _ _ _), hentries, ancestors_tally, lost_isSome, if_true,
    resend_tally hlost, Decision.keep_orElse]
  rfl

/-- For each row the statements come to the table. -/
theorem purged_eq_decision (x : Entry β) : w.purged now x = w.decision now x := by
  cases x with
  | other row hstate =>
      have hrule : ∀ a, w.ofAncestor now (.other row hstate) a = .keep := fun a => by
        simp [Mark.ofAncestor, Entry.row, onReceived_covered _ _ _ row hstate,
          onReceived_pastFork _ _ row hstate]
      have hfold := foldl_orElse_of_keep fun a (_ : a ∈ w.ancestors.entries) => hrule a
      simp [Mark.purged, Mark.decision, Entry.row, onReceived_covered _ _ _ row hstate,
        lost_other hstate, hfold]
  | received e seq chain receivedAt rest =>
      have hrule : ∀ a, w.ofAncestor now (.received e seq chain receivedAt rest) a =
          if e = a.1 then
            if a.2 < seq then .resend
            else if w.backedUpInEpoch = true ∧ Retained now receivedAt then .delete else .keep
          else .keep := by
        intro a
        simp only [Mark.ofAncestor, covered_received, pastFork_received]
        by_cases he : e = a.1
        · by_cases hfork : a.2 < seq
          · simp [he, hfork, not_le.mpr hfork]
          · simp [he, hfork, not_lt.mp hfork]
        · simp [he]
      have hfold := foldl_orElse_keyed (fun a ha => (hrule a).trans (if_neg (Ne.symm ha))) _
        w.ancestors.nodup
      rw [Mark.purged, foldl_orElse, hfold, covered_received, lost_received]
      simp only [Mark.decision, Dict.get?, Option.getD_some, decide_eq_true_eq]
      by_cases hcur : e = w.epoch
      · -- the current epoch is no ancestor
        subst hcur
        have hnone : lookup w.epoch w.ancestors.entries = none := lookup_eq_none_iff.mpr w.current
        have hlost : ¬ w.Lost w.epoch := fun h => h.1 rfl
        simp only [hnone, hlost, Option.map_none, Option.getD_none, Decision.orElse_keep,
          if_true, if_false, true_and]
      · simp only [hcur, if_false, false_and, Decision.keep_orElse]
        cases hfork : lookup e w.ancestors.entries with
        | some fork =>
            have hlost : ¬ w.Lost e := fun h =>
              h.2.1 (List.mem_map.mpr ⟨_, mem_of_lookup hfork, rfl⟩)
            simp only [hlost, hrule, Option.map_some, Option.getD_some, if_true, if_false,
              Decision.orElse_keep]
        | none =>
            have hnotin : e ∉ w.ancestors.keys := lookup_eq_none_iff.mp hfork
            by_cases hlater : w.epoch < e
            · simp [Mark.Lost, hlater]
            · simp [Mark.Lost, hcur, hnotin, hlater]

end

/-! ## The law -/

/-- **A purge follows the decision table.** For every watermark, every set of rows and
every time: the rows left are those not deleted, of which those to be sent again are
back in pending with their receipts cleared and the others are as they were, and the
counts are the numbers of rows deleted and sent again. -/
theorem purge_decided (w : Mark) (now : Int) (xs : List (Entry β)) :
    purge w.watermark now (xs.map Entry.row) = some
      { rows := xs.filterMap fun x => (w.decision now x).apply x.row
        deleted := xs.countP fun x => decide (w.decision now x = .delete)
        resent := xs.countP fun x => decide (w.decision now x = .resend) } := by
  rw [purge_tally, funext fun x => purged_eq_decision w now x]
  rfl

end BeSdk.Audit
