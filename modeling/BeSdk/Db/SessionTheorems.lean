/-
BeSdk.Db.SessionTheorems — which statements the guard keeps off the pooled connections.

`leavesState` says of a statement, by its tokens, whether it would stay on the
connection. The guard looks at the first word of the text and then for a few spellings
in all of it.

* `guarded`: a text that leaves state is kept off if that is in sight (`InSight`): in the
  first word of the text, after comments that do not nest, or in a call as it is mostly
  spelled. Of a text without those spellings (`Bare`) nothing else is kept off.
* `second_accepted`: of two statements it does not see the second.
-/
import BeSdk.Db.LintStatements
import BeSdk.Db.Session
import BeSdk.Lib.Fallible
import BeSdk.Sql.LexerText
import Mathlib.Data.List.Infix

namespace BeSdk.Db.Session

open Lint (isAsciiLetter afterWord ignoreCase keyword_ok letter_of_lower afterWord_append)
open Sql.Lexer (Token lex lower beginsWith statements textOf textOf_cons textOf_append
    textOf_lex isIdent Follows)

/-! ## Statements that leave state -/

/-- The token is a name for a function. -/
def isNameOf (f : Str) : Token → Bool
  | .word w => w.map lower = f
  | .quoted parts => Str.join (str "\"") parts = f
  | _ => false

/-- A call of a function at the start of some tokens; what stands after the parenthesis. -/
def callOf (f : Str) : List Token → Option (List Token)
  | [] => none
  | t :: ts =>
      if isNameOf f t then
        match ts.dropWhile Token.isGap with
        | .other c :: rest => if c = chr '(' then some rest else none
        | _ => none
      else none

/-- The arguments up to the closing parenthesis; `depth` more are open. -/
def arguments : Nat → List Token → Option (List (List Token))
  | _, [] => none
  | depth, t :: ts =>
      let goOn (depth : Nat) := (arguments depth ts).map fun as => (t :: as.headD []) :: as.tail
      if t = .other (chr '(') ∨ t = .other (chr '[') then goOn (depth + 1)
      else if t = .other (chr ')') ∨ t = .other (chr ']') then
        match depth with
        | 0 => some [[]]
        | depth + 1 => goOn depth
      else if t = .other (chr ',') ∧ depth = 0 then (arguments 0 ts).map ([] :: ·)
      else goOn depth

/-- The literal `false`. -/
def isFalse (ts : List Token) : Bool :=
  match ts.filter fun t => !t.isGap with
  | [.word w] => w.map lower = str "false"
  | _ => false

/-- `set_config` with a literal `false` as its third argument. -/
def callsSetConfig (ts : List Token) : Bool :=
  ts.tails.any fun ts => ((callOf (str "set_config") ts).bind (arguments 0)).any fun as =>
    (as[2]?).any isFalse

def lockNames : List Str := [str "pg_advisory_lock", str "pg_try_advisory_lock"]

def callsLock (ts : List Token) : Bool :=
  ts.tails.any fun ts => lockNames.any fun f => (callOf f ts).isSome

/-- `SET`, but not `SET LOCAL`, `SET TRANSACTION` or `SET CONSTRAINTS`. -/
def setsSession (p : List Token) : Bool :=
  beginsWith [str "set"] p &&
    !([str "local", str "transaction", str "constraints"].any fun scope => beginsWith
      [str "set", scope] p)

/-- The statement would leave state on the connection. -/
def leavesState (p : List Token) : Bool :=
  setsSession p || ([str "reset", str "discard", str "listen", str "unlisten"].any
    fun k => beginsWith [k] p) || callsSetConfig p || callsLock p

def LeavesState (ts : List Token) : Prop := ∃ p ∈ statements ts, leavesState p = true

/-! ## What is in sight -/

/-- A comment that ends at the first `*/`, counted from its own first character. -/
def isFlat (text : Str) : Bool :=
  Str.cut (Token.blockComment text).text (str "*/") = some (str "/*" ++ text, [])

/-- The tokens from the first that is no gap, where the guard skips the gaps before it as
they are. After a line comment it goes on behind the next line feed. -/
def lead : Bool → List Token → Option (List Token)
  | false, .space c :: ts => if isLead c then lead false ts else none
  | false, .lineComment text :: ts => if chr '\n' ∈ text then none else lead true ts
  | false, .blockComment text :: ts => if isFlat text then lead false ts else none
  | false, t :: ts => some (t :: ts)
  | true, t :: ts =>
      if t = .space (chr '\n') then lead false ts
      else if t.isGap = true ∧ chr '\n' ∉ t.text then lead true ts
      else none
  | _, [] => none

/-- The first word of the text is that of a statement that leaves state. -/
def wordInSight (ts : List Token) : Bool :=
  match lead false ts with
  | some (.word w :: r) =>
      [str "reset", str "discard", str "listen", str "unlisten"].contains (w.map lower) ||
        (w.map lower = str "set" && !localScopes.contains (firstWord (textOf r)).1)
  | _ => false

def isBlankToken : Token → Bool
  | .space c => Sql.Lexer.isBlank c
  | _ => false

def skipBlanks (ts : List Token) : List Token := ts.dropWhile isBlankToken

def sign (c : CodePoint) : List Token → Option (List Token)
  | .other x :: ts => if x = c then some ts else none
  | _ => none

/-- A string literal or a parameter, with blanks around it. -/
def plainArg (ts : List Token) : Option (List Token) :=
  match skipBlanks ts with
  | .literal none false _ :: ts => some (skipBlanks ts)
  | .other c :: .number d :: ts =>
      if c = chr '$' ∧ d ≠ [] ∧ d.all isDigit = true then some (skipBlanks ts) else none
  | _ => none

def plainFalse (ts : List Token) : Option (List Token) :=
  match skipBlanks ts with
  | .word w :: ts => if w.map lower = str "false" then some (skipBlanks ts) else none
  | _ => none

/-- The arguments of a call of `set_config`, with nothing but blanks between them. -/
def plainArgs (ts : List Token) : Option (List Token) := do
  let ts ← sign (chr '(') (skipBlanks ts)
  let ts ← plainArg ts
  let ts ← sign (chr ',') ts
  let ts ← plainArg ts
  let ts ← sign (chr ',') ts
  let ts ← plainFalse ts
  sign (chr ')') ts

def configInSight (ts : List Token) : Bool :=
  ts.tails.any fun ts =>
    match ts with
    | .word w :: ts =>
        w.map lower = str "set_config" &&
          (has (str "et_config") w || has (str "ET_CONFIG") w) && (plainArgs ts).isSome
    | _ => false

def lockInSight (ts : List Token) : Bool :=
  ts.any fun t => lockNames.any fun f => isNameOf f t &&
    (has (str "dvisory") t.text || has (str "DVISORY") t.text)

/-- The guard has a sign of a statement in sight: the first word of the text, or a call,
where the first word is not `SET`. -/
def InSight (sql : Str) (ts : List Token) : Prop :=
  wordInSight ts = true ∨ ((firstWord sql).1 ≠ str "SET" ∧
    (configInSight ts = true ∨ lockInSight ts = true))

/-! ## The first word -/

theorem firstWordGo_lead {c : CodePoint} (h : isLead c = true) (n : Nat) (s : Str) :
    firstWordGo (n + 1) (c :: s) = firstWordGo (n + 1) s := by
  rw [firstWordGo, firstWordGo, List.dropWhile_cons_of_pos h]

/-- A search finds the same in a longer text. -/
theorem cut_append {sep : Str} (rest : Str) : ∀ {s a b : Str}, Str.cut s sep = some (a, b) →
    Str.cut (s ++ rest) sep = some (a, b ++ rest)
  | [], a, b, h => by
      unfold Str.cut at h
      split at h
      · next hfront =>
        have hnil : sep = [] := by simpa using hfront
        obtain ⟨rfl, rfl⟩ := Prod.mk.inj (Option.some.inj h)
        subst hnil
        exact Sql.Lexer.cut_of_front _ rfl
      · cases h
  | c :: s, a, b, h => by
      have heq := Sql.Lexer.cut_eq h
      unfold Str.cut at h
      split at h
      · next hfront =>
        obtain ⟨rfl, rfl⟩ := Prod.mk.inj (Option.some.inj h)
        obtain ⟨t, ht⟩ := List.isPrefixOf_iff_prefix.mp hfront
        refine Sql.Lexer.cut_of_front _ ?_
        rw [← ht, List.append_assoc, List.drop_left]
      · next hfront =>
        obtain ⟨⟨a', b'⟩, hcut, hmap⟩ := Option.map_eq_some_iff.mp h
        obtain ⟨rfl, rfl⟩ := Prod.mk.inj hmap
        have hlength : sep.length ≤ (c :: s).length := by
          have := congrArg List.length heq
          simp only [List.length_append] at this
          omega
        have hnot : sep.isPrefixOf (c :: (s ++ rest)) = false := by
          rw [Bool.eq_false_iff]
          intro hprefix
          have hshort := List.prefix_of_prefix_length_le (List.isPrefixOf_iff_prefix.mp hprefix)
            (List.prefix_append (c :: s) rest) hlength
          exact hfront (List.isPrefixOf_iff_prefix.mpr hshort)
        rw [List.cons_append, Sql.Lexer.cut_cons hnot, cut_append rest hcut]
        rfl

/-- What the loop does behind a line comment, of which `p` is read. -/
def lineGo (n : Nat) (s : Str) : Str × Str :=
  match Str.cut s (str "\n") with
  | none => ([], [])
  | some (_, rest) => firstWordGo n rest

theorem firstWordGo_line (n : Nat) (s : Str) :
    firstWordGo (n + 1) (chr '-' :: chr '-' :: s) = lineGo n (chr '-' :: chr '-' :: s) := by
  rw [firstWordGo, List.dropWhile_cons_of_neg (by decide)]
  rfl

/-- A flat block comment is skipped. -/
theorem firstWordGo_block {text : Str} (h : isFlat text = true) (n : Nat) (rest : Str) :
    firstWordGo (n + 1) ((Token.blockComment text).text ++ rest) = firstWordGo n rest := by
  have hcut := cut_append rest (of_decide_eq_true h)
  rw [List.nil_append] at hcut
  rw [firstWordGo]
  show (if Str.startsWith (((Token.blockComment text).text ++ rest).dropWhile isLead)
    (str "/*") = true then _ else _) = _
  have hdrop : ((Token.blockComment text).text ++ rest).dropWhile isLead =
    (Token.blockComment text).text ++ rest :=
    List.dropWhile_cons_of_neg (by decide)
  rw [hdrop, if_pos (by rfl), hcut]

/-- What is left after the leading tokens is the end of them all. -/
theorem lead_suffix : ∀ {ts : List Token} {after : Bool} {r : List Token}, lead after ts =
    some r → r <:+ ts
  | [], after, r, h => by cases after <;> cases h
  | t :: ts, true, r, h => by
      rw [lead] at h
      split at h
      · exact (lead_suffix h).trans (List.suffix_cons _ _)
      split at h
      · exact (lead_suffix h).trans (List.suffix_cons _ _)
      · cases h
  | t :: ts, false, r, h => by
      cases t with
      | space | blockComment =>
          rw [lead] at h
          split at h
          · exact (lead_suffix h).trans (List.suffix_cons _ _)
          · cases h
      | lineComment =>
          rw [lead] at h
          split at h
          · cases h
          · exact (lead_suffix h).trans (List.suffix_cons _ _)
      | literal | quoted | dollar | word | number | semicolon | other =>
          obtain rfl := Option.some.inj h
          exact List.suffix_refl _

theorem length_textOf_cons (t : Token) (ts : List Token) :
    (textOf (t :: ts)).length = t.text.length + (textOf ts).length := by
  rw [textOf_cons, List.length_append]

/-- The loop comes to the word the tokens begin with, where they are read as they are. -/
theorem firstWordGo_textOf {r : List Token} {x : Str × Str}
    (hx : ∀ n, firstWordGo (n + 1) (textOf r) = x) :
    ∀ (ts : List Token) (n : Nat), (textOf ts).length < n →
      (lead false ts = some r → firstWordGo n (textOf ts) = x) ∧
      (∀ p, lead true ts = some r → chr '\n' ∉ p → lineGo n (p ++ textOf ts) = x)
  | [], n, _ => ⟨nofun, nofun⟩
  | t :: ts, 0, hn => absurd hn (Nat.not_lt_zero _)
  | t :: ts, n + 1, hn => by
      have ih : ∀ m, (textOf ts).length < m → _ := fun m => firstWordGo_textOf hx ts m
      rw [length_textOf_cons] at hn
      have hrest : (textOf ts).length < n + 1 := by omega
      refine ⟨fun h => ?_, fun p h hp => ?_⟩
      · cases t with
        | space c =>
            rw [lead] at h
            split at h
            · next hc =>
              rw [textOf_cons]
              show firstWordGo (n + 1) (c :: textOf ts) = x
              rw [firstWordGo_lead hc]
              exact (ih _ hrest).1 h
            · cases h
        | lineComment text =>
            rw [lead] at h
            split at h
            · cases h
            · next hline =>
              have hlt : (textOf ts).length < n := by
                simp only [Token.text, List.length_cons] at hn
                omega
              have hp : chr '\n' ∉ chr '-' :: chr '-' :: text := by
                simp only [List.mem_cons, not_or]
                exact ⟨by decide, by decide, hline⟩
              rw [textOf_cons]
              show firstWordGo (n + 1) (chr '-' :: chr '-' :: (text ++ textOf ts)) = x
              rw [firstWordGo_line]
              exact (ih _ hlt).2 _ h hp
        | blockComment text =>
            rw [lead] at h
            split at h
            · next hflat =>
              have hlt : (textOf ts).length < n := by
                simp only [Token.text, List.length_cons, List.length_append] at hn
                omega
              rw [textOf_cons, firstWordGo_block hflat]
              exact (ih _ hlt).1 h
            · cases h
        | literal | quoted | dollar | word | number | semicolon | other =>
            obtain rfl := Option.some.inj h
            exact hx n
      · rw [lead] at h
        have hcut : ∀ q rest : Str, chr '\n' ∉ q → lineGo (n + 1) (q ++ chr '\n' :: rest) =
          firstWordGo (n + 1) rest := by
          intro q rest hq
          rw [lineGo, show str "\n" = [chr '\n'] from rfl, Sql.Lexer.cut_singleton rest hq]
        split at h
        · next ht =>
          subst ht
          rw [textOf_cons]
          show lineGo (n + 1) (p ++ chr '\n' :: textOf ts) = x
          rw [hcut p _ hp]
          exact (ih _ hrest).1 h
        split at h
        · next ht =>
          rw [textOf_cons, ← List.append_assoc]
          refine (ih _ hrest).2 _ h ?_
          rw [List.mem_append, not_or]
          exact ⟨hp, ht.2⟩
        · cases h

/-! ### Keywords -/

def isSmall (k : Str) : Bool := k.all fun c => 0x61 ≤ c.val && c.val ≤ 0x7A

/-- A word that is a small keyword in lower case has ASCII letters only. -/
theorem letter_of_small {w k : Str} (hk : isSmall k = true) (h : w.map lower = k) :
    ∀ c ∈ w, isAsciiLetter c = true := by
  subst h
  intro c hc
  have hrange := List.all_eq_true.mp hk (lower c) (List.mem_map_of_mem hc)
  simp only [Bool.and_eq_true, decide_eq_true_eq] at hrange
  simp only [isAsciiLetter, Bool.or_eq_true, Bool.and_eq_true, decide_eq_true_eq]
  unfold lower at hrange
  split at hrange <;> omega

theorem upper_lower (c : CodePoint) : upper (lower c) = upper c := by
  unfold lower
  split
  · unfold upper
    rw [if_pos (by simp only; omega), if_neg (by omega)]
    exact Fin.ext (by simp)
  · rfl

theorem lower_upper (c : CodePoint) : lower (upper c) = lower c := by
  unfold upper
  split
  · next h =>
    unfold lower
    rw [dif_pos (by simp only; omega), dif_neg (by omega)]
    exact Fin.ext (by simp only; omega)
  · rfl

/-- Two words are the same in upper case if they are in lower case. -/
theorem map_upper_eq_iff {w k : Str} : w.map upper = k.map upper ↔ w.map lower = k.map lower := by
  constructor
  · intro h
    have hmap := congrArg (List.map lower) h
    simpa [List.map_map, Function.comp_def, lower_upper] using hmap
  · intro h
    have hmap := congrArg (List.map upper) h
    simpa [List.map_map, Function.comp_def, upper_lower] using hmap

theorem letter_ok {c : CodePoint} (h : isAsciiLetter c = true) :
    isLead c = false ∧ c ≠ chr '/' ∧ c ≠ chr '-' := by
  refine ⟨?_, ?_, ?_⟩
  · rw [Bool.eq_false_iff]
    intro hlead
    simp only [isLead, Bool.or_eq_true, decide_eq_true_eq] at hlead
    rcases hlead with ((rfl | rfl) | rfl) | rfl <;> exact absurd h (by decide)
  · rintro rfl
    exact absurd h (by decide)
  · rintro rfl
    exact absurd h (by decide)

theorem startsWith_eq_false {c d : CodePoint} (h : c ≠ d) {s p : Str} :
    Str.startsWith (c :: s) (d :: p) = false := by
  rw [Str.startsWith, List.isPrefixOf, beq_eq_false_iff_ne.mpr (Ne.symm h), Bool.false_and]

theorem not_letter {c : CodePoint} (h : isIdent c = false) : isAsciiLetter c = false := by
  rw [Bool.eq_false_iff] at h ⊢
  intro hc
  refine h ?_
  simp only [isIdent, Sql.Lexer.isWord, Lint.isLetter_eq]
  rw [show Lint.isAsciiLetter c = true from hc]
  rfl

section
variable {sql : Str} {ts : List Token} (hlex : lex sql = some ts)
include hlex

/-- **The guard reads the first word**, where it is in sight. -/
theorem firstWord_eq {w : Str} {r : List Token} (hlead : lead false ts = some (.word w :: r))
    (hletters : ∀ c ∈ w, isAsciiLetter c = true) : firstWord sql = (w.map upper, textOf r) := by
  have hsuffix := lead_suffix hlead
  obtain ⟨hread, hchain⟩ := Sql.Lexer.lexFrom_ok ts hlex
  have hne : w ≠ [] := hread (.word w) (hsuffix.subset List.mem_cons_self)
  -- the word ends where the token does
  have hnext : (textOf r).head?.any isAsciiLetter = false := by
    cases r with
    | nil => rfl
    | cons t r =>
        have hfollows : Follows (.word w) t := (List.isChain_cons_cons.mp (hchain.suffix hsuffix)).1
        rw [Sql.Lexer.head?_textOf (hread t (hsuffix.subset (by simp)))]
        have hnone : t.first.any isIdent = false := hfollows
        cases hfirst : t.first with
        | none => rfl
        | some c =>
            rw [hfirst] at hnone
            exact not_letter hnone
  have hx : ∀ n, firstWordGo (n + 1) (textOf (.word w :: r)) = (w.map upper, textOf r) := by
    intro n
    cases w with
    | nil => exact absurd rfl hne
    | cons c w =>
        obtain ⟨htake, hdrop⟩ := Sql.Lexer.span_eq (textOf r) (List.all_eq_true.mpr hletters) hnext
        have hc := letter_ok (hletters c List.mem_cons_self)
        rw [textOf_cons, firstWordGo]
        have hstay : (c :: w ++ textOf r).dropWhile isLead = c :: w ++ textOf r :=
          List.dropWhile_cons_of_neg (by rw [hc.1]; exact Bool.false_ne_true)
        have hblock : Str.startsWith (c :: w ++ textOf r) (str "/*") = false :=
          startsWith_eq_false hc.2.1
        have hline : Str.startsWith (c :: w ++ textOf r) (str "--") = false :=
          startsWith_eq_false hc.2.2
        simp only [Token.text, hstay, hblock, hline, Bool.false_eq_true, if_false, htake, hdrop]
  rw [firstWord, ← textOf_lex hlex]
  exact (firstWordGo_textOf hx ts _ (Nat.lt_succ_self _)).1 hlead

end

/-! ## Locks -/

theorem text_infix {ts : List Token} {t : Token} (h : t ∈ ts) : t.text <:+: textOf ts := by
  obtain ⟨x, y, rfl⟩ := List.append_of_mem h
  exact ⟨textOf x, textOf y, by rw [textOf_append, textOf_cons, List.append_assoc]⟩

theorem has_iff {p s : Str} : has p s = true ↔ p <:+: s := by
  rw [has, List.any_eq_true, List.infix_iff_prefix_suffix]
  refine exists_congr fun t => ?_
  rw [List.mem_tails, List.isPrefixOf_iff_prefix, and_comm]

theorem has_of_part {p s t : Str} (h : has p s = true) (hst : s <:+: t) : has p t = true :=
  has_iff.mpr ((has_iff.mp h).trans hst)

theorem ascii_of_lower {c : CodePoint} (h : (lower c).val < 0x80) : c.val < 0x80 := by
  unfold lower at h
  split at h <;> omega

/-- What `str.lower` does to the ASCII letters of a text. -/
def LowersAscii (toLower : Str → Str) : Prop :=
  ∀ x w y : Str, (∀ c ∈ w, c.val < 0x80) → w.map lower <:+: toLower (x ++ w ++ y)

/-- The name of an advisory lock is found however it is written. -/
theorem hasAdvisory_of_lock {toLower : Str → Str} (hlower : LowersAscii toLower)
    {sql w : Str} (hw : w <:+: sql) (hlock : w.map lower ∈ lockNames) :
    hasAdvisory toLower sql = true := by
  have hascii : ∀ c ∈ w, c.val < 0x80 := by
    intro c hc
    have hall : (lockNames.all fun f => f.all fun d => decide (d.val < 0x80)) = true := by decide
    have hname := List.all_eq_true.mp (List.all_eq_true.mp hall _ hlock) _ (List.mem_map_of_mem hc)
    exact ascii_of_lower (of_decide_eq_true hname)
  obtain ⟨x, y, rfl⟩ := hw
  have hinfix := hlower x w y hascii
  rw [hasAdvisory, Bool.or_eq_true]
  rcases List.mem_cons.mp hlock with heq | hmem
  · exact .inl (has_iff.mpr (heq ▸ hinfix))
  · exact .inr (has_iff.mpr (List.mem_singleton.mp hmem ▸ hinfix))

/-- A name is in the text as it is called, in some case. -/
theorem name_infix {f : Str} {t : Token} (h : isNameOf f t = true) (hf : f ∈ lockNames) :
    ∃ w, w <:+: t.text ∧ w.map lower = f := by
  cases t with
  | word w => exact ⟨w, List.infix_refl w, of_decide_eq_true h⟩
  | quoted parts =>
      have hjoin : Str.join (str "\"") parts = f := of_decide_eq_true h
      match parts, hjoin with
      | [], hjoin => exact absurd (hjoin ▸ hf) (by decide)
      | [p], hjoin =>
          obtain rfl : p = f := hjoin
          refine ⟨p, ⟨[chr '"'], [chr '"'], by simp [Token.text]⟩, ?_⟩
          have hall : ∀ f ∈ lockNames, f.map lower = f := by decide +kernel
          exact hall p hf
      | p :: q :: ps, hjoin =>
          -- no name of a lock has a quote in it
          have hquote : chr '"' ∈ f := by
            rw [← hjoin]
            simp [Str.join, str]
          have hnone : ∀ f ∈ lockNames, chr '"' ∉ f := by decide +kernel
          exact absurd hquote (hnone f hf)
  | space | lineComment | blockComment | literal | dollar | number | semicolon | other => cases h

/-- A lock in sight is found by the search. -/
theorem lock_found {toLower : Str → Str} (hlower : LowersAscii toLower)
    {ts : List Token} (h : lockInSight ts = true) :
    ((has (str "dvisory") (textOf ts) || has (str "DVISORY") (textOf ts)) &&
      hasAdvisory toLower (textOf ts)) = true := by
  obtain ⟨t, ht, h⟩ := List.any_eq_true.mp h
  obtain ⟨f, hf, h⟩ := List.any_eq_true.mp h
  obtain ⟨hname, hcase⟩ := (Bool.and_eq_true _ _).mp h
  obtain ⟨w, hw, hlock⟩ := name_infix hname hf
  have htext := text_infix ht
  rw [Bool.and_eq_true, Bool.or_eq_true]
  refine ⟨?_, hasAdvisory_of_lock hlower (hw.trans htext) (hlock ▸ hf)⟩
  exact ((Bool.or_eq_true _ _).mp hcase).imp (has_of_part · htext) (has_of_part · htext)

/-! ## `set_config` -/

/-- A word in any case is the keyword where its lower case is. -/
theorem ignoreCase_of_lower {w k : Str} (hk : (k.all fun c => decide (c.val < 0x80)) = true)
    (h : w.map lower = k) : w.map ignoreCase = k := by
  subst h
  refine List.map_congr_left fun c hc => ?_
  have hascii :=
    ascii_of_lower (of_decide_eq_true (List.all_eq_true.mp hk _ (List.mem_map_of_mem hc)))
  unfold ignoreCase lower
  split
  · rfl
  · rw [if_neg (by omega), if_neg (by omega), if_neg (by omega)]

/-- A plain literal ends where the lexer ends it. -/
theorem literalEnd_eq : ∀ {s : Str} {x : Str × Str}, Sql.Lexer.literal false s = some x →
    literalEnd s = some x.2
  | [], _, h => by cases h
  | [c], x, h => by
      unfold Sql.Lexer.literal at h
      split at h
      · next hc =>
        obtain rfl := Option.some.inj h
        rw [literalEnd, if_pos hc]
      · cases h
  | c :: d :: s, x, h => by
      unfold Sql.Lexer.literal at h
      rw [literalEnd]
      split at h
      · next hc =>
        rw [if_pos hc]
        split at h
        · next hd =>
          obtain ⟨y, hy, rfl⟩ := Option.map_eq_some_iff.mp h
          rw [if_pos hd, literalEnd_eq hy]
        · next hd =>
          obtain rfl := Option.some.inj h
          rw [if_neg hd]
      · next hc =>
        rw [if_neg hc]
        split at h
        · next hescape => cases hescape
        · obtain ⟨y, hy, rfl⟩ := Option.map_eq_some_iff.mp h
          rw [literalEnd_eq hy]

/-- Blanks are skipped in the text as they are in the tokens. -/
theorem dropWhile_textOf : ∀ {ts : List Token}, (textOf (skipBlanks ts)).head?.all
    (!isSpace ·) = true → (textOf ts).dropWhile isSpace = textOf (skipBlanks ts)
  | [], _ => rfl
  | t :: ts, h => by
      rw [skipBlanks, List.dropWhile_cons] at h ⊢
      split at h
      · next ht =>
        rw [if_pos ht]
        cases t with
        | space c =>
            have hc : isSpace c = true := Lint.isSpace_of_isBlank ht
            rw [textOf_cons]
            show (c :: textOf ts).dropWhile isSpace = _
            rw [List.dropWhile_cons_of_pos hc]
            exact dropWhile_textOf h
        | lineComment | blockComment | literal | quoted | dollar | word | number | semicolon
            | other => cases ht
      · next ht =>
        rw [if_neg ht]
        cases hs : textOf (t :: ts) with
        | nil => rfl
        | cons c s =>
            rw [hs] at h
            have hc : isSpace c = false := by simpa using h
            rw [List.dropWhile_cons_of_neg (by rw [hc]; exact Bool.false_ne_true)]

theorem sign_eq {c : CodePoint} {ts r : List Token} (h : sign c ts = some r) :
    ts = .other c :: r := by
  unfold sign at h
  split at h
  · split at h
    · next hc =>
      obtain rfl := Option.some.inj h
      rw [hc]
    · cases h
  · cases h

theorem char_cons (c : CodePoint) (s : Str) : char c (c :: s) = some s := if_pos rfl

/-- A sign after blanks. -/
theorem dropWhile_sign {c : CodePoint} (hc : isSpace c = false)
    {ts r : List Token} (h : sign c (skipBlanks ts) = some r) :
    (textOf ts).dropWhile isSpace = c :: textOf r := by
  have heq := sign_eq h
  have hhead : (textOf (skipBlanks ts)).head?.all (!isSpace ·) = true := by
    rw [heq]
    simpa [Token.text] using hc
  rw [dropWhile_textOf hhead, heq]
  rfl

/-- The first character is that of the sign, or a blank before it. -/
theorem head_skip {c : CodePoint} : ∀ {ts r : List Token}, skipBlanks ts = .other c :: r →
    (textOf ts).head? = some c ∨ ∃ b, (textOf ts).head? = some b ∧ Sql.Lexer.isBlank b = true
  | [], _, h => by cases h
  | t :: ts, r, h => by
      rw [skipBlanks, List.dropWhile_cons] at h
      split at h
      · next ht =>
        cases t with
        | space b => exact .inr ⟨b, rfl, ht⟩
        | lineComment | blockComment | literal | quoted | dollar | word | number | semicolon
            | other => cases ht
      · obtain ⟨rfl, -⟩ := List.cons.inj h
        exact .inl rfl

theorem skipBlanks_suffix (ts : List Token) : skipBlanks ts <:+ ts := List.dropWhile_suffix _

/-- What is left after an argument is the end of the tokens. -/
theorem plainArg_suffix {ts r : List Token} (h : plainArg ts = some r) : r <:+ ts := by
  unfold plainArg at h
  split at h
  · next hskip =>
    obtain rfl := Option.some.inj h
    exact ((skipBlanks_suffix _).trans (List.suffix_cons _ _)).trans (hskip ▸ skipBlanks_suffix ts)
  · next hskip =>
    split at h
    · obtain rfl := Option.some.inj h
      have hrest : _ <:+ skipBlanks ts := hskip ▸ (List.suffix_cons _ _).trans
        (List.suffix_cons _ _)
      exact ((skipBlanks_suffix _).trans hrest).trans (skipBlanks_suffix ts)
    · cases h
  · cases h

theorem sign_suffix {c : CodePoint} {ts r : List Token} (h : sign c ts = some r) : r <:+ ts :=
  sign_eq h ▸ List.suffix_cons _ _

/-- The last argument is read as a word of the text. -/
theorem false_text {ts r r' : List Token} (h : plainFalse ts = some r)
    (hr : sign (chr ')') r = some r') : ∃ x, afterWord (str "false")
    ((textOf ts).dropWhile isSpace) = some x ∧ x.dropWhile isSpace = chr ')' :: textOf r' := by
  unfold plainFalse at h
  split at h
  · next w rest hskip =>
    split at h
    · next hw =>
      obtain rfl := Option.some.inj h
      obtain ⟨hne, hletters, hword⟩ := keyword_ok (k := str "false") (by decide) hw
      have hdrop : (textOf ts).dropWhile isSpace = w ++ textOf rest := by
        refine (dropWhile_textOf ?_).trans (by rw [hskip]; rfl)
        rw [hskip]
        cases w with
        | nil => exact absurd rfl hne
        | cons c w =>
            show (!isSpace c) = true
            rw [(hletters c List.mem_cons_self).2]
            rfl
      exact ⟨textOf rest, by rw [hdrop, afterWord_append _ hword], dropWhile_sign (by decide) hr⟩
    · cases h
  · cases h

/-- A plain literal was read from its quote on. -/
theorem reads_literal {before : Sql.Lexer.Before} {c : CodePoint} {s text rest : Str} {t : Token}
    (h : Sql.Lexer.Reads before c s t rest) (ht : t = .literal none false text) :
    c = chr '\'' ∧ Sql.Lexer.literal false s = some (text, rest) := by
  cases h with
  | literal text' _ hc hread =>
      obtain ⟨-, hescapes, rfl⟩ := Token.literal.inj ht
      rw [hescapes] at hread
      exact ⟨hc, hread⟩
  | space | line | block | escape | quoted | dollar | sign | semicolon | word | number
      | other => cases ht

section
variable [Interp]

theorem isDecimal_of_isDigit {c : CodePoint} (h : isDigit c = true) : isDecimal c = true := by
  have hrange := digit_range h
  rw [isDecimal, if_pos (by omega), h]

theorem not_isDecimal_of_isBlank {c : CodePoint} (h : Sql.Lexer.isBlank c = true) :
    isDecimal c = false := by
  simp only [Sql.Lexer.isBlank, Bool.or_eq_true, Bool.and_eq_true, decide_eq_true_eq,
    beq_iff_eq] at h
  rw [isDecimal, if_pos (by omega), Bool.eq_false_iff]
  intro hdigit
  have hrange := digit_range hdigit
  omega

end

section
variable [Interp] {sql : Str} {all : List Token} (hlex : lex sql = some all)
include hlex

/-- **An argument that is plain is one of the pattern**, up to the sign after it. -/
theorem arg_text {ts r r' : List Token} (hts : ts <:+ all) (h : plainArg ts = some r)
    (hr : sign (chr ',') r = some r') : matchArg (textOf ts) = some (chr ',' :: textOf r') := by
  have hcomma : isSpace (chr ',') = false := by decide
  unfold plainArg at h
  split at h
  · next text rest hskip =>
    obtain rfl := Option.some.inj h
    have hsuffix : Token.literal none false text :: rest <:+ all :=
      hskip ▸ (skipBlanks_suffix ts).trans hts
    obtain ⟨before, c, s, htext, hreads⟩ := Sql.Lexer.reads_of_suffix hlex hsuffix
    have hquote := reads_literal hreads rfl
    have hdrop : (textOf ts).dropWhile isSpace = chr '\'' :: s := by
      rw [← hquote.1, ← htext, ← hskip]
      refine dropWhile_textOf ?_
      rw [hskip, htext, hquote.1]
      show (!isSpace (chr '\'')) = true
      decide
    rw [matchArg, hdrop]
    simp only [if_true, literalEnd_eq hquote.2, Option.map_some, dropWhile_sign hcomma hr]
  · next c d rest hskip =>
    split at h
    · next hparam =>
      obtain rfl := Option.some.inj h
      obtain ⟨rfl, hne, hdigits⟩ := hparam
      have hdrop : (textOf ts).dropWhile isSpace = chr '$' :: (d ++ textOf rest) := by
        refine (dropWhile_textOf ?_).trans (by rw [hskip]; rfl)
        rw [hskip]
        show (!isSpace (chr '$')) = true
        decide
      have hdecimal : d.all isDecimal = true :=
        List.all_eq_true.mpr fun c hc => isDecimal_of_isDigit (List.all_eq_true.mp hdigits c hc)
      have hstop : (textOf rest).head?.any isDecimal = false := by
        rcases head_skip (sign_eq hr) with hhead | ⟨b, hhead, hb⟩
        · rw [hhead]
          rfl
        · rw [hhead]
          exact not_isDecimal_of_isBlank hb
      have hfirst : (d ++ textOf rest).head?.any isDecimal = true := by
        cases d with
        | nil => exact absurd rfl hne
        | cons c d => exact List.all_eq_true.mp hdecimal c List.mem_cons_self
      have hne' : chr '$' ≠ chr '\'' := by decide
      rw [matchArg, hdrop]
      simp only [if_neg hne', hfirst, and_self, if_true,
        (Sql.Lexer.span_eq _ hdecimal hstop).2, Option.map_some,
        dropWhile_sign hcomma hr]
    · cases h
  · cases h

/-- **A plain call matches the pattern.** -/
theorem matchSetConfig_text {w : Str} {ts : List Token} (hts : ts <:+ all)
    (hw : w.map lower = str "set_config") (h : (plainArgs ts).isSome = true) :
    (matchSetConfig (w ++ textOf ts)).isSome = true := by
  obtain ⟨r, h⟩ := Option.isSome_iff_exists.mp h
  obtain ⟨t₁, h₁, h⟩ := Option.bind_eq_some_iff.mp h
  obtain ⟨t₂, h₂, h⟩ := Option.bind_eq_some_iff.mp h
  obtain ⟨t₃, h₃, h⟩ := Option.bind_eq_some_iff.mp h
  obtain ⟨t₄, h₄, h⟩ := Option.bind_eq_some_iff.mp h
  obtain ⟨t₅, h₅, h⟩ := Option.bind_eq_some_iff.mp h
  obtain ⟨t₆, h₆, h⟩ := Option.bind_eq_some_iff.mp h
  have hts₁ : t₁ <:+ all := ((sign_suffix h₁).trans (skipBlanks_suffix ts)).trans hts
  have hts₃ : t₃ <:+ all := ((sign_suffix h₃).trans (plainArg_suffix h₂)).trans hts₁
  obtain ⟨x, hfalse, hclose⟩ := false_text h₆ h
  rw [matchSetConfig, afterWord_append _ (ignoreCase_of_lower (by decide) hw)]
  simp only [Option.bind_eq_bind, Option.bind_some,
    dropWhile_sign (by decide : isSpace (chr '(') = false) h₁, char_cons,
    arg_text hlex hts₁ h₂ h₃, arg_text hlex hts₃ h₄ h₅, hfalse, hclose, Option.isSome_some]

end

/-- A setting in sight is found by the search. -/
theorem config_found [Interp] {sql : Str} {ts : List Token} (hlex : lex sql = some ts)
    (hsight : configInSight ts = true) :
    ((has (str "et_config") sql || has (str "ET_CONFIG") sql) && sessionSetConfig sql) = true := by
  obtain ⟨ys, hys, h⟩ := List.any_eq_true.mp hsight
  obtain ⟨xs, rfl⟩ := (List.mem_tails _ _).mp hys
  split at h
  · next w rest =>
    obtain ⟨h, hargs⟩ := (Bool.and_eq_true _ _).mp h
    obtain ⟨hw, hcase⟩ := (Bool.and_eq_true _ _).mp h
    have hmatch := matchSetConfig_text hlex
      (List.suffix_cons _ _ |>.trans (List.suffix_append _ _)) (of_decide_eq_true hw) hargs
    have hsql := textOf_lex hlex
    rw [textOf_append, textOf_cons] at hsql
    have hinfix : w <:+: sql := ⟨textOf xs, textOf rest, by rw [← hsql, List.append_assoc]; rfl⟩
    rw [Bool.and_eq_true, Bool.or_eq_true]
    refine ⟨((Bool.or_eq_true _ _).mp hcase).imp (has_of_part · hinfix) (has_of_part · hinfix), ?_⟩
    refine List.any_eq_true.mpr ⟨w ++ textOf rest, (List.mem_tails _ _).mpr ⟨textOf xs, hsql⟩,
      hmatch⟩
  · cases h

/-! ## What the guard finds -/

section
variable [Interp] (toLower : Str → Str) (alnum : CodePoint → Bool)

/-- The first word of the text, and what is searched in it. -/
def Found (sql : Str) : Prop :=
  if (firstWord sql).1 = str "SET" then (firstWord (firstWord sql).2).1 ∉ localScopes
  else
    (firstWord sql).1 ∈ lasting ∨ ((firstWord sql).1 = str "DO" ∧ doState toLower alnum sql ≠ []) ∨
      ((has (str "et_config") sql || has (str "ET_CONFIG") sql) && sessionSetConfig sql) = true ∨
      ((has (str "dvisory") sql || has (str "DVISORY") sql) && hasAdvisory toLower sql) = true

/-- The search finds something exactly where one of its two patterns is found. -/
theorem searched_ne_nil (sql : Str) : searched toLower sql ≠ [] ↔
    ((has (str "et_config") sql || has (str "ET_CONFIG") sql) && sessionSetConfig sql) = true ∨
      ((has (str "dvisory") sql || has (str "DVISORY") sql) && hasAdvisory toLower sql) = true := by
  rw [searched]
  split
  · next h => exact ⟨fun _ => .inl h, fun _ => by decide⟩
  · next h =>
    split
    · next h' => exact ⟨fun _ => .inr h', fun _ => by decide⟩
    · next h' => exact ⟨fun hne => absurd rfl hne, fun hor => (hor.elim h h').elim⟩

/-- The guard refuses what it finds. -/
theorem guard_eq_ok_iff (sql : Str) :
    guard toLower alnum sql = .ok () ↔ ¬ Found toLower alnum sql := by
  have hstate : sessionState toLower alnum sql ≠ [] ↔ Found toLower alnum sql := by
    have hlasting : (firstWord sql).1 ∈ lasting → (firstWord sql).1 ≠ [] := by
      intro hmem hnil
      rw [hnil] at hmem
      exact absurd hmem (by decide)
    rw [sessionState, Found]
    dsimp only
    by_cases hset : (firstWord sql).1 = str "SET"
    · rw [if_pos hset, if_pos hset]
      split
      · next hscope => exact ⟨fun hne => absurd rfl hne, fun hn => absurd hscope hn⟩
      · next hscope => exact ⟨fun _ => hscope, fun _ => by decide⟩
    rw [if_neg hset, if_neg hset]
    by_cases hmem : (firstWord sql).1 ∈ lasting
    · rw [if_pos hmem]
      exact ⟨fun _ => .inl hmem, fun _ => hlasting hmem⟩
    rw [if_neg hmem]
    by_cases hdo : (firstWord sql).1 = str "DO" ∧ doState toLower alnum sql ≠ []
    · rw [if_pos hdo.1, if_pos hdo.2]
      exact ⟨fun _ => .inr (.inl hdo), fun _ => hdo.2⟩
    · have hnone : (if (firstWord sql).1 = str "DO" then doState toLower alnum sql else []) =
        [] := by
        by_cases hword : (firstWord sql).1 = str "DO"
        · rw [if_pos hword]
          exact by_contra fun hne => hdo ⟨hword, hne⟩
        · rw [if_neg hword]
      rw [if_neg (not_not.mpr hnone), searched_ne_nil]
      exact ⟨fun h => .inr (.inr h), fun h => (h.resolve_left hmem).resolve_left hdo⟩
  rw [← hstate, guard]
  by_cases hnil : sessionState toLower alnum sql = []
  · simp [hnil]
  · simp [hnil]

/-- A statement is found by its first word. -/
theorem found_of_word {sql : Str} (h : (firstWord sql).1 ∈ lasting ∨
    ((firstWord sql).1 = str "SET" ∧ (firstWord (firstWord sql).2).1 ∉ localScopes)) : Found
    toLower alnum sql := by
  rw [Found]
  rcases h with hlasting | ⟨hset, hscope⟩
  · rw [if_neg fun hset => absurd (hset ▸ hlasting) (by decide)]
    exact .inl hlasting
  · rw [if_pos hset]
    exact hscope

omit [Interp] in
/-- A word in sight is written in ASCII letters. -/
theorem letters_of_wordInSight {ts : List Token} (h : wordInSight ts = true) :
    ∃ w r, lead false ts = some (.word w :: r) ∧ ∀ c ∈ w, isAsciiLetter c = true := by
  unfold wordInSight at h
  split at h
  · next w r hlead =>
    refine ⟨w, r, hlead, ?_⟩
    rcases (Bool.or_eq_true _ _).mp h with hword | hword
    · rw [List.contains_iff_mem] at hword
      have hall : ([str "reset", str "discard", str "listen", str "unlisten"].all isSmall) =
        true := by decide
      exact letter_of_small (List.all_eq_true.mp hall _ hword) rfl
    · exact letter_of_small (k := str "set") (by decide)
        (of_decide_eq_true ((Bool.and_eq_true _ _).mp hword).1)
  · cases h

/-- A text that begins with a word in sight, and has none of what the guard searches. -/
structure Bare (sql : Str) (ts : List Token) : Prop where
  word : ∃ w r, lead false ts = some (.word w :: r) ∧ (∀ c ∈ w, isAsciiLetter c = true) ∧
    w.map lower ≠ str "do"
  config : has (str "et_config") sql = false ∧ has (str "ET_CONFIG") sql = false
  lock : has (str "dvisory") sql = false ∧ has (str "DVISORY") sql = false

variable {sql : Str} {ts : List Token} (hlex : lex sql = some ts)
include hlex

omit [Interp] in
/-- The first word, in sight, is one of those the guard refuses. -/
theorem wordInSight_iff {w : Str} {r : List Token} (hlead : lead false ts = some (.word w :: r))
    (hletters : ∀ c ∈ w, isAsciiLetter c = true) : wordInSight ts = true ↔
      (firstWord sql).1 ∈ lasting ∨ ((firstWord sql).1 = str "SET" ∧
        (firstWord (firstWord sql).2).1 ∉ localScopes) := by
  have hword := firstWord_eq hlex hlead hletters
  have hupper : ∀ k : Str, w.map upper = k.map upper ↔ w.map lower = k.map lower :=
    fun k => map_upper_eq_iff
  have hlasting : w.map upper ∈ lasting ↔
    [str "reset", str "discard", str "listen", str "unlisten"].contains (w.map lower) = true := by
    rw [List.contains_iff_mem]
    simp only [lasting, List.mem_cons, List.not_mem_nil, or_false]
    exact or_congr (hupper (str "reset")) (or_congr (hupper (str "discard"))
      (or_congr (hupper (str "listen")) (hupper (str "unlisten"))))
  have hset : w.map upper = str "SET" ↔ w.map lower = str "set" := hupper (str "set")
  rw [wordInSight, hlead, hword]
  simp only [hlasting, hset, Bool.or_eq_true, Bool.and_eq_true, decide_eq_true_eq,
    Bool.not_eq_true', List.contains_eq_mem, decide_eq_false_iff_not]

/-- What is in sight is found. -/
theorem found_of_inSight (hlower : LowersAscii toLower) (h : InSight sql ts) :
    Found toLower alnum sql := by
  rcases h with hword | ⟨hset, hcall⟩
  · obtain ⟨w, r, hlead, hletters⟩ := letters_of_wordInSight hword
    exact found_of_word toLower alnum ((wordInSight_iff hlex hlead hletters).mp hword)
  · rw [Found, if_neg hset]
    rcases hcall with hconfig | hlock
    · exact .inr (.inr (.inl (config_found hlex hconfig)))
    · have hfound := lock_found hlower hlock
      rw [textOf_lex hlex] at hfound
      exact .inr (.inr (.inr hfound))

/-- Of a bare text only the first word can be in sight. -/
theorem inSight_iff_of_bare (hlower : LowersAscii toLower) (hbare : Bare sql ts) :
    InSight sql ts ↔ wordInSight ts = true := by
  refine ⟨fun h => h.resolve_right fun hcall => ?_, .inl⟩
  rcases hcall.2 with hconfig | hlock
  · have hfound := config_found hlex hconfig
    simp [hbare.config.1, hbare.config.2] at hfound
  · have hfound := lock_found hlower hlock
    rw [textOf_lex hlex] at hfound
    simp [hbare.lock.1, hbare.lock.2] at hfound

/-- Of a bare text nothing is found but its first word. -/
theorem found_iff_of_bare (hbare : Bare sql ts) :
    Found toLower alnum sql ↔ wordInSight ts = true := by
  obtain ⟨w, r, hlead, hletters, hdo⟩ := hbare.word
  rw [wordInSight_iff hlex hlead hletters]
  refine ⟨fun hfound => ?_, found_of_word toLower alnum⟩
  rw [Found] at hfound
  split at hfound
  · next hset => exact .inr ⟨hset, hfound⟩
  · have hnotdo : (firstWord sql).1 ≠ str "DO" := by
      rw [firstWord_eq hlex hlead hletters]
      intro heq
      exact hdo (map_upper_eq_iff (k := str "do").mp heq)
    simp only [hnotdo, hbare.config.1, hbare.config.2, hbare.lock.1, hbare.lock.2, false_and,
      Bool.or_self, Bool.false_and, Bool.false_eq_true, or_false] at hfound
    exact .inl hfound

/-- **The guard keeps a text that leaves state off**, where a statement of it is in sight;
of a bare text exactly then. -/
theorem guarded (hlower : LowersAscii toLower) :
    ((LeavesState ts → InSight sql ts) → guard toLower alnum sql = .ok () → ¬ LeavesState ts) ∧
    (Bare sql ts →
      ((guard toLower alnum sql = .ok () → ¬ LeavesState ts) ↔
        (LeavesState ts → InSight sql ts))) := by
  rw [guard_eq_ok_iff]
  constructor
  · intro hsight hok hstate
    exact hok (found_of_inSight toLower alnum hlex hlower (hsight hstate))
  · intro hbare
    rw [inSight_iff_of_bare toLower hlex hlower hbare, found_iff_of_bare toLower alnum hlex hbare]
    exact ⟨fun h hstate => by_contra fun hword => h hword hstate,
      fun h hword hstate => hword (h hstate)⟩

end

/-! ## The second statement -/

/-- The guard's own tables on ASCII text. -/
abbrev asciiGuard (sql : Str) : Except Str Unit := @guard (List.map lower)
    (fun _ => false) Interp.ascii sql

theorem lowersAscii_map : LowersAscii (List.map lower) := by
  intro x w y _
  rw [List.map_append, List.map_append]
  exact ⟨_, _, rfl⟩

def resetAll : Str := str "/* demo/a */ RESET ALL"

theorem guarded_reset : ∃ ts, lex resetAll = some ts ∧ LeavesState ts ∧ asciiGuard resetAll ≠
    .ok () := by
  have hguard : ∀ sql ts, lex sql = some ts → InSight sql ts → LeavesState ts →
    asciiGuard sql ≠ .ok () := by
    intro sql ts hlex hsight hstate hok
    have hguarded := @guarded Interp.ascii (List.map lower) (fun _ => false) sql ts hlex
      lowersAscii_map
    exact hguarded.1 (fun _ => hsight) hok hstate
  have hsight : ((lex resetAll).any wordInSight) = true := by decide +kernel
  have hleaves : ((lex resetAll).any fun ts => (statements ts).any leavesState) = true := by
    decide +kernel
  obtain ⟨ts, hlex, hword⟩ := (Option.any_eq_true _ _).mp hsight
  rw [hlex] at hleaves
  have hstate : LeavesState ts := List.any_eq_true.mp hleaves
  exact ⟨ts, hlex, hstate, hguard _ _ hlex (.inl hword) hstate⟩

def twoStatements : Str := str "SELECT 1; SET search_path = other"

/-- **The second statement of a text** is not seen. -/
theorem second_accepted : ∃ sql ts, lex sql = some ts ∧ LeavesState ts ∧
    asciiGuard sql = .ok () := by
  have hleaves : ((lex twoStatements).any fun ts => (statements ts).any leavesState) =
    true := by decide +kernel
  have hok : (asciiGuard twoStatements).toOption.isSome = true := by decide +kernel
  obtain ⟨ts, hlex, hstate⟩ := (Option.any_eq_true _ _).mp hleaves
  obtain ⟨_, hguard⟩ := exists_ok_of_isSome hok
  exact ⟨twoStatements, ts, hlex, List.any_eq_true.mp hstate, hguard⟩

end BeSdk.Db.Session
