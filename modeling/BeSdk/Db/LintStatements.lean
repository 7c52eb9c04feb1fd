/-
BeSdk.Db.LintStatements — when the lint sees every statement.

What `statements_with_bodies` returns are the statements of the lexer, each with the text
that is kept of it (`statements_eq`), when the tokens are plain and no statement begins
or ends with a character that Python strips and PostgreSQL does not. The kept text has
all of the statement's code (`code_sublist`), and where a statement begins with the words
of a rule, so does its kept text (`matchWords_kept`): a word is not followed by a word
character, and there is a blank between two words, also where only a comment was.

* `statements_seen`: in such a text every statement is seen.
* `grant_hidden`: in a text that is not plain a GRANT is not.
-/
import BeSdk.Db.LintTheorems

namespace BeSdk.Db.Lint

open Sql.Lexer (Token isBlank isNewline isIdent lex pieces statements beginsWith)

/-! ## Plain texts -/

/-- The text of a statement without its gaps, as it is kept. -/
def solid (p : List Token) : Str := (p.filter fun t => !t.isGap).flatMap kept

/-- The statement begins and ends with no blank of Python's. -/
def bounded (p : List Token) : Bool := (solid p).head?.all (!isSpace ·) &&
    (solid p).getLast?.all (!isSpace ·)

/-- A text whose tokens are plain and whose statements are bounded. -/
def Plain (ts : List Token) : Prop := plainFrom false ts = true ∧
    ∀ p ∈ statements ts, bounded p = true

instance (ts : List Token) : Decidable (Plain ts) := inferInstanceAs (Decidable (_ ∧ _))

/-- The lint has the statements of the text, one by one, each with all its code, and
refuses those that begin with the words of a rule. -/
def Sees (alnum : CodePoint → Bool) (stmts : List (List Token))
    (out : List (Str × List Str)) : Prop :=
  List.Forall₂ (fun p x => (p.flatMap Token.code).Sublist x.1 ∧ ∀ r ∈ rules, r.start = true →
    (∃ ws ∈ r.alternatives, beginsWith ws p = true) → r ∈ refusals alnum x.1) stmts out

/-! ## What is kept -/

/-- Of a token that is no gap something is kept. -/
theorem kept_ne_nil {t : Token} (hread : t.IsRead) (hgap : t.isGap = false)
    (hsemicolon : t ≠ .semicolon) : kept t ≠ [] := by
  cases t with
  | space | lineComment | blockComment => cases hgap
  | semicolon => exact absurd rfl hsemicolon
  | literal lead => exact List.append_ne_nil_of_right_ne_nil _ (by decide)
  | dollar => exact List.cons_ne_nil _ _
  | other => exact List.cons_ne_nil _ _
  | word | number => exact hread
  | quoted parts =>
      cases parts with
      | nil => exact absurd rfl hread
      | cons name parts =>
          refine List.append_ne_nil_of_left_ne_nil ?_ _
          unfold keptName
          simp only
          split <;> exact List.cons_ne_nil _ _

theorem isSpace_of_isBlank {c : CodePoint} (h : isBlank c = true) : isSpace c = true := by
  simp only [isBlank, Bool.or_eq_true, Bool.and_eq_true, decide_eq_true_eq, beq_iff_eq] at h
  simp only [isSpace, Bool.or_eq_true, Bool.and_eq_true, decide_eq_true_eq, beq_iff_eq]
  omega

/-- Only blanks are kept of a gap. -/
theorem isSpace_of_gap {t : Token} (hread : t.IsRead) (hgap : t.isGap = true) :
    ∀ c ∈ kept t, isSpace c = true := by
  cases t with
  | space c =>
      intro d hd
      rw [List.mem_singleton.mp hd]
      exact isSpace_of_isBlank hread
  | lineComment => nofun
  | blockComment => exact fun c hc => by rw [List.mem_singleton.mp hc]; decide
  | literal | quoted | dollar | word | number | semicolon | other => cases hgap

theorem code_sublist (t : Token) : t.code.Sublist (kept t) := by
  cases t with
  | word | number | other => exact List.Sublist.refl _
  | space | lineComment | blockComment | literal | quoted | dollar | semicolon =>
      exact List.nil_sublist _

/-- What is solid is among what is kept. -/
theorem solid_sublist : ∀ (after : Bool) (p : List Token), (solid p).Sublist (keptFrom after p)
  | _, [] => List.Sublist.refl _
  | after, t :: p => by
      have ih := solid_sublist (isLine t) p
      rw [keptFrom]
      cases hgap : t.isGap with
      | true =>
          have hsolid : solid (t :: p) = solid p := by simp [solid, hgap]
          rw [hsolid]
          exact ih.trans (List.sublist_append_right _ _)
      | false =>
          have hsolid : solid (t :: p) = kept t ++ solid p := by simp [solid, hgap]
          have hreturn : isReturn after t = false := by
            cases t with
            | space => cases hgap
            | lineComment | blockComment | literal | quoted | dollar | word | number
                | semicolon | other => simp [isReturn]
          rw [hsolid, hreturn]
          exact (List.Sublist.refl (kept t)).append ih

/-- The code of the tokens is among what is solid. -/
theorem code_sublist_solid : ∀ p : List Token, (p.flatMap Token.code).Sublist (solid p)
  | [] => List.Sublist.refl _
  | t :: p => by
      have ih := code_sublist_solid p
      rw [List.flatMap_cons]
      cases hgap : t.isGap with
      | true =>
          have hsolid : solid (t :: p) = solid p := by simp [solid, hgap]
          have hcode : t.code = [] := by
            cases t with
            | space | lineComment | blockComment => rfl
            | literal | quoted | dollar | word | number | semicolon | other => cases hgap
          rw [hsolid, hcode]
          exact ih
      | false =>
          have hsolid : solid (t :: p) = kept t ++ solid p := by simp [solid, hgap]
          rw [hsolid]
          exact (code_sublist t).append ih

/-! ## Stripping -/

/-- What begins with a character that stays is not touched by dropping others in front. -/
theorem sublist_dropWhile {q : CodePoint → Bool} {m : Str} :
    ∀ {l : Str}, m.Sublist l → m.head?.all (!q ·) = true →
    m.Sublist (l.dropWhile q)
  | [], h, _ => h
  | c :: l, h, hhead => by
      cases hc : q c with
      | false => rwa [List.dropWhile_cons_of_neg (by simp [hc])]
      | true =>
          rw [List.dropWhile_cons_of_pos hc]
          refine sublist_dropWhile ?_ hhead
          cases h with
          | cons _ h => exact h
          | cons_cons _ h =>
              rw [List.head?_cons, Option.all_some, hc] at hhead
              cases hhead

/-- Stripping keeps what has no blank at its ends. -/
theorem sublist_strip {m l : Str} (h : m.Sublist l) (hhead : m.head?.all (!isSpace ·) = true)
    (hlast : m.getLast?.all (!isSpace ·) = true) : m.Sublist (Str.strip l) := by
  have hleft := sublist_dropWhile h hhead
  have hright := sublist_dropWhile (q := isSpace) hleft.reverse (by rwa [List.head?_reverse])
  have hboth := hright.reverse
  rwa [List.reverse_reverse] at hboth

theorem strip_eq_nil {l : Str} (h : ∀ c ∈ l, isSpace c = true) : Str.strip l = [] := by
  have hnil : l.dropWhile isSpace = [] := by
    rw [← List.append_nil l, List.dropWhile_append_of_pos h]
    rfl
  rw [Str.strip, hnil]
  rfl

/-! ## Statements -/

/-- What is true of every piece of a text with plain tokens. -/
structure Piece (p : List Token) : Prop where
  read : ∀ t ∈ p, t.IsRead
  chain : p.IsChain Sql.Lexer.Follows
  semicolon : .semicolon ∉ p
  plain : plainFrom false p = true

/-- The pieces of plain tokens are plain. -/
theorem plain_pieces : ∀ {ts : List Token} {after : Bool}, plainFrom after ts = true →
    ∀ {p : List Token} {ps : List (List Token)}, pieces ts = p :: ps →
      plainFrom after p = true ∧ ∀ q ∈ ps, plainFrom false q = true
  | [], after, _, p, ps, h => by
      obtain ⟨rfl, rfl⟩ := List.cons.inj h
      exact ⟨rfl, nofun⟩
  | t :: ts, after, hplain, p, ps, h => by
      simp only [plainFrom, Bool.and_eq_true] at hplain
      obtain ⟨⟨ht, hreturn⟩, hrest⟩ := hplain
      obtain ⟨p', ps', hpieces⟩ := List.exists_cons_of_ne_nil (Sql.Lexer.pieces_ne_nil ts)
      obtain ⟨hfirst, hothers⟩ := plain_pieces hrest hpieces
      by_cases hsemicolon : t = .semicolon
      · subst hsemicolon
        rw [pieces, hpieces] at h
        obtain ⟨rfl, rfl⟩ := List.cons.inj h
        exact ⟨rfl, List.forall_mem_cons.mpr ⟨hfirst, hothers⟩⟩
      · obtain ⟨p'', ps'', hpieces', hcons⟩ := Sql.Lexer.pieces_cons hsemicolon ts
        rw [hcons] at h
        rw [hpieces] at hpieces'
        obtain ⟨rfl, rfl⟩ := List.cons.inj hpieces'
        obtain ⟨rfl, rfl⟩ := List.cons.inj h
        refine ⟨?_, hothers⟩
        have hhead : p'.head?.all (· = .space (chr '\n')) = true ∨ isReturn after t = false := by
          rcases (Bool.or_eq_true _ _).mp hreturn with hreturn | hreturn
          · exact .inr ((Bool.not_eq_true' _).mp hreturn)
          · left
            obtain ⟨l, hl⟩ := (Sql.Lexer.pieces_ok hpieces).1
            cases p' with
            | nil => rfl
            | cons t' p' =>
                rw [← hl] at hreturn
                exact hreturn
        simp only [plainFrom, Bool.and_eq_true, Bool.or_eq_true, Bool.not_eq_true']
        exact ⟨⟨ht, hhead.symm⟩, hfirst⟩

/-- Each piece of plain SQL is a piece of the lint. -/
theorem piece_of_mem {sql : Str} {ts p : List Token} (hlex : lex sql = some ts)
    (hplain : plainFrom false ts = true) (hp : p ∈ pieces ts) : Piece p := by
  obtain ⟨hread, hchain⟩ := Sql.Lexer.lexFrom_ok ts hlex
  obtain ⟨hpart, hsemicolon⟩ := Sql.Lexer.part_of_mem_pieces hp
  refine ⟨fun t ht => hread t (hpart.subset ht), hchain.infix hpart, hsemicolon, ?_⟩
  obtain ⟨p', ps', hpieces⟩ := List.exists_cons_of_ne_nil (Sql.Lexer.pieces_ne_nil ts)
  obtain ⟨hfirst, hothers⟩ := plain_pieces hplain hpieces
  rw [hpieces] at hp
  rcases List.mem_cons.mp hp with rfl | hp
  · exact hfirst
  · exact hothers p hp

/-- Nothing but blanks is kept of gaps. -/
theorem isSpace_of_gaps : ∀ (after : Bool) {p : List Token}, (∀ t ∈ p, t.IsRead) →
    p.all Token.isGap = true → ∀ c ∈ keptFrom after p, isSpace c = true
  | _, [], _, _ => nofun
  | after, t :: p, hread, hgaps => by
      obtain ⟨ht, hp⟩ := List.forall_mem_cons.mp hread
      obtain ⟨hgap, hgaps⟩ := (Bool.and_eq_true _ _).mp hgaps
      have ih := isSpace_of_gaps (isLine t) hp hgaps
      intro c hc
      rw [keptFrom] at hc
      rcases List.mem_append.mp hc with hc | hc
      · split at hc
        · cases hc
        · exact isSpace_of_gap ht hgap c hc
      · exact ih c hc

/-- What stands between the semicolons comes out, if it is a statement. -/
theorem flush_piece {p : List Token} (hp : Piece p)
    (hbounded : p.all Token.isGap = false → bounded p = true) (bodies : List Str) :
    flush (keptFrom false p) bodies [] = if p.all Token.isGap then []
    else [(Str.strip (keptFrom false p), bodies)] := by
  cases hgaps : p.all Token.isGap with
  | true => rw [flush, strip_eq_nil (isSpace_of_gaps false hp.read hgaps)]; rfl
  | false =>
      obtain ⟨hhead, hlast⟩ := (Bool.and_eq_true _ _).mp (hbounded hgaps)
      have hkept := sublist_strip (solid_sublist false p) hhead hlast
      have hne : solid p ≠ [] := by
        obtain ⟨t, ht, hgap⟩ : ∃ t ∈ p, t.isGap = false := by simpa using hgaps
        obtain ⟨c, hc⟩ := List.exists_mem_of_ne_nil _
          (kept_ne_nil (hp.read t ht) hgap fun heq => hp.semicolon (heq ▸ ht))
        refine List.ne_nil_of_mem (List.mem_flatMap.mpr
          ⟨t, List.mem_filter.mpr ⟨ht, by rw [hgap]; rfl⟩, hc⟩)
      have hnonempty : (Str.strip (keptFrom false p)).isEmpty = false := by
        cases hstrip : Str.strip (keptFrom false p) with
        | cons => rfl
        | nil =>
            rw [hstrip] at hkept
            exact absurd (List.sublist_nil.mp hkept) hne
      rw [flush, hnonempty]
      rfl

/-- **The statements are those of the lexer**, with what is kept of them. -/
theorem statements_eq {sql : Str} {ts : List Token} (hlex : lex sql = some ts) (hplain : Plain ts) :
    statementsWithBodies sql =
      (statements ts).map fun p => (Str.strip (keptFrom false p), p.flatMap Token.bodies) := by
  have hloop := loop_eq false ts hlex hplain.1 nofun sql.length [] [] [] (Nat.le_refl _)
  have hresults : results false ts [] [] = (pieces ts).flatMap fun p =>
    flush (keptFrom false p) (p.flatMap Token.bodies) [] := by
    obtain ⟨p, ps, hpieces⟩ := List.exists_cons_of_ne_nil (Sql.Lexer.pieces_ne_nil ts)
    rw [results, hpieces]
    rfl
  rw [statementsWithBodies]
  refine hloop.trans ?_
  rw [List.nil_append, hresults, statements]
  have hpieces : ∀ p ∈ pieces ts, flush (keptFrom false p) (p.flatMap Token.bodies) [] =
      if p.all Token.isGap then []
      else [(Str.strip (keptFrom false p), p.flatMap Token.bodies)] := fun p hp =>
    flush_piece (piece_of_mem hlex hplain.1 hp)
      (fun hgaps => hplain.2 p (List.mem_filter.mpr ⟨hp, by rw [hgaps]; rfl⟩)) _
  revert hpieces
  generalize pieces ts = ps
  intro hpieces
  induction ps with
  | nil => rfl
  | cons p ps ih =>
      obtain ⟨hp, hps⟩ := List.forall_mem_cons.mp hpieces
      rw [List.flatMap_cons, hp, ih hps]
      cases hgaps : p.all Token.isGap with
      | true => rw [List.filter_cons_of_neg (by simp [hgaps])]; rfl
      | false => rw [List.filter_cons_of_pos (by simp [hgaps])]; rfl

/-! ## Rules -/

/-- What a rule names is a word of small letters. -/
def isKeyword (k : Str) : Bool := !k.isEmpty && k.all fun c => 0x61 ≤ c.val && c.val ≤ 0x7A

theorem keywords_of_rule : ∀ r ∈ rules, ∀ ws ∈ r.alternatives, ws ≠ [] ∧
    ∀ k ∈ ws, isKeyword k = true := by decide +kernel

/-- A small letter's capital is a letter. -/
theorem letter_of_lower {c : CodePoint} (h : 0x61 ≤ (Sql.Lexer.lower c).val ∧
    (Sql.Lexer.lower c).val ≤ 0x7A) : Sql.Lexer.isLetter c = true ∧ isSpace c = false ∧
    ignoreCase c = Sql.Lexer.lower c := by
  have hrange : (0x41 ≤ c.val ∧ c.val ≤ 0x5A) ∨ (0x61 ≤ c.val ∧ c.val ≤ 0x7A) := by
    unfold Sql.Lexer.lower at h
    split at h
    · rename_i hupper
      exact .inl hupper
    · exact .inr h
  refine ⟨?_, ?_, ?_⟩
  · simp only [Sql.Lexer.isLetter, Bool.or_eq_true, Bool.and_eq_true, decide_eq_true_eq, beq_iff_eq]
    omega
  · simp only [isSpace, Bool.or_eq_false_iff, Bool.and_eq_false_iff, decide_eq_false_iff_not,
      beq_eq_false_iff_ne]
    omega
  · unfold ignoreCase Sql.Lexer.lower
    split
    · rfl
    · rw [if_neg (by omega), if_neg (by omega), if_neg (by omega)]

/-- A keyword in any case is a word of letters. -/
theorem keyword_ok {k w : Str} (hk : isKeyword k = true) (hw : w.map Sql.Lexer.lower = k) :
    w ≠ [] ∧ (∀ c ∈ w, Sql.Lexer.isLetter c = true ∧ isSpace c = false) ∧ w.map ignoreCase = k := by
  obtain ⟨hne, hall⟩ := (Bool.and_eq_true _ _).mp hk
  subst hw
  have hletter : ∀ c ∈ w, _ := fun c hc => letter_of_lower (c := c) (by
    have hrange := List.all_eq_true.mp hall _ (List.mem_map_of_mem hc)
    simpa using hrange)
  refine ⟨by simpa using hne, fun c hc => ⟨(hletter c hc).1, (hletter c hc).2.1⟩, ?_⟩
  exact List.map_congr_left fun c hc => (hletter c hc).2.2

theorem afterWord_append {k w : Str} (x : Str) (hw : w.map ignoreCase = k) :
    afterWord k (w ++ x) = some x := by
  have hlength : k.length = w.length := by rw [← hw, List.length_map]
  rw [afterWord, hlength, List.take_left, if_pos hw, List.drop_left]

/-- `s.rstrip()` -/
def rstrip (s : Str) : Str := (s.reverse.dropWhile isSpace).reverse

/-- Blanks at the end are those of the last part. -/
theorem rstrip_append {a b : Str} (h : rstrip b ≠ []) : rstrip (a ++ b) = a ++ rstrip b := by
  have hne : (b.reverse.dropWhile isSpace).isEmpty = false := by
    cases hb : b.reverse.dropWhile isSpace with
    | nil => rw [rstrip, hb] at h; exact absurd rfl h
    | cons => rfl
  rw [rstrip, List.reverse_append, List.dropWhile_append, hne]
  simp [rstrip]

theorem rstrip_word {w : Str} (x : Str) (hw : ∀ c ∈ w, isSpace c = false) :
    rstrip (w ++ x) = w ++ rstrip x := by
  by_cases hx : rstrip x = []
  · have hempty : x.reverse.dropWhile isSpace = [] := by simpa [rstrip] using hx
    rw [hx, List.append_nil, rstrip, List.reverse_append, List.dropWhile_append, hempty]
    cases hr : w.reverse with
    | nil => simpa using hr.symm
    | cons c l =>
        have hc : isSpace c = false := hw c
          (List.mem_reverse.mp (by rw [hr]; exact List.mem_cons_self))
        rw [List.isEmpty_nil, if_pos rfl, List.dropWhile_cons_of_neg (by simp [hc]), ← hr,
          List.reverse_reverse]
  · exact rstrip_append hx

theorem rstrip_front (x : Str) : rstrip x <+: x := by
  have hsuffix := List.dropWhile_suffix isSpace (l := x.reverse)
  rwa [← List.reverse_prefix, List.reverse_reverse] at hsuffix

/-! ### The beginning of a statement -/

theorem isReturn_of_not_gap {t : Token} (h : t.isGap = false) (after : Bool) :
    isReturn after t = false := by
  cases t with
  | space | lineComment | blockComment => cases h
  | literal | quoted | dollar | word | number | semicolon | other => simp [isReturn]

theorem isLine_of_not_gap {t : Token} (h : t.isGap = false) : isLine t = false := by
  cases t with
  | space | lineComment | blockComment => cases h
  | literal | quoted | dollar | word | number | semicolon | other => rfl

/-- What is kept of a statement are blanks, and what is kept from its first word on. -/
theorem keptFrom_gap : ∀ (after : Bool) {p : List Token}, (∀ t ∈ p, t.IsRead) →
    plainFrom after p = true → ∃ g, keptFrom after p = g ++ keptFrom false
    (p.dropWhile Token.isGap) ∧ (∀ c ∈ g, isSpace c = true) ∧
      plainFrom false (p.dropWhile Token.isGap) = true
  | _, [], _, _ => ⟨[], rfl, nofun, rfl⟩
  | after, t :: p, hread, hplain => by
      obtain ⟨ht, hp⟩ := List.forall_mem_cons.mp hread
      cases hgap : t.isGap with
      | true =>
          obtain ⟨g, hg, hspace, hrest⟩ :=
            keptFrom_gap (isLine t) hp ((Bool.and_eq_true _ _).mp hplain).2
          rw [List.dropWhile_cons_of_pos hgap]
          refine ⟨(if isReturn after t then [] else kept t) ++ g, ?_, fun c hc => ?_, hrest⟩
          · rw [keptFrom, hg, List.append_assoc]
          · rcases List.mem_append.mp hc with hc | hc
            · split at hc
              · cases hc
              · exact isSpace_of_gap ht hgap c hc
            · exact hspace c hc
      | false =>
          rw [List.dropWhile_cons_of_neg (by simp [hgap])]
          refine ⟨[], ?_, nofun, ?_⟩
          · rw [keptFrom, keptFrom, isReturn_of_not_gap hgap, isReturn_of_not_gap hgap]
            rfl
          · rw [plainFrom, isReturn_of_not_gap hgap] at hplain ⊢
            exact hplain

theorem Piece.dropWhile {p : List Token} (hp : Piece p) : Piece (p.dropWhile Token.isGap) := by
  have hpart := (List.dropWhile_suffix Token.isGap (l := p)).isInfix
  obtain ⟨g, -, -, hplain⟩ := keptFrom_gap false hp.read hp.plain
  exact ⟨fun t ht => hp.read t (hpart.subset ht), hp.chain.infix hpart,
    fun h => hp.semicolon (hpart.subset h), hplain⟩

theorem Piece.tail {t : Token} {p : List Token} (hp : Piece (t :: p))
    (hgap : t.isGap = false) : Piece p := by
  obtain ⟨hread, hchain, hsemicolon, hplain⟩ := hp
  refine ⟨fun t ht => hread t (List.mem_cons_of_mem _ ht), hchain.tail,
    fun h => hsemicolon (List.mem_cons_of_mem _ h), ?_⟩
  rw [plainFrom, isLine_of_not_gap hgap, Bool.and_eq_true] at hplain
  exact hplain.2

/-- What is kept of a token begins with its first character, or with a blank. -/
theorem head_kept {t : Token} (hread : t.IsRead) (hfirst : t.first.any isIdent = false) :
    (kept t).head?.any isIdent = false := by
  cases t with
  | space c | other c => exact hfirst
  | lineComment | semicolon => rfl
  | blockComment => rfl
  | literal lead => cases lead <;> exact hfirst
  | dollar => exact absurd (show isIdent (chr '$') = false from hfirst) (by decide)
  | word text | number text => exact hfirst
  | quoted parts =>
      cases parts with
      | nil => rfl
      | cons name parts =>
          rw [kept, List.flatMap_cons]
          unfold keptName
          simp only
          split <;> exact hfirst

/-- A name is not followed by a character of one, also where the loop leaves a comment out. -/
theorem head_after_word {w : Str} {q : List Token} (hp : Piece (.word w :: q)) :
    (keptFrom false q).head?.any isIdent = false := by
  have hq := hp.tail rfl
  cases q with
  | nil => rfl
  | cons t q =>
      have hfollows : t.first.any isIdent = false := (List.isChain_cons_cons.mp hp.chain).1
      have ht := hq.read t List.mem_cons_self
      have hhead := head_kept ht hfollows
      have hkeeps : keptFrom false (t :: q) = kept t ++ keptFrom (isLine t) q := by
        rw [keptFrom]; rfl
      rw [hkeeps]
      cases hkept : kept t with
      | cons c text =>
          rw [hkept] at hhead
          exact hhead
      | nil =>
          -- a line comment, which a line end follows
          obtain ⟨text, rfl⟩ : ∃ text, t = .lineComment text := by
            cases t with
            | lineComment text => exact ⟨text, rfl⟩
            | semicolon => exact absurd List.mem_cons_self hq.semicolon
            | space | blockComment | dollar | other => cases hkept
            | literal | quoted | word | number => exact absurd hkept (kept_ne_nil ht rfl (by simp))
          rw [List.nil_append]
          cases q with
          | nil => rfl
          | cons t' q =>
              obtain ⟨c, rfl, hnewline⟩ : ∃ c, t' = .space c ∧ isNewline c = true :=
                (List.isChain_cons_cons.mp (List.isChain_cons_cons.mp hp.chain).2).1
              rw [isLine, keptFrom]
              cases hreturn : isReturn true (.space c) with
              | false =>
                  have hident : isIdent c = false := by
                    rcases (Bool.or_eq_true _ _).mp hnewline with h | h <;>
                      rw [of_decide_eq_true h] <;> decide
                  exact hident
              | true =>
                  have hplain :=
                    ((Bool.and_eq_true _ _).mp ((Bool.and_eq_true _ _).mp hq.plain).2).1
                  rw [isLine, hreturn, Bool.not_true, Bool.false_or] at hplain
                  have hline := ((Bool.and_eq_true _ _).mp hplain).2
                  cases q with
                  | nil => rfl
                  | cons t'' q =>
                      obtain rfl : t'' = .space (chr '\n') := of_decide_eq_true hline
                      rfl

theorem wordEnds_of {alnum : CodePoint → Bool} {x : Str} (h : x.head?.any isIdent = false) :
    wordEnds alnum (rstrip x) = true := by
  cases hr : rstrip x with
  | nil => rfl
  | cons c l =>
      obtain ⟨y, hy⟩ := rstrip_front x
      rw [hr] at hy
      rw [← hy] at h
      have hident : isIdent c = false := h
      have hword : wordChar alnum c = false := by
        rw [Bool.eq_false_iff]
        intro hword
        have : isIdent c = true := by
          rw [isIdent, Sql.Lexer.isWord, isLetter_eq]
          simp only [wordChar, Bool.or_eq_true, Bool.and_eq_true] at hword ⊢
          tauto
        rw [hident] at this
        cases this
      rw [wordEnds, List.head?_cons, Option.any_some, hword]
      rfl

/-- The words that a statement begins with are in what is kept of it. -/
theorem matchWords_kept (alnum : CodePoint → Bool) :
    ∀ (ks : List Str) {p : List Token}, Piece p → ks ≠ [] →
    (∀ k ∈ ks, isKeyword k = true) → beginsWith ks p = true →
    ∃ w q, p.dropWhile Token.isGap = .word w :: q ∧
    w ≠ [] ∧ (∀ c ∈ w, Sql.Lexer.isLetter c = true ∧ isSpace c = false) ∧
      matchWords alnum ks (rstrip (keptFrom false (.word w :: q))) = true
  | [], _, _, hne, _, _ => absurd rfl hne
  | k :: ks, p, hp, _, hkeywords, hbegins => by
      obtain ⟨hk, hks⟩ := List.forall_mem_cons.mp hkeywords
      rw [beginsWith] at hbegins
      split at hbegins
      · rename_i w q hdrop
        obtain ⟨hw, hbegins⟩ := (Bool.and_eq_true _ _).mp hbegins
        obtain ⟨hwne, hletters, hcase⟩ := keyword_ok hk (of_decide_eq_true hw)
        have hpiece : Piece (.word w :: q) := hdrop ▸ hp.dropWhile
        have hhead := head_after_word hpiece
        have hkeeps : rstrip (keptFrom false (.word w :: q)) = w ++ rstrip (keptFrom false q) :=
          rstrip_word _ fun c hc => (hletters c hc).2
        refine ⟨w, q, hdrop, hwne, hletters, ?_⟩
        rw [hkeeps]
        cases ks with
        | nil =>
            rw [matchWords, afterWord_append _ hcase]
            exact wordEnds_of hhead
        | cons k' ks =>
            obtain ⟨w', q', hdrop', hwne', hletters', hmatch⟩ :=
              matchWords_kept alnum (k' :: ks) (hpiece.tail rfl) (List.cons_ne_nil _ _) hks hbegins
            obtain ⟨g, hg, hspace, -⟩ := keptFrom_gap false (hpiece.tail rfl).read
              (hpiece.tail rfl).plain
            rw [hdrop'] at hg
            have hkeeps' : rstrip (keptFrom false (.word w' :: q')) = w' ++
              rstrip (keptFrom false q') :=
              rstrip_word _ fun c hc => (hletters' c hc).2
            rw [hg,
              rstrip_append (by rw [hkeeps']; exact List.append_ne_nil_of_left_ne_nil hwne' _)]
            obtain ⟨c, l, rfl⟩ := List.exists_cons_of_ne_nil hwne'
            obtain ⟨hletter, hblank⟩ := hletters' c List.mem_cons_self
            have hgap : g ≠ [] := by
              rintro rfl
              rw [hg] at hhead
              have hident : isIdent c = false := hhead
              rw [isIdent, Sql.Lexer.isWord, hletter] at hident
              cases hident
            obtain ⟨d, g, rfl⟩ := List.exists_cons_of_ne_nil hgap
            have hdropped :
              (d :: g ++ rstrip (keptFrom false (.word (c :: l) :: q'))).dropWhile isSpace =
                rstrip (keptFrom false (.word (c :: l) :: q')) := by
              rw [List.dropWhile_append_of_pos hspace, hkeeps', List.cons_append,
                List.dropWhile_cons_of_neg (by simp [hblank])]
            rw [matchWords, afterWord_append _ hcase]
            simp only
            rw [hdropped, hmatch, List.cons_append, List.head?_cons, Option.any_some,
              hspace d List.mem_cons_self]
            rfl
      · cases hbegins

/-- A statement that begins with the words of a rule is refused by it. -/
theorem refused {alnum : CodePoint → Bool} {p : List Token} (hp : Piece p)
    {r : Rule} (hr : r ∈ rules) (hstart : r.start = true)
    (hbegins : ∃ ws ∈ r.alternatives, beginsWith ws p = true) :
    r ∈ refusals alnum (Str.strip (keptFrom false p)) := by
  obtain ⟨ws, hws, hbegins⟩ := hbegins
  obtain ⟨hne, hkeywords⟩ := keywords_of_rule r hr ws hws
  obtain ⟨w, q, hdrop, hwne, hletters, hmatch⟩ := matchWords_kept alnum ws hp hne hkeywords hbegins
  obtain ⟨g, hg, hspace, -⟩ := keptFrom_gap false hp.read hp.plain
  rw [hdrop] at hg
  obtain ⟨c, l, rfl⟩ := List.exists_cons_of_ne_nil hwne
  have hstrip : Str.strip (keptFrom false p) = rstrip (keptFrom false (.word (c :: l) :: q)) := by
    have hhead : keptFrom false (.word (c :: l) :: q) = c :: (l ++ keptFrom false q) := rfl
    have hblank := (hletters c List.mem_cons_self).2
    rw [Str.strip, hg, List.dropWhile_append_of_pos hspace, hhead,
      List.dropWhile_cons_of_neg (by simp [hblank])]
    rfl
  refine List.mem_filter.mpr ⟨hr, List.any_eq_true.mpr ⟨ws, hws, ?_⟩⟩
  rw [if_pos hstart, hstrip]
  exact hmatch

/-! ## Every statement is seen -/

/-- **The lint sees every statement** of a text whose tokens are plain: it has the
statements of the lexer one by one, with all their code, and refuses those that begin
with the words of a rule. -/
theorem statements_seen (alnum : CodePoint → Bool) {sql : Str} {ts : List Token}
    (hlex : lex sql = some ts) (hplain : Plain ts) :
    Sees alnum (statements ts) (statementsWithBodies sql) := by
  rw [statements_eq hlex hplain, Sees, List.forall₂_map_right_iff, List.forall₂_same]
  intro p hp
  have hpiece := piece_of_mem hlex hplain.1 (List.mem_of_mem_filter hp)
  obtain ⟨hhead, hlast⟩ := (Bool.and_eq_true _ _).mp (hplain.2 p hp)
  exact ⟨(code_sublist_solid p).trans (sublist_strip (solid_sublist false p) hhead hlast),
    fun r hr hstart hbegins =>
    refused hpiece hr hstart hbegins⟩

def migration : Str := str "CREATE TABLE a (b text); -- c;\r\nGRANT a TO \"b.c\"; DO $d$ ; $d$"

theorem statements_seen_migration : Sees (fun _ => false)
    (statements ((lex migration).getD [])) (statementsWithBodies migration) :=
  statements_seen _ (by decide +kernel) (by decide +kernel)

/-- A string ends at the quote after an escaped one, for PostgreSQL; for the loop the two
are one, and the GRANT is in the string. -/
def escaped : Str := str "SELECT E'\\''; GRANT a TO b"

theorem grant_hidden : ¬ ∀ alnum sql ts, lex sql = some ts → Sees alnum (statements ts)
    (statementsWithBodies sql) := by
  intro h
  have hsees := h (fun _ => false) escaped ((lex escaped).getD []) (by decide +kernel)
  have hlength := hsees.length_eq
  revert hlength
  decide +kernel

end BeSdk.Db.Lint
