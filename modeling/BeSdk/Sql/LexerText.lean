/-
BeSdk.Sql.LexerText — a text is its tokens' texts, one after the other.

`Token.text` writes a token as it stood; a doubled quote of a name is the end of one part
and the begin of the next.
-/
import BeSdk.Sql.LexerTheorems

namespace BeSdk.Sql.Lexer

def Token.text : Token → Str
  | .space c => [c]
  | .lineComment text => chr '-' :: chr '-' :: text
  | .blockComment text => chr '/' :: chr '*' :: text ++ str "*/"
  | .literal lead _ text => lead.toList ++ chr '\'' :: text ++ [chr '\'']
  | .quoted parts => parts.flatMap fun p => chr '"' :: p ++ [chr '"']
  | .dollar tag body => chr '$' :: tag ++ chr '$' :: body ++ (chr '$' :: tag ++ [chr '$'])
  | .word text | .number text => text
  | .semicolon => [chr ';']
  | .other c => [c]

abbrev textOf (ts : List Token) : Str := ts.flatMap Token.text

/-! ## Parts -/

theorem cut_eq {sep : Str} : ∀ {s : Str} {x : Str × Str}, Str.cut s sep = some x →
    s = x.1 ++ sep ++ x.2
  | [], x, h => by
      unfold Str.cut at h
      split at h
      · next hfront =>
        obtain rfl := Option.some.inj h
        have hnil : sep = [] := by simpa using hfront
        rw [hnil]
        rfl
      · cases h
  | c :: s, x, h => by
      unfold Str.cut at h
      split at h
      · next hfront =>
        obtain rfl := Option.some.inj h
        obtain ⟨rest, hrest⟩ := List.isPrefixOf_iff_prefix.mp hfront
        simp [← hrest]
      · obtain ⟨y, hy, rfl⟩ := Option.map_eq_some_iff.mp h
        exact congrArg (c :: ·) (cut_eq hy)

theorem literal_eq {escapes : Bool} :
    ∀ {s : Str} {x : Str × Str}, literal escapes s = some x → s = x.1 ++ chr '\'' :: x.2
  | [], _, h => by cases h
  | [c], x, h => by
      unfold literal at h
      split at h
      · next hc =>
        obtain rfl := Option.some.inj h
        rw [hc]
        rfl
      · cases h
  | c :: d :: s, x, h => by
      unfold literal at h
      split at h
      · next hc =>
        split at h
        · obtain ⟨y, hy, rfl⟩ := Option.map_eq_some_iff.mp h
          exact congrArg (c :: d :: ·) (literal_eq hy)
        · obtain rfl := Option.some.inj h
          rw [hc]
          rfl
      · split at h
        · obtain ⟨y, hy, rfl⟩ := Option.map_eq_some_iff.mp h
          exact congrArg (c :: d :: ·) (literal_eq hy)
        · obtain ⟨y, hy, rfl⟩ := Option.map_eq_some_iff.mp h
          exact congrArg (c :: ·) (literal_eq hy)

theorem comment_eq : ∀ {depth : Nat} {s : Str} {x : Str × Str}, comment depth s = some x →
    s = x.1 ++ str "*/" ++ x.2
  | _, [], _, h => by cases h
  | _, [_], _, h => by cases h
  | depth, c :: d :: s, x, h => by
      unfold comment at h
      split at h
      · next hend =>
        split at h
        · obtain rfl := Option.some.inj h
          rw [hend.1, hend.2]
          rfl
        · obtain ⟨y, hy, rfl⟩ := Option.map_eq_some_iff.mp h
          exact congrArg (c :: d :: ·) (comment_eq hy)
      · split at h
        · obtain ⟨y, hy, rfl⟩ := Option.map_eq_some_iff.mp h
          exact congrArg (c :: d :: ·) (comment_eq hy)
        · obtain ⟨y, hy, rfl⟩ := Option.map_eq_some_iff.mp h
          exact congrArg (c :: ·) (comment_eq hy)

theorem quoted_eq : ∀ {parts : List Str} {s rest : Str}, quoted s = some (parts, rest) →
    chr '"' :: s = (Token.quoted parts).text ++ rest
  | [], _, _, h => by
      obtain ⟨_, _, _, hparts, -⟩ := quoted_cases h
      cases hparts
  | p :: ps, s, rest, h => by
      obtain ⟨_, _, s', hparts, -, rfl, hend⟩ := quoted_cases h
      obtain ⟨rfl, rfl⟩ := List.cons.inj hparts
      rcases hend with ⟨rfl, rfl⟩ | ⟨s'', rfl, hnext⟩
      · simp [Token.text]
      · rw [quoted_eq hnext]
        simp [Token.text]

/-! ## Texts -/

theorem Reads.text {before : Before} {c : CodePoint} {s : Str} {t : Token} {rest : Str}
    (h : Reads before c s t rest) : t.text ++ rest = c :: s := by
  cases h with
  | space | sign | other => rfl
  | line s' hc hs =>
      rw [hc, hs]
      exact congrArg (chr '-' :: chr '-' :: ·) List.takeWhile_append_dropWhile
  | block s' text rest hc hs hread =>
      rw [hc, hs, comment_eq hread]
      simp [Token.text]
  | literal text rest hc hread =>
      rw [hc, literal_eq hread]
      simp [Token.text]
  | escape s' text rest hc hs hread =>
      rw [hs, literal_eq hread]
      simp [Token.text]
  | quoted parts rest hc hread => rw [hc, quoted_eq hread]
  | dollar tag s' body rest hc htag hread =>
      obtain ⟨rfl, -, -⟩ := (tagged_eq_some_iff (by decide)).mp htag
      rw [hc, cut_eq hread]
      simp [Token.text]
  | semicolon hc => rw [hc]; rfl
  | word => exact congrArg (c :: ·) List.takeWhile_append_dropWhile
  | number text rest hdigit hread => exact (number_ok hread).1.symm

/-- **A text is made of its tokens.** -/
theorem textOf_lexFrom : ∀ (ts : List Token) {n : Nat} {before : Before} {s : Str}, lexFrom n
    before s = some ts → textOf ts = s
  | [], n, before, [], _ => rfl
  | [], n, before, c :: s, h => by
      obtain ⟨_, _, _, _, heq, -, -⟩ := lexFrom_cons h
      cases heq
  | t :: ts, n, before, [], h => by cases n <;> cases h
  | t :: ts, n, before, c :: s, h => by
      obtain ⟨_, _, _, _, heq, hreads, hrest⟩ := lexFrom_cons h
      obtain ⟨rfl, rfl⟩ := List.cons.inj heq
      rw [textOf, List.flatMap_cons]
      show _ ++ textOf ts = _
      rw [textOf_lexFrom ts hrest, hreads.text]

theorem textOf_lex {s : Str} {ts : List Token} (h : lex s = some ts) :
    textOf ts = s := textOf_lexFrom ts h

theorem textOf_append (xs ys : List Token) :
    textOf (xs ++ ys) = textOf xs ++ textOf ys := List.flatMap_append ..

@[simp] theorem textOf_cons (t : Token) (ts : List Token) :
    textOf (t :: ts) = t.text ++ textOf ts := rfl

/-- Every token is read at the text from it on. -/
theorem reads_of_suffix : ∀ {ts : List Token} {n : Nat} {before : Before} {s : Str}, lexFrom n
    before s = some ts → ∀ {t : Token} {r : List Token}, t :: r <:+ ts →
    ∃ before' c s', textOf (t :: r) = c :: s' ∧ Reads before' c s' t (textOf r)
  | [], _, _, _, _, _, _, hsuffix => absurd (List.suffix_nil.mp hsuffix) (List.cons_ne_nil _ _)
  | _ :: _, n, _, [], h, _, _, _ => by cases n <;> cases h
  | t' :: ts, n, before, c :: s, h, t, r, hsuffix => by
      obtain ⟨_, _, rest, _, heq, hreads, hrest⟩ := lexFrom_cons h
      obtain ⟨rfl, rfl⟩ := List.cons.inj heq
      rcases List.suffix_cons_iff.mp hsuffix with heq | hsuffix
      · obtain ⟨rfl, rfl⟩ := List.cons.inj heq
        rw [textOf_lexFrom _ hrest]
        exact ⟨before, c, s, textOf_lexFrom _ h, hreads⟩
      · exact reads_of_suffix hrest hsuffix

/-- The first character of a text is that of its first token. -/
theorem head?_textOf {t : Token} (h : t.IsRead) (ts : List Token) :
    (textOf (t :: ts)).head? = t.first := by
  cases t with
  | space | lineComment | blockComment | dollar | semicolon | other => rfl
  | literal lead escapes text => cases lead <;> rfl
  | quoted parts =>
      cases parts with
      | nil => exact absurd rfl h
      | cons => rfl
  | word text | number text =>
      cases text with
      | nil => exact absurd rfl h
      | cons => rfl

end BeSdk.Sql.Lexer
