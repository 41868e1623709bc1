import Covenant.Proofs.Positions
import Covenant.Proofs.Seams

/-!
# Comments at the end of a line

White space makes no token in front of it longer, so the tokens of a text stay where they are when
white space is put behind it. A comment at the end of a line is skipped with the rest of the line,
whatever stands in front of it, and so the tokens behind the line are the same with the comment and
without it.

## Main definitions

* `Lexer.Apart` : text that begins with white space.
* `Lexer.Cursor.append` : a cursor with more text behind it.

## Main results

* `Lexer.Apart.scanKind` : a token with white space behind the text, in the same place.
* `Lexer.Apart.skipTrivia` : white space and comments with more text behind them.
* `Lexer.tokens_comment` : the tokens of a text do not depend on a comment at the end of a line.
* `parse_comment` : nor does what is read.
-/

namespace Covenant

namespace Lexer

/-- Text that makes no token in front of it longer: it begins with white space. -/
def Apart (more : List Char) : Prop :=
  ∃ c rest, more = c :: rest ∧ Text.isBlank c = true

/-- A cursor with more text behind it. -/
def Cursor.append (c : Cursor) (more : List Char) : Cursor :=
  ⟨c.position, c.rest ++ more⟩

/-- What is read, with more text behind it. -/
def withMore (more : List Char) :
    Except Failure (Token.Kind × Cursor) → Except Failure (Token.Kind × Cursor) :=
  Except.map fun r => (r.1, r.2.append more)

namespace Apart

variable {more : List Char} (h : Apart more)

include h

theorem detached : Detached more := by
  obtain ⟨c, rest, rfl, hblank⟩ := h
  refine .cons (continuesWord_of_isBlank hblank) ?_ rest
  rintro rfl
  exact absurd hblank (by decide)

/-- Behind a character stands what stood there, or white space where nothing did. -/
theorem head?_cases (cs : List Char) : (cs ++ more).head? = cs.head? ∨
    cs = [] ∧ ∃ c, (cs ++ more).head? = some c ∧ Text.isBlank c = true := by
  rcases cs with _ | ⟨c, cs⟩
  · obtain ⟨c, rest, rfl, hblank⟩ := h
    exact .inr ⟨rfl, c, rfl, hblank⟩
  · exact .inl rfl

/-! ### Numbers -/

theorem digitAhead (cs : List Char) : digitAhead (cs ++ more) = digitAhead cs := by
  rcases cs with _ | ⟨c, cs⟩
  · obtain ⟨c, rest, rfl, hblank⟩ := h
    by_contra hdigit
    have hword := continuesWord_of_isDigit (c := c) (by simpa [Lexer.digitAhead] using hdigit)
    simp [continuesWord_of_isBlank hblank] at hword
  · rfl

theorem scanDigits (cs : List Char) : scanDigits (cs ++ more) =
    ((scanDigits cs).1, (scanDigits cs).2.1, (scanDigits cs).2.2 ++ more) := by
  induction cs with
  | nil => exact scanDigits_halts h.detached.halts
  | cons c cs ih =>
    simp only [List.cons_append, Lexer.scanDigits, ih, h.digitAhead cs]
    split_ifs <;> rfl

theorem scanFraction (cs : List Char) : scanFraction (cs ++ more) =
    (scanFraction cs).map fun f => (f.1, f.2.1, f.2.2 ++ more) := by
  rcases cs with _ | ⟨c, cs⟩
  · exact h.detached.scanFraction
  by_cases hdot : c = '.'
  · subst hdot
    simp only [List.cons_append, Lexer.scanFraction, h.scanDigits, h.digitAhead]
    split_ifs <;> rfl
  · simp [Lexer.scanFraction, hdot]

theorem scanSigned (negative : Bool) (marks : Nat) (cs : List Char) :
    scanSigned negative marks (cs ++ more) =
      (scanSigned negative marks cs).map fun e => (e.1, e.2.1, e.2.2 ++ more) := by
  simp only [Lexer.scanSigned, h.scanDigits, h.digitAhead]
  split_ifs <;> rfl

theorem scanExponent (cs : List Char) : scanExponent (cs ++ more) =
    (scanExponent cs).map fun e => (e.1, e.2.1, e.2.2 ++ more) := by
  rcases cs with _ | ⟨mark, cs⟩
  · exact h.detached.scanExponent
  by_cases hmark : (mark = 'e' || mark = 'E') = true
  · simp only [List.cons_append, Lexer.scanExponent, hmark, if_true]
    rcases cs with _ | ⟨c, cs⟩
    · -- white space is no sign
      have hsigned := h.scanSigned false 1 []
      obtain ⟨c, rest, rfl, hblank⟩ := h
      have hplus : c ≠ '+' := by
        rintro rfl
        exact absurd hblank (by decide)
      have hminus : c ≠ '-' := by
        rintro rfl
        exact absurd hblank (by decide)
      simpa [hplus, hminus] using hsigned
    by_cases hplus : c = '+'
    · subst hplus
      exact h.scanSigned false 2 cs
    by_cases hminus : c = '-'
    · subst hminus
      exact h.scanSigned true 2 cs
    · simpa [hplus, hminus] using h.scanSigned false 1 (c :: cs)
  · simp [Lexer.scanExponent, hmark]

theorem scanNumber (p : Position) (cs : List Char) :
    scanNumber p (cs ++ more) = withMore more (scanNumber p cs) := by
  have hliteral (literal : Except Failure Token.Kind) (q : Position) (rest : List Char) :
      (do let kind ← literal; return (kind, ⟨q, rest ++ more⟩)) =
        withMore more (do let kind ← literal; return (kind, ⟨q, rest⟩)) := by
    cases literal <;> rfl
  rcases hwhole : Lexer.scanDigits cs with ⟨whole, taken, rest⟩
  rcases hfraction : Lexer.scanFraction rest with _ | ⟨decimals, taken₂, rest₂⟩
  · rcases hexponent : Lexer.scanExponent rest with _ | ⟨exponent, taken₃, rest₃⟩ <;>
      simp only [Lexer.scanNumber, h.scanDigits, hwhole, h.scanFraction, hfraction,
        h.scanExponent, hexponent, Option.map_none, Option.map_some]
    · exact hliteral ..
    · exact hliteral ..
  · rcases hexponent : Lexer.scanExponent rest₂ with _ | ⟨exponent, taken₃, rest₃⟩ <;>
      simp only [Lexer.scanNumber, h.scanDigits, hwhole, h.scanFraction, hfraction,
        h.scanExponent, hexponent, Option.map_none, Option.map_some]
    · exact hliteral ..
    · exact hliteral ..

/-! ### Words and symbols -/

theorem scanWord (p : Position) (cs : List Char) : scanWord p (cs ++ more) =
    ((scanWord p cs).1, (scanWord p cs).2.append more) := by
  have hword : ∀ c ∈ cs.takeWhile continuesWord, continuesWord c = true :=
    List.all_eq_true.mp List.all_takeWhile
  have hstop : ∀ c ∈ (cs.dropWhile continuesWord ++ more).head?, continuesWord c = false := by
    intro c hc
    rcases h.head?_cases (cs.dropWhile continuesWord) with hsame | ⟨-, d, hd, hblank⟩
    · rw [hsame] at hc
      have hnot := List.head?_dropWhile_not continuesWord cs
      rw [Option.mem_def.mp hc] at hnot
      simpa using hnot
    · obtain rfl := Option.some.inj (hd.symm.trans hc)
      exact continuesWord_of_isBlank hblank
  have hspan := span_word hword hstop
  rw [← List.append_assoc, List.takeWhile_append_dropWhile] at hspan
  rw [scanWord_eq hspan, scanWord_eq (List.span_eq_takeWhile_dropWhile ..)]
  rfl

theorem scanSymbol (p : Position) (c : Char) (cs : List Char) :
    scanSymbol p c (cs ++ more) = withMore more (scanSymbol p c cs) := by
  have hdouble : (cs ++ more).head?.bind (doubleSymbol? c) = cs.head?.bind (doubleSymbol? c) := by
    rcases h.head?_cases cs with hsame | ⟨rfl, d, hd, hblank⟩
    · rw [hsame]
    · rw [hd, Option.bind_some]
      unfold doubleSymbol?
      split <;> first | rfl | exact absurd hblank (by decide)
  unfold Lexer.scanSymbol
  rw [hdouble]
  rcases hsymbol : cs.head?.bind (doubleSymbol? c) with _ | s
  · dsimp only
    split <;> rfl
  · rcases cs with _ | ⟨d, cs⟩
    · cases hsymbol
    · rfl

end Apart

/-! ### Strings -/

/-- A string is closed, so that nothing behind it belongs to it. -/
theorem scanString_withMore {start p : Position} {mode : StringMode} {decoded cs : List Char}
    {r : Token.Kind × Cursor} (h : scanString start mode p decoded cs = .ok r)
    (more : List Char) :
    scanString start mode p decoded (cs ++ more) = withMore more (.ok r) := by
  induction cs generalizing mode decoded p with
  | nil => cases mode <;> cases h
  | cons c cs ih =>
    rcases scanString_step mode decoded c with ⟨rfl, rfl⟩ | ⟨mode', decoded', hstep⟩ | hfail
    · cases h
      rfl
    · rw [hstep] at h
      rw [List.cons_append, hstep, ih h]
    · obtain ⟨e, he⟩ := hfail start p cs
      cases h.symm.trans he

/-- A token that is not the end is the same with white space behind the text, in the same place. -/
theorem Apart.scanKind {more : List Char} (h : Apart more) {c : Cursor} (hne : c.rest ≠ [])
    {r : Token.Kind × Cursor} (hscan : scanKind c = .ok r) :
    scanKind (c.append more) = withMore more (.ok r) := by
  obtain ⟨p, _ | ⟨d, cs⟩⟩ := c
  · exact absurd rfl hne
  unfold Lexer.scanKind at hscan ⊢
  simp only [Cursor.append, List.cons_append] at hscan ⊢
  split_ifs at hscan ⊢
  · rw [← hscan, ← List.cons_append, h.scanNumber]
  · rw [← hscan, ← List.cons_append, h.scanWord]
    rfl
  · exact scanString_withMore hscan more
  · rw [← hscan, h.scanSymbol]

/-! ### White space and comments -/

theorem skipTrivia_cons (inComment newline : Bool) (p : Position) (c : Char) (cs : List Char) :
    skipTrivia inComment newline p (c :: cs) =
      match commentBehind? inComment c cs.head? with
      | some inComment => skipTrivia inComment (newline || c = '\n') (p.advance c) cs
      | none => (newline, ⟨p, c :: cs⟩) := by
  rw [skipTrivia, commentBehind?]
  split_ifs with hline <;> simp [hline]

/-- White space and comments at the front of a text end in front of the same token with more text
behind it or, where there is no token, go on with that text. -/
theorem Apart.skipTrivia {more : List Char} (h : Apart more) (inComment newline : Bool)
    (p : Position) (cs : List Char) : skipTrivia inComment newline p (cs ++ more) =
      if (skipTrivia inComment newline p cs).2.rest = [] then
        Lexer.skipTrivia (commentAtEnd inComment cs) (skipTrivia inComment newline p cs).1
          (skipTrivia inComment newline p cs).2.position more
      else ((skipTrivia inComment newline p cs).1,
        (skipTrivia inComment newline p cs).2.append more) := by
  induction cs generalizing inComment newline p with
  | nil => rfl
  | cons c cs ih =>
    -- only a slash looks at what comes next, and white space is none
    have hnext : commentBehind? inComment c (cs ++ more).head? =
        commentBehind? inComment c cs.head? := by
      rcases h.head?_cases cs with hsame | ⟨rfl, d, hd, hblank⟩
      · rw [hsame]
      · have hne : d ≠ '/' := by
          rintro rfl
          exact absurd hblank (by decide)
        rw [hd]
        simp [commentBehind?, hne]
    rw [List.cons_append, skipTrivia_cons, skipTrivia_cons, hnext, commentAtEnd]
    rcases commentBehind? inComment c cs.head? with _ | inComment'
    · rfl
    · exact ih ..

/-- A comment takes in what stands up to the end of its line. -/
theorem skipTrivia_line {body : List Char} (hbody : '\n' ∉ body) (newline : Bool) (p q : Position)
    (hline : p.line = q.line) (rest : List Char) :
    skipTrivia true newline p (body ++ '\n' :: rest) =
      skipTrivia true newline q ('\n' :: rest) := by
  induction body generalizing p with
  | nil => simp [skipTrivia, Position.advance, hline]
  | cons c body ih =>
    rw [List.mem_cons, not_or] at hbody
    have hc : c ≠ '\n' := Ne.symm hbody.1
    have hadvance : (p.advance c).line = q.line := by simpa [Position.advance, hc] using hline
    rw [← ih hbody.2 (p.advance c) hadvance]
    simp [skipTrivia, hc]

/-- A comment at the end of a line is skipped with what stands in front of it. -/
theorem skipTrivia_trailing {body : List Char} (hbody : '\n' ∉ body) (inComment newline : Bool)
    (p : Position) (rest : List Char) :
    skipTrivia inComment newline p (' ' :: '/' :: '/' :: (body ++ '\n' :: rest)) =
      skipTrivia inComment newline p ('\n' :: rest) := by
  cases inComment with
  | true =>
    have hmarked : '\n' ∉ ' ' :: '/' :: '/' :: body := by simpa using hbody
    exact skipTrivia_line hmarked newline p p rfl rest
  | false => exact skipTrivia_line hbody newline (p.shift 3) p rfl rest

/-! ### Whole texts -/

theorem length_rest_of_nextToken {c c' : Cursor} {t : Token} (h : nextToken c = .ok (t, c'))
    (hkind : t.kind ≠ .finish) : c'.rest.length < c.rest.length := by
  obtain ⟨gap, hgap, -⟩ := skipTrivia_skips false false c.position c.rest
  have hends := scanKind_ends (skipTrivia false false c.position c.rest).2
  rw [(nextToken_ok h).1] at hends
  obtain ⟨run, hrun, -, hproper⟩ := hends
  have hpos := List.length_pos_iff.mpr (hproper hkind)
  have hrest := congrArg List.length (hgap.append hrun).rest
  simp only [List.length_append] at hrest
  omega

/-- The allowance does not matter if it is more than the characters that are left. -/
theorem tokensFrom_congr {c : Cursor} {n m : Nat} (hn : c.rest.length < n) (hm : c.rest.length < m)
    (read : List Token) : tokensFrom n c read = tokensFrom m c read := by
  induction n generalizing c m read with
  | zero => cases hn
  | succ n ih =>
    rcases m with _ | m
    · cases hm
    rcases hnext : nextToken c with e | ⟨t, c'⟩
    · rw [tokensFrom, tokensFrom, hnext]
      rfl
    · rw [tokensFrom_of_nextToken hnext, tokensFrom_of_nextToken hnext]
      split_ifs with hkind
      · rfl
      · have hlength := length_rest_of_nextToken hnext hkind
        exact ih (by omega) (by omega) _

/-- White space and comments at the front of two texts are skipped in the same way. -/
def SkippedAlike (more more' : List Char) : Prop :=
  ∀ inComment newline p, skipTrivia inComment newline p more = skipTrivia inComment newline p more'

theorem Apart.nextToken {more : List Char} (h : Apart more) {c c' : Cursor} {t : Token}
    (hnext : nextToken c = .ok (t, c')) (hkind : t.kind ≠ .finish) :
    nextToken (c.append more) = .ok (t, c'.append more) := by
  obtain ⟨hscan, -⟩ := nextToken_ok hnext
  have hskip := h.skipTrivia false false c.position c.rest
  rcases hat : Lexer.skipTrivia false false c.position c.rest with ⟨newline, at_⟩
  rw [hat] at hscan hskip
  have hne : at_.rest ≠ [] := by
    obtain ⟨p, rest⟩ := at_
    rintro rfl
    exact hkind (Prod.mk.inj (Except.ok.inj hscan)).1.symm
  rw [if_neg hne] at hskip
  have ht : t = ⟨t.kind, at_.position, c'.position, newline⟩ :=
    (Prod.mk.inj (Except.ok.inj (hnext.symm.trans (nextToken_of_scanKind hat hscan)))).1
  rw [ht]
  exact nextToken_of_scanKind (c := c.append more) hskip (h.scanKind hne hscan)

theorem SkippedAlike.nextToken {more more' : List Char} (h : SkippedAlike more more')
    (hmore : Apart more) (hmore' : Apart more') {c c' : Cursor} {t : Token}
    (hnext : nextToken c = .ok (t, c')) (hkind : t.kind = .finish) :
    nextToken (c.append more) = nextToken (c.append more') := by
  have hnil : (Lexer.skipTrivia false false c.position c.rest).2.rest = [] := by
    have hends := scanKind_ends (Lexer.skipTrivia false false c.position c.rest).2
    rw [(nextToken_ok hnext).1] at hends
    obtain ⟨run, -, hfinish, -⟩ := hends
    exact hfinish hkind
  have hskip : Lexer.skipTrivia false false c.position (c.rest ++ more) =
      Lexer.skipTrivia false false c.position (c.rest ++ more') := by
    rw [hmore.skipTrivia, hmore'.skipTrivia, if_pos hnil, if_pos hnil, h]
  simp only [Lexer.nextToken, Cursor.append, hskip]

/-- The tokens of a text and what stands behind it. -/
theorem SkippedAlike.tokensFrom {more more' : List Char} (h : SkippedAlike more more')
    (hmore : Apart more) (hmore' : Apart more') {c : Cursor} {ts : List Token} (hc : Lexed c ts)
    {n m : Nat} (hn : (c.append more).rest.length < n) (hm : (c.append more').rest.length < m)
    (read : List Token) :
    tokensFrom n (c.append more) read = tokensFrom m (c.append more') read := by
  induction hc generalizing n m read with
  | @finish c t c' hnext hkind =>
    have hsame := h.nextToken hmore hmore' hnext hkind
    rcases n with _ | n
    · cases hn
    rcases m with _ | m
    · cases hm
    rcases hbehind : Lexer.nextToken (c.append more') with e | ⟨t', c''⟩
    · rw [Lexer.tokensFrom, Lexer.tokensFrom, hsame, hbehind]
      rfl
    · rw [tokensFrom_of_nextToken (hsame.trans hbehind), tokensFrom_of_nextToken hbehind]
      split_ifs with hkind'
      · rfl
      · have hshort := length_rest_of_nextToken (hsame.trans hbehind) hkind'
        have hshort' := length_rest_of_nextToken hbehind hkind'
        exact tokensFrom_congr (by omega) (by omega) _
  | @cons c t c' ts hnext hkind _ ih =>
    have hshort := length_rest_of_nextToken hnext hkind
    rcases n with _ | n
    · cases hn
    rcases m with _ | m
    · cases hm
    rw [tokensFrom_of_nextToken (hmore.nextToken hnext hkind),
      tokensFrom_of_nextToken (hmore'.nextToken hnext hkind), if_neg hkind, if_neg hkind]
    simp only [Cursor.append, List.length_append] at hn hm
    refine ih ?_ ?_ _
    · simp only [Cursor.append, List.length_append]
      omega
    · simp only [Cursor.append, List.length_append]
      omega

/-- The tokens of a text do not depend on a comment at the end of a line, if what stands in front of
it has tokens of its own. -/
theorem tokens_comment {front : String} {ts : List Token} (hfront : tokens front = .ok ts)
    {comment : String} (hcomment : '\n' ∉ comment.toList) (back : String) :
    tokens (front ++ " //" ++ comment ++ "\n" ++ back) = tokens (front ++ "\n" ++ back) := by
  have halike : SkippedAlike (' ' :: '/' :: '/' :: (comment.toList ++ '\n' :: back.toList))
      ('\n' :: back.toList) :=
    fun inComment newline p => skipTrivia_trailing hcomment inComment newline p back.toList
  obtain ⟨_, rfl, hlexed⟩ := lexed_of_tokensFrom hfront
  have hlong : (front ++ " //" ++ comment ++ "\n" ++ back).toList =
      front.toList ++ ' ' :: '/' :: '/' :: (comment.toList ++ '\n' :: back.toList) := by
    simp
  have hshort : (front ++ "\n" ++ back).toList = front.toList ++ '\n' :: back.toList := by
    simp
  rw [tokens, tokens, hlong, hshort]
  exact halike.tokensFrom ⟨' ', _, rfl, by decide⟩ ⟨'\n', _, rfl, by decide⟩ hlexed
    (Nat.lt_succ_self _) (Nat.lt_succ_self _) []

end Lexer

/-- A comment at the end of a line does not matter: whatever stands in front of it, if that can be
read as tokens, and whatever stands behind it, the same statements are read at the same places, or
the same error. -/
theorem parse_comment (name : String) {front : String} {ts : List Token}
    (hfront : Lexer.tokenize name front = .ok ts) {comment : String}
    (hcomment : '\n' ∉ comment.toList) (back : String) :
    parse name (front ++ " //" ++ comment ++ "\n" ++ back) =
      (parse name (front ++ "\n" ++ back)).map fun script =>
        { script with source := front ++ " //" ++ comment ++ "\n" ++ back } := by
  have hsame : Lexer.tokenize name (front ++ " //" ++ comment ++ "\n" ++ back) =
      Lexer.tokenize name (front ++ "\n" ++ back) := by
    rw [Lexer.tokenize, Lexer.tokens_comment (Lexer.tokens_of_tokenize hfront) hcomment,
      ← Lexer.tokenize]
  rw [parse, parse, hsame]
  rcases Lexer.tokenize name (front ++ "\n" ++ back) with e | ts'
  · rfl
  · rcases hread : Parser.readStatements (Parser.descentAllowance ts'.length) name ts' with e | sts
    · simp [bind, Except.bind, hread, Except.map]
    · simp [bind, Except.bind, hread, Except.map, pure, Except.pure]

/-- The slash in front of the comment still divides what stands behind it. -/
theorem parse_comment_quotient : ∃ ts, Lexer.tokenize "text" "6 /" = .ok ts ∧
    '\n' ∉ "half".toList ∧
    parse "text" ("6 /" ++ " //" ++ "half" ++ "\n" ++ "2") =
      (parse "text" ("6 /" ++ "\n" ++ "2")).map fun script =>
        { script with source := "6 /" ++ " //" ++ "half" ++ "\n" ++ "2" } :=
  ⟨_, rfl, by decide, parse_comment "text" rfl (by decide) "2"⟩

end Covenant
