import Covenant.Proofs.Placeholders

/-!
# The tokens of texts that are joined

Each token is the longest that starts where it starts, so what stands behind a text may make its
last token longer, and a comment at its end takes in the line that follows. Neither happens at a
seam: where the text ends with white space, an opening bracket, a comma or a colon and its last
comment is ended, the tokens of the joined texts are those of the one and then those of the other.

A value is joined to what it stands in front of wherever that begins with white space, a closing
bracket, a comma or a semicolon.

## Main definitions

* `Lexer.precedesValue`, `Lexer.followsValue` : the characters around a value.
* `Lexer.Seam` : what stands behind a text makes none of its tokens longer.
* `Lexer.endsInComment` : a text whose last comment is not ended.
* `Lexer.kindsOf` : the kinds of the tokens of a text.
* `Lexer.Yields` : a text whose tokens have given kinds, wherever it stands.

## Main results

* `Lexer.nextToken_append` : a token with more text behind it.
* `Lexer.Yields.append` : the tokens of two texts that are joined at a seam.
* `Lexer.Yields.render` : the tokens of a value and of the text behind it.
-/

namespace Covenant

namespace Lexer

/-- The characters that a value may stand behind: white space, and symbols that nothing makes
longer. -/
def precedesValue (c : Char) : Bool :=
  Text.isBlank c || c ∈ ['(', '[', ',', ':']

/-- The characters that a value may stand in front of. -/
def followsValue (c : Char) : Bool :=
  Text.isBlank c || c ∈ [')', ']', '\x7d', ',', ';']

theorem continuesWord_of_isBlank {c : Char} (h : Text.isBlank c = true) :
    continuesWord c = false := by
  by_contra hword
  rw [Bool.not_eq_false] at hword
  exact absurd h (by simp [Text.isBlank_of_continuesWord hword])

theorem continuesWord_of_precedesValue {c : Char} (h : precedesValue c = true) :
    continuesWord c = false := by
  rw [precedesValue, Bool.or_eq_true, decide_eq_true_eq] at h
  rcases h with hblank | hsymbol
  · exact continuesWord_of_isBlank hblank
  · simp only [List.mem_cons, List.not_mem_nil, or_false] at hsymbol
    rcases hsymbol with rfl | rfl | rfl | rfl <;> decide

theorem doubleSymbol?_of_precedesValue {c : Char} (h : precedesValue c = true) (d : Char) :
    doubleSymbol? c d = none := by
  rw [precedesValue, Bool.or_eq_true, decide_eq_true_eq] at h
  rcases h with hblank | hsymbol
  · unfold doubleSymbol?
    split <;> first | rfl | exact absurd hblank (by decide)
  · refine doubleSymbol?_of_isShort ?_ d
    simp only [List.mem_cons, List.not_mem_nil, or_false] at hsymbol
    rcases hsymbol with rfl | rfl | rfl | rfl <;> decide

theorem precedesValue_of_continuesWord {c : Char} (h : continuesWord c = true) :
    precedesValue c = false := by
  by_contra hprecedes
  rw [Bool.not_eq_false] at hprecedes
  simp [continuesWord_of_precedesValue hprecedes] at h

theorem precedesValue_of_isDigit {c : Char} (h : Text.isDigit c = true) :
    precedesValue c = false :=
  precedesValue_of_continuesWord (continuesWord_of_isDigit h)

/-- What may follow a value makes none of its tokens longer. -/
theorem detached_of_followsValue {cs : List Char}
    (h : ∀ c ∈ cs.head?, followsValue c = true) : Detached cs := by
  rcases cs with _ | ⟨c, cs⟩
  · trivial
  have hc := h c rfl
  rw [followsValue, Bool.or_eq_true, decide_eq_true_eq] at hc
  rcases hc with hblank | hsymbol
  · refine .cons (continuesWord_of_isBlank hblank) ?_ cs
    rintro rfl
    exact absurd hblank (by decide)
  · simp only [List.mem_cons, List.not_mem_nil, or_false] at hsymbol
    rcases hsymbol with rfl | rfl | rfl | rfl | rfl <;> exact .cons (by decide) (by decide) cs

/-! ### Seams -/

/-- What stands behind a text makes none of its tokens longer: there is nothing, or the text ends
with a character that a value may stand behind. -/
def Seam (cs more : List Char) : Prop :=
  more = [] ∨ ∃ c ∈ cs.getLast?, precedesValue c = true

namespace Seam

variable {cs more : List Char}

theorem of_suffix {rest : List Char} (h : Seam cs more) (hrest : rest <:+ cs) (hne : rest ≠ []) :
    Seam rest more := by
  refine h.imp_right ?_
  rintro ⟨c, hc, hprecedes⟩
  obtain ⟨front, rfl⟩ := hrest
  rw [List.getLast?_append_of_ne_nil _ hne] at hc
  exact ⟨c, hc, hprecedes⟩

theorem eq_nil_of_single {c : Char} (h : Seam [c] more) (hc : precedesValue c = false) :
    more = [] :=
  h.resolve_right (by simp [hc])

theorem tail {c : Char} (h : Seam (c :: cs) more) (hc : precedesValue c = false) :
    Seam cs more := by
  rcases cs with _ | ⟨next, cs⟩
  · exact .inl (h.eq_nil_of_single hc)
  · exact h.of_suffix (List.suffix_cons c _) (by simp)

/-- A character that is not at the seam has the same character behind it. -/
theorem head? {c : Char} (h : Seam (c :: cs) more) (hc : precedesValue c = false) :
    (cs ++ more).head? = cs.head? := by
  rcases cs with _ | ⟨next, cs⟩
  · rw [h.eq_nil_of_single hc, List.append_nil]
  · rfl

theorem digitAhead {c : Char} (h : Seam (c :: cs) more) (hc : precedesValue c = false) :
    digitAhead (cs ++ more) = digitAhead cs := by
  rw [Lexer.digitAhead, Lexer.digitAhead, h.head? hc]

/-! ### Numbers -/

theorem scanDigits (h : Seam cs more) : ∃ digits taken rest, Seam rest more ∧
    scanDigits cs = (digits, taken, rest) ∧
      scanDigits (cs ++ more) = (digits, taken, rest ++ more) := by
  induction cs with
  | nil =>
    obtain rfl : more = [] := h.resolve_right (by simp)
    exact ⟨[], 0, [], h, rfl, rfl⟩
  | cons c cs ih =>
    by_cases hdigit : Text.isDigit c = true
    · obtain ⟨digits, taken, rest, hrest, hscan, hmore⟩ :=
        ih (h.tail (precedesValue_of_isDigit hdigit))
      exact ⟨c :: digits, taken + 1, rest, hrest, by simp [Lexer.scanDigits, hdigit, hscan],
        by simp [Lexer.scanDigits, hdigit, hmore]⟩
    by_cases hunderscore : c = '_' ∧ Lexer.digitAhead cs = true
    · obtain ⟨rfl, hahead⟩ := hunderscore
      have hahead' := (h.digitAhead (by decide)).trans hahead
      obtain ⟨digits, taken, rest, hrest, hscan, hmore⟩ := ih (h.tail (by decide))
      exact ⟨digits, taken + 1, rest, hrest, by simp [Lexer.scanDigits, hdigit, hahead, hscan],
        by simp [Lexer.scanDigits, hdigit, hahead', hmore]⟩
    · have hahead : ¬(c = '_' ∧ Lexer.digitAhead (cs ++ more) = true) := by
        rintro ⟨rfl, hahead⟩
        exact hunderscore ⟨rfl, (h.digitAhead (by decide)).symm.trans hahead⟩
      exact ⟨[], 0, c :: cs, h, by simp [Lexer.scanDigits, hdigit, hunderscore],
        by simp [Lexer.scanDigits, hdigit, hahead]⟩

/-- A part of a number is the same, or missing, in front of a text and with more behind it. What
follows the part, or the whole text where it is missing, is at a seam too. -/
def SamePart {α : Type} (cs more : List Char) (part part' : Option (α × Nat × List Char)) : Prop :=
  ∃ rest, Seam rest more ∧ (part = none ∧ part' = none ∧ rest = cs ∨
    ∃ a taken, part = some (a, taken, rest) ∧ part' = some (a, taken, rest ++ more))

theorem scanFraction (h : Seam cs more) :
    SamePart cs more (scanFraction cs) (scanFraction (cs ++ more)) := by
  have hmissing (hnone : Lexer.scanFraction cs = none)
      (hnone' : Lexer.scanFraction (cs ++ more) = none) :
      SamePart cs more (Lexer.scanFraction cs) (Lexer.scanFraction (cs ++ more)) :=
    ⟨cs, h, .inl ⟨hnone, hnone', rfl⟩⟩
  rcases cs with _ | ⟨c, cs⟩
  · obtain rfl : more = [] := h.resolve_right (by simp)
    exact hmissing rfl rfl
  by_cases hdot : c = '.'
  · subst hdot
    have hahead := h.digitAhead (by decide)
    by_cases hdigit : Lexer.digitAhead cs = true
    · obtain ⟨digits, taken, rest, hrest, hscan, hmore⟩ := (h.tail (by decide)).scanDigits
      refine ⟨rest, hrest, .inr ⟨digits, taken + 1, ?_, ?_⟩⟩
      · simp [Lexer.scanFraction, hdigit, hscan]
      · simp [Lexer.scanFraction, hahead, hdigit, hmore]
    · apply hmissing <;> simp [Lexer.scanFraction, hahead, hdigit]
  · apply hmissing <;> simp [Lexer.scanFraction, hdot]

/-- The digits of an exponent behind its mark and sign, `front` being the text from the mark on. -/
theorem scanSigned {front : List Char} (hfront : Seam front more) (h : Seam cs more)
    (hahead : Lexer.digitAhead (cs ++ more) = Lexer.digitAhead cs) (negative : Bool) (marks : Nat) :
    SamePart front more (scanSigned negative marks cs)
      (scanSigned negative marks (cs ++ more)) := by
  by_cases hdigit : Lexer.digitAhead cs = true
  · obtain ⟨digits, taken, rest, hrest, hscan, hmore⟩ := h.scanDigits
    refine ⟨rest, hrest, .inr ⟨Number.exponentOf negative digits, taken + marks, ?_, ?_⟩⟩
    · simp [Lexer.scanSigned, hdigit, hscan]
    · simp [Lexer.scanSigned, hahead, hdigit, hmore]
  · refine ⟨front, hfront, .inl ⟨?_, ?_, rfl⟩⟩ <;> simp [Lexer.scanSigned, hahead, hdigit]

theorem scanExponent (h : Seam cs more) :
    SamePart cs more (scanExponent cs) (scanExponent (cs ++ more)) := by
  rcases cs with _ | ⟨mark, cs⟩
  · obtain rfl : more = [] := h.resolve_right (by simp)
    exact ⟨[], h, .inl ⟨rfl, rfl, rfl⟩⟩
  by_cases hmark : mark = 'e' ∨ mark = 'E'
  · have hprecedes : precedesValue mark = false := by rcases hmark with rfl | rfl <;> decide
    have htail := h.tail hprecedes
    have hahead := h.digitAhead hprecedes
    have hmark' : (mark = 'e' || mark = 'E') = true := by simpa using hmark
    simp only [Lexer.scanExponent, List.cons_append, hmark', if_true]
    -- what comes after the mark, a sign or not, is in the text itself unless nothing is behind it
    rcases cs with _ | ⟨c, cs⟩
    · obtain rfl : more = [] := h.eq_nil_of_single hprecedes
      exact scanSigned h htail hahead false 1
    by_cases hplus : c = '+'
    · subst hplus
      exact scanSigned h (htail.tail (by decide)) (htail.digitAhead (by decide)) false 2
    by_cases hminus : c = '-'
    · subst hminus
      exact scanSigned h (htail.tail (by decide)) (htail.digitAhead (by decide)) true 2
    · simpa [hplus, hminus] using scanSigned h htail hahead false 1
  · refine ⟨mark :: cs, h, .inl ⟨?_, ?_, rfl⟩⟩ <;> simp [Lexer.scanExponent, hmark]

/-- A number with more text behind it. -/
theorem scanNumber (h : Seam cs more) {p : Position} {kind : Token.Kind} {after : Cursor}
    (hscan : scanNumber p cs = .ok (kind, after)) :
    Seam after.rest more ∧ ∀ q, ∃ q',
      scanNumber q (cs ++ more) = .ok (kind, ⟨q', after.rest ++ more⟩) := by
  obtain ⟨whole, taken, rest₁, hrest₁, hwhole, hwhole'⟩ := h.scanDigits
  obtain ⟨rest₂, hrest₂, hfraction⟩ := hrest₁.scanFraction
  obtain ⟨rest₃, hrest₃, hexponent⟩ := hrest₂.scanExponent
  rcases hfraction with ⟨hfraction, hfraction', rfl⟩ | ⟨_, _, hfraction, hfraction'⟩ <;>
    rcases hexponent with ⟨hexponent, hexponent', rfl⟩ | ⟨_, _, hexponent, hexponent'⟩ <;>
    simp only [Lexer.scanNumber, hwhole, hfraction, hexponent] at hscan <;>
    obtain ⟨kind', hkind, hscan⟩ := bind_eq_ok_iff.mp hscan <;>
    cases hscan
  all_goals
    -- the literal depends on the parts alone, and its position only on where it stands
    obtain ⟨-, hkind'⟩ :=
      by first | exact integerLiteral_local hkind | exact numberLiteral_local hkind
    refine ⟨hrest₃, fun q => ?_⟩
    simp only [Lexer.scanNumber, hwhole', hfraction', hexponent']
    exact ⟨_, bind_eq_ok_iff.mpr ⟨kind, hkind' q, rfl⟩⟩

/-! ### Words, strings and symbols -/

theorem exists_word (h : Seam cs more) : ∃ word rest, Seam rest more ∧ cs = word ++ rest ∧
    (∀ c ∈ word, continuesWord c = true) ∧ (∀ c ∈ rest.head?, continuesWord c = false) ∧
      (rest ++ more).head? = rest.head? := by
  induction cs with
  | nil =>
    obtain rfl : more = [] := h.resolve_right (by simp)
    exact ⟨[], [], h, rfl, by simp, by simp, rfl⟩
  | cons c cs ih =>
    by_cases hc : continuesWord c = true
    · obtain ⟨word, rest, hrest, rfl, hword, hstop⟩ :=
        ih (h.tail (precedesValue_of_continuesWord hc))
      exact ⟨c :: word, rest, hrest, rfl, List.forall_mem_cons.mpr ⟨hc, hword⟩, hstop⟩
    · exact ⟨[], c :: cs, h, rfl, by simp, by simpa using hc, rfl⟩

theorem scanWord (h : Seam cs more) {p : Position} {kind : Token.Kind} {after : Cursor}
    (hscan : scanWord p cs = (kind, after)) : Seam after.rest more ∧ ∀ q, ∃ q',
      scanWord q (cs ++ more) = (kind, ⟨q', after.rest ++ more⟩) := by
  obtain ⟨word, rest, hrest, rfl, hword, hstop, hhead⟩ := h.exists_word
  rw [scanWord_eq (span_word hword hstop)] at hscan
  cases hscan
  refine ⟨hrest, fun q => ⟨q.shift word.length, ?_⟩⟩
  rw [List.append_assoc, scanWord_eq (span_word hword (hhead ▸ hstop))]

theorem scanSymbol {c : Char} (h : Seam (c :: cs) more) {p : Position} {kind : Token.Kind}
    {after : Cursor} (hscan : scanSymbol p c cs = .ok (kind, after)) :
    after.rest <:+ cs ∧ ∀ q, ∃ q',
      scanSymbol q c (cs ++ more) = .ok (kind, ⟨q', after.rest ++ more⟩) := by
  obtain ⟨s, rfl, ⟨d, rfl, hdouble⟩ | ⟨hnone, hsingle, hafter⟩⟩ := scanSymbol_cases hscan
  · exact ⟨List.suffix_cons d _, fun q => ⟨q.shift 2, by simp [Lexer.scanSymbol, hdouble]⟩⟩
  · refine ⟨hafter ▸ List.suffix_refl _, fun q => ⟨q.shift 1, ?_⟩⟩
    have hnone' : (cs ++ more).head?.bind (doubleSymbol? c) = none := by
      by_cases hc : precedesValue c = true
      · rw [funext (doubleSymbol?_of_precedesValue hc)]
        simp
      · rw [h.head? (by simpa using hc), hnone]
    rw [Lexer.scanSymbol, hnone', hafter]
    simp [hsingle]

end Seam

/-- A string with more text behind it. -/
theorem scanString_append {start p : Position} {mode : StringMode} {decoded cs : List Char}
    {kind : Token.Kind} {after : Cursor}
    (h : scanString start mode p decoded cs = .ok (kind, after)) (more : List Char) :
    after.rest <:+ cs ∧ ∀ start' q, ∃ q',
      scanString start' mode q decoded (cs ++ more) = .ok (kind, ⟨q', after.rest ++ more⟩) := by
  induction cs generalizing mode decoded p with
  | nil => cases mode <;> cases h
  | cons c cs ih =>
    rcases scanString_step mode decoded c with ⟨rfl, rfl⟩ | ⟨mode', decoded', hstep⟩ | hfail
    · cases h
      exact ⟨List.suffix_cons _ cs, fun start' q => ⟨q.advance '"', rfl⟩⟩
    · rw [hstep] at h
      obtain ⟨hsuffix, hscan⟩ := ih h
      refine ⟨hsuffix.trans (List.suffix_cons c cs), fun start' q => ?_⟩
      rw [List.cons_append, hstep]
      exact hscan start' _
    · obtain ⟨e, he⟩ := hfail start p cs
      cases h.symm.trans he

/-- The token at the front of a text is the same with more text behind it. -/
theorem Seam.scanKind {c : Char} {cs more : List Char} (h : Seam (c :: cs) more) {p : Position}
    {kind : Token.Kind} {after : Cursor} (hscan : scanKind ⟨p, c :: cs⟩ = .ok (kind, after)) :
    kind ≠ .finish ∧ (after.rest ≠ [] → Seam after.rest more) ∧ ∀ q, ∃ q',
      scanKind ⟨q, c :: cs ++ more⟩ = .ok (kind, ⟨q', after.rest ++ more⟩) := by
  have hsuffix {rest : List Char} (hrest : rest <:+ cs) (hne : rest ≠ []) : Seam rest more :=
    h.of_suffix (hrest.trans (List.suffix_cons c cs)) hne
  unfold Lexer.scanKind at hscan ⊢
  dsimp only [List.cons_append] at hscan ⊢
  split_ifs at hscan ⊢ with hdigit hword hquote
  · have hahead : Lexer.digitAhead (c :: cs) = true := hdigit
    obtain ⟨hnumeric, -⟩ := scanNumber_local hahead hscan
    obtain ⟨hseam, hmore⟩ := h.scanNumber hscan
    refine ⟨?_, fun _ => hseam, hmore⟩
    rintro rfl
    cases hnumeric
  · have hscan := Except.ok.inj hscan
    obtain ⟨hseam, hmore⟩ := h.scanWord hscan
    refine ⟨?_, fun _ => hseam, fun q => ?_⟩
    · rw [scanWord_eq rfl] at hscan
      exact (Prod.mk.inj hscan).1 ▸ wordKind_ne_finish _
    · obtain ⟨q', hq'⟩ := hmore q
      exact ⟨q', congrArg Except.ok hq'⟩
  · obtain ⟨text, rfl⟩ := exists_string_of_scanString hscan
    obtain ⟨hrest, hmore⟩ := scanString_append hscan more
    exact ⟨by simp, hsuffix hrest, fun q => hmore q _⟩
  · obtain ⟨s, rfl, -⟩ := scanSymbol_cases hscan
    obtain ⟨hrest, hmore⟩ := h.scanSymbol hscan
    exact ⟨by simp, hsuffix hrest, hmore⟩

/-! ### White space and comments -/

/-- Whether a comment has begun behind a character outside of all tokens, by whether one had begun
before it and by what comes next. A token begins with the character where this is nothing. -/
def commentBehind? (inComment : Bool) (c : Char) (next : Option Char) : Option Bool :=
  if c = '\n' then some false
  else if inComment then some true
  else if Text.isBlank c then some false
  else if c = '/' && next = some '/' then some true
  else none

/-- Whether a text that consists of white space and comments ends within a comment. -/
def commentAtEnd (inComment : Bool) : List Char → Bool
  | [] => inComment
  | c :: rest =>
    match commentBehind? inComment c rest.head? with
    | some inComment => commentAtEnd inComment rest
    | none => false

/-- Where white space and comments end. -/
def tokenStart (inComment : Bool) (p : Position) (cs : List Char) : Cursor :=
  (skipTrivia inComment false p cs).2

/-- Whether a line break was crossed before does not matter for where a token begins. -/
theorem skipTrivia_cursor (inComment newline : Bool) (p : Position) (cs : List Char) :
    (skipTrivia inComment newline p cs).2 = tokenStart inComment p cs := by
  unfold tokenStart
  induction cs generalizing inComment newline p with
  | nil => rfl
  | cons c cs ih =>
    simp only [skipTrivia]
    split_ifs <;> first | rfl | rw [ih]

theorem tokenStart_cons (inComment : Bool) (p : Position) (c : Char) (cs : List Char) :
    tokenStart inComment p (c :: cs) =
      match commentBehind? inComment c cs.head? with
      | some inComment => tokenStart inComment (p.advance c) cs
      | none => ⟨p, c :: cs⟩ := by
  rw [tokenStart, skipTrivia, commentBehind?]
  split_ifs <;> first | rfl | exact skipTrivia_cursor ..

/-- White space and comments at the front of a text end in front of the same token with more text
behind it or, where there is no token, go on with that text. -/
theorem exists_tokenStart {cs more : List Char} (h : cs ≠ [] → Seam cs more) (inComment : Bool) :
    ∃ rest, rest <:+ cs ∧ (∀ p, (tokenStart inComment p cs).rest = rest) ∧ ∀ q, ∃ q',
      tokenStart inComment q (cs ++ more) =
        if rest = [] then tokenStart (commentAtEnd inComment cs) q' more
        else ⟨q', rest ++ more⟩ := by
  induction cs generalizing inComment with
  | nil => exact ⟨[], List.suffix_refl _, fun _ => rfl, fun q => ⟨q, rfl⟩⟩
  | cons c cs ih =>
    have hseam := h (by simp)
    -- only a slash looks at what comes next, and no slash is at the seam
    have hnext : commentBehind? inComment c (cs ++ more).head? =
        commentBehind? inComment c cs.head? := by
      by_cases hc : c = '/'
      · rw [hseam.head? (hc ▸ by decide)]
      · simp [commentBehind?, hc]
    simp only [List.cons_append, tokenStart_cons, commentAtEnd, hnext]
    rcases commentBehind? inComment c cs.head? with _ | inComment'
    · exact ⟨c :: cs, List.suffix_refl _, fun _ => rfl, fun q => ⟨q, by simp⟩⟩
    · obtain ⟨rest, hrest, hstart, hmore⟩ :=
        ih (fun hne => hseam.of_suffix (List.suffix_cons c cs) hne) inComment'
      exact ⟨rest, hrest.trans (List.suffix_cons c cs), fun p => hstart (p.advance c),
        fun q => hmore (q.advance c)⟩

/-! ### Whole texts -/

theorem nextToken_tokenStart {c c₁ : Cursor} {kind : Token.Kind}
    (h : scanKind (tokenStart false c.position c.rest) = .ok (kind, c₁)) :
    ∃ t, nextToken c = .ok (t, c₁) ∧ t.kind = kind :=
  ⟨_, nextToken_of_scanKind rfl h, rfl⟩

/-- The next token is the same with more text behind it; at the end of the text, the next one is
looked for behind it. -/
theorem nextToken_append {c c₁ : Cursor} {t : Token} {more : List Char}
    (h : nextToken c = .ok (t, c₁)) (hseam : c.rest ≠ [] → Seam c.rest more) (q : Position) :
    (t.kind = .finish ∧ ∃ q',
      tokenStart false q (c.rest ++ more) = tokenStart (commentAtEnd false c.rest) q' more) ∨
    t.kind ≠ .finish ∧ (c₁.rest ≠ [] → Seam c₁.rest more) ∧ ∃ t' q',
      nextToken ⟨q, c.rest ++ more⟩ = .ok (t', ⟨q', c₁.rest ++ more⟩) ∧ t'.kind = t.kind := by
  obtain ⟨rest, hsuffix, hstart, hmore⟩ := exists_tokenStart hseam false
  obtain ⟨q₁, hq₁⟩ := hmore q
  have hscan : scanKind (tokenStart false c.position c.rest) = .ok (t.kind, c₁) :=
    (nextToken_ok h).1
  rcases hcursor : tokenStart false c.position c.rest with ⟨p, rest'⟩
  obtain rfl : rest' = rest := by rw [← hstart c.position, hcursor]
  rw [hcursor] at hscan
  rcases rest' with _ | ⟨d, rest⟩
  · exact .inl ⟨(Prod.mk.inj (Except.ok.inj hscan)).1.symm, q₁, by rw [hq₁, if_pos rfl]⟩
  · have hne : c.rest ≠ [] := by
      intro hnil
      rw [hnil] at hsuffix
      cases List.suffix_nil.mp hsuffix
    obtain ⟨hkind, hseam', hscan'⟩ :=
      ((hseam hne).of_suffix hsuffix (by simp)).scanKind hscan
    obtain ⟨q', hq'⟩ := hscan' q₁
    rw [if_neg (by simp)] at hq₁
    obtain ⟨t', ht', hkind'⟩ := nextToken_tokenStart (c := ⟨q, c.rest ++ more⟩) (hq₁ ▸ hq')
    exact .inr ⟨hkind, hseam', t', q', ht', hkind'⟩

/-- Whether the text at the cursor ends within a comment. The allowance bounds the number of
tokens. -/
def endsInCommentFrom : Nat → Cursor → Bool
  | 0, _ => false
  | allowance + 1, cursor =>
    match nextToken cursor with
    | .ok (token, after) =>
      if token.kind = .finish then commentAtEnd false cursor.rest
      else endsInCommentFrom allowance after
    | .error _ => false

/-- Whether a text ends within a comment. -/
def endsInComment (cs : List Char) : Bool :=
  endsInCommentFrom (cs.length + 1) ⟨.start, cs⟩

theorem length_le_of_tokensFrom {allowance : Nat} {c : Cursor} {read all : List Token}
    (h : tokensFrom allowance c read = .ok all) : all.length ≤ allowance + read.length := by
  induction allowance generalizing c read with
  | zero => cases h
  | succ allowance ih =>
    rw [tokensFrom] at h
    obtain ⟨⟨t, c₁⟩, -, h⟩ := bind_eq_ok_iff.mp h
    by_cases hkind : t.kind = .finish
    · simp only [hkind, if_true] at h
      cases h
      simp only [List.length_reverse, List.length_cons]
      omega
    · simp only [hkind, if_false] at h
      have := ih h
      simp only [List.length_cons] at this
      omega

/-- The kinds of the tokens of a text in front of its end; none if it cannot be read. -/
def kindsOf (cs : List Char) : List Token.Kind :=
  match tokens (String.ofList cs) with
  | .ok ts => ts.dropLast.map Token.kind
  | .error _ => []

theorem kindsOf_eq {cs : List Char} {kinds : List Token.Kind} {ts : List Token}
    (h : tokens (String.ofList cs) = .ok ts) (hkinds : ts.map Token.kind = kinds ++ [.finish]) :
    kindsOf cs = kinds := by
  simp only [kindsOf, h, List.map_dropLast, hkinds, List.dropLast_concat]

/-- Wherever it stands, the text has tokens of these kinds and then ends. -/
structure Yields (cs : List Char) (kinds : List Token.Kind) : Prop where
  short : kinds.length ≤ cs.length
  lexed (p : Position) : ∃ ts, Lexed ⟨p, cs⟩ ts ∧ ts.map Token.kind = kinds ++ [.finish]

namespace Yields

variable {cs more : List Char} {kinds : List Token.Kind}

theorem nil : Yields [] [] :=
  ⟨Nat.le_refl _, fun p => ⟨[⟨.finish, p, p, false⟩], .finish rfl rfl, rfl⟩⟩

theorem tokens (h : Yields cs kinds) :
    ∃ ts, tokens (String.ofList cs) = .ok ts ∧ ts.map Token.kind = kinds ++ [.finish] := by
  obtain ⟨ts, hts, hkinds⟩ := h.lexed .start
  refine ⟨ts, ?_, hkinds⟩
  have hshort := h.short
  have hlength := congrArg List.length hkinds
  simp only [List.length_map, List.length_append, List.length_singleton] at hlength
  rw [Lexer.tokens, String.toList_ofList, hts.tokensFrom (by omega)]
  rfl

/-- The tokens behind white space and comments. -/
theorem lexed_of_tokenStart (h : Yields more kinds) {c : Cursor} {q : Position}
    (hstart : tokenStart false c.position c.rest = tokenStart false q more) :
    ∃ ts, Lexed c ts ∧ ts.map Token.kind = kinds ++ [.finish] := by
  obtain ⟨ts, hts, hkinds⟩ := h.lexed q
  have hfirst {t : Token} {c₁ : Cursor} (hnext : nextToken ⟨q, more⟩ = .ok (t, c₁)) :
      ∃ t', nextToken c = .ok (t', c₁) ∧ t'.kind = t.kind :=
    nextToken_tokenStart (hstart ▸ (nextToken_ok hnext).1)
  rcases hts with ⟨hnext, hkind⟩ | ⟨hnext, hkind, hrest⟩
  · obtain ⟨t', hnext', hkind'⟩ := hfirst hnext
    exact ⟨[t'], .finish hnext' (hkind'.trans hkind), by rw [← hkinds]; simp [hkind']⟩
  · obtain ⟨t', hnext', hkind'⟩ := hfirst hnext
    exact ⟨t' :: _, .cons hnext' (hkind' ▸ hkind) hrest, by rw [← hkinds]; simp [hkind']⟩

/-- The tokens that are read of a text up to its end, with a text behind it that it is joined to at
a seam. -/
theorem lexed_append (h : Yields more kinds) {allowance : Nat} {c : Cursor} {read all : List Token}
    (htokens : tokensFrom allowance c read = .ok all) (hseam : c.rest ≠ [] → Seam c.rest more)
    (hcomment : more ≠ [] → endsInCommentFrom allowance c = false) (q : Position) :
    ∃ ts, Lexed ⟨q, c.rest ++ more⟩ ts ∧ (read.reverse ++ ts).map Token.kind =
      all.dropLast.map Token.kind ++ (kinds ++ [.finish]) := by
  induction allowance generalizing c read q with
  | zero => cases htokens
  | succ allowance ih =>
    rw [tokensFrom] at htokens
    obtain ⟨⟨t, c₁⟩, hnext, htokens⟩ := bind_eq_ok_iff.mp htokens
    simp only [endsInCommentFrom, hnext] at hcomment
    rcases nextToken_append hnext hseam q with
      ⟨hkind, q', hstart⟩ | ⟨hkind, hseam', t', q', hnext', hkind'⟩
    · simp only [hkind, if_true] at htokens hcomment
      cases htokens
      -- an open comment would go on into the text behind, if there is any
      have hended : tokenStart (commentAtEnd false c.rest) q' more = tokenStart false q' more := by
        rcases more with _ | ⟨d, more⟩
        · rfl
        · rw [hcomment (by simp)]
      obtain ⟨ts, hts, hkinds⟩ :=
        h.lexed_of_tokenStart (c := ⟨q, c.rest ++ more⟩) (hstart.trans hended)
      exact ⟨ts, hts, by simp [hkinds]⟩
    · simp only [hkind, if_false] at htokens hcomment
      obtain ⟨ts, hts, hkinds⟩ := ih htokens hseam' hcomment q'
      refine ⟨t' :: ts, .cons hnext' (hkind' ▸ hkind) hts, ?_⟩
      rw [← hkinds]
      simp [hkind']

/-- The tokens of two texts that are joined at a seam are those of the one and then those of the
other. -/
theorem append (h : Yields more kinds) (hread : ∃ ts, Lexer.tokens (String.ofList cs) = .ok ts)
    (hseam : cs ≠ [] → Seam cs more) (hcomment : more ≠ [] → endsInComment cs = false) :
    Yields (cs ++ more) (kindsOf cs ++ kinds) := by
  obtain ⟨all, hall⟩ := hread
  have htokens : tokensFrom (cs.length + 1) ⟨.start, cs⟩ [] = .ok all := by
    simpa only [Lexer.tokens, String.toList_ofList] using hall
  have hkindsOf : kindsOf cs = all.dropLast.map Token.kind := by rw [kindsOf, hall]
  refine ⟨?_, fun p => ?_⟩
  · have hlength := length_le_of_tokensFrom htokens
    have hshort := h.short
    simp only [hkindsOf, List.length_append, List.length_map, List.length_dropLast,
      List.length_nil] at hlength ⊢
    omega
  · obtain ⟨ts, hts, hkinds⟩ := h.lexed_append htokens hseam hcomment p
    exact ⟨ts, hts, by simpa [hkindsOf] using hkinds⟩

/-- The tokens of a text that can be read. -/
theorem of_tokens (hread : ∃ ts, Lexer.tokens (String.ofList cs) = .ok ts) :
    Yields cs (kindsOf cs) := by
  have h := nil.append hread (fun _ => .inl rfl) fun hne => absurd rfl hne
  rwa [List.append_nil, List.append_nil] at h

/-- The tokens of a value and of a text that it stands in front of. -/
theorem render (h : Yields more kinds) (hmore : Detached more) (v : Value) :
    Yields (v.renderChars ++ more) (v.kinds ++ kinds) := by
  have hspells := v.spells_render hmore
  refine ⟨?_, fun p => ?_⟩
  · have hshort := hspells.short
    have hshort' := h.short
    simp only [List.length_append]
    omega
  · obtain ⟨ts, p', hts, hkinds, -⟩ := hspells.lexes p
    obtain ⟨ts', hts', hkinds'⟩ := h.lexed p'
    exact ⟨ts ++ ts', hts.lexed hts', by rw [List.map_append, hkinds, hkinds', List.append_assoc]⟩

end Yields

theorem kindsOf_render (v : Value) : kindsOf v.renderChars = v.kinds := by
  have hend : Detached [] := trivial
  obtain ⟨ts, hts, hkinds, -⟩ := (v.spells_render hend).tokens
  exact kindsOf_eq hts hkinds

end Lexer

end Covenant
