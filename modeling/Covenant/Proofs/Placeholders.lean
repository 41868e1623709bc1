import Covenant.Proofs.Grammar
import Covenant.Proofs.Scanning

/-!
# The tokens around placeholders

A text with placeholders is read twice: once with a mark, a letter that stands for a name, in the
place of each, and once with values written out there. Where no mark stands in a string or in a
longer word, and none next to what would join it to a number, both readings have the same tokens,
except that the tokens of a value stand for a mark. Placeholders in comments make no difference.

## Main definitions

* `Piece` : a character or a value that is written out.
* `Lexer.Clear`, `Lexer.Fits` : the conditions on the tokens of the text with marks.
* `Filled` : the tokens of the two texts side by side, with the values that are written out.
* `Aligned` : the same for some values.
* `Lexer.Fillable` : the tokens from a place on are those of the other text with values filled in.

## Main results

* `Lexer.Lexed.filled` : if the text with marks can be read, so can the text with values, and its
  tokens are those of the text with marks with the values filled in.
* `Lexer.Lexed.aligned` : the tokens of the two texts are aligned.
-/

namespace Covenant

/-- A piece of a text: a character, or a value that is written out. -/
inductive Piece where
  | plain (c : Char)
  | filled (v : Value)

namespace Piece

/-- The character of a piece, where values are marked. -/
def marked (mark : Char) : Piece → Char
  | plain c => c
  | filled _ => mark

/-- The characters of a piece, where values are written out. -/
def chars : Piece → List Char
  | plain c => [c]
  | filled v => v.renderChars

/-- The value of a piece. -/
def value? : Piece → Option Value
  | plain _ => none
  | filled v => some v

end Piece

/-- A letter beyond ASCII, which no keyword, number or escape in a string holds. -/
structure IsMark (mark : Char) : Prop where
  letter : Text.isLetter mark = true
  beyond : 128 ≤ mark.toNat

namespace IsMark

variable {mark : Char}

theorem ne (h : IsMark mark) {c : Char} (hc : c.toNat < 128) : mark ≠ c := by
  rintro rfl
  exact absurd h.beyond (Nat.not_le.mpr hc)

theorem startsWord (h : IsMark mark) : Lexer.startsWord mark = true := by
  simp [Lexer.startsWord, h.letter]

theorem continuesWord (h : IsMark mark) : Lexer.continuesWord mark = true := by
  simp [Lexer.continuesWord, h.letter]

theorem inert (h : IsMark mark) : Lexer.Inert mark :=
  .of_ne ⟨h.ne (by decide), Text.isBlank_of_continuesWord h.continuesWord, h.ne (by decide)⟩
    ⟨h.ne (by decide), h.ne (by decide), h.ne (by decide)⟩

theorem isDigit (h : IsMark mark) : Text.isDigit mark = false := by
  by_contra hdigit
  rw [Bool.not_eq_false] at hdigit
  exact absurd h.beyond (Nat.not_le.mpr (Lexer.toNat_lt_of_isDigit hdigit))

theorem hexValue? (h : IsMark mark) : Text.hexValue? mark = none := by
  have hle (c : Char) (hc : c.toNat < 128) : ¬mark ≤ c := by
    rw [Char.le_def, UInt32.le_iff_toNat_le]
    exact Nat.not_le.mpr (Nat.lt_of_lt_of_le hc h.beyond)
  simp [Text.hexValue?, h.isDigit, hle 'f' (by decide), hle 'F' (by decide)]

end IsMark

namespace Lexer

open Piece

variable {mark : Char} {ps : List Piece}

/-! ### White space and comments -/

/-- In a comment, everything up to the end of the line is skipped. -/
theorem skipTrivia_comment {cs : List Char} (hcs : '\n' ∉ cs) (newline : Bool) (p : Position)
    (rest : List Char) :
    ∃ p', skipTrivia true newline p (cs ++ rest) = skipTrivia true newline p' rest := by
  induction cs generalizing p with
  | nil => exact ⟨p, rfl⟩
  | cons c cs ih =>
    rw [List.mem_cons, not_or] at hcs
    obtain ⟨p', hp'⟩ := ih hcs.2 (p.advance c)
    refine ⟨p', ?_⟩
    rw [List.cons_append, skipTrivia, if_neg (Ne.symm hcs.1), if_pos rfl, hp']

/-- What follows white space in the two texts of some pieces: the same pieces behind them. -/
def SkipsTo (mark : Char) (ps : List Piece) (r r' : Bool × Cursor) : Prop :=
  ∃ newline p q ps', ps' <:+ ps ∧ r = (newline, ⟨p, ps'.map (marked mark)⟩) ∧
    r' = (newline, ⟨q, ps'.flatMap chars⟩)

theorem SkipsTo.cons {r r' : Bool × Cursor} (h : SkipsTo mark ps r r') (piece : Piece) :
    SkipsTo mark (piece :: ps) r r' := by
  obtain ⟨newline, p, q, ps', hps', hr, hr'⟩ := h
  exact ⟨newline, p, q, ps', hps'.trans (List.suffix_cons piece ps), hr, hr'⟩

theorem head_slash_iff (hmark : IsMark mark) (ps : List Piece) :
    (ps.flatMap chars).head? = some '/' ↔ (ps.map (marked mark)).head? = some '/' := by
  rcases ps with _ | ⟨c | v, ps⟩
  · rfl
  · rfl
  · obtain ⟨d, cs, hcs, hd⟩ := v.exists_cons_render
    have hslash := (Value.inert_of_opensText hd).slash
    simp [chars, marked, hcs, hslash, hmark.inert.slash]

/-- The same white space and comments are skipped, whether values are marked or written out. -/
theorem skipTrivia_pieces (hmark : IsMark mark) (ps : List Piece) (inComment newline : Bool)
    (p q : Position) :
    SkipsTo mark ps (skipTrivia inComment newline p (ps.map (marked mark)))
      (skipTrivia inComment newline q (ps.flatMap chars)) := by
  induction ps generalizing inComment newline p q with
  | nil => exact ⟨newline, p, q, [], List.suffix_refl _, rfl, rfl⟩
  | cons piece ps ih =>
    have hstop (hmarked : skipTrivia inComment newline p ((piece :: ps).map (marked mark)) =
          (newline, ⟨p, (piece :: ps).map (marked mark)⟩))
        (hfilled : skipTrivia inComment newline q ((piece :: ps).flatMap chars) =
          (newline, ⟨q, (piece :: ps).flatMap chars⟩)) :
        SkipsTo mark (piece :: ps)
          (skipTrivia inComment newline p ((piece :: ps).map (marked mark)))
          (skipTrivia inComment newline q ((piece :: ps).flatMap chars)) :=
      ⟨newline, p, q, piece :: ps, List.suffix_refl _, hmarked, hfilled⟩
    rcases piece with c | v
    · simp only [List.map_cons, List.flatMap_cons, marked, chars, List.singleton_append,
        skipTrivia, head_slash_iff hmark ps] at hstop ⊢
      split_ifs at hstop ⊢
      · exact (ih _ _ _ _).cons _
      · exact (ih _ _ _ _).cons _
      · exact (ih _ _ _ _).cons _
      · exact (ih _ _ _ _).cons _
      · exact hstop rfl rfl
    · cases inComment with
      | true =>
        obtain ⟨q', hq'⟩ := skipTrivia_comment v.newline_notMem_render newline q (ps.flatMap chars)
        rw [List.map_cons, List.flatMap_cons, marked, chars, hq', skipTrivia,
          if_neg hmark.inert.line, if_pos rfl]
        exact (ih _ _ _ _).cons _
      | false =>
        obtain ⟨d, cs, hcs, hd⟩ := v.exists_cons_render
        refine hstop (skipTrivia_solid (hmark.inert.solid _) _ _) (skipTrivia_solid ?_ _ _)
        rw [List.flatMap_cons, chars, hcs]
        exact (Value.inert_of_opensText hd).solid _

/-! ### Strings -/

/-- What one character does to the rest of a string depends on nothing behind it: it ends the
string, goes on in some way or is an error. -/
theorem scanString_step (mode : StringMode) (decoded : List Char) (c : Char) :
    mode = .item ∧ c = '"' ∨
      (∃ mode' decoded', ∀ start p cs, scanString start mode p decoded (c :: cs) =
        scanString start mode' (p.advance c) decoded' cs) ∨
      ∀ start p cs, ∃ e, scanString start mode p decoded (c :: cs) = .error e := by
  cases mode with
  | item =>
    by_cases hquote : c = '"'
    · exact .inl ⟨rfl, hquote⟩
    by_cases hslash : c = '\\'
    · exact .inr (.inl ⟨.escape, decoded, fun start p cs => by simp [scanString, hslash]⟩)
    · exact .inr (.inl ⟨.item, c :: decoded, fun start p cs => by
        simp [scanString, hquote, hslash]⟩)
  | escape =>
    by_cases hcode : c = 'u'
    · exact .inr (.inl ⟨.brace, decoded, fun start p cs => by simp [scanString, hcode]⟩)
    rcases hescape : simpleEscape? c with _ | d
    · exact .inr (.inr fun start p cs => ⟨_, by simp only [scanString, if_neg hcode, hescape]; rfl⟩)
    · exact .inr (.inl ⟨.item, d :: decoded, fun start p cs => by
        simp [scanString, hcode, hescape]⟩)
  | brace =>
    by_cases hbrace : c = '\x7b'
    · exact .inr (.inl ⟨.code [], decoded, fun start p cs => by simp [scanString, hbrace]⟩)
    · exact .inr (.inr fun start p cs => ⟨_, by simp only [scanString, if_neg hbrace]; rfl⟩)
  | code digits =>
    by_cases hbrace : c = '\x7d'
    · rcases hcode : codePoint? digits.reverse with _ | d
      · exact .inr (.inr fun start p cs => ⟨_, by
          simp only [scanString, if_pos hbrace, hcode]; rfl⟩)
      · exact .inr (.inl ⟨.item, d :: decoded, fun start p cs => by
          simp [scanString, hbrace, hcode]⟩)
    · exact .inr (.inl ⟨.code (c :: digits), decoded, fun start p cs => by
        simp [scanString, hbrace]⟩)

/-- A string that reaches a mark has it in its text. -/
theorem mem_of_scanString_mark (hmark : IsMark mark) {start p : Position} {mode : StringMode}
    {decoded cs : List Char} {text : String} {after : Cursor}
    (h : scanString start mode p decoded (mark :: cs) = .ok (.string text, after)) :
    mark ∈ text.toList := by
  have hmem (mode' : StringMode) {decoded' : List Char} {p' : Position}
      (hholds : Holds mark decoded' mode')
      (h : scanString start mode' p' decoded' cs = .ok (.string text, after)) :
      mark ∈ text.toList :=
    mem_of_scanString hmark.hexValue? (hmark.ne (by decide)) hholds h
  cases mode with
  | item =>
    rw [scanString, if_neg (hmark.ne (by decide)), if_neg (hmark.ne (by decide))] at h
    exact hmem .item List.mem_cons_self h
  | escape =>
    have hescape : simpleEscape? mark = none := by
      unfold simpleEscape?
      split
      case h_7 => rfl
      all_goals exact absurd rfl (hmark.ne (by decide))
    simp only [scanString, if_neg (hmark.ne (c := 'u') (by decide)), hescape] at h
    cases h
  | brace =>
    rw [scanString, if_neg (hmark.ne (by decide))] at h
    cases h
  | code digits =>
    rw [scanString, if_neg (hmark.ne (by decide))] at h
    exact hmem (.code (mark :: digits)) (.inr List.mem_cons_self) h

/-- A string without a mark in its text is the same string where values are written out. -/
theorem scanString_pieces (hmark : IsMark mark) {start p : Position} {mode : StringMode}
    {decoded : List Char} {text : String} {after : Cursor}
    (h : scanString start mode p decoded (ps.map (marked mark)) = .ok (.string text, after))
    (hclear : mark ∉ text.toList) :
    ∃ ps', ps' <:+ ps ∧ after.rest = ps'.map (marked mark) ∧ ∀ start' q, ∃ q',
      scanString start' mode q decoded (ps.flatMap chars) =
        .ok (.string text, ⟨q', ps'.flatMap chars⟩) := by
  induction ps generalizing mode decoded p with
  | nil => cases mode <;> cases h
  | cons piece ps ih =>
    rcases piece with c | v
    · rcases scanString_step mode decoded c with ⟨rfl, rfl⟩ | ⟨mode', decoded', hstep⟩ | hfail
      · cases h
        exact ⟨ps, List.suffix_cons _ ps, rfl, fun start' q => ⟨q.advance '"', rfl⟩⟩
      · rw [List.map_cons, marked, hstep] at h
        obtain ⟨ps', hps', hafter, hscan⟩ := ih h
        refine ⟨ps', hps'.trans (List.suffix_cons _ ps), hafter, fun start' q => ?_⟩
        rw [List.flatMap_cons, chars, List.singleton_append, hstep]
        exact hscan start' _
      · obtain ⟨e, he⟩ := hfail start p (ps.map (marked mark))
        cases h.symm.trans he
    · exact absurd (mem_of_scanString_mark hmark h) hclear

/-! ### Words and symbols -/

/-- The token of a placeholder. -/
def markKind (mark : Char) : Token.Kind :=
  .word (String.ofList [mark])

/-- A mark stands in no string, and in no word but one that it makes up alone. -/
def Clear (mark : Char) : Token.Kind → Prop
  | .string text => mark ∉ text.toList
  | .word name => mark ∈ name.toList → .word name = markKind mark
  | _ => True

instance (mark : Char) : DecidablePred (Clear mark)
  | .string text => inferInstanceAs (Decidable (mark ∉ text.toList))
  | .word name => inferInstanceAs (Decidable (mark ∈ name.toList → .word name = markKind mark))
  | .integer _ | .number _ | .keyword _ | .symbol _ | .finish => isTrue trivial

/-- No keyword holds a mark. -/
theorem ofText?_of_mem (hmark : IsMark mark) {word : List Char} (hmem : mark ∈ word) :
    Keyword.ofText? (String.ofList word) = none := by
  have hascii (k : Keyword) : (k.spelling.toList.all fun c => c.toNat < 128) = true := by
    cases k <;> decide
  simp only [List.all_eq_true, decide_eq_true_eq] at hascii
  by_contra hsome
  obtain ⟨k, hk⟩ := Option.ne_none_iff_exists'.mp hsome
  have hspelling : k.spelling = String.ofList word := by simpa using List.find?_some hk
  have hmem' : mark ∈ k.spelling.toList := by rwa [hspelling, String.toList_ofList]
  exact absurd rfl (hmark.ne (hascii k mark hmem'))

theorem wordKind_of_mem (hmark : IsMark mark) {word : List Char} (hmem : mark ∈ word) :
    wordKind word = .word (String.ofList word) := by
  rw [wordKind, ofText?_of_mem hmark hmem]

theorem wordKind_clear (hmark : IsMark mark) {word : List Char} (h : Clear mark (wordKind word))
    (hmem : mark ∈ word) : word = [mark] := by
  rw [wordKind_of_mem hmark hmem] at h
  have hname := h (by simpa using hmem)
  simpa using congrArg String.toList (Token.Kind.word.inj hname)

/-- Pieces whose text goes on with no word begin with a plain character. -/
theorem nil_or_plain (hmark : IsMark mark)
    (h : ∀ c ∈ (ps.map (marked mark)).head?, continuesWord c = false) :
    ps = [] ∨ ∃ c ps', ps = .plain c :: ps' ∧ continuesWord c = false := by
  rcases ps with _ | ⟨c | v, ps⟩
  · exact .inl rfl
  · exact .inr ⟨c, ps, rfl, h c rfl⟩
  · exact absurd (h mark rfl) (by simp [hmark.continuesWord])

/-- The pieces of a word, and what stands behind it. -/
theorem exists_word (mark : Char) (ps : List Piece) : ∃ qs ps', ps = qs ++ ps' ∧
    (∀ c ∈ qs.map (marked mark), continuesWord c = true) ∧
    ∀ c ∈ (ps'.map (marked mark)).head?, continuesWord c = false := by
  refine ⟨ps.takeWhile (continuesWord ∘ marked mark), ps.dropWhile (continuesWord ∘ marked mark),
    List.takeWhile_append_dropWhile.symm, ?_, ?_⟩
  · rw [← List.takeWhile_map]
    exact List.all_eq_true.mp List.all_takeWhile
  · rw [← List.dropWhile_map]
    intro c hc
    have := List.head?_dropWhile_not continuesWord (ps.map (marked mark))
    simpa [Option.mem_def.mp hc] using this

theorem flatMap_of_plain {qs : List Piece} (h : ∀ v, Piece.filled v ∉ qs) :
    qs.flatMap chars = qs.map (marked mark) := by
  induction qs with
  | nil => rfl
  | cons piece qs ih =>
    have hrest := ih fun v hv => h v (List.mem_cons_of_mem _ hv)
    rcases piece with c | v
    · rw [List.flatMap_cons, List.map_cons, hrest]
      rfl
    · exact absurd List.mem_cons_self (h v)

theorem scanWord_eq {cs word rest : List Char} (h : cs.span continuesWord = (word, rest))
    (p : Position) : scanWord p cs = (wordKind word, ⟨p.shift word.length, rest⟩) := by
  rw [scanWord, h]
  rfl

/-- A word that begins with a plain character is the same where values are written out. -/
theorem scanWord_pieces (hmark : IsMark mark) {c : Char} (hc : continuesWord c = true)
    {p : Position} {kind : Token.Kind} {after : Cursor}
    (h : scanWord p (c :: ps.map (marked mark)) = (kind, after)) (hclear : Clear mark kind) :
    kind ≠ .finish ∧ ∃ ps', ps' <:+ ps ∧ after.rest = ps'.map (marked mark) ∧
      ∀ q, ∃ q', scanWord q (c :: ps.flatMap chars) = (kind, ⟨q', ps'.flatMap chars⟩) := by
  obtain ⟨qs, ps', rfl, hqs, hps'⟩ := exists_word mark ps
  have hword (d : Char) (hd : d ∈ c :: qs.map (marked mark)) : continuesWord d = true :=
    (List.mem_cons.mp hd).elim (fun h => h ▸ hc) (hqs d)
  rw [List.map_append, ← List.cons_append, scanWord_eq (span_word hword hps')] at h
  cases h
  -- a value in the word would leave its mark there, and make it longer than a mark alone
  have hplain (v : Value) : Piece.filled v ∉ qs := by
    intro hv
    have hmem : mark ∈ qs.map (marked mark) := List.mem_map.mpr ⟨_, hv, rfl⟩
    have hnil := (List.cons.inj (wordKind_clear hmark hclear (List.mem_cons_of_mem c hmem))).2
    rw [hnil] at hmem
    cases hmem
  have hhead : ∀ d ∈ (ps'.flatMap chars).head?, continuesWord d = false := by
    rcases nil_or_plain hmark hps' with rfl | ⟨d, ps', rfl, hd⟩
    · exact fun _ h => nomatch h
    · rintro _ ⟨⟩
      exact hd
  refine ⟨wordKind_ne_finish _, ps', List.suffix_append qs ps', rfl, fun q => ?_⟩
  rw [List.flatMap_append, flatMap_of_plain hplain, ← List.cons_append]
  exact ⟨_, scanWord_eq (span_word hword hhead) q⟩

/-- A symbol is the same where values are written out. -/
theorem scanSymbol_pieces (hmark : IsMark mark) {c : Char} {p : Position} {kind : Token.Kind}
    {after : Cursor} (h : scanSymbol p c (ps.map (marked mark)) = .ok (kind, after)) :
    ∃ ps', ps' <:+ ps ∧ after.rest = ps'.map (marked mark) ∧
      ∀ q, ∃ q', scanSymbol q c (ps.flatMap chars) = .ok (kind, ⟨q', ps'.flatMap chars⟩) := by
  obtain ⟨s, rfl, ⟨d, hd, hdouble⟩ | ⟨hnone, hsingle, hafter⟩⟩ := scanSymbol_cases h
  · obtain ⟨piece, ps', rfl, hpiece, hps'⟩ := List.map_eq_cons_iff.mp hd
    rcases piece with d' | v
    · obtain rfl : d' = d := hpiece
      refine ⟨ps', List.suffix_cons _ ps', hps'.symm, fun q => ⟨q.shift 2, ?_⟩⟩
      simp [scanSymbol, chars, hdouble]
    · obtain rfl : mark = d := hpiece
      rw [hmark.inert.symbol] at hdouble
      cases hdouble
  · refine ⟨ps, List.suffix_refl ps, hafter, fun q => ⟨q.shift 1, ?_⟩⟩
    have hnone' : (ps.flatMap chars).head?.bind (doubleSymbol? c) = none := by
      rcases ps with _ | ⟨d | v, ps⟩
      · rfl
      · exact hnone
      · obtain ⟨d, cs, hcs, hd⟩ := v.exists_cons_render
        simp [chars, hcs, (Value.inert_of_opensText hd).symbol]
    simp [scanSymbol, hnone', hsingle]

/-! ### One token -/

/-- A number is the same where values are written out, if what is written out behind it does not
belong to it. -/
theorem scanNumber_pieces (hmark : IsMark mark) {c : Char} (hc : Text.isDigit c = true)
    {p : Position} {kind : Token.Kind} {after : Cursor}
    (h : scanNumber p (c :: ps.map (marked mark)) = .ok (kind, after)) :
    isNumeric kind = true ∧ ∃ ps', ps' <:+ ps ∧ after.rest = ps'.map (marked mark) ∧
      digitAhead after.rest = false ∧ (Detached (ps'.flatMap chars) → ∀ q, ∃ q',
        scanNumber q (c :: ps.flatMap chars) = .ok (kind, ⟨q', ps'.flatMap chars⟩)) := by
  have hahead : digitAhead (c :: ps.map (marked mark)) = true := hc
  obtain ⟨hnumeric, run, hpart, hrun, hscan⟩ := scanNumber_local hahead h
  rcases run with _ | ⟨d, run⟩
  · cases hrun
  obtain ⟨rfl, hsplit⟩ := List.cons.inj hpart.split
  obtain ⟨qs, ps', rfl, rfl, hps'⟩ := List.map_eq_append_iff.mp hsplit
  -- all characters of the number are plain
  have hplain (v : Value) : Piece.filled v ∉ qs := by
    intro hv
    have hascii := hpart.ascii mark (List.mem_cons_of_mem _ (List.mem_map.mpr ⟨_, hv, rfl⟩))
    exact absurd hmark.beyond (Nat.not_le.mpr hascii)
  refine ⟨hnumeric, ps', List.suffix_append qs ps', hps'.symm, hpart.ahead, fun hdetached q => ?_⟩
  rw [List.flatMap_append, flatMap_of_plain hplain, ← List.cons_append]
  exact hscan _ hdetached q

/-- A token that begins with a plain character is the same where values are written out. -/
theorem scanKind_plain (hmark : IsMark mark) {c : Char} {p : Position} {kind : Token.Kind}
    {after : Cursor} (h : scanKind ⟨p, c :: ps.map (marked mark)⟩ = .ok (kind, after))
    (hclear : Clear mark kind)
    (hnumber : isNumeric kind = true → digitAhead after.rest = false →
      ∀ ps' : List Piece, after.rest = ps'.map (marked mark) → Detached (ps'.flatMap chars)) :
    kind ≠ .finish ∧ ∃ ps', ps' <:+ ps ∧ after.rest = ps'.map (marked mark) ∧ ∀ q, ∃ q',
      scanKind ⟨q, c :: ps.flatMap chars⟩ = .ok (kind, ⟨q', ps'.flatMap chars⟩) := by
  unfold scanKind at h ⊢
  dsimp only at h ⊢
  split_ifs at h ⊢ with hdigit hword hquote
  · obtain ⟨hnumeric, ps', hps', hafter, hahead, hscan⟩ := scanNumber_pieces hmark hdigit h
    refine ⟨?_, ps', hps', hafter, hscan (hnumber hnumeric hahead ps' hafter)⟩
    rintro rfl
    cases hnumeric
  · have hcontinues : continuesWord c = true := by
      simp only [startsWord, Bool.or_eq_true] at hword
      simp only [continuesWord, Bool.or_eq_true]
      exact .inl hword
    obtain ⟨hfinish, ps', hps', hafter, hscan⟩ :=
      scanWord_pieces hmark hcontinues (Except.ok.inj h) hclear
    refine ⟨hfinish, ps', hps', hafter, fun q => ?_⟩
    obtain ⟨q', hq'⟩ := hscan q
    exact ⟨q', by rw [hq']⟩
  · subst hquote
    obtain ⟨text, rfl⟩ := exists_string_of_scanString h
    obtain ⟨ps', hps', hafter, hscan⟩ := scanString_pieces hmark h hclear
    exact ⟨by simp, ps', hps', hafter, fun q => hscan q _⟩
  · obtain ⟨ps', hps', hafter, hscan⟩ := scanSymbol_pieces hmark h
    obtain ⟨s, rfl, -⟩ := scanSymbol_cases h
    exact ⟨by simp, ps', hps', hafter, hscan⟩

/-- Where a value is marked, the token is the mark and no more. -/
theorem scanKind_mark (hmark : IsMark mark) {p : Position} {kind : Token.Kind} {after : Cursor}
    (h : scanKind ⟨p, mark :: ps.map (marked mark)⟩ = .ok (kind, after))
    (hclear : Clear mark kind) :
    kind = markKind mark ∧ after.rest = ps.map (marked mark) ∧
      ∀ c ∈ (ps.map (marked mark)).head?, continuesWord c = false := by
  obtain ⟨qs, ps', rfl, hqs, hps'⟩ := exists_word mark ps
  have hword (d : Char) (hd : d ∈ mark :: qs.map (marked mark)) : continuesWord d = true :=
    (List.mem_cons.mp hd).elim (fun h => h ▸ hmark.continuesWord) (hqs d)
  unfold scanKind at h
  dsimp only at h
  rw [hmark.isDigit, hmark.startsWord, if_neg (by decide), if_pos rfl, List.map_append,
    ← List.cons_append, scanWord_eq (span_word hword hps')] at h
  cases h
  obtain ⟨-, hnil⟩ := List.cons.inj (wordKind_clear hmark hclear List.mem_cons_self)
  obtain rfl := List.map_eq_nil_iff.mp hnil
  exact ⟨wordKind_of_mem hmark List.mem_cons_self, rfl, hps'⟩

/-- A token that is the mark begins with the mark. -/
theorem eq_mark_of_scanKind {c : Char} {cs : List Char} {p : Position} {after : Cursor}
    (h : scanKind ⟨p, c :: cs⟩ = .ok (markKind mark, after)) : c = mark := by
  unfold scanKind at h
  dsimp only at h
  split_ifs at h with hdigit hword hquote
  · have hahead : digitAhead (c :: cs) = true := hdigit
    exact Bool.noConfusion (scanNumber_local hahead h).1
  · have hcontinues : continuesWord c = true := by
      simp only [startsWord, Bool.or_eq_true] at hword
      simp only [continuesWord, Bool.or_eq_true]
      exact .inl hword
    have hspan : (c :: cs).span continuesWord =
        (c :: cs.takeWhile continuesWord, cs.dropWhile continuesWord) := by
      rw [List.span_eq_takeWhile_dropWhile, List.takeWhile_cons_of_pos hcontinues,
        List.dropWhile_cons_of_pos hcontinues]
    rw [scanWord_eq hspan] at h
    have hkind : wordKind (c :: cs.takeWhile continuesWord) = markKind mark :=
      (Prod.mk.inj (Except.ok.inj h)).1
    unfold wordKind at hkind
    split at hkind
    · cases hkind
    · have hchars := congrArg String.toList (Token.Kind.word.inj hkind)
      simp only [String.toList_ofList] at hchars
      exact (List.cons.inj hchars).1
  · obtain ⟨text, htext⟩ := exists_string_of_scanString h
    cases htext
  · obtain ⟨s, hs, -⟩ := scanSymbol_cases h
    cases hs

/-! ### What stands next to a number or a value -/

/-- Whether a token is a word, reserved or not. -/
def isWord : Token.Kind → Bool
  | .word _ | .keyword _ => true
  | _ => false

/-- Two tokens that may follow each other around placeholders. A placeholder is neither a property
nor a key. A number stands neither behind a dot nor before a word on its line, as it never does in a
text that can be read. -/
def Fits (mark : Char) (t u : Token) : Prop :=
  (t.kind = .symbol .dot → u.kind ≠ markKind mark ∧ isNumeric u.kind = false) ∧
    (t.kind = markKind mark → u.kind ≠ .symbol .colon) ∧
    (isNumeric t.kind = true → isWord u.kind = true → u.newlineBefore = true)

instance (mark : Char) : DecidableRel (Fits mark) :=
  fun _ _ => inferInstanceAs (Decidable (_ ∧ _ ∧ _))

theorem nextToken_ok {c c₁ : Cursor} {t : Token} (h : nextToken c = .ok (t, c₁)) :
    scanKind (skipTrivia false false c.position c.rest).2 = .ok (t.kind, c₁) ∧
      t.newlineBefore = (skipTrivia false false c.position c.rest).1 := by
  obtain ⟨⟨kind, after⟩, hkind, h⟩ := bind_eq_ok_iff.mp h
  cases h
  exact ⟨hkind, rfl⟩

theorem nextToken_of_scanKind {c at_ c₁ : Cursor} {newline : Bool} {kind : Token.Kind}
    (hskip : skipTrivia false false c.position c.rest = (newline, at_))
    (h : scanKind at_ = .ok (kind, c₁)) :
    nextToken c = .ok (⟨kind, at_.position, c₁.position, newline⟩, c₁) := by
  rw [nextToken, hskip]
  exact bind_eq_ok_iff.mpr ⟨(kind, c₁), h, rfl⟩

/-- The first token of a text that begins with no white space. -/
theorem Lexed.solid {p : Position} {cs : List Char} {ts : List Token} (h : Lexed ⟨p, cs⟩ ts)
    (hcs : Solid cs) : ∃ t ts' c₁, ts = t :: ts' ∧ scanKind ⟨p, cs⟩ = .ok (t.kind, c₁) ∧
      t.newlineBefore = false ∧ (t.kind ≠ .finish → Lexed c₁ ts') := by
  have hfirst {t : Token} {c₁ : Cursor} (hnext : nextToken ⟨p, cs⟩ = .ok (t, c₁)) :
      scanKind ⟨p, cs⟩ = .ok (t.kind, c₁) ∧ t.newlineBefore = false := by
    have := nextToken_ok hnext
    rwa [skipTrivia_solid hcs] at this
  rcases h with ⟨hnext, hkind⟩ | ⟨hnext, hkind, hrest⟩
  · exact ⟨_, [], _, rfl, (hfirst hnext).1, (hfirst hnext).2, fun hne => absurd hkind hne⟩
  · exact ⟨_, _, _, rfl, (hfirst hnext).1, (hfirst hnext).2, fun _ => hrest⟩

/-- A text that goes on with a word and not with a digit has a word there. -/
theorem Lexed.word {p : Position} {c : Char} {cs : List Char} {ts : List Token}
    (h : Lexed ⟨p, c :: cs⟩ ts) (hc : continuesWord c = true) (hdigit : Text.isDigit c = false) :
    ∃ t ts', ts = t :: ts' ∧ t.newlineBefore = false ∧ isWord t.kind = true := by
  obtain ⟨t, ts', c₁, rfl, hscan, hline, -⟩ := h.solid (solid_of_continuesWord hc cs)
  refine ⟨t, ts', rfl, hline, ?_⟩
  unfold scanKind at hscan
  simp only [hdigit, Bool.false_eq_true, if_false] at hscan
  by_cases hword : startsWord c = true
  · simp only [hword, if_true, scanWord] at hscan
    obtain ⟨hkind, -⟩ := Prod.mk.inj (Except.ok.inj hscan)
    rw [← hkind]
    split <;> rfl
  · -- a numeral beyond ASCII begins no token
    have hnumeral : Text.isNumeral c = true := by
      simp only [startsWord, continuesWord, Bool.or_eq_true] at hc hword
      exact hc.resolve_left hword
    have hbeyond : ¬c.toNat < 128 := by
      intro hascii
      rw [Text.isNumeral, if_pos hascii, hdigit] at hnumeral
      cases hnumeral
    have hne {d : Char} (hd : d.toNat < 128) : c ≠ d := by
      rintro rfl
      exact hbeyond hd
    rw [if_neg hword, if_neg (hne (by decide))] at hscan
    obtain ⟨s, -, ⟨d, -, hdouble⟩ | ⟨-, hsingle, -⟩⟩ := scanSymbol_cases hscan
    · unfold doubleSymbol? at hdouble
      split at hdouble <;> first | exact absurd rfl (hne (by decide)) | cases hdouble
    · unfold singleSymbol? at hsingle
      split at hsingle <;> first | exact absurd rfl (hne (by decide)) | cases hsingle

theorem scanKind_digit {p : Position} {c : Char} {cs : List Char} {kind : Token.Kind}
    {after : Cursor} (hc : Text.isDigit c = true)
    (h : scanKind ⟨p, c :: cs⟩ = .ok (kind, after)) : isNumeric kind = true := by
  unfold scanKind at h
  simp only [hc, if_true] at h
  have hahead : digitAhead (c :: cs) = true := hc
  exact (scanNumber_local hahead h).1

/-- What is written out behind a word or a number is detached from it. -/
theorem detached_pieces (hmark : IsMark mark) {p : Position} {ts : List Token}
    (h : Lexed ⟨p, ps.map (marked mark)⟩ ts) (hclear : ∀ t ∈ ts, Clear mark t.kind)
    (hfits : ts.IsChain (Fits mark))
    (hhead : ∀ c ∈ (ps.map (marked mark)).head?, continuesWord c = false) :
    Detached (ps.flatMap chars) := by
  rcases nil_or_plain hmark hhead with rfl | ⟨c, ps, rfl, hc⟩
  · trivial
  refine ⟨hc, ?_⟩
  rintro rfl
  change digitAhead (ps.flatMap chars) = false
  obtain ⟨t, ts', c₁, rfl, hscan, -, hrest⟩ :=
    h.solid ⟨'.', _, rfl, by decide, by decide, by decide⟩
  have hdot : scanKind ⟨p, (Piece.plain '.' :: ps).map (marked mark)⟩ =
      .ok (.symbol .dot, ⟨p.shift 1, ps.map (marked mark)⟩) := by
    rcases ps with _ | ⟨piece, ps⟩ <;> rfl
  obtain ⟨hkind, rfl⟩ := Prod.mk.inj (Except.ok.inj (hdot.symm.trans hscan))
  have hlexed := hrest (by simp [← hkind])
  rcases ps with _ | ⟨d | v, ps⟩
  · rfl
  · by_contra hdigit
    rw [Bool.not_eq_false] at hdigit
    have hd : Text.isDigit d = true := hdigit
    obtain ⟨u, us, c₂, rfl, hscan', -, -⟩ := hlexed.solid (solid_of_isDigit hd _)
    have hfirst := (List.isChain_cons_cons.mp hfits).1.1 hkind.symm
    exact absurd (scanKind_digit hd hscan') (by simp [hfirst.2])
  · obtain ⟨u, us, c₂, rfl, hscan', -, -⟩ := hlexed.solid (hmark.inert.solid _)
    have hfirst := (List.isChain_cons_cons.mp hfits).1.1 hkind.symm
    exact absurd (scanKind_mark hmark hscan' (hclear u (by simp))).1 hfirst.1

/-- What is written out behind a number does not belong to it. -/
theorem detached_number (hmark : IsMark mark) {p : Position} {t : Token} {ts : List Token}
    (h : Lexed ⟨p, ps.map (marked mark)⟩ ts) (hclear : ∀ u ∈ ts, Clear mark u.kind)
    (hfits : (t :: ts).IsChain (Fits mark)) (ht : isNumeric t.kind = true)
    (hahead : digitAhead (ps.map (marked mark)) = false) : Detached (ps.flatMap chars) := by
  refine detached_pieces hmark h hclear hfits.tail fun c hc => ?_
  by_contra hword
  rw [Bool.not_eq_false] at hword
  obtain ⟨cs, hcs⟩ := List.head?_eq_some_iff.mp hc
  rw [hcs] at h hahead
  obtain ⟨u, us, rfl, hline, hu⟩ := h.word hword hahead
  have hnewline := (List.isChain_cons_cons.mp hfits).1.2.2 ht hu
  rw [hline] at hnewline
  cases hnewline

/-! ### All tokens -/

end Lexer

/-- A value that is not a double without a literal. -/
def Value.Definite (v : Value) : Prop :=
  ∀ x, v = .number x → x.isFinite = true

/-- The tokens of a text with marks in it and those of the text in which values are written out for
them. The tokens of a value stand for a mark, and all others agree. -/
inductive Aligned (mark : Char) : List Token → List Token → Prop
  | finish {t t' : Token} (kind : t.kind = .finish) (kind' : t'.kind = .finish)
    (line : t.newlineBefore = t'.newlineBefore) : Aligned mark [t] [t']
  | same {t t' : Token} {ts ts' : List Token} (kind : t.kind = t'.kind)
    (line : t.newlineBefore = t'.newlineBefore) (rest : Aligned mark ts ts') :
    Aligned mark (t :: ts) (t' :: ts')
  | hole {t first : Token} {v : Value} {vs ts ts' : List Token}
      (kind : t.kind = Lexer.markKind mark)
    (definite : v.Definite) (kinds : (first :: vs).map Token.kind = v.kinds)
    (line : t.newlineBefore = first.newlineBefore)
    (next : ∀ u ∈ ts.head?, u.kind ≠ .symbol .colon) (rest : Aligned mark ts ts') :
    Aligned mark (t :: ts) (first :: (vs ++ ts'))

/-- The tokens of a text with marks in it and those of the text in which these values are written
out for them, except for marks in comments. -/
inductive Filled (mark : Char) : List Value → List Token → List Token → Prop
  | finish {t t' : Token} (kind : t.kind = .finish) (kind' : t'.kind = .finish)
    (line : t.newlineBefore = t'.newlineBefore) : Filled mark [] [t] [t']
  | same {t t' : Token} {values : List Value} {ts ts' : List Token} (kind : t.kind = t'.kind)
    (line : t.newlineBefore = t'.newlineBefore) (rest : Filled mark values ts ts') :
    Filled mark values (t :: ts) (t' :: ts')
  | hole {t first : Token} {v : Value} {values : List Value} {vs ts ts' : List Token}
      (kind : t.kind = Lexer.markKind mark)
    (kinds : (first :: vs).map Token.kind = v.kinds) (line : t.newlineBefore = first.newlineBefore)
    (next : ∀ u ∈ ts.head?, u.kind ≠ .symbol .colon) (rest : Filled mark values ts ts') :
    Filled mark (v :: values) (t :: ts) (first :: (vs ++ ts'))

/-- How many marks there are among tokens. -/
def marks (mark : Char) (ts : List Token) : Nat :=
  ts.countP fun t => t.kind = Lexer.markKind mark

theorem marks_cons_of_ne {mark : Char} {t : Token} {ts : List Token}
    (h : t.kind ≠ Lexer.markKind mark) : marks mark (t :: ts) = marks mark ts :=
  List.countP_cons_of_neg (by simpa using h)

theorem marks_cons_of_eq {mark : Char} {t : Token} {ts : List Token}
    (h : t.kind = Lexer.markKind mark) : marks mark (t :: ts) = marks mark ts + 1 :=
  List.countP_cons_of_pos (by simpa using h)

theorem marks_le_cons (mark : Char) (t : Token) (ts : List Token) :
    marks mark ts ≤ marks mark (t :: ts) :=
  (List.sublist_cons_self t ts).countP_le

/-- There are no more values than marks. -/
theorem Filled.length_le {mark : Char} {values : List Value} {ts ts' : List Token}
    (h : Filled mark values ts ts') : values.length ≤ marks mark ts := by
  induction h with
  | finish => exact Nat.zero_le _
  | same _ _ _ ih => exact ih.trans (marks_le_cons mark _ _)
  | hole hkind _ _ _ _ ih =>
    rw [marks_cons_of_eq hkind]
    exact Nat.succ_le_succ ih

theorem Filled.aligned {mark : Char} {values : List Value} {ts ts' : List Token}
    (h : Filled mark values ts ts') (hvalues : ∀ v ∈ values, v.Definite) : Aligned mark ts ts' := by
  induction h with
  | finish kind kind' line => exact .finish kind kind' line
  | same kind line _ ih => exact .same kind line (ih hvalues)
  | hole kind kinds line next _ ih =>
    obtain ⟨hv, hvalues⟩ := List.forall_mem_cons.mp hvalues
    exact .hole kind hv kinds line next (ih hvalues)

namespace Lexer

open Piece

variable {mark : Char} {ps : List Piece}

/-- A text has one list of tokens. -/
theorem Lexed.unique {c : Cursor} {ts ts' : List Token} (h : Lexed c ts) (h' : Lexed c ts') :
    ts = ts' := by
  have hread := h.tokensFrom (Nat.le_max_left ts.length ts'.length) []
  have hread' := h'.tokensFrom (Nat.le_max_right ts.length ts'.length) []
  exact Except.ok.inj (hread.symm.trans hread')

/-- The tokens of a value that is written out behind white space. -/
theorem lexes_value {c : Cursor} {newline : Bool} {q : Position} {v : Value} {rest : List Char}
    (hskip : skipTrivia false false c.position c.rest = (newline, ⟨q, v.renderChars ++ rest⟩))
    (hrest : Detached rest) :
    ∃ first vs q', Lexes c (first :: vs) ⟨q', rest⟩ ∧
      (first :: vs).map Token.kind = v.kinds ∧ first.newlineBefore = newline := by
  obtain ⟨vs, q', hlexes, hkinds, -⟩ := (v.spells_render hrest).lexes q
  rcases vs with _ | ⟨first, vs⟩
  · exact absurd hkinds.symm v.kinds_ne_nil
  obtain - | ⟨hnext, hkind, hlexes⟩ := hlexes
  obtain ⟨d, cs, hcs, hd⟩ := v.exists_cons_render
  have hsolid : Solid (v.renderChars ++ rest) := by
    rw [hcs]
    exact (Value.inert_of_opensText hd).solid _
  have hscan := (nextToken_ok hnext).1
  rw [skipTrivia_solid hsolid] at hscan
  exact ⟨_, vs, q', .cons (nextToken_of_scanKind hskip hscan) hkind hlexes, hkinds, rfl⟩

/-- The next token of a text with marks begins where the next one of the text with values does. -/
theorem nextToken_pieces (hmark : IsMark mark) {c c₁ c' : Cursor} {t : Token}
    (h : nextToken c = .ok (t, c₁)) (hc : c.rest = ps.map (marked mark))
    (hc' : c'.rest = ps.flatMap chars) :
    ∃ p q ps', ps' <:+ ps ∧ scanKind ⟨p, ps'.map (marked mark)⟩ = .ok (t.kind, c₁) ∧
      skipTrivia false false c'.position c'.rest = (t.newlineBefore, ⟨q, ps'.flatMap chars⟩) := by
  obtain ⟨newline, p, q, ps', hps', hskip, hskip'⟩ :=
    skipTrivia_pieces hmark ps false false c.position c'.position
  obtain ⟨hscan, hline⟩ := nextToken_ok h
  rw [hc, hskip] at hscan hline
  obtain rfl : newline = t.newlineBefore := hline.symm
  exact ⟨p, q, ps', hps', hscan, hc' ▸ hskip'⟩

/-- The values among fewer pieces. -/
theorem sublist_values {values : List Value} {ps ps' : List Piece} (hps : ps' <:+ ps)
    (h : values.Sublist (ps'.filterMap value?)) : values.Sublist (ps.filterMap value?) :=
  h.trans (hps.sublist.filterMap value?)

/-- The tokens from a cursor on are these with values of the pieces filled in. If the mark stands for
nothing else among the pieces, there is a value for each. -/
def Fillable (mark : Char) (ps : List Piece) (c : Cursor) (ts : List Token) : Prop :=
  ∃ values ts', values.Sublist (ps.filterMap value?) ∧ Lexed c ts' ∧ Filled mark values ts ts' ∧
    (Piece.plain mark ∉ ps → values.length = marks mark ts)

namespace Fillable

variable {ps' : List Piece} {c c₁ : Cursor} {ts : List Token} {t : Token}

/-- A token that is no mark stays as it is. -/
theorem same {t' : Token} (h : Fillable mark ps' c₁ ts) (hps' : ps' <:+ ps)
    (hnext : nextToken c = .ok (t', c₁)) (hkind : t.kind = t'.kind)
    (hline : t.newlineBefore = t'.newlineBefore) (hfinish : t'.kind ≠ .finish)
    (hplain : Piece.plain mark ∉ ps → t.kind ≠ markKind mark) : Fillable mark ps c (t :: ts) := by
  obtain ⟨values, ts', hvalues, hts', hfilled, hcount⟩ := h
  refine ⟨values, _, sublist_values hps' hvalues, .cons hnext hfinish hts',
    .same hkind hline hfilled, fun hnot => ?_⟩
  rw [marks_cons_of_ne (hplain hnot)]
  exact hcount fun hmem => hnot (hps'.subset hmem)

/-- The tokens of a value come in the place of a mark. -/
theorem hole {v : Value} {first : Token} {vs : List Token} (h : Fillable mark ps' c₁ ts)
    (hps' : Piece.filled v :: ps' <:+ ps) (hmark : t.kind = markKind mark)
    (hlexes : Lexes c (first :: vs) c₁) (hkinds : (first :: vs).map Token.kind = v.kinds)
    (hline : t.newlineBefore = first.newlineBefore)
    (hcolon : ∀ u ∈ ts.head?, u.kind ≠ .symbol .colon) : Fillable mark ps c (t :: ts) := by
  obtain ⟨values, ts', hvalues, hts', hfilled, hcount⟩ := h
  refine ⟨v :: values, first :: (vs ++ ts'), sublist_values hps' (hvalues.cons_cons v),
    hlexes.lexed hts', .hole hmark hkinds hline hcolon hfilled, fun hnot => ?_⟩
  rw [marks_cons_of_eq hmark, List.length_cons,
    hcount fun hmem => hnot (hps'.subset (List.mem_cons_of_mem _ hmem))]

end Fillable

/-- If a text with marks can be read, so can the text with values for them, and its tokens are those
of the text with marks with the values filled in. -/
theorem Lexed.filled (hmark : IsMark mark) {c : Cursor} {ts : List Token} (h : Lexed c ts)
    (hc : c.rest = ps.map (marked mark)) (hclear : ∀ t ∈ ts, Clear mark t.kind)
    (hfits : ts.IsChain (Fits mark)) {c' : Cursor} (hc' : c'.rest = ps.flatMap chars) :
    Fillable mark ps c' ts := by
  induction h generalizing ps c' with
  | @finish c t c₁ hnext hkind =>
    obtain ⟨p, q, ps', -, hscan, hskip⟩ := nextToken_pieces hmark hnext hc hc'
    have hclear' : Clear mark t.kind := hclear t List.mem_cons_self
    rcases ps' with _ | ⟨d | v, ps'⟩
    · have hfinish : scanKind ⟨q, [].flatMap chars⟩ = .ok (.finish, ⟨q, []⟩) := rfl
      refine ⟨[], _, List.nil_sublist _, .finish (nextToken_of_scanKind hskip hfinish) rfl,
        .finish hkind rfl rfl, fun _ => ?_⟩
      rw [marks_cons_of_ne (by simp [hkind, markKind])]
      rfl
    · refine absurd hkind (scanKind_plain hmark hscan hclear' fun hnumeric => ?_).1
      rw [hkind] at hnumeric
      cases hnumeric
    · rw [(scanKind_mark hmark hscan hclear').1] at hkind
      cases hkind
  | @cons c t c₁ ts hnext hkind hrest ih =>
    obtain ⟨p, q, ps', hps', hscan, hskip⟩ := nextToken_pieces hmark hnext hc hc'
    have hclear' : Clear mark t.kind := hclear t List.mem_cons_self
    have hrestClear (u : Token) (hu : u ∈ ts) := hclear u (List.mem_cons_of_mem t hu)
    have hrestFits : ts.IsChain (Fits mark) := hfits.tail
    rcases ps' with _ | ⟨d | v, ps'⟩
    · exact absurd (Prod.mk.inj (Except.ok.inj hscan)).1.symm hkind
    · have hnumber (hnumeric : isNumeric t.kind = true) (hahead : digitAhead c₁.rest = false)
          (ps'' : List Piece) (hc₁ : c₁.rest = ps''.map (marked mark)) :
          Detached (ps''.flatMap chars) := by
        obtain ⟨p₁, rest⟩ := c₁
        subst hc₁
        exact detached_number hmark hrest hrestClear hfits hnumeric hahead
      obtain ⟨-, ps'', hps'', hc₁, hscan'⟩ := scanKind_plain hmark hscan hclear' hnumber
      obtain ⟨q', hq'⟩ := hscan' q
      have hbehind : Fillable mark ps'' ⟨q', ps''.flatMap chars⟩ ts :=
        ih hc₁ hrestClear hrestFits rfl
      have hsuffix : ps'' <:+ ps := (hps''.trans (List.suffix_cons _ _)).trans hps'
      refine hbehind.same hsuffix (nextToken_of_scanKind hskip hq') rfl rfl hkind
        fun hplain heq => ?_
      rw [heq] at hscan
      have hd : d = mark := eq_mark_of_scanKind hscan
      rw [hd] at hps'
      exact hplain (hps'.subset List.mem_cons_self)
    · obtain ⟨hmarkKind, hc₁, hhead⟩ := scanKind_mark hmark hscan hclear'
      obtain ⟨p₁, rest⟩ := c₁
      obtain rfl : rest = ps'.map (marked mark) := hc₁
      have hdetached := detached_pieces hmark hrest hrestClear hrestFits hhead
      obtain ⟨first, vs, q', hlexes, hkinds, hline⟩ := lexes_value hskip hdetached
      have hbehind : Fillable mark ps' ⟨q', ps'.flatMap chars⟩ ts :=
        ih rfl hrestClear hrestFits rfl
      refine hbehind.hole hps' hmarkKind hlexes hkinds hline.symm fun u hu => ?_
      obtain ⟨us, rfl⟩ := List.head?_eq_some_iff.mp hu
      exact (List.isChain_cons_cons.mp hfits).1.2.1 hmarkKind

/-- The tokens of a text with marks are aligned with those of the text with values for them. -/
theorem Lexed.aligned (hmark : IsMark mark) {c : Cursor} {ts : List Token} (h : Lexed c ts)
    (hc : c.rest = ps.map (marked mark)) (hps : ∀ v, Piece.filled v ∈ ps → v.Definite)
    (hclear : ∀ t ∈ ts, Clear mark t.kind) (hfits : ts.IsChain (Fits mark))
    {c' : Cursor} {ts' : List Token} (h' : Lexed c' ts') (hc' : c'.rest = ps.flatMap chars) :
    Aligned mark ts ts' := by
  obtain ⟨values, all, hvalues, hall, hfilled, -⟩ := h.filled hmark hc hclear hfits hc'
  obtain rfl := hall.unique h'
  refine hfilled.aligned fun v hv => hps v ?_
  obtain ⟨c | w, hpiece, hw⟩ := List.mem_filterMap.mp (hvalues.subset hv)
  · cases hw
  · obtain rfl := Option.some.inj hw
    exact hpiece

end Lexer

end Covenant
