import Covenant.Proofs.Placeholders
import Mathlib.Data.List.DropRight

/-!
# Where tokens stand

Reading keeps the position of every token as it goes from character to character. Here positions are
related to the text as a whole: each is the place behind so many of its characters, counted in line
feeds and in the characters behind the last of them. The tokens cover stretches of the text one
behind the other, and what stands between them is white space and comments.

## Main definitions

* `Position.behind` : the place behind the first characters of a text.
* `Span` : a stretch of a text.
* `Trivia`, `IsComment` : white space and comments, and one comment.
* `Tiled` : tokens that cover stretches of a text one behind the other.

## Main results

* `Lexer.Lexed.tiled` : the tokens of a text tile it.
* `Tiled.blank_or_comment` : a character outside all tokens is white space or part of a comment.
* `Lexer.exists_behind_of_tokensFrom` : what cannot be read is at a place of the text.
-/

namespace Covenant

/-! ### Places in a text -/

namespace Position

/-- The place behind the first `i` characters of a text: one line more than these have line feeds,
and one column more than characters stand behind the last of them. -/
def behind (cs : List Char) (i : Nat) : Position :=
  ⟨(cs.take i).count '\n' + 1, ((cs.take i).rtakeWhile (· ≠ '\n')).length + 1⟩

theorem foldl_advance (cs : List Char) : cs.foldl advance start =
    ⟨cs.count '\n' + 1, (cs.rtakeWhile (· ≠ '\n')).length + 1⟩ := by
  induction cs using List.reverseRecOn with
  | nil => rfl
  | append_singleton cs c ih =>
    rw [List.foldl_append, ih, List.foldl_cons, List.foldl_nil, advance, List.count_append]
    by_cases hc : c = '\n'
    · simp [hc]
    · simp [hc]

/-- Going from character to character arrives at the places of a text. -/
theorem behind_eq_foldl (cs : List Char) (i : Nat) :
    behind cs i = (cs.take i).foldl advance start :=
  (foldl_advance _).symm

/-- Characters of one line are passed column by column. -/
theorem foldl_advance_line {run : List Char} (h : '\n' ∉ run) (p : Position) :
    run.foldl advance p = p.shift run.length := by
  induction run generalizing p with
  | nil => rfl
  | cons c run ih =>
    rw [List.mem_cons, not_or] at h
    rw [List.foldl_cons, ih h.2, advance, if_neg (Ne.symm h.1)]
    simp [shift, Nat.add_assoc, Nat.add_comm 1]

end Position

/-! ### Stretches of a text -/

/-- A stretch of a text: the characters from an index on, up to another. -/
structure Span where
  first : Nat
  last : Nat

namespace Span

instance : Membership Nat Span := ⟨fun s i => s.first ≤ i ∧ i < s.last⟩

/-- The first stretch ends before the second begins. -/
def Before (s s' : Span) : Prop :=
  s.last ≤ s'.first

end Span

/-- A comment: two slashes and what follows them up to the end of the line, or of the text. -/
def IsComment (cs : List Char) (s : Span) : Prop :=
  ∃ body rest, cs.drop s.first = body ++ rest ∧ s.last = s.first + body.length ∧
    ['/', '/'] <+: body ∧ '\n' ∉ body ∧ ∀ c ∈ rest.head?, c = '\n'

/-- White space and comments in front of a rest. -/
inductive Trivia : List Char → List Char → Prop
  | nil (rest) : Trivia [] rest
  | blank {c gap rest} : Text.isBlank c = true → Trivia gap rest → Trivia (c :: gap) rest
  | comment {body gap rest} : ['/', '/'] <+: body → '\n' ∉ body →
    (∀ c ∈ (gap ++ rest).head?, c = '\n') → Trivia gap rest → Trivia (body ++ gap) rest

/-- Every character of white space and comments is the one or belongs to one of the others. -/
theorem Trivia.blank_or_comment {cs gap rest : List Char} {i : Nat} (h : Trivia gap rest)
    (hcs : cs.drop i = gap ++ rest) {k : Nat} {c : Char} (hi : i ≤ k) (hk : k < i + gap.length)
    (hc : cs[k]? = some c) : Text.isBlank c = true ∨
      ∃ s : Span, k ∈ s ∧ IsComment cs s ∧ i ≤ s.first ∧ s.last ≤ i + gap.length := by
  induction h generalizing i with
  | nil rest => exact absurd hk (Nat.not_lt.mpr hi)
  | @blank d gap rest hblank _ ih =>
    rcases Nat.eq_or_lt_of_le hi with rfl | hlt
    · have hd : cs[i]? = some d := by rw [← List.head?_drop, hcs]; rfl
      obtain rfl := Option.some.inj (hd.symm.trans hc)
      exact .inl hblank
    · have htail : cs.drop (i + 1) = gap ++ rest := by
        rw [← List.tail_drop, hcs]
        rfl
      simp only [List.length_cons] at hk ⊢
      refine (ih htail hlt (by omega)).imp_right ?_
      rintro ⟨s, hs, hcomment, hfirst, hlast⟩
      exact ⟨s, hs, hcomment, by omega, by omega⟩
  | @comment body gap rest hslashes hline hend _ ih =>
    rw [List.append_assoc] at hcs
    rw [List.length_append] at hk ⊢
    rcases Nat.lt_or_ge k (i + body.length) with hlt | hge
    · exact .inr ⟨⟨i, i + body.length⟩, ⟨hi, hlt⟩, ⟨body, gap ++ rest, hcs, rfl, hslashes, hline,
        hend⟩, Nat.le_refl i, by dsimp only; omega⟩
    · have hdrop : cs.drop (i + body.length) = gap ++ rest := by
        rw [← List.drop_drop, hcs, List.drop_left]
      refine (ih hdrop hge (by omega)).imp_right ?_
      rintro ⟨s, hs, hcomment, hfirst, hlast⟩
      exact ⟨s, hs, hcomment, by omega, by omega⟩

/-! ### Tokens that tile a text -/

/-- From an index of a text on, a token covers this stretch, and in front of it stand only white
space and comments. -/
structure Token.Covers (cs : List Char) (i : Nat) (t : Token) (s : Span) : Prop where
  behind : i ≤ s.first
  ordered : s.first ≤ s.last
  within : s.last ≤ cs.length
  first : t.first = Position.behind cs s.first
  last : t.last = Position.behind cs s.last
  trivia : Trivia (cs.extract i s.first) (cs.drop s.first)
  newline : t.newlineBefore = true ↔ '\n' ∈ cs.extract i s.first
  /-- Every token but the end takes a character. -/
  proper : t.kind ≠ .finish → s.first < s.last
  /-- The end is at the end of the text. -/
  finish : t.kind = .finish → s.first = cs.length

/-- From an index of a text on, tokens cover these stretches one behind the other, the last token is
the end of the text, and what is not covered is white space and comments. -/
inductive Tiled (cs : List Char) : Nat → List Token → List Span → Prop
  | finish {i t s} : t.Covers cs i s → t.kind = .finish → Tiled cs i [t] [s]
  | cons {i t s ts spans} : t.Covers cs i s → t.kind ≠ .finish → Tiled cs s.last ts spans →
    Tiled cs i (t :: ts) (s :: spans)

theorem Token.Covers.blank_or_comment {cs : List Char} {i : Nat} {t : Token} {s : Span}
    (h : t.Covers cs i s) {k : Nat} {c : Char} (hi : i ≤ k) (hk : k < s.first)
    (hc : cs[k]? = some c) : Text.isBlank c = true ∨
      ∃ s' : Span, k ∈ s' ∧ IsComment cs s' ∧ i ≤ s'.first ∧ s'.last ≤ s.first := by
  have hfirst : i + (s.first - i) = s.first := Nat.add_sub_cancel' h.behind
  have hsplit : cs.drop i = cs.extract i s.first ++ cs.drop s.first := by
    have hrest := List.drop_drop (l := cs) (i := s.first - i) (j := i)
    rw [hfirst] at hrest
    rw [← hrest]
    exact (List.take_append_drop _ _).symm
  have hlength : i + (cs.extract i s.first).length = s.first := by
    have hwithin := Nat.le_trans h.ordered h.within
    simp only [List.extract_eq_take_drop, List.length_take, List.length_drop]
    omega
  have hall := h.trivia.blank_or_comment hsplit hi (by rwa [hlength]) hc
  rwa [hlength] at hall

namespace Tiled

variable {cs : List Char} {i : Nat} {ts : List Token} {spans : List Span}

theorem le_first (h : Tiled cs i ts spans) : ∀ s ∈ spans, i ≤ s.first := by
  induction h with
  | finish hcovers => simpa using hcovers.behind
  | cons hcovers _ _ ih =>
    refine List.forall_mem_cons.mpr ⟨hcovers.behind, fun s hs => ?_⟩
    exact Nat.le_trans (Nat.le_trans hcovers.behind hcovers.ordered) (ih s hs)

theorem pairwise (h : Tiled cs i ts spans) : spans.Pairwise Span.Before := by
  induction h with
  | finish => exact List.pairwise_singleton _ _
  | cons _ _ htiled ih => exact List.pairwise_cons.mpr ⟨htiled.le_first, ih⟩

theorem covers (h : Tiled cs i ts spans) :
    List.Forall₂ (fun t s => ∃ j, t.Covers cs j s) ts spans := by
  induction h with
  | finish hcovers => exact .cons ⟨_, hcovers⟩ .nil
  | cons hcovers _ _ ih => exact .cons ⟨_, hcovers⟩ ih

/-- A character outside all tokens is white space or belongs to a comment outside all tokens. -/
theorem blank_or_comment (h : Tiled cs i ts spans) {k : Nat} {c : Char} (hi : i ≤ k)
    (hc : cs[k]? = some c) (hout : ∀ s ∈ spans, k ∉ s) : Text.isBlank c = true ∨
      ∃ s, k ∈ s ∧ IsComment cs s ∧ i ≤ s.first ∧ ∀ s' ∈ spans, s.Before s' ∨ s'.Before s := by
  have hlt : k < cs.length := (List.getElem?_eq_some_iff.mp hc).1
  induction h with
  | finish hcovers hkind =>
    refine (hcovers.blank_or_comment hi (hcovers.finish hkind ▸ hlt) hc).imp_right ?_
    rintro ⟨s', hk, hcomment, hfirst, hlast⟩
    exact ⟨s', hk, hcomment, hfirst, by simpa using .inl hlast⟩
  | @cons i t s ts spans hcovers _ htiled ih =>
    have hordered := hcovers.ordered
    rcases Nat.lt_or_ge k s.first with hfront | hge
    · refine (hcovers.blank_or_comment hi hfront hc).imp_right ?_
      rintro ⟨s', hk, hcomment, hfirst, hlast⟩
      refine ⟨s', hk, hcomment, hfirst, fun s'' hs'' => .inl ?_⟩
      rcases List.mem_cons.mp hs'' with rfl | hs''
      · exact hlast
      · exact Nat.le_trans hlast (Nat.le_trans hordered (htiled.le_first s'' hs''))
    · have hbehind : s.last ≤ k :=
        Nat.not_lt.mp fun hlast => hout s List.mem_cons_self ⟨hge, hlast⟩
      refine (ih hbehind fun s' hs' => hout s' (List.mem_cons_of_mem s hs')).imp_right ?_
      rintro ⟨s', hk, hcomment, hfirst, hapart⟩
      refine ⟨s', hk, hcomment, ?_, List.forall_mem_cons.mpr ⟨.inr hfirst, hapart⟩⟩
      exact Nat.le_trans (Nat.le_trans hcovers.behind hordered) hfirst

end Tiled

namespace Lexer

/-! ### From cursor to cursor -/

/-- Between two cursors stand these characters. -/
structure Crosses (c : Cursor) (run : List Char) (c' : Cursor) : Prop where
  rest : c.rest = run ++ c'.rest
  position : c'.position = run.foldl Position.advance c.position

namespace Crosses

variable {c c' c'' : Cursor} {run run' : List Char}

theorem refl (c : Cursor) : Crosses c [] c := ⟨rfl, rfl⟩

theorem append (h : Crosses c run c') (h' : Crosses c' run' c'') :
    Crosses c (run ++ run') c'' where
  rest := by rw [h.rest, h'.rest, List.append_assoc]
  position := by rw [h'.position, h.position, List.foldl_append]

theorem cons {p : Position} {d : Char} {cs : List Char} (h : Crosses ⟨p.advance d, cs⟩ run c') :
    Crosses ⟨p, d :: cs⟩ (d :: run) c' where
  rest := by
    have hrest : cs = run ++ c'.rest := h.rest
    rw [hrest]
    rfl
  position := h.position

end Crosses

/-- So many characters of one line in front of a rest. -/
def Line (cs : List Char) (n : Nat) (rest : List Char) : Prop :=
  ∃ run, cs = run ++ rest ∧ run.length = n ∧ '\n' ∉ run

namespace Line

variable {cs rest rest' : List Char} {n m : Nat}

theorem nil (cs : List Char) : Line cs 0 cs := ⟨[], rfl, rfl, List.not_mem_nil⟩

theorem cons {c : Char} (h : Line cs n rest) (hc : c ≠ '\n') : Line (c :: cs) (n + 1) rest := by
  obtain ⟨run, rfl, rfl, hrun⟩ := h
  exact ⟨c :: run, rfl, rfl, by simpa using ⟨Ne.symm hc, hrun⟩⟩

theorem append (h : Line cs n rest) (h' : Line rest m rest') : Line cs (n + m) rest' := by
  obtain ⟨run, rfl, rfl, hrun⟩ := h
  obtain ⟨run', rfl, rfl, hrun'⟩ := h'
  exact ⟨run ++ run', by simp, by simp, by simpa using ⟨hrun, hrun'⟩⟩

theorem crosses (h : Line cs n rest) (p : Position) :
    ∃ run, Crosses ⟨p, cs⟩ run ⟨p.shift n, rest⟩ ∧ run.length = n := by
  obtain ⟨run, rfl, rfl, hrun⟩ := h
  exact ⟨run, ⟨rfl, (Position.foldl_advance_line hrun p).symm⟩, rfl⟩

end Line

/-! ### Numbers -/

theorem ne_newline_of_isDigit {c : Char} (h : Text.isDigit c = true) : c ≠ '\n' := by
  rintro rfl
  exact absurd h (by decide)

theorem scanDigits_line {cs digits rest : List Char} {taken : Nat}
    (h : scanDigits cs = (digits, taken, rest)) : Line cs taken rest := by
  induction cs generalizing digits taken with
  | nil =>
    cases h
    exact .nil []
  | cons c cs ih =>
    rw [scanDigits] at h
    rcases hscan : scanDigits cs with ⟨digits', taken', rest'⟩
    rw [hscan] at h
    dsimp only at h
    split_ifs at h with hdigit hunderscore
    · cases h
      exact (ih hscan).cons (ne_newline_of_isDigit hdigit)
    · cases h
      rw [Bool.and_eq_true, decide_eq_true_eq] at hunderscore
      exact (ih hscan).cons (by rw [hunderscore.1]; decide)
    · cases h
      exact .nil _

theorem scanDigits_pos {cs digits rest : List Char} {taken : Nat}
    (h : scanDigits cs = (digits, taken, rest)) (hahead : digitAhead cs = true) : 0 < taken := by
  rcases cs with _ | ⟨c, cs⟩
  · cases hahead
  · have hdigit : Text.isDigit c = true := hahead
    rw [scanDigits, if_pos hdigit] at h
    cases h
    exact Nat.succ_pos _

theorem scanFraction_line {cs digits rest : List Char} {taken : Nat}
    (h : scanFraction cs = some (digits, taken, rest)) : Line cs taken rest := by
  unfold scanFraction at h
  split at h
  · split_ifs at h
    cases h
    exact (scanDigits_line rfl).cons (by decide)
  · cases h

theorem scanSigned_line {negative : Bool} {marks taken : Nat} {cs rest : List Char}
    {exponent : Int} (h : scanSigned negative marks cs = some (exponent, taken, rest)) :
    ∃ n, taken = n + marks ∧ Line cs n rest := by
  unfold scanSigned at h
  split_ifs at h
  cases h
  exact ⟨_, rfl, scanDigits_line rfl⟩

theorem scanExponent_line {cs rest : List Char} {taken : Nat} {exponent : Int}
    (h : scanExponent cs = some (exponent, taken, rest)) : Line cs taken rest := by
  unfold scanExponent at h
  split at h
  · rename_i mark tail
    split_ifs at h with hmark
    have hne : mark ≠ '\n' := by
      rintro rfl
      exact absurd hmark (by decide)
    split at h
    all_goals
      obtain ⟨n, rfl, hline⟩ := scanSigned_line h
    · exact (hline.cons (by decide)).cons hne
    · exact (hline.cons (by decide)).cons hne
    · exact hline.cons hne
  · cases h

/-- A token takes at least one character, all of one line; otherwise the fault is at its start. -/
def EndsOnLine (p : Position) (cs : List Char) : Except Failure (Token.Kind × Cursor) → Prop
  | .ok (_, after) => ∃ n, Line cs n after.rest ∧ after.position = p.shift n ∧ 0 < n
  | .error f => f.position = p

theorem Line.ends {literal : Except Failure Token.Kind} {p : Position} {cs rest : List Char}
    {n : Nat} (h : Line cs n rest) (hpos : 0 < n)
    (hliteral : ∀ f, literal = .error f → f.position = p) :
    EndsOnLine p cs (do
      let kind ← literal
      return (kind, ⟨p.shift n, rest⟩)) := by
  cases literal with
  | ok kind => exact ⟨n, h, rfl, hpos⟩
  | error f => exact hliteral f rfl

theorem position_of_numberLiteral {p : Position} {d : Number.Decimal} {f : Failure}
    (h : numberLiteral p d = .error f) : f.position = p := by
  simp only [numberLiteral] at h
  split_ifs at h
  cases h
  rfl

theorem position_of_integerLiteral {p : Position} {digits : List Char} {f : Failure}
    (h : integerLiteral p digits = .error f) : f.position = p := by
  unfold integerLiteral at h
  split at h <;> cases h
  rfl

theorem scanNumber_ends (p : Position) {cs : List Char} (hahead : digitAhead cs = true) :
    EndsOnLine p cs (scanNumber p cs) := by
  rcases hwhole : scanDigits cs with ⟨whole, taken, rest₁⟩
  have hline₁ := scanDigits_line hwhole
  have hpos := scanDigits_pos hwhole hahead
  rcases hfraction : scanFraction rest₁ with _ | ⟨decimals, taken₂, rest₂⟩
  · rcases hexponent : scanExponent rest₁ with _ | ⟨exponent, taken₃, rest₃⟩
    · simp only [scanNumber, hwhole, hfraction, hexponent]
      exact hline₁.ends hpos fun f => position_of_integerLiteral
    · simp only [scanNumber, hwhole, hfraction, hexponent]
      exact (hline₁.append (scanExponent_line hexponent)).ends (Nat.add_pos_left hpos _)
        fun f => position_of_numberLiteral
  · have hline₂ := hline₁.append (scanFraction_line hfraction)
    have hpos₂ := Nat.add_pos_left hpos taken₂
    rcases hexponent : scanExponent rest₂ with _ | ⟨exponent, taken₃, rest₃⟩
    · simp only [scanNumber, hwhole, hfraction, hexponent]
      exact hline₂.ends hpos₂ fun f => position_of_numberLiteral
    · simp only [scanNumber, hwhole, hfraction, hexponent]
      exact (hline₂.append (scanExponent_line hexponent)).ends (Nat.add_pos_left hpos₂ _)
        fun f => position_of_numberLiteral

/-! ### Words and symbols -/

theorem scanWord_ends (p : Position) {c : Char} {cs : List Char} (hc : continuesWord c = true) :
    EndsOnLine p (c :: cs) (.ok (scanWord p (c :: cs))) := by
  have hspan : (c :: cs).span continuesWord =
      (c :: cs.takeWhile continuesWord, cs.dropWhile continuesWord) := by
    simp [List.span_eq_takeWhile_dropWhile, hc]
  rw [scanWord_eq hspan]
  refine ⟨_, ⟨_, ?_, rfl, fun hmem => ?_⟩, rfl, Nat.succ_pos _⟩
  · rw [List.cons_append, List.takeWhile_append_dropWhile]
  · have hword : ∀ d ∈ c :: cs.takeWhile continuesWord, continuesWord d = true :=
      List.forall_mem_cons.mpr ⟨hc, List.all_eq_true.mp List.all_takeWhile⟩
    exact absurd (hword _ hmem) (by decide)

theorem scanSymbol_ends (p : Position) (c : Char) (cs : List Char) :
    EndsOnLine p (c :: cs) (scanSymbol p c cs) := by
  unfold scanSymbol
  split
  · rename_i s hs
    obtain ⟨d, hd, hdouble⟩ := Option.bind_eq_some_iff.mp hs
    obtain ⟨rest, rfl⟩ := List.head?_eq_some_iff.mp hd
    have hne : c ≠ '\n' ∧ d ≠ '\n' := by
      unfold doubleSymbol? at hdouble
      split at hdouble <;> first | decide | cases hdouble
    exact ⟨2, ((Line.nil rest).cons hne.2).cons hne.1, rfl, by decide⟩
  · split
    · rename_i s hs
      have hne : c ≠ '\n' := by
        rintro rfl
        cases hs
      exact ⟨1, (Line.nil cs).cons hne, rfl, by decide⟩
    · rfl

/-! ### Strings -/

/-- What is read ends at a place behind the cursor, and a fault is at such a place or at the given
one. -/
def Reaches (start : Position) (c : Cursor) : Except Failure (Token.Kind × Cursor) → Prop
  | .ok (_, after) => ∃ run, Crosses c run after
  | .error f => f.position = start ∨ ∃ run rest, Crosses c run ⟨f.position, rest⟩

theorem Reaches.cons {start p : Position} {d : Char} {cs : List Char}
    {r : Except Failure (Token.Kind × Cursor)} (h : Reaches start ⟨p.advance d, cs⟩ r) :
    Reaches start ⟨p, d :: cs⟩ r := by
  cases r with
  | ok r =>
    obtain ⟨run, hrun⟩ := h
    exact ⟨d :: run, hrun.cons⟩
  | error f =>
    refine Or.imp_right ?_ h
    rintro ⟨run, rest, hrun⟩
    exact ⟨d :: run, rest, hrun.cons⟩

/-- A string may go on over several lines. Where it is not closed, the fault is at its start. -/
theorem scanString_reaches (start : Position) (mode : StringMode) (p : Position)
    (decoded cs : List Char) : Reaches start ⟨p, cs⟩ (scanString start mode p decoded cs) := by
  have hhere {cs : List Char} {p : Position} (fault : SyntaxFault) :
      Reaches start ⟨p, cs⟩ (.error ⟨p, fault⟩) := .inr ⟨[], cs, .refl _⟩
  fun_induction scanString start mode p decoded cs with
  | case1 => exact .inl rfl
  | case2 | case3 | case4 | case12 => exact hhere _
  | case5 p decoded rest => exact Reaches.cons ⟨[], .refl _⟩
  | case6 _ _ _ _ ih => exact ih.cons
  | case7 _ _ _ _ _ _ ih => exact ih.cons
  | case8 _ _ _ ih => exact ih.cons
  | case9 _ _ _ _ _ _ _ ih => exact ih.cons
  | case10 => exact (hhere _).cons
  | case11 _ _ _ ih => exact ih.cons
  | case13 _ _ _ _ _ _ ih => exact ih.cons
  | case14 => exact (hhere _).cons
  | case15 _ _ _ _ _ _ ih => exact ih.cons

/-! ### Tokens -/

/-- A token that is not the end takes characters; the end is at the end of the text. What cannot be
read is at a place behind the cursor. -/
def Ends (c : Cursor) : Except Failure (Token.Kind × Cursor) → Prop
  | .ok (kind, after) => ∃ run, Crosses c run after ∧
    (kind = .finish → c.rest = []) ∧ (kind ≠ .finish → run ≠ [])
  | .error f => ∃ run rest, Crosses c run ⟨f.position, rest⟩

theorem EndsOnLine.ends {p : Position} {cs : List Char} {r : Except Failure (Token.Kind × Cursor)}
    (h : EndsOnLine p cs r) (hkind : ∀ kind after, r = .ok (kind, after) → kind ≠ .finish) :
    Ends ⟨p, cs⟩ r := by
  cases r with
  | ok r =>
    obtain ⟨kind, after, rest⟩ := r
    obtain ⟨n, hline, hafter, hpos⟩ := h
    obtain ⟨run, hrun, rfl⟩ := hline.crosses p
    have hne : kind ≠ .finish := hkind _ _ rfl
    refine ⟨run, ?_, fun hfinish => absurd hfinish hne, fun _ => List.length_pos_iff.mp hpos⟩
    rwa [← hafter] at hrun
  | error f =>
    obtain rfl : f.position = p := h
    exact ⟨[], cs, .refl _⟩

theorem scanKind_ends (c : Cursor) : Ends c (scanKind c) := by
  obtain ⟨p, _ | ⟨d, cs⟩⟩ := c
  · exact ⟨[], .refl _, fun _ => rfl, fun hne => absurd rfl hne⟩
  unfold scanKind
  dsimp only
  split_ifs with hdigit hword hquote
  · have hahead : digitAhead (d :: cs) = true := hdigit
    refine (scanNumber_ends p hahead).ends fun kind after hscan => ?_
    have hnumeric := (scanNumber_local hahead hscan).1
    rintro rfl
    cases hnumeric
  · have hcontinues : continuesWord d = true := by
      simp only [startsWord, Bool.or_eq_true] at hword
      simp only [continuesWord, Bool.or_eq_true]
      exact .inl hword
    refine (scanWord_ends p hcontinues).ends fun kind after hscan => ?_
    rw [scanWord_eq rfl] at hscan
    cases hscan
    exact wordKind_ne_finish _
  · have hreaches := scanString_reaches p .item (p.advance d) [] cs
    rcases hscan : scanString p .item (p.advance d) [] cs with f | ⟨kind, after⟩
    · rw [hscan] at hreaches
      rcases hreaches with hstart | ⟨run, rest, hrun⟩
      · exact ⟨[], d :: cs, rfl, hstart⟩
      · exact ⟨d :: run, rest, hrun.cons⟩
    · rw [hscan] at hreaches
      obtain ⟨run, hrun⟩ := hreaches
      obtain ⟨text, rfl⟩ := exists_string_of_scanString hscan
      exact ⟨d :: run, hrun.cons, fun hfinish => absurd hfinish (by simp),
        fun _ => List.cons_ne_nil _ _⟩
  · refine (scanSymbol_ends p d cs).ends fun kind after hscan => ?_
    obtain ⟨s, rfl, -⟩ := scanSymbol_cases hscan
    simp

/-! ### White space and comments -/

/-- White space and comments in front of a rest, where a comment may have begun before them. -/
def Skips (inComment : Bool) (gap rest : List Char) : Prop :=
  if inComment then ∃ body gap', gap = body ++ gap' ∧ '\n' ∉ body ∧
    (∀ c ∈ (gap' ++ rest).head?, c = '\n') ∧ Trivia gap' rest
  else Trivia gap rest

theorem skipTrivia_skips (inComment newline : Bool) (p : Position) (cs : List Char) :
    ∃ gap, Crosses ⟨p, cs⟩ gap (skipTrivia inComment newline p cs).2 ∧
      (skipTrivia inComment newline p cs).1 = (newline || decide ('\n' ∈ gap)) ∧
      Skips inComment gap (skipTrivia inComment newline p cs).2.rest := by
  induction cs generalizing inComment newline p with
  | nil =>
    refine ⟨[], .refl _, by simp [skipTrivia], ?_⟩
    cases inComment with
    | false => exact Trivia.nil _
    | true => exact ⟨[], [], rfl, by simp, by simp [skipTrivia], .nil _⟩
  | cons c cs ih =>
    simp only [skipTrivia]
    split_ifs with hline hcomment hblank hslashes
    · obtain ⟨gap, hgap, hnewline, hskips⟩ := ih false true (p.advance c)
      refine ⟨c :: gap, hgap.cons, by rw [hnewline]; simp [hline], ?_⟩
      have htrivia : Trivia (c :: gap) _ := .blank (by rw [hline]; decide) hskips
      cases inComment with
      | false => exact htrivia
      | true => exact ⟨[], c :: gap, rfl, by simp, by simp [hline], htrivia⟩
    · obtain ⟨gap, hgap, hnewline, body, gap', rfl, hbody, hend, htrivia⟩ :=
        ih true newline (p.advance c)
      subst hcomment
      have hne : '\n' ≠ c := Ne.symm hline
      refine ⟨c :: (body ++ gap'), hgap.cons, ?_, c :: body, gap', rfl, ?_, hend, htrivia⟩
      · rw [hnewline]
        simp [hne]
      · simpa using ⟨hne, hbody⟩
    · obtain ⟨gap, hgap, hnewline, hskips⟩ := ih false newline (p.advance c)
      obtain rfl : inComment = false := by simpa using hcomment
      refine ⟨c :: gap, hgap.cons, ?_, .blank hblank hskips⟩
      rw [hnewline]
      simp [Ne.symm hline]
    · obtain ⟨gap, hgap, hnewline, body, gap', rfl, hbody, hend, htrivia⟩ :=
        ih true newline (p.advance c)
      obtain rfl : inComment = false := by simpa using hcomment
      simp only [Bool.and_eq_true, decide_eq_true_eq] at hslashes
      obtain ⟨rfl, hnext⟩ := hslashes
      -- the second slash is not the end of a line, so it belongs to the comment
      obtain ⟨body, rfl⟩ : ∃ body', body = '/' :: body' := by
        have hrest : cs = body ++ gap' ++ _ := hgap.rest
        rw [hrest, List.append_assoc] at hnext
        rcases body with _ | ⟨d, body⟩
        · exact absurd (hend '/' hnext) (by decide)
        · exact ⟨body, by rw [Option.some.inj hnext]⟩
      refine ⟨'/' :: ('/' :: body ++ gap'), hgap.cons, ?_, ?_⟩
      · rw [hnewline]
        simp
      · have hslashed : ['/', '/'] <+: '/' :: '/' :: body := ⟨body, rfl⟩
        exact .comment hslashed (by simpa using hbody) hend htrivia
    · refine ⟨[], .refl _, by simp, ?_⟩
      obtain rfl : inComment = false := by simpa using hcomment
      exact Trivia.nil _

/-! ### Whole texts -/

/-- The cursor at an index of a text. -/
def cursorAt (cs : List Char) (i : Nat) : Cursor :=
  ⟨.behind cs i, cs.drop i⟩

/-- Characters that are crossed from an index of a text on end at another index. -/
theorem Crosses.at {cs run : List Char} {i : Nat} {c : Cursor} (hi : i ≤ cs.length)
    (h : Crosses (cursorAt cs i) run c) : i + run.length ≤ cs.length ∧
      c = cursorAt cs (i + run.length) ∧ cs.extract i (i + run.length) = run := by
  have hrest : cs.drop i = run ++ c.rest := h.rest
  have hlength := congrArg List.length hrest
  rw [List.length_drop, List.length_append] at hlength
  have htake : cs.take (i + run.length) = cs.take i ++ run := by
    rw [List.take_add, hrest, List.take_left]
  refine ⟨by omega, ?_, ?_⟩
  · obtain ⟨p, rest⟩ := c
    have hposition : p = run.foldl Position.advance (Position.behind cs i) := h.position
    simp only at hrest
    rw [cursorAt, Position.behind_eq_foldl, htake, List.foldl_append,
      ← Position.behind_eq_foldl, ← hposition, ← List.drop_drop, hrest, List.drop_left]
  · rw [List.extract_eq_take_drop, Nat.add_sub_cancel_left, hrest, List.take_left]

theorem nextToken_covers {cs : List Char} {i : Nat} (hi : i ≤ cs.length) :
    match nextToken (cursorAt cs i) with
    | .ok (t, c) => ∃ s, t.Covers cs i s ∧ c = cursorAt cs s.last
    | .error f => ∃ k ≤ cs.length, f.position = .behind cs k := by
  obtain ⟨gap, hgap, hnewline, htrivia⟩ :=
    skipTrivia_skips false false (.behind cs i) (cs.drop i)
  rcases hskip : skipTrivia false false (.behind cs i) (cs.drop i) with ⟨newline, at_⟩
  rw [hskip] at hgap hnewline htrivia
  obtain ⟨hwithin, rfl, hextract⟩ := hgap.at hi
  have hends := scanKind_ends (cursorAt cs (i + gap.length))
  rcases hscan : scanKind (cursorAt cs (i + gap.length)) with f | ⟨kind, after⟩
  · have hnext : nextToken (cursorAt cs i) = .error f := by
      rw [nextToken, cursorAt, hskip]
      exact congrArg (· >>= _) hscan
    rw [hscan] at hends
    rw [hnext]
    obtain ⟨run, rest, hrun⟩ := hends
    obtain ⟨hle, hafter, -⟩ := hrun.at hwithin
    exact ⟨_, hle, congrArg Cursor.position hafter⟩
  · rw [hscan] at hends
    rw [nextToken_of_scanKind hskip hscan]
    obtain ⟨run, hrun, hfinish, hproper⟩ := hends
    obtain ⟨hle, rfl, -⟩ := hrun.at hwithin
    refine ⟨⟨i + gap.length, i + gap.length + run.length⟩, ?_, rfl⟩
    exact {
      behind := Nat.le_add_right _ _
      ordered := Nat.le_add_right _ _
      within := hle
      first := rfl
      last := rfl
      trivia := by
        rw [hextract]
        exact htrivia
      newline := by
        simp only at hnewline ⊢
        rw [hextract, hnewline]
        simp
      proper := fun hkind => Nat.lt_add_of_pos_right (List.length_pos_iff.mpr (hproper hkind))
      finish := fun hkind => by
        have hdrop := List.drop_eq_nil_iff.mp (hfinish hkind)
        exact Nat.le_antisymm hwithin hdrop }

theorem tokens_of_tokenize {name source : String} {ts : List Token}
    (h : tokenize name source = .ok ts) : tokens source = .ok ts := by
  unfold tokenize at h
  split at h
  · cases h
    assumption
  · cases h

/-- The tokens of a text tile it. -/
theorem Lexed.tiled {cs : List Char} {i : Nat} (hi : i ≤ cs.length) {ts : List Token}
    (h : Lexed (cursorAt cs i) ts) : ∃ spans, Tiled cs i ts spans := by
  generalize hc : cursorAt cs i = c at h
  induction h generalizing i with
  | @finish c t c₁ hnext hkind =>
    subst hc
    have hcovers := nextToken_covers hi
    rw [hnext] at hcovers
    obtain ⟨s, hs, -⟩ := hcovers
    exact ⟨[s], .finish hs hkind⟩
  | @cons c t c₁ ts hnext hkind _ ih =>
    subst hc
    have hcovers := nextToken_covers hi
    rw [hnext] at hcovers
    obtain ⟨s, hs, rfl⟩ := hcovers
    obtain ⟨spans, hspans⟩ := ih hs.within rfl
    exact ⟨s :: spans, .cons hs hkind hspans⟩

/-- A token is read and, if it is not the end, what stands behind it. -/
theorem tokensFrom_of_nextToken {c c' : Cursor} {t : Token} (h : nextToken c = .ok (t, c'))
    (n : Nat) (read : List Token) : tokensFrom (n + 1) c read =
      if t.kind = .finish then .ok (t :: read).reverse else tokensFrom n c' (t :: read) := by
  rw [tokensFrom, h]
  rfl

/-- What cannot be read is at a place of the text. -/
theorem exists_behind_of_tokensFrom {cs : List Char} {i : Nat} (hi : i ≤ cs.length)
    {allowance : Nat} {read : List Token} {f : Failure}
    (h : tokensFrom allowance (cursorAt cs i) read = .error f) :
    ∃ k ≤ cs.length, f.position = .behind cs k := by
  induction allowance generalizing i read with
  | zero =>
    cases h
    exact ⟨i, hi, rfl⟩
  | succ allowance ih =>
    have hcovers := nextToken_covers hi
    rcases hnext : nextToken (cursorAt cs i) with e | ⟨t, c⟩
    · rw [tokensFrom, hnext] at h
      rw [hnext] at hcovers
      cases h
      exact hcovers
    · rw [tokensFrom_of_nextToken hnext] at h
      rw [hnext] at hcovers
      obtain ⟨s, hs, rfl⟩ := hcovers
      split_ifs at h
      exact ih hs.within h

end Lexer

end Covenant
