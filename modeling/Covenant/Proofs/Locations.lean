import Covenant.Proofs.Positions
import Covenant.Proofs.Readers

/-!
# Where statements and errors are located

A reader of tokens that tile a text always stands at an index of it: where the token before ended.
So a statement is located from the first character of its first token to an index behind it, and an
error at a token or at a place where no token can be read.

## Main definitions

* `Span.location`, `Located` : the location of a stretch, and a location that is one.
* `LaidOut` : statements that are located one behind the other.
* `Parser.Stands`, `Parser.Moves` : the index where reading stands, and going on from it.
* `Parser.Settles` : a reader goes from an index to another or fails at a stretch of the text.

## Main results

* `Parser.settled_everywhere` : every construct is read from an index to another.
* `Parser.readStatements_laidOut` : the statements of a text are laid out in it.
* `parse_located` : the tokens, statements and errors of a text are where they stand in it.
-/

namespace Covenant

/-! ### Locations of stretches -/

/-- The location of a stretch of a text. -/
def Span.location (file : String) (cs : List Char) (s : Span) : Location :=
  .between file (.behind cs s.first) (.behind cs s.last)

/-- A location in a file that is the one of a stretch of its text. -/
def Located (file : String) (cs : List Char) (l : Location) : Prop :=
  ∃ s : Span, s.first ≤ s.last ∧ s.last ≤ cs.length ∧ l = s.location file cs

/-- A statement is located at a stretch, which has a character. -/
structure Statement.Covers (file : String) (cs : List Char) (st : Statement) (s : Span) : Prop where
  proper : s.first < s.last
  within : s.last ≤ cs.length
  location : st.location = some (s.location file cs)

/-- Statements are located at stretches one behind the other, up to an index. -/
structure LaidOut (file : String) (cs : List Char) (i : Nat) (statements : List Statement)
    (spans : List Span) : Prop where
  covers : List.Forall₂ (Statement.Covers file cs) statements spans
  pairwise : spans.Pairwise Span.Before
  upTo : ∀ s ∈ spans, s.last ≤ i

namespace LaidOut

variable {file : String} {cs : List Char} {i i' : Nat} {statements : List Statement}
  {spans : List Span}

theorem nil (file : String) (cs : List Char) (i : Nat) : LaidOut file cs i [] [] :=
  ⟨.nil, .nil, fun _ h => nomatch h⟩

theorem mono (h : LaidOut file cs i statements spans) (hi : i ≤ i') :
    LaidOut file cs i' statements spans :=
  ⟨h.covers, h.pairwise, fun s hs => Nat.le_trans (h.upTo s hs) hi⟩

/-- One more statement, from the index on. -/
theorem snoc (h : LaidOut file cs i statements spans) {st : Statement} {s : Span}
    (hst : st.Covers file cs s) (hfirst : i ≤ s.first) (hlast : s.last ≤ i') :
    LaidOut file cs i' (statements ++ [st]) (spans ++ [s]) where
  covers := List.rel_append h.covers (.cons hst .nil)
  pairwise := by
    refine List.pairwise_append.mpr ⟨h.pairwise, List.pairwise_singleton _ _, ?_⟩
    intro s₁ hs₁ s₂ hs₂
    obtain rfl := List.mem_singleton.mp hs₂
    exact Nat.le_trans (h.upTo s₁ hs₁) hfirst
  upTo := by
    intro s₁ hs₁
    rcases List.mem_append.mp hs₁ with hs₁ | hs₁
    · have hle := h.upTo s₁ hs₁
      have hproper := hst.proper
      omega
    · rwa [List.mem_singleton.mp hs₁]

end LaidOut

theorem Token.Covers.located {cs : List Char} {i : Nat} {t : Token} {s : Span}
    (h : t.Covers cs i s) (file : String) : Located file cs (.between file t.first t.last) :=
  ⟨s, h.ordered, h.within, by rw [Span.location, h.first, h.last]⟩

theorem Tiled.ends {cs : List Char} {i : Nat} {ts : List Token} {spans : List Span}
    (h : Tiled cs i ts spans) : Parser.Ends ts := by
  induction h with
  | @finish i t s _ hkind => exact ⟨[], t, rfl, hkind⟩
  | @cons i t s ts spans _ _ _ ih =>
    obtain ⟨before, finish, rfl, hfinish⟩ := ih
    exact ⟨t :: before, finish, rfl, hfinish⟩

namespace Parser

variable {α β : Type} {cs : List Char} {i i' i'' : Nat} {s s' s'' : Cursor}

/-! ### Places of readers -/

/-- Reading stands at an index: what is ahead tiles the text from there on, and the token before
ended there. -/
structure Stands (cs : List Char) (i : Nat) (s : Cursor) : Prop where
  tiled : ∃ spans, Tiled cs i s.tokens spans
  within : i ≤ cs.length
  lastEnd : s.lastEnd = .behind cs i

theorem Stands.exists_covers (h : Stands cs i s) : ∃ span, s.current.Covers cs i span := by
  obtain ⟨spans, htiled⟩ := h.tiled
  obtain ⟨t, ahead, p⟩ := s
  cases htiled with
  | finish hcovers _ => exact ⟨_, hcovers⟩
  | cons hcovers _ _ => exact ⟨_, hcovers⟩

/-- Reading has gone from an index to another: it is where it was, or at or behind the end of the
token that stood there. -/
structure Moves (cs : List Char) (i : Nat) (s : Cursor) (i' : Nat) (s' : Cursor) : Prop where
  stands : Stands cs i' s'
  behind : s.Behind 0 s'
  passed : s' = s ∧ i' = i ∨
    ∃ span : Span, s.current.Covers cs i span ∧ span.first < span.last ∧ span.last ≤ i'

theorem Moves.refl (h : Stands cs i s) : Moves cs i s i s :=
  ⟨h, .refl s, .inl ⟨rfl, rfl⟩⟩

theorem Moves.le (h : Moves cs i s i' s') : i ≤ i' := by
  rcases h.passed with ⟨-, rfl⟩ | ⟨span, hcovers, -, hlast⟩
  · exact Nat.le_refl _
  · exact Nat.le_trans hcovers.behind (Nat.le_trans hcovers.ordered hlast)

theorem Moves.trans (h : Moves cs i s i' s') (h' : Moves cs i' s' i'' s'') :
    Moves cs i s i'' s'' := by
  refine ⟨h'.stands, h.behind.trans h'.behind, ?_⟩
  rcases h.passed with ⟨rfl, rfl⟩ | ⟨span, hcovers, hproper, hlast⟩
  · exact h'.passed
  · exact .inr ⟨span, hcovers, hproper, Nat.le_trans hlast h'.le⟩

/-- Passing a token goes behind its last character; the end is not passed. -/
theorem Stands.next (h : Stands cs i s) : ∃ i', Moves cs i s i' s.next := by
  obtain ⟨spans, htiled⟩ := h.tiled
  obtain ⟨t, ahead, p⟩ := s
  cases htiled with
  | finish => exact ⟨i, .refl h⟩
  | @cons _ _ span _ spans hcovers hkind hahead =>
    rcases ahead with _ | ⟨u, ahead⟩
    · cases hahead
    · have hstands : Stands cs span.last ⟨u, ahead, t.last⟩ :=
        ⟨⟨spans, hahead⟩, hcovers.within, hcovers.last⟩
      exact ⟨span.last, hstands, Cursor.next_behind _,
        .inr ⟨span, hcovers, hcovers.proper hkind, Nat.le_refl _⟩⟩

/-- From an index, a reader goes to another, where its result is as described; or it fails at a
stretch of the text. -/
def Settles (cs : List Char) (c : Context) (p : ParserM α) (i : Nat) (s : Cursor)
    (Q : α → Nat → Cursor → Prop) : Prop :=
  match p c s with
  | .ok (a, s') => ∃ i', Moves cs i s i' s' ∧ Q a i' s'
  | .error e => Located c.file cs e.location

namespace Settles

variable {c : Context} {p : ParserM α} {Q : α → Nat → Cursor → Prop}
  {R : β → Nat → Cursor → Prop}

theorem pure {a : α} (hs : Stands cs i s) (h : Q a i s) : Settles cs c (pure a) i s Q :=
  ⟨i, .refl hs, h⟩

theorem bind {f : α → ParserM β} (hp : Settles cs c p i s Q)
    (hf : ∀ a i' s', Moves cs i s i' s' → Q a i' s' → Settles cs c (f a) i' s' R) :
    Settles cs c (p >>= f) i s R := by
  rw [Settles] at hp ⊢
  rw [bind_run]
  rcases hrun : p c s with e | ⟨a, s'⟩
  · rw [hrun] at hp
    exact hp
  · rw [hrun] at hp
    obtain ⟨i', hto, ha⟩ := hp
    have hrest := hf a i' s' hto ha
    rw [Settles] at hrest
    change match f a c s' with
      | .ok (b, s'') => ∃ i'', Moves cs i s i'' s'' ∧ R b i'' s''
      | .error e => Located c.file cs e.location
    rcases hrun' : f a c s' with e | ⟨b, s''⟩
    · rw [hrun'] at hrest
      exact hrest
    · rw [hrun'] at hrest
      obtain ⟨i'', hto', hb⟩ := hrest
      exact ⟨i'', hto.trans hto', hb⟩

theorem mono {Q' : α → Nat → Cursor → Prop} (h : Settles cs c p i s Q)
    (hQ : ∀ a i' s', Q a i' s' → Q' a i' s') : Settles cs c p i s Q' := by
  rw [Settles] at h ⊢
  split at h
  · obtain ⟨i', hto, ha⟩ := h
    exact ⟨i', hto, hQ _ _ _ ha⟩
  · exact h

theorem failAt {t : Token} (h : ∃ i span, t.Covers cs i span) (fault : SyntaxFault) :
    Settles cs c (failAt t fault : ParserM α) i s Q := by
  obtain ⟨_, _, hcovers⟩ := h
  exact hcovers.located _

theorem current {f : Token → ParserM β} (h : Settles cs c (f s.current) i s R) :
    Settles cs c (current >>= f) i s R := h

theorem read {f : Context → ParserM β} (h : Settles cs c (f c) i s R) :
    Settles cs c (read >>= f) i s R := h

theorem get {f : Cursor → ParserM β} (h : Settles cs c (f s) i s R) :
    Settles cs c (get >>= f) i s R := h

/-- What every round keeps holds where the rounds end. -/
theorem rounds {round : α → ParserM (α ⊕ β)} {n : Nat} {a : α} {I : α → Nat → Cursor → Prop}
    (hs : Stands cs i s) (ha : I a i s)
    (hround : ∀ a i' s', Moves cs i s i' s' → I a i' s' → Settles cs c (round a) i' s'
      fun r i'' s'' => r.elim (I · i'' s'') (R · i'' s'')) :
    Settles cs c (rounds round n a) i s R := by
  induction n generalizing a i s with
  | zero => exact .current (.failAt ⟨i, hs.exists_covers⟩ _)
  | succ n ih =>
    refine (hround a i s (.refl hs) ha).bind fun r i₁ s₁ h₁ hr => ?_
    cases r with
    | inl a₁ => exact ih h₁.stands hr fun a i' s' hto => hround a i' s' (h₁.trans hto)
    | inr b => exact .pure h₁.stands hr

theorem repeatRounds {round : α → ParserM (α ⊕ β)} {a : α} {I : α → Nat → Cursor → Prop}
    (hs : Stands cs i s) (ha : I a i s)
    (hround : ∀ a i' s', Moves cs i s i' s' → I a i' s' → Settles cs c (round a) i' s'
      fun r i'' s'' => r.elim (I · i'' s'') (R · i'' s'')) :
    Settles cs c (repeatRounds a round) i s R :=
  .read (.rounds hs ha hround)

end Settles

/-- Wherever it stands, a reader goes on to an index or fails at a stretch of the text. -/
def Settled (cs : List Char) (α : Type) (p : ParserM α) : Prop :=
  ∀ c i s, Stands cs i s → Settles cs c p i s fun _ _ _ => True

/-- Tokens of the text are seen and reported, and passing one goes behind it. -/
theorem Settled.closed (cs : List Char) :
    Closed (fun t => ∃ i span, t.Covers cs i span) (Settled cs) where
  pure _ _ _ _ hs := .pure hs trivial
  bind hp hf c i s hs := (hp c i s hs).bind fun a i' s' hto _ => hf a c i' s' hto.stands
  failAt fault hgood _ _ _ _ := .failAt hgood fault
  current hf c i s hs := .current (hf s.current ⟨i, hs.exists_covers⟩ c i s hs)
  advance hf c i s hs := by
    refine Settles.bind (Q := fun t i' s' => t = s.current) ?_ fun t i' s' hto ht => ?_
    · rw [Settles, advance_run]
      obtain ⟨i', hto⟩ := hs.next
      exact ⟨i', hto, rfl⟩
    · exact hf t (ht ▸ ⟨i, hs.exists_covers⟩) c i' s' hto.stands
  read hf c i s hs := .read (hf c c i s hs)
  get hf c i s hs := .get (hf s c i s hs)
  within {_ p g} hfile hp c i s hs := by
    have h := hp (g c) i s hs
    rw [Settles, hfile c] at h
    exact h

/-- Every construct of the grammar is read from an index to another. -/
theorem settled_everywhere (cs : List Char) (n : Nat) : Everywhere (Settled cs) n :=
  (Settled.closed cs).everywhere n

/-! ### Statements -/

/-- A statement begins with the first character of a token and ends behind it. -/
theorem statement_settles {c : Context} (hs : Stands cs i s)
    (hrounds : s.tokens.length ≤ c.rounds) (n : Nat) :
    Settles cs c (statement n) i s fun st i' _ =>
      ∃ span, st.Covers c.file cs span ∧ i ≤ span.first ∧ span.last ≤ i' := by
  have hitem : Settles cs c (blockItem n) i s fun _ i' s' => ∃ span : Span,
      s.current.Covers cs i span ∧ span.first < i' ∧ s'.lastEnd = .behind cs i' := by
    have hsettles := (settled_everywhere cs n).blockItem c i s hs
    rw [Settles] at hsettles ⊢
    rcases hrun : blockItem n c s with e | ⟨e, s'⟩
    · rw [hrun] at hsettles
      exact hsettles
    · rw [hrun] at hsettles
      obtain ⟨i', hto, -⟩ := hsettles
      refine ⟨i', hto, ?_⟩
      -- an item passes a token, so it does not end where it began
      obtain ⟨spans, htiled⟩ := hs.tiled
      have hbehind := (blockItem_behind htiled.ends (List.suffix_refl _) hrounds hrun).2
      rcases hto.passed with ⟨rfl, -⟩ | ⟨span, hcovers, hproper, hlast⟩
      · omega
      · exact ⟨span, hcovers, Nat.lt_of_lt_of_le hproper hlast, hto.stands.lastEnd⟩
  refine .current (hitem.bind fun e i' s' hto ⟨span, hcovers, hproper, hend⟩ => ?_)
  split
  · exact .bind (Q := fun _ _ _ => False) (.failAt ⟨i, hs.exists_covers⟩ _) fun _ _ _ _ h => h.elim
  · refine .read (.get (.pure hto.stands ⟨⟨span.first, i'⟩, ?_, hcovers.behind, Nat.le_refl _⟩))
    refine ⟨hproper, hto.stands.within, ?_⟩
    rw [Span.location, hcovers.first, hend]

/-- One more statement is laid out behind the others. -/
theorem statementRound_settles {c : Context} (hs : Stands cs i s)
    (hrounds : s.tokens.length ≤ c.rounds) (n : Nat) {read : List Statement} {spans : List Span}
    (hread : LaidOut c.file cs i read.reverse spans) :
    Settles cs c (statementRound n read) i s fun r i' _ =>
      ∃ spans, LaidOut c.file cs i' (r.elim List.reverse id) spans := by
  have hclosed := Settled.closed cs
  refine (hclosed.atFinish c i s hs).bind fun finished i₁ s₁ h₁ _ => ?_
  split
  · exact .pure h₁.stands ⟨spans, hread.mono h₁.le⟩
  refine (hclosed.eat .semicolon c i₁ s₁ h₁.stands).bind fun passed i₂ s₂ h₂ _ => ?_
  replace h₂ := h₁.trans h₂
  split
  · exact .pure h₂.stands ⟨spans, hread.mono h₂.le⟩
  have hlength : s₂.tokens.length ≤ c.rounds := Nat.le_trans h₂.behind.1.length_le hrounds
  refine (statement_settles h₂.stands hlength n).bind fun st i₃ s₃ h₃ hst => ?_
  obtain ⟨span, hcovers, hfirst, hlast⟩ := hst
  refine (hclosed.statementEnd c i₃ s₃ h₃.stands).bind fun _ i₄ s₄ h₄ _ => ?_
  refine .pure h₄.stands ⟨spans ++ [span], ?_⟩
  rw [Sum.elim_inl, List.reverse_cons]
  exact (hread.mono h₂.le).snoc hcovers hfirst (Nat.le_trans hlast h₄.le)

/-- The statements of a text are laid out in it. -/
theorem statements_settle {c : Context} (hs : Stands cs i s)
    (hrounds : s.tokens.length ≤ c.rounds) (n : Nat) :
    Settles cs c (statements n) i s fun sts i' _ => ∃ spans, LaidOut c.file cs i' sts spans := by
  rw [statements_eq]
  refine Settles.repeatRounds hs
    (I := fun read i' _ => ∃ spans, LaidOut c.file cs i' read.reverse spans) ⟨[], .nil _ _ _⟩ ?_
  intro read i' s' hto ⟨spans, hread⟩
  refine (statementRound_settles hto.stands (Nat.le_trans hto.behind.1.length_le hrounds) n
    hread).mono fun r i'' s'' hr => ?_
  cases r with
  | inl read => exact hr
  | inr sts => exact hr

/-- Tokens that tile a text are read as statements that are laid out in it, or the error is at a
stretch of it. -/
theorem readStatements_laidOut {ts : List Token} {spans : List Span} (h : Tiled cs 0 ts spans)
    (allowance : Nat) (file : String) :
    match readStatements allowance file ts with
    | .ok sts => ∃ spans, LaidOut file cs cs.length sts spans
    | .error e => Located file cs e.location := by
  rcases ts with _ | ⟨first, ahead⟩
  · cases h
  have hs : Stands cs 0 ⟨first, ahead, .start⟩ := ⟨⟨spans, h⟩, Nat.zero_le _, rfl⟩
  have hsettles := statements_settle (c := ⟨file, 0, false, false, ahead.length + 2⟩) hs
    (Nat.le_succ _) allowance
  rw [readStatements_cons]
  rw [Settles] at hsettles
  cases hrun : statements allowance ⟨file, 0, false, false, ahead.length + 2⟩
      ⟨first, ahead, .start⟩ with
  | error e =>
    rw [hrun] at hsettles
    exact hsettles
  | ok r =>
    rw [hrun] at hsettles
    obtain ⟨i', hto, spans, hlaid⟩ := hsettles
    exact ⟨spans, hlaid.mono hto.stands.within⟩

end Parser

/-! ### Texts -/

/-- What cannot be read as tokens is at a place of the text. -/
theorem Lexer.located_of_tokenize {name source : String} {e : SyntaxError}
    (h : tokenize name source = .error e) : Located name source.toList e.location := by
  unfold tokenize at h
  split at h
  · cases h
  · rename_i f hf
    cases h
    obtain ⟨k, hk, hposition⟩ := exists_behind_of_tokensFrom (Nat.zero_le _) hf
    exact ⟨⟨k, k⟩, Nat.le_refl _, hk, by rw [Location.point, hposition]; rfl⟩

theorem Lexer.tiled_of_tokenize {name source : String} {ts : List Token}
    (h : tokenize name source = .ok ts) : ∃ spans, Tiled source.toList 0 ts spans := by
  obtain ⟨_, rfl, hlexed⟩ := lexed_of_tokensFrom (tokens_of_tokenize h)
  exact Lexed.tiled (Nat.zero_le source.toList.length) hlexed

/-- Tokens, statements and errors are where they stand in the text. The tokens tile it, and outside
them are white space and comments. The statements are located one behind the other, and an error is
located at a stretch of the text. -/
theorem parse_located (name source : String) :
    (match Lexer.tokenize name source with
    | .ok ts => ∃ spans, Tiled source.toList 0 ts spans ∧
      ∀ k c, source.toList[k]? = some c → (∀ s ∈ spans, k ∉ s) → Text.isBlank c = true ∨
        ∃ s, k ∈ s ∧ IsComment source.toList s ∧ ∀ s' ∈ spans, s.Before s' ∨ s'.Before s
    | .error e => Located name source.toList e.location) ∧
    match parse name source with
    | .ok script => ∃ spans,
      LaidOut name source.toList source.toList.length script.statements spans
    | .error e => Located name source.toList e.location := by
  rcases htokens : Lexer.tokenize name source with e | ts
  · have hlocated := Lexer.located_of_tokenize htokens
    rw [parse, htokens]
    exact ⟨hlocated, hlocated⟩
  · obtain ⟨spans, htiled⟩ := Lexer.tiled_of_tokenize htokens
    refine ⟨⟨spans, htiled, fun k c hc hout => ?_⟩, ?_⟩
    · refine (htiled.blank_or_comment (Nat.zero_le k) hc hout).imp_right ?_
      rintro ⟨s, hk, hcomment, -, hapart⟩
      exact ⟨s, hk, hcomment, hapart⟩
    · have hlaid := Parser.readStatements_laidOut htiled
        (Parser.descentAllowance ts.length) name
      rw [parse, htokens]
      rcases hread : Parser.readStatements (Parser.descentAllowance ts.length) name ts with e | sts
      · rw [hread] at hlaid
        simpa [bind, Except.bind, hread] using hlaid
      · rw [hread] at hlaid
        simpa [bind, Except.bind, hread, pure, Except.pure] using hlaid

/-- The semicolon in the comment ends no statement, and the string ends on another line. -/
example :
    (match parse "text" "a = 1 // one; two\n\"b\nc\"; d" with
    | .ok script => script.statements.map Statement.location
    | .error _ => []) = [some ⟨"text", 1, 1, 1, 6⟩, some ⟨"text", 2, 1, 3, 3⟩,
      some ⟨"text", 3, 5, 3, 6⟩] := by
  decide +kernel

end Covenant
