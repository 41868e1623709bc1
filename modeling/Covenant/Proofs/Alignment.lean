import Covenant.Proofs.Placeholders
import Covenant.Proofs.Rendering

/-!
# Two readers at aligned places

Of two readers, one goes through a text with marks in it and one through the text in which values
are written out for them. At aligned places both see the same token, or the first sees a mark and
the second the beginning of a value. As long as they ask for tokens that no value begins with, they
go on alike.

Where an operand ends, the second reader may take a value on the same line for an operation or a
part of the operand. There the first reader is stuck: no name follows an operand, so it cannot
succeed, and nothing is said about the second.

## Main definitions

* `Parser.Joint` : what holds of two results that are both there.
* `Parser.Here` : what stands at aligned places.
* `Parser.Tracks` : two readers that meet again at aligned places.

## Main results

* `Aligned.here` : aligned tokens agree, or one is a mark and the other begins a value.
* `Parser.Tracks.bind` : readers that meet, one after the other.
* `Parser.Tracks.rounds` : readers that meet in every round.
-/

namespace Covenant

open Lexer (markKind)

namespace Parser

variable {α β α' β' : Type}

/-! ### Single steps -/

/-- The cursor behind the current token; the last token is never passed. -/
def Cursor.next (s : Cursor) : Cursor :=
  match s.ahead with
  | [] => s
  | t :: ts => ⟨t, ts, s.current.last⟩

theorem advance_run (c : Context) (s : Cursor) : advance c s = .ok (s.current, s.next) := by
  obtain ⟨t, _ | ⟨u, us⟩, p⟩ := s <;> rfl

theorem current_run (c : Context) (s : Cursor) : current c s = .ok (s.current, s) := rfl

theorem eat_run (symbol : Symbol) (c : Context) (s : Cursor) : eat symbol c s =
    if s.current.kind = .symbol symbol then .ok (true, s.next) else .ok (false, s) := by
  by_cases h : s.current.kind = .symbol symbol
  · have hat : atSymbol symbol c s = .ok (true, s) := by
      change Except.ok (decide (s.current.kind = .symbol symbol), s) = _
      rw [decide_eq_true h]
    rw [if_pos h, eat, bind_of_run hat, if_pos rfl, bind_of_run (advance_run c s)]
    rfl
  · rw [if_neg h, eat_of_ne h]

theorem expect_run {symbol : Symbol} {what : Expected} {c : Context} {s s' : Cursor} {u : Unit}
    (h : expect symbol what c s = .ok (u, s')) :
    s.current.kind = .symbol symbol ∧ s' = s.next := by
  obtain ⟨⟨passed, s₁⟩, heat, h⟩ := bind_eq_ok_iff.mp h
  rw [eat_run] at heat
  split at heat
  · rename_i hkind
    cases heat
    cases h
    exact ⟨hkind, rfl⟩
  · cases heat
    cases h

theorem continuesLine_run (c : Context) (s : Cursor) :
    continuesLine c s = .ok (!s.current.newlineBefore || c.grouped, s) := rfl

theorem checkNesting_run {k : Nat} {c : Context} {s s' : Cursor} {u : Unit}
    (h : checkNesting k c s = .ok (u, s')) : s' = s := by
  change (if maxNesting ≤ c.nesting + k then _ else _ : ParserM Unit) c s = _ at h
  split at h
  · cases h
  · cases h
    rfl

/-- What is stuck in every round stays so. -/
theorem rounds_stuck {stuck : Token → Prop} {c : Context} {round : α → ParserM (α ⊕ β)}
    (hround : ∀ a s r s₁, stuck s.current → round a c s = .ok (r, s₁) → stuck s₁.current)
    (n : Nat) {a : α} {s s₁ : Cursor} {b : β} (hs : stuck s.current)
    (h : rounds round n a c s = .ok (b, s₁)) : stuck s₁.current := by
  induction n generalizing a s with
  | zero => cases h
  | succ n ih =>
    obtain ⟨⟨r, s₂⟩, hr, h⟩ := bind_eq_ok_iff.mp h
    have hs₂ := hround a s r s₂ hs hr
    rcases r with a₂ | b₂
    · exact ih hs₂ h
    · cases h
      exact hs₂

/-! ### Two readers side by side -/

/-- If both results are there, they and the places reached are related. -/
def Joint (post : α → Cursor → β → Cursor → Prop) (r : Except SyntaxError (α × Cursor))
    (r' : Except SyntaxError (β × Cursor)) : Prop :=
  ∀ a s b s', r = .ok (a, s) → r' = .ok (b, s') → post a s b s'

namespace Joint

variable {post : α → Cursor → β → Cursor → Prop}

theorem failAt_left (token : Token) (fault : SyntaxFault) (c : Context) (s : Cursor)
    (r' : Except SyntaxError (β × Cursor)) : Joint post (failAt token fault c s) r' := by
  intro a s₁ b s₁' h
  cases h

theorem failAt_right (token : Token) (fault : SyntaxFault) (c' : Context) (s' : Cursor)
    (r : Except SyntaxError (α × Cursor)) : Joint post r (failAt token fault c' s') := by
  intro a s₁ b s₁' _ h
  cases h

theorem exhausted_left {c : Context} (s : Cursor) {r' : Except SyntaxError (β × Cursor)} :
    Joint post (exhausted c s) r' := by
  intro a s₁ b s₁' h
  cases h

theorem exhausted_right {c' : Context} (s' : Cursor) {r : Except SyntaxError (α × Cursor)} :
    Joint post r (exhausted c' s') := by
  intro a s₁ b s₁' _ h
  cases h

theorem ok {a : α} {b : β} {s s' : Cursor} (h : post a s b s') :
    Joint post (.ok (a, s)) (.ok (b, s')) := by
  rintro _ _ _ _ ⟨⟩ ⟨⟩
  exact h

theorem pure {a : α} {b : β} {c c' : Context} {s s' : Cursor} (h : post a s b s') :
    Joint post ((Pure.pure a : ParserM α) c s) ((Pure.pure b : ParserM β) c' s') :=
  ok h

theorem advance {f : Token → ParserM α} {g : Token → ParserM β} {c c' : Context} {s s' : Cursor}
    (h : Joint post (f s.current c s.next) (g s'.current c' s'.next)) :
    Joint post ((advance >>= f) c s) ((advance >>= g) c' s') := by
  rw [bind_of_run (advance_run c s), bind_of_run (advance_run c' s')]
  exact h

theorem checkNesting {k k' : Nat} {f : Unit → ParserM α} {g : Unit → ParserM β} {c c' : Context}
    {s s' : Cursor} (h : Joint post (f () c s) (g () c' s')) :
    Joint post ((checkNesting k >>= f) c s) ((checkNesting k' >>= g) c' s') := by
  intro a s₂ b s₂' ha hb
  obtain ⟨⟨u, s₁⟩, hu, ha⟩ := bind_eq_ok_iff.mp ha
  obtain ⟨⟨u', s₁'⟩, hu', hb⟩ := bind_eq_ok_iff.mp hb
  rw [checkNesting_run hu] at ha
  rw [checkNesting_run hu'] at hb
  exact h a s₂ b s₂' ha hb

/-- A check of the nesting that is made on a condition. -/
theorem checkWhen {b b' : Bool} {k k' : Nat} {f : Unit → ParserM α} {g : Unit → ParserM β}
    {c c' : Context} {s s' : Cursor} (h : Joint post (f () c s) (g () c' s')) :
    Joint post ((if b = true then Parser.checkNesting k >>= f else f ()) c s)
      ((if b' = true then Parser.checkNesting k' >>= g else g ()) c' s') := by
  intro a s₂ a' s₂' ha hb
  refine h a s₂ a' s₂' ?_ ?_
  · split at ha
    · obtain ⟨⟨u, s₁⟩, hu, ha⟩ := bind_eq_ok_iff.mp ha
      rwa [checkNesting_run hu] at ha
    · exact ha
  · split at hb
    · obtain ⟨⟨u, s₁⟩, hu, hb⟩ := bind_eq_ok_iff.mp hb
      rwa [checkNesting_run hu] at hb
    · exact hb

theorem bind {post' : α' → Cursor → β' → Cursor → Prop} {p : ParserM α} {q : ParserM β}
    {f : α → ParserM α'} {g : β → ParserM β'} {c c' : Context} {s s' : Cursor}
    (h : Joint post (p c s) (q c' s'))
    (hf : ∀ a s₁ b s₁', post a s₁ b s₁' → Joint post' (f a c s₁) (g b c' s₁')) :
    Joint post' ((p >>= f) c s) ((q >>= g) c' s') := by
  intro a' s₂ b' s₂' hp hq
  obtain ⟨⟨a, s₁⟩, ha, hp⟩ := bind_eq_ok_iff.mp hp
  obtain ⟨⟨b, s₁'⟩, hb, hq⟩ := bind_eq_ok_iff.mp hq
  exact hf a s₁ b s₁' (h a s₁ b s₁' ha hb) a' s₂ b' s₂' hp hq

end Joint

end Parser

/-! ### Aligned places -/

/-- What a value that is written out begins with, unless it is a double without a literal. -/
def Parser.opensLiteral : Token.Kind → Bool
  | .integer _ | .number _ | .string _ => true
  | .keyword .true_ | .keyword .false_ | .keyword .null => true
  | .symbol .minus | .symbol .openParen | .symbol .openBracket | .symbol .openBrace => true
  | _ => false

theorem Parser.opensValue_of_opensLiteral {kind : Token.Kind} (h : opensLiteral kind = true) :
    opensValue kind = true := by
  cases kind with
  | keyword k => cases k <;> first | rfl | cases h
  | symbol s => cases s <;> first | rfl | cases h
  | _ => first | rfl | cases h

theorem Parser.ne_of_opensLiteral {kind kind' : Token.Kind} (h : opensLiteral kind = true)
    (h' : opensLiteral kind' = false) : kind ≠ kind' := by
  rintro rfl
  rw [h] at h'
  cases h'

namespace Value

namespace Definite

variable {v : Value}

/-- How the tokens of a value begin, and what follows a sign or a string. -/
theorem exists_cons_kinds (h : v.Definite) :
    ∃ k ks, v.kinds = k :: ks ∧ Parser.opensLiteral k = true ∧
      (k = .symbol .minus → ∃ kind, Lexer.isNumeric kind = true ∧ ks = [kind]) ∧
      ∀ text, k = .string text → ks = [] := by
  cases v with
  | string text => exact ⟨_, _, rfl, rfl, (fun hk => by cases hk), fun _ _ => rfl⟩
  | number x =>
    have hfinite : x.isFinite = true := h x rfl
    simp only [kinds, numberKinds, Double.isUndefined_of_isFinite hfinite, hfinite, signKinds,
      Bool.false_eq_true, if_false, if_true]
    split
    · exact ⟨_, _, rfl, rfl, fun _ => ⟨_, rfl, rfl⟩, fun _ hk => by cases hk⟩
    · exact ⟨_, _, rfl, rfl, (fun hk => by cases hk), fun _ _ => rfl⟩
  | integer n =>
    simp only [kinds, integerKinds, signKinds]
    split_ifs
    · exact ⟨_, _, rfl, rfl, (fun hk => by cases hk), fun _ hk => by cases hk⟩
    · exact ⟨_, _, rfl, rfl, fun _ => ⟨_, rfl, rfl⟩, fun _ hk => by cases hk⟩
    · exact ⟨_, _, rfl, rfl, (fun hk => by cases hk), fun _ _ => rfl⟩
  | boolean flag =>
    cases flag <;> exact ⟨_, _, rfl, rfl, (fun hk => by cases hk), fun _ _ => rfl⟩
  | null => exact ⟨_, _, rfl, rfl, (fun hk => by cases hk), fun _ _ => rfl⟩
  | array items => exact ⟨_, _, rfl, rfl, (fun hk => by cases hk), fun _ hk => by cases hk⟩
  | object fields => exact ⟨_, _, rfl, rfl, (fun hk => by cases hk), fun _ hk => by cases hk⟩

/-- Behind the sign of a value stands one number. -/
theorem negative (h : v.Definite) {t : Token} {vs : List Token}
    (hkinds : (t :: vs).map Token.kind = v.kinds) (ht : t.kind = .symbol .minus) :
    ∃ u, vs = [u] ∧ Lexer.isNumeric u.kind = true := by
  obtain ⟨k, ks, hk, -, hminus, -⟩ := h.exists_cons_kinds
  obtain ⟨rfl, hvs⟩ := List.cons.inj (hkinds.trans hk)
  obtain ⟨kind, hnumeric, rfl⟩ := hminus ht
  obtain ⟨u, rfl, rfl⟩ := List.map_eq_singleton_iff.mp hvs
  exact ⟨u, rfl, hnumeric⟩

theorem calleeName?_sourceExpr (h : v.Definite) : Parser.calleeName? v.sourceExpr = none := by
  cases v with
  | number x =>
    have hfinite : x.isFinite = true := h x rfl
    simp only [sourceExpr, Double.isUndefined_of_isFinite hfinite, hfinite, signed,
      Bool.false_eq_true, if_false, if_true]
    split <;> rfl
  | integer n =>
    simp only [sourceExpr, signed]
    split_ifs <;> rfl
  | _ => rfl

end Definite

end Value

namespace Parser

variable {mark : Char} {s s' : Cursor}

/-- What stands at aligned places: the same token, or a mark and the tokens of a value. -/
inductive Here (mark : Char) (s s' : Cursor) : Prop
  | same (kind : s.current.kind = s'.current.kind)
    (line : s.current.newlineBefore = s'.current.newlineBefore)
    (ahead : s.ahead = [] ∧ s'.ahead = [] ∨ Aligned mark s.ahead s'.ahead)
    (rest : Aligned mark s.next.tokens s'.next.tokens)
  | hole {v : Value} {vs : List Token} {next : Token} {ts : List Token}
    (kind : s.current.kind = markKind mark) (opens : opensLiteral s'.current.kind = true)
    (definite : v.Definite) (kinds : (s'.current :: vs).map Token.kind = v.kinds)
    (colon : s.next.current.kind ≠ .symbol .colon)
    (line : s.current.newlineBefore = s'.current.newlineBefore)
    (ahead : s'.ahead = vs ++ next :: ts) (rest : Aligned mark s.next.tokens (next :: ts))

end Parser

theorem Aligned.exists_cons {mark : Char} {ts ts' : List Token} (h : Aligned mark ts ts') :
    ∃ u us u' us', ts = u :: us ∧ ts' = u' :: us' := by
  cases h <;> exact ⟨_, _, _, _, rfl, rfl⟩

theorem Aligned.here {mark : Char} {s s' : Parser.Cursor} (h : Aligned mark s.tokens s'.tokens) :
    Parser.Here mark s s' := by
  obtain ⟨t, ts, p⟩ := s
  obtain ⟨t', ts', p'⟩ := s'
  have hall : Aligned mark (t :: ts) (t' :: ts') := h
  rcases hall with ⟨hkind, hkind', hline⟩ | ⟨hkind, hline, hrest⟩ |
    ⟨hkind, hdefinite, hkinds, hline, hnext, hrest⟩
  · exact .same (hkind.trans hkind'.symm) hline (.inl ⟨rfl, rfl⟩) h
  · obtain ⟨u, us, u', us', rfl, rfl⟩ := hrest.exists_cons
    exact .same hkind hline (.inr hrest) hrest
  · obtain ⟨u, us, u', us', rfl, rfl⟩ := hrest.exists_cons
    refine .hole hkind ?_ hdefinite hkinds (hnext u rfl) hline rfl hrest
    obtain ⟨k, ks, hk, hopens, -⟩ := hdefinite.exists_cons_kinds
    obtain ⟨rfl, -⟩ := List.cons.inj (hkinds.trans hk)
    exact hopens

namespace Parser

variable {mark : Char} {α β α' β' : Type}

/-- Surroundings that differ in nothing that a reader decides by. -/
structure Akin (c c' : Context) : Prop where
  inLoop : c.inLoop = c'.inLoop
  grouped : c.grouped = c'.grouped

/-- A placeholder stands where an operator could, so that reading cannot go on: it is on the line
of the operand before it, or line breaks are ignored. -/
def Stuck (mark : Char) (c : Context) (t : Token) : Prop :=
  t.kind = markKind mark ∧ (t.newlineBefore = false ∨ c.grouped = true)

/-- No token. -/
def never : Token → Prop := fun _ => False

/-- Related results at aligned places, unless the first reader is stuck. -/
def Meets (mark : Char) (stuck : Token → Prop) (R : α → β → Prop) (a : α) (s : Cursor) (b : β)
    (s' : Cursor) : Prop :=
  ¬stuck s.current → R a b ∧ Aligned mark s.tokens s'.tokens

/-- From aligned places, two readers that both succeed meet again. -/
def Tracks (mark : Char) (stuck : Token → Prop) (R : α → β → Prop) (c c' : Context)
    (p : ParserM α) (q : ParserM β) : Prop :=
  ∀ s s', Aligned mark s.tokens s'.tokens → Joint (Meets mark stuck R) (p c s) (q c' s')

namespace Tracks

variable {stuck stuck' : Token → Prop} {R : α → β → Prop} {S : α' → β' → Prop} {c c' : Context}
  {p : ParserM α} {q : ParserM β} {f : α → ParserM α'} {g : β → ParserM β'}

theorem pure {a : α} {b : β} (h : R a b) :
    Tracks mark stuck R c c' (Pure.pure a) (Pure.pure b) :=
  fun _ _ hs => .pure fun _ => ⟨h, hs⟩

/-- Where the first reader may be stuck, what follows must fail or be stuck as well. -/
theorem bind (hp : Tracks mark stuck R c c' p q)
    (hstuck : ∀ a s b s₁, stuck s.current → f a c s = .ok (b, s₁) → stuck' s₁.current)
    (hf : ∀ a b, R a b → Tracks mark stuck' S c c' (f a) (g b)) :
    Tracks mark stuck' S c c' (p >>= f) (q >>= g) := by
  refine fun s s' hs => (hp s s' hs).bind fun a s₁ b s₁' hmeets => ?_
  by_cases h : stuck s₁.current
  · exact fun a' s₂ b' s₂' ha' _ hnot => absurd (hstuck a s₁ a' s₂ h ha') hnot
  · obtain ⟨hab, hs₁⟩ := hmeets h
    exact hf a b hab s₁ s₁' hs₁

theorem seq (hp : Tracks mark never R c c' p q)
    (hf : ∀ a b, R a b → Tracks mark stuck S c c' (f a) (g b)) :
    Tracks mark stuck S c c' (p >>= f) (q >>= g) :=
  hp.bind (fun _ _ _ _ h => h.elim) hf

theorem map {k : α → α'} {l : β → β'} (hp : Tracks mark stuck R c c' p q)
    (hkl : ∀ a b, R a b → S (k a) (l b)) :
    Tracks mark stuck S c c' (p >>= fun a => Pure.pure (k a)) (q >>= fun b => Pure.pure (l b)) := by
  refine hp.bind (fun a s b s₁ hs hb => ?_) fun a b hab => .pure (hkl a b hab)
  cases hb
  exact hs

/-- A reader that never gets stuck. -/
theorem loosen (hp : Tracks mark never R c c' p q) : Tracks mark stuck R c c' p q :=
  fun s s' hs a s₁ b s₁' ha hb _ => hp s s' hs a s₁ b s₁' ha hb id

theorem current {f : Token → ParserM α} {g : Token → ParserM β}
    (h : ∀ t t', Tracks mark stuck R c c' (f t) (g t')) :
    Tracks mark stuck R c c' (current >>= f) (current >>= g) :=
  fun s s' hs => h s.current s'.current s s' hs

theorem exhausted_left : Tracks mark stuck R c c' exhausted q :=
  fun s _ _ => .exhausted_left s

theorem exhausted_right : Tracks mark stuck R c c' p exhausted :=
  fun _ s' _ => .exhausted_right s'

theorem failAt_left (t : Token) (fault : SyntaxFault) :
    Tracks mark stuck R c c' (failAt t fault) q :=
  fun s _ _ => .failAt_left t fault c s _

theorem failAt_right (t : Token) (fault : SyntaxFault) :
    Tracks mark stuck R c c' p (failAt t fault) :=
  fun _ s' _ => .failAt_right t fault c' s' _

theorem unexpected_left (what : Expected) : Tracks mark stuck R c c' (unexpected what) q :=
  fun s _ _ => .failAt_left s.current (.expected what s.current.kind) c s _

theorem read {f : Context → ParserM α} {g : Context → ParserM β}
    (h : Tracks mark stuck R c c' (f c) (g c')) :
    Tracks mark stuck R c c' (MonadReader.read >>= f) (MonadReader.read >>= g) := h

theorem checkNesting (k k' : Nat) :
    Tracks mark never (fun _ _ => True) c c' (checkNesting k) (checkNesting k') := by
  refine read ?_
  by_cases h : maxNesting ≤ c.nesting + k
  · rw [if_pos h]
    intro s s' _ a s₁ b s₁' ha
    cases ha
  by_cases h' : maxNesting ≤ c'.nesting + k'
  · rw [if_pos h']
    intro s s' _ a s₁ b s₁' _ hb
    cases hb
  rw [if_neg h, if_neg h']
  exact pure trivial

theorem deeper {k k' : Nat} (h : Tracks mark stuck R { c with nesting := c.nesting + k }
      { c' with nesting := c'.nesting + k' } p q) :
    Tracks mark stuck R c c' (deeper k p) (deeper k' q) := h

theorem grouping {grouped : Bool} (h : Tracks mark stuck R { c with grouped }
      { c' with grouped } p q) :
    Tracks mark stuck R c c' (grouping grouped p) (grouping grouped q) := h

/-- Both readers see a token that no value begins with, or none does. -/
theorem atKind {kind : Token.Kind} (hkind : opensLiteral kind = false)
    (hmark : markKind mark ≠ kind) :
    Tracks mark never Eq c c' (do return decide ((← Parser.current).kind = kind))
      (do return decide ((← Parser.current).kind = kind)) := by
  intro s s' hs
  refine .ok fun _ => ⟨?_, hs⟩
  rcases hs.here with ⟨hsame, -, -, -⟩ | ⟨hword, hopens, -, -, -, -, -, -⟩
  · rw [hsame]
  · rw [hword, decide_eq_false hmark, decide_eq_false (ne_of_opensLiteral hopens hkind)]

theorem atSymbol {symbol : Symbol} (hsymbol : opensLiteral (.symbol symbol) = false) :
    Tracks mark never Eq c c' (atSymbol symbol) (atSymbol symbol) :=
  atKind hsymbol (by simp [markKind])

theorem atFinish : Tracks mark never Eq c c' atFinish atFinish :=
  atKind rfl (by simp [markKind])

/-- A symbol that no value begins with is passed by both readers or by none. -/
theorem eat {symbol : Symbol} (hsymbol : opensLiteral (.symbol symbol) = false) :
    Tracks mark never Eq c c' (eat symbol) (eat symbol) := by
  intro s s' hs
  rw [eat_run, eat_run]
  rcases hs.here with ⟨hkind, -, -, hnext⟩ | ⟨hkind, hopens, -, -, -, -, -, -⟩
  · rw [hkind]
    split
    · exact .ok fun _ => ⟨rfl, hnext⟩
    · exact .ok fun _ => ⟨rfl, hs⟩
  · rw [hkind, if_neg (by simp [markKind]), if_neg (ne_of_opensLiteral hopens hsymbol)]
    exact .ok fun _ => ⟨rfl, hs⟩

theorem expect {symbol : Symbol} {what : Expected} :
    Tracks mark never (fun _ _ => True) c c' (expect symbol what) (expect symbol what) := by
  intro s s' hs a s₁ b s₁' ha hb _
  obtain ⟨hsymbol, rfl⟩ := expect_run ha
  obtain ⟨-, rfl⟩ := expect_run hb
  rcases hs.here with ⟨-, -, -, hnext⟩ | ⟨hkind, -, -, -, -, -, -, -⟩
  · exact ⟨trivial, hnext⟩
  · rw [hkind] at hsymbol
    cases hsymbol

theorem statementEnd : Tracks mark never (fun _ _ => True) c c' statementEnd statementEnd := by
  refine seq (eat rfl) fun passed _ heq => ?_
  subst heq
  split
  · exact pure trivial
  refine seq atFinish fun finished _ heq => ?_
  subst heq
  split
  · exact pure trivial
  refine seq (atSymbol rfl) fun closed _ heq => ?_
  subst heq
  split
  · exact pure trivial
  intro s s' hs
  have hline : s.current.newlineBefore = s'.current.newlineBefore := by
    rcases hs.here with ⟨-, hline, -, -⟩ | ⟨-, -, -, -, -, hline, -, -⟩ <;> exact hline
  change Joint _ ((if s.current.newlineBefore then _ else _ : ParserM Unit) c s)
    ((if s'.current.newlineBefore then _ else _ : ParserM Unit) c' s')
  rw [hline]
  split
  · exact .pure fun _ => ⟨trivial, hs⟩
  · exact unexpected_left _ s s' hs

/-- What every round keeps, where a round is stuck if the one before it is. -/
theorem rounds {I : α → α' → Prop} {round : α → ParserM (α ⊕ β)} {round' : α' → ParserM (α' ⊕ β')}
    {R : β → β' → Prop}
    (hstuck : ∀ a s r s₁, stuck s.current → round a c s = .ok (r, s₁) → stuck s₁.current)
    (hround : ∀ a a', I a a' → Tracks mark stuck (Sum.LiftRel I R) c c' (round a) (round' a'))
    (n m : Nat) {a : α} {a' : α'} (h : I a a') :
    Tracks mark stuck R c c' (rounds round n a) (rounds round' m a') := by
  induction n generalizing m a a' with
  | zero => exact exhausted_left
  | succ n ih =>
    rcases m with _ | m
    · exact exhausted_right
    refine (hround a a' h).bind (fun r s b s₁ hs hb => ?_) fun r r' hr => ?_
    · rcases r with a₂ | b₂
      · exact rounds_stuck hstuck n hs hb
      · cases hb
        exact hs
    · rcases hr with ⟨hI⟩ | ⟨hR⟩
      · exact ih m hI
      · exact .pure hR

theorem repeatRounds {I : α → α' → Prop} {round : α → ParserM (α ⊕ β)}
    {round' : α' → ParserM (α' ⊕ β')} {R : β → β' → Prop}
    (hstuck : ∀ a s r s₁, stuck s.current → round a c s = .ok (r, s₁) → stuck s₁.current)
    (hround : ∀ a a', I a a' → Tracks mark stuck (Sum.LiftRel I R) c c' (round a) (round' a'))
    {a : α} {a' : α'} (h : I a a') :
    Tracks mark stuck R c c' (repeatRounds a round) (repeatRounds a' round') :=
  rounds hstuck hround c.rounds c'.rounds h

end Tracks

end Parser

end Covenant
