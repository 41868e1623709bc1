import Covenant.Proofs.Computation
import Covenant.Proofs.Rounding
import Covenant.Script.Parser

/-!
# The shape of what is read

In a script that was read from a text, a declaration is an item of a block or a statement, never
part of a larger expression, and a jump lies in the body of a loop or in the test of a loop inside
one. Branches and bodies are blocks, the keys of an object differ, and a literal is a scalar that is
not negative and, if it is a double, finite.

The literals come from tokens, so the readers are followed with a property of the tokens ahead.

## Main definitions

* `Expr.payload` : what a declaration binds.
* `Value.IsLiteral` : a value that a token writes.
* `Shaped` : an expression as the grammar builds them.
* `Parser.Yields` : every result of a reader has a property, and the tokens ahead stay sound.

## Main results

* `Lexer.tokensFrom_sound` : tokens write literals.
* `parse_shaped` : every statement of a script that was read is shaped.
-/

namespace Covenant

/-! ### Shapes -/

namespace Expr

/-- What a declaration binds, and any other expression itself. -/
def payload : Expr → Expr
  | declare _ value => value
  | e => e

/-- Whether an expression is a block. -/
def isBlock : Expr → Bool
  | block _ => true
  | _ => false

/-- Whether an expression is a choice. -/
def isCond : Expr → Bool
  | cond _ _ _ => true
  | _ => false

end Expr

/-- A value that a token writes: a scalar, not negative, and finite if it is a double. -/
def Value.IsLiteral : Value → Prop
  | .string _ | .boolean _ | .null => True
  | .integer n => 0 ≤ n.toInt
  | .number x => x.isFinite = true ∧ x.negative = false
  | .object _ | .array _ => False

/-- An expression as the grammar builds them. The flag says whether the expression is inside a loop;
an expression that is a declaration itself has no place. -/
inductive Shaped : Bool → Expr → Prop
  | literal {b value} : value.IsLiteral → Shaped b (.literal value)
  | ref {b name} : Shaped b (.ref name)
  | binary {b left op right} : Shaped b left → Shaped b right → Shaped b (.binary left op right)
  | unary {b op operand} : Shaped b operand → Shaped b (.unary op operand)
  | call {b name args} : (∀ e ∈ args, Shaped b e) → Shaped b (.call name args)
  | block {b items} : (∀ e ∈ items, Shaped b e.payload) → Shaped b (.block items)
  | cond {b test yes no} : Shaped b test → yes.isBlock = true → Shaped b yes →
    (∀ e ∈ no, (e.isBlock || e.isCond) = true) → (∀ e ∈ no, Shaped b e) →
    Shaped b (.cond test yes no)
  | loop {b test body} : (∀ e ∈ test, Shaped b e) → body.isBlock = true → Shaped true body →
    Shaped b (.loop test body)
  | assign {b target value} : Shaped b value → Shaped b (.assign target value)
  | object {b entries} : (entries.map Prod.fst).Nodup → (∀ entry ∈ entries, Shaped b entry.2) →
    Shaped b (.object entries)
  | array {b items} : (∀ e ∈ items, Shaped b e) → Shaped b (.array items)
  | property {b target name} : Shaped b target → Shaped b (.property target name)
  | index {b target position} : Shaped b target → Shaped b position →
    Shaped b (.index target position)
  | jump {j} : Shaped true (.jump j)

theorem Shaped.payload {b : Bool} {e : Expr} (h : Shaped b e) : Shaped b e.payload := by
  cases h <;> constructor <;> assumption

/-! ### Tokens write literals -/

/-- The number that a token writes is a literal. -/
def Token.Kind.Sound : Token.Kind → Prop
  | .integer n => (Value.integer n).IsLiteral
  | .number x => (Value.number x).IsLiteral
  | _ => True

theorem Number.Decimal.toDouble_nonneg (d : Number.Decimal) : d.toDouble.negative = false := by
  have hinfinity : Double.infinityBits < 2 ^ 63 := by decide
  have hratio (n m : Nat) : (Double.ofRatio false n m).negative = false := by
    have hle : roundedBits n m ≤ Double.infinityBits := by
      unfold roundedBits
      split_ifs
      · exact Nat.zero_le _
      · exact Nat.min_le_left _ _
    exact Double.negative_ofParts false (Nat.lt_of_le_of_lt hle hinfinity)
  unfold toDouble
  split_ifs
  · exact Double.negative_ofParts false (by decide)
  · exact Double.negative_ofParts false hinfinity
  · exact hratio _ _
  · exact hratio _ _

namespace Lexer

theorem numberLiteral_sound {p : Position} {d : Number.Decimal} {kind : Token.Kind}
    (h : numberLiteral p d = .ok kind) : kind.Sound := by
  simp only [numberLiteral] at h
  split_ifs at h with hfinite
  cases h
  exact ⟨hfinite, d.toDouble_nonneg⟩

theorem integerLiteral_sound {p : Position} {digits : List Char} {kind : Token.Kind}
    (h : integerLiteral p digits = .ok kind) : kind.Sound := by
  unfold integerLiteral at h
  split at h
  · rename_i n hn
    cases h
    unfold Number.integer? at hn
    split_ifs at hn with hrange
    cases hn
    have hvalue : (Int64.ofInt (Number.ofDigits digits)).toInt = Number.ofDigits digits :=
      Int64.toInt_ofInt_of_le hrange.1 (Int.lt_of_le_of_lt hrange.2 (by decide))
    exact (Int.natCast_nonneg _).trans_eq hvalue.symm
  · cases h

theorem scanNumber_sound {p : Position} {cs : List Char} {kind : Token.Kind} {after : Cursor}
    (h : scanNumber p cs = .ok (kind, after)) : kind.Sound := by
  simp only [scanNumber] at h
  split at h
  · obtain ⟨k, hk, h⟩ := bind_eq_ok_iff.mp h
    cases h
    exact numberLiteral_sound hk
  · split at h
    · obtain ⟨k, hk, h⟩ := bind_eq_ok_iff.mp h
      cases h
      exact numberLiteral_sound hk
    · obtain ⟨k, hk, h⟩ := bind_eq_ok_iff.mp h
      cases h
      exact integerLiteral_sound hk

theorem exists_string_of_scanString {start p : Position} {mode : StringMode}
    {decoded cs : List Char} {kind : Token.Kind} {after : Cursor}
    (h : scanString start mode p decoded cs = .ok (kind, after)) : ∃ text, kind = .string text := by
  fun_induction scanString start mode p decoded cs with
  | case5 =>
    cases h
    exact ⟨_, rfl⟩
  | case6 _ _ _ _ ih => exact ih h
  | case7 _ _ _ _ _ _ ih => exact ih h
  | case8 _ _ _ ih => exact ih h
  | case9 _ _ _ _ _ _ _ ih => exact ih h
  | case11 _ _ _ ih => exact ih h
  | case13 _ _ _ _ _ _ ih => exact ih h
  | case15 _ _ _ _ _ _ ih => exact ih h
  | _ => cases h

/-- A symbol takes one character or two. -/
theorem scanSymbol_cases {p : Position} {c : Char} {rest : List Char} {kind : Token.Kind}
    {after : Cursor} (h : scanSymbol p c rest = .ok (kind, after)) :
    ∃ s, kind = .symbol s ∧
      ((∃ d, rest = d :: after.rest ∧ doubleSymbol? c d = some s) ∨
        rest.head?.bind (doubleSymbol? c) = none ∧ singleSymbol? c = some s ∧
          after.rest = rest) := by
  unfold scanSymbol at h
  split at h
  · rename_i s hs
    cases h
    obtain ⟨d, hd, hdouble⟩ := Option.bind_eq_some_iff.mp hs
    obtain ⟨rest', rfl⟩ := List.head?_eq_some_iff.mp hd
    exact ⟨s, rfl, .inl ⟨d, rfl, hdouble⟩⟩
  · rename_i hnone
    split at h
    · rename_i s hs
      cases h
      exact ⟨s, rfl, .inr ⟨hnone, hs, rfl⟩⟩
    · cases h

theorem nextToken_sound {cursor after : Cursor} {token : Token}
    (h : nextToken cursor = .ok (token, after)) : token.kind.Sound := by
  obtain ⟨⟨kind, rest⟩, hscan, h⟩ := bind_eq_ok_iff.mp h
  cases h
  simp only [scanKind] at hscan
  split at hscan
  · cases hscan
    trivial
  split_ifs at hscan
  · exact scanNumber_sound hscan
  · cases hscan
    dsimp only
    split <;> trivial
  · obtain ⟨text, rfl⟩ := exists_string_of_scanString hscan
    trivial
  · obtain ⟨s, rfl, -⟩ := scanSymbol_cases hscan
    trivial

theorem tokensFrom_sound {allowance : Nat} {cursor : Cursor} {read ts : List Token}
    (hread : ∀ t ∈ read, t.kind.Sound) (h : tokensFrom allowance cursor read = .ok ts) :
    ∀ t ∈ ts, t.kind.Sound := by
  induction allowance generalizing cursor read with
  | zero => cases h
  | succ allowance ih =>
    obtain ⟨⟨token, after⟩, hnext, h⟩ := bind_eq_ok_iff.mp h
    have hall : ∀ t ∈ token :: read, t.kind.Sound :=
      List.forall_mem_cons.mpr ⟨nextToken_sound hnext, hread⟩
    dsimp only at h
    split_ifs at h
    · cases h
      exact fun t ht => hall t (List.mem_reverse.mp ht)
    · exact ih hall h

end Lexer

namespace Parser

variable {α β : Type}

/-! ### Properties of results -/

/-- All tokens from the current one on write literals. -/
def Cursor.Sound (s : Cursor) : Prop :=
  ∀ t ∈ s.current :: s.ahead, t.kind.Sound

/-- In these surroundings, every result of a reader has the property, and the tokens ahead stay
sound. -/
def Yields (c : Context) (p : ParserM α) (P : α → Prop) : Prop :=
  ∀ s a s', s.Sound → p c s = .ok (a, s') → P a ∧ s'.Sound

namespace Yields

variable {c : Context} {p : ParserM α} {P P' : α → Prop} {Q : β → Prop}

theorem mono (h : Yields c p P) (hP : ∀ a, P a → P' a) : Yields c p P' := by
  intro s a s' hs ha
  obtain ⟨hPa, hs'⟩ := h s a s' hs ha
  exact ⟨hP a hPa, hs'⟩

theorem pure {a : α} (h : P a) : Yields c (pure a) P := by
  rintro s _ _ hs ⟨⟩
  exact ⟨h, hs⟩

theorem bind {f : α → ParserM β} (hp : Yields c p P) (hf : ∀ a, P a → Yields c (f a) Q) :
    Yields c (p >>= f) Q := by
  intro s b s' hs h
  obtain ⟨⟨a, s₁⟩, ha, h⟩ := bind_eq_ok_iff.mp h
  obtain ⟨hPa, hs₁⟩ := hp s a s₁ hs ha
  exact hf a hPa s₁ b s' hs₁ h

/-- What comes behind a reader whose result does not matter. -/
theorem behind {f : α → ParserM β} (hp : Yields c p P) (hf : ∀ a, Yields c (f a) Q) :
    Yields c (p >>= f) Q :=
  hp.bind fun a _ => hf a

/-- What comes behind a check that is made on a condition. -/
theorem behindWhen {b : Bool} {p : ParserM Unit} {f : Unit → ParserM β}
    (hp : Yields c p fun _ => True) (hf : Yields c (f ()) Q) :
    Yields c (if b = true then p >>= f else f ()) Q := by
  split
  · exact hp.behind fun _ => hf
  · exact hf

theorem behindUnless {b : Bool} {p : ParserM Unit} {f : Unit → ParserM β}
    (hp : Yields c p fun _ => True) (hf : Yields c (f ()) Q) :
    Yields c (if b = true then f () else p >>= f) Q := by
  split
  · exact hf
  · exact hp.behind fun _ => hf

theorem read {f : Context → ParserM β} (hf : Yields c (f c) Q) : Yields c (read >>= f) Q := hf

theorem get {f : Cursor → ParserM β} (hf : ∀ s, Yields c (f s) Q) : Yields c (get >>= f) Q :=
  fun s b s' hs h => hf s s b s' hs h

theorem failAt (token : Token) (fault : SyntaxFault) : Yields c (failAt token fault) P := by
  intro s a s' _ h
  cases h

theorem current : Yields c current fun token => token.kind.Sound := by
  rintro s _ _ hs ⟨⟩
  exact ⟨hs _ List.mem_cons_self, hs⟩

theorem unexpected (what : Expected) : Yields c (unexpected what) P :=
  current.behind fun _ => failAt _ _

theorem exhausted : Yields c exhausted P :=
  current.behind fun _ => failAt _ _

theorem advance : Yields c advance fun token => token.kind.Sound := by
  intro s a s' hs h
  obtain ⟨current, ahead, lastEnd⟩ := s
  have hcurrent : current.kind.Sound := hs _ List.mem_cons_self
  cases ahead with
  | nil =>
    cases h
    exact ⟨hcurrent, hs⟩
  | cons next ahead =>
    cases h
    exact ⟨hcurrent, fun t ht => hs t (List.mem_cons_of_mem _ ht)⟩

theorem atSymbol (symbol : Symbol) : Yields c (atSymbol symbol) fun _ => True :=
  current.behind fun _ => pure trivial

theorem atKeyword (keyword : Keyword) : Yields c (atKeyword keyword) fun _ => True :=
  current.behind fun _ => pure trivial

theorem atFinish : Yields c atFinish fun _ => True :=
  current.behind fun _ => pure trivial

theorem eat (symbol : Symbol) : Yields c (eat symbol) fun _ => True := by
  refine (atSymbol symbol).behind fun found => ?_
  split
  · exact advance.behind fun _ => pure trivial
  · exact pure trivial

theorem expect (symbol : Symbol) (what : Expected) : Yields c (expect symbol what) fun _ => True :=
  (eat symbol).behind fun _ => behindUnless (unexpected what) (pure trivial)

theorem continuesLine : Yields c continuesLine fun _ => True :=
  current.behind fun _ => read (pure trivial)

theorem checkNesting (more : Nat) : Yields c (checkNesting more) fun _ => True := by
  refine read ?_
  split
  · exact current.behind fun _ => failAt _ _
  · exact pure trivial

theorem objectAhead : Yields c objectAhead fun _ => True := by
  refine get fun s => ?_
  split <;> exact pure trivial

theorem statementEnd : Yields c statementEnd fun _ => True := by
  refine (eat _).behind fun _ => ?_
  split
  · exact pure trivial
  refine atFinish.behind fun _ => ?_
  split
  · exact pure trivial
  refine (atSymbol _).behind fun _ => ?_
  split
  · exact pure trivial
  refine current.behind fun _ => ?_
  split
  · exact pure trivial
  · exact unexpected _

theorem deeper {levels : Nat} (hp : ∀ c' : Context, c'.inLoop = c.inLoop → Yields c' p P) :
    Yields c (deeper levels p) P :=
  hp _ rfl

theorem grouping {grouped : Bool} (hp : ∀ c' : Context, c'.inLoop = c.inLoop → Yields c' p P) :
    Yields c (grouping grouped p) P :=
  hp _ rfl

theorem rounds {I : α → Prop} {round : α → ParserM (α ⊕ β)}
    (hround : ∀ a, I a → Yields c (round a) (Sum.elim I Q)) (n : Nat) :
    ∀ a, I a → Yields c (rounds round n a) Q := by
  induction n with
  | zero => exact fun _ _ => exhausted
  | succ n ih =>
    intro a ha
    refine (hround a ha).bind fun r hr => ?_
    cases r with
    | inl a => exact ih a hr
    | inr b => exact pure hr

/-- What every round keeps holds of the result. -/
theorem repeatRounds (I : α → Prop) {round : α → ParserM (α ⊕ β)} {a : α} (ha : I a)
    (hround : ∀ a, I a → Yields c (round a) (Sum.elim I Q)) :
    Yields c (repeatRounds a round) Q :=
  read (rounds hround _ a ha)

end Yields

/-! ### The grammar -/

/-- With this allowance, all that the grammar reads is shaped. -/
structure ShapedGrammar (n : Nat) : Prop where
  blockItem (c : Context) : Yields c (blockItem n) fun e => Shaped c.inLoop e.payload
  expression (c : Context) : Yields c (expression n) (Shaped c.inLoop)
  assignment (c : Context) : Yields c (assignment n) (Shaped c.inLoop)
  binary (c : Context) (level : Nat) : Yields c (binary n level) (Shaped c.inLoop)
  unary (c : Context) : Yields c (unary n) (Shaped c.inLoop)
  postfixed (c : Context) : Yields c (postfixed n) (Shaped c.inLoop)
  primary (c : Context) : Yields c (primary n) (Shaped c.inLoop)
  delimited (c : Context) (close : Symbol) (what : Expected) :
    Yields c (delimited n close what) fun es => ∀ e ∈ es, Shaped c.inLoop e
  object (c : Context) : Yields c (object n) (Shaped c.inLoop)
  block (c : Context) : Yields c (block n) fun e => e.isBlock = true ∧ Shaped c.inLoop e
  condition (c : Context) : Yields c (condition n) (Shaped c.inLoop)
  conditional (c : Context) : Yields c (conditional n) fun e => e.isCond = true ∧ Shaped c.inLoop e
  loopBody (c : Context) : Yields c (loopBody n) fun e => e.isBlock = true ∧ Shaped true e

namespace ShapedGrammar

theorem zero : ShapedGrammar 0 := by
  constructor <;> intros <;> exact .exhausted

variable {n : Nat}

theorem blockItem_succ (h : ShapedGrammar n) (c : Context) :
    Yields c (Parser.blockItem (n + 1)) fun e => Shaped c.inLoop e.payload := by
  refine .behind .current fun token => ?_
  split
  · refine .behind .advance fun _ => .behind .advance fun nameToken => ?_
    split
    · exact .behind (.expect _ _) fun _ => (h.expression c).bind fun value hvalue => .pure hvalue
    · exact .failAt _ _
  · refine .behind .advance fun _ => .read ?_
    split
    · rename_i hloop
      rw [hloop]
      exact .pure .jump
    · exact .failAt _ _
  · refine .behind .advance fun _ => .read ?_
    split
    · rename_i hloop
      rw [hloop]
      exact .pure .jump
    · exact .failAt _ _
  · exact (h.expression c).mono fun _ he => he.payload

theorem expression_succ (h : ShapedGrammar n) (c : Context) :
    Yields c (Parser.expression (n + 1)) (Shaped c.inLoop) :=
  .behind (.checkNesting _) fun _ => .deeper fun c' hc => hc ▸ h.assignment c'

theorem assignment_succ (h : ShapedGrammar n) (c : Context) :
    Yields c (Parser.assignment (n + 1)) (Shaped c.inLoop) := by
  refine .behind .current fun _ => (h.binary c 0).bind fun target htarget =>
    .behind (.eat _) fun assigned => ?_
  split
  · split
    · exact .behind (.checkNesting _) fun _ => Yields.bind
        (.deeper fun c' hc => hc ▸ h.assignment c') fun value hvalue => .pure (.assign hvalue)
    · exact .failAt _ _
  · exact .pure htarget

theorem binary_succ (h : ShapedGrammar n) (c : Context) (level : Nat) :
    Yields c (Parser.binary (n + 1) level) (Shaped c.inLoop) := by
  rw [Parser.binary]
  split
  · exact h.unary c
  refine (h.binary c (level + 1)).bind fun first hfirst => ?_
  refine .repeatRounds (fun state => Shaped c.inLoop state.2) hfirst fun state hleft => ?_
  refine .behind .continuesLine fun continued => ?_
  split
  · exact .pure hleft
  refine .behind .current fun token => ?_
  split
  · split
    · refine .behind (.checkNesting _) fun _ => .behind .advance fun _ => ?_
      refine Yields.bind (.deeper fun c' hc => hc ▸ h.binary c' (level + 1)) fun right hright => ?_
      exact .pure (Shaped.binary hleft hright)
    · exact .pure hleft
  · exact .pure hleft

theorem unary_succ (h : ShapedGrammar n) (c : Context) :
    Yields c (Parser.unary (n + 1)) (Shaped c.inLoop) := by
  refine .behind .current fun token => ?_
  split
  · exact .behind .advance fun _ => .behind (.checkNesting _) fun _ => Yields.bind
      (.deeper fun c' hc => hc ▸ h.unary c') fun operand hoperand => .pure (.unary hoperand)
  · exact h.postfixed c

theorem postfixed_succ (h : ShapedGrammar n) (c : Context) :
    Yields c (Parser.postfixed (n + 1)) (Shaped c.inLoop) := by
  refine (h.primary c).bind fun first hfirst => ?_
  refine .repeatRounds (fun state => Shaped c.inLoop state.2) hfirst fun state he => ?_
  refine .behind .current fun token => .behindWhen (.checkNesting _) ?_
  split
  · refine .behind .advance fun _ => .behind .advance fun nameToken => ?_
    split
    · exact .pure (Shaped.property he)
    · exact .failAt _ _
  · refine .behind .continuesLine fun continued => ?_
    split
    · refine .behind .advance fun _ => ?_
      split
      · refine Yields.bind (.deeper fun c' hc => hc ▸ h.delimited c' _ _) fun args hargs => ?_
        exact .pure (Shaped.call hargs)
      · exact .failAt _ _
    · exact .pure he
  · refine .behind .continuesLine fun continued => ?_
    split
    · refine .behind .advance fun _ => ?_
      refine Yields.bind (.deeper fun c' hc => .grouping fun c'' hc' =>
        hc ▸ hc' ▸ h.expression c'') fun position hposition => .behind (.expect _ _) fun _ => ?_
      exact .pure (Shaped.index he hposition)
    · exact .pure he
  · exact .pure he

theorem primary_succ (h : ShapedGrammar n) (c : Context) :
    Yields c (Parser.primary (n + 1)) (Shaped c.inLoop) := by
  refine Yields.current.bind fun token htoken => ?_
  generalize token.kind = kind at htoken ⊢
  cases kind with
  | integer value => exact .behind .advance fun _ => .pure (.literal htoken)
  | number value => exact .behind .advance fun _ => .pure (.literal htoken)
  | string text => exact .behind .advance fun _ => .pure (.literal trivial)
  | word name => exact .behind .advance fun _ => .pure .ref
  | keyword word =>
    cases word with
    | true_ => exact .behind .advance fun _ => .pure (.literal trivial)
    | false_ => exact .behind .advance fun _ => .pure (.literal trivial)
    | null => exact .behind .advance fun _ => .pure (.literal trivial)
    | if_ => exact (h.conditional c).mono fun _ he => he.2
    | while_ =>
      refine .behind .advance fun _ => (h.condition c).bind fun test htest => ?_
      refine (h.loopBody c).bind fun body hbody => .pure (.loop ?_ hbody.1 hbody.2)
      rintro _ ⟨⟩
      exact htest
    | loop =>
      refine .behind .advance fun _ => (h.loopBody c).bind fun body hbody =>
        .pure (.loop ?_ hbody.1 hbody.2)
      exact fun _ htest => nomatch htest
    | _ => exact .unexpected _
  | symbol symbol =>
    cases symbol with
    | openParen =>
      refine .behind .advance fun _ => ?_
      exact Yields.bind (.grouping fun c' hc => hc ▸ h.expression c') fun inner hinner =>
        .behind (.expect _ _) fun _ => .pure hinner
    | openBracket =>
      exact .behind .advance fun _ =>
        (h.delimited c _ _).bind fun items hitems => .pure (.array hitems)
    | openBrace =>
      refine .behind .objectAhead fun isObject => ?_
      split
      · exact h.object c
      · exact (h.block c).mono fun _ he => he.2
    | _ => exact .unexpected _
  | _ => exact .unexpected _

theorem delimited_succ (h : ShapedGrammar n) (c : Context) (close : Symbol) (what : Expected) :
    Yields c (Parser.delimited (n + 1) close what) fun es => ∀ e ∈ es, Shaped c.inLoop e := by
  refine .grouping fun c' hc => ?_
  rw [← hc]
  refine .repeatRounds (fun items => ∀ e ∈ items, Shaped c'.inLoop e) (fun _ he => nomatch he)
    fun items hitems => .behind (.eat _) fun closed => ?_
  split
  · exact .pure fun e he => hitems e (List.mem_reverse.mp he)
  refine (h.expression c').bind fun item hitem => .behind (.eat _) fun more => ?_
  have hall : ∀ e ∈ item :: items, Shaped c'.inLoop e := by
    simpa using ⟨hitem, hitems⟩
  split
  · exact .pure hall
  · exact .behind (.expect _ _) fun _ => .pure fun e he => hall e (List.mem_reverse.mp he)

/-- The entries that an object has so far, the last one first. -/
def ShapedEntries (b : Bool) (entries : List (String × Expr)) : Prop :=
  (entries.map Prod.fst).Nodup ∧ ∀ entry ∈ entries, Shaped b entry.2

theorem ShapedEntries.object {b : Bool} {entries : List (String × Expr)}
    (h : ShapedEntries b entries) : Shaped b (.object entries.reverse) := by
  refine .object ?_ fun entry hentry => h.2 entry (List.mem_reverse.mp hentry)
  rw [List.map_reverse]
  exact List.nodup_reverse.mpr h.1

/-- Another entry takes the place of the one with its key. -/
theorem ShapedEntries.add {b : Bool} {entries : List (String × Expr)} {key : String} {value : Expr}
    (h : ShapedEntries b entries) (hvalue : Shaped b value) :
    ShapedEntries b ((key, value) :: entries.filter fun entry => entry.1 ≠ key) := by
  constructor
  · rw [List.map_cons]
    refine List.nodup_cons.mpr ⟨?_, ?_⟩
    · simp
    · exact h.1.sublist (List.filter_sublist.map _)
  · simp only [List.mem_cons, List.mem_filter]
    rintro entry (rfl | ⟨hentry, -⟩)
    · exact hvalue
    · exact h.2 entry hentry

theorem object_succ (h : ShapedGrammar n) (c : Context) :
    Yields c (Parser.object (n + 1)) (Shaped c.inLoop) := by
  refine .behind .advance fun _ => .grouping fun c' hc => ?_
  rw [← hc]
  have hnone : ShapedEntries c'.inLoop [] := ⟨List.nodup_nil, fun _ he => nomatch he⟩
  refine .repeatRounds (ShapedEntries c'.inLoop) hnone fun entries hentries =>
    .behind (.eat _) fun closed => ?_
  split
  · exact .pure hentries.object
  refine .behind .advance fun keyToken => ?_
  split <;>
    refine Yields.behind (P := fun _ => True) (by first | exact .pure trivial | exact .failAt _ _)
      fun key => .behind (.expect _ _) fun _ => (h.expression c').bind fun value hvalue =>
        .behind (.eat _) fun more => ?_
  all_goals
    split
    · exact .pure (hentries.add hvalue)
    · exact .behind (.expect _ _) fun _ => .pure (hentries.add hvalue).object

theorem block_succ (h : ShapedGrammar n) (c : Context) :
    Yields c (Parser.block (n + 1)) fun e => e.isBlock = true ∧ Shaped c.inLoop e := by
  refine .behind (.expect _ _) fun _ => .grouping fun c' hc => ?_
  rw [← hc]
  refine .repeatRounds (fun items => ∀ e ∈ items, Shaped c'.inLoop e.payload)
    (fun _ he => nomatch he) fun items hitems => .behind (.eat _) fun separator => ?_
  split
  · exact .pure hitems
  refine .behind (.eat _) fun closed => ?_
  split
  · exact .pure ⟨rfl, Shaped.block fun e he => hitems e (List.mem_reverse.mp he)⟩
  refine .behind .atFinish fun finished => .behindWhen (.unexpected _) ?_
  refine (h.blockItem c').bind fun item hitem => .behind .statementEnd fun _ => ?_
  have hall : ∀ e ∈ item :: items, Shaped c'.inLoop e.payload := by
    simpa using ⟨hitem, hitems⟩
  exact .pure hall

theorem condition_succ (h : ShapedGrammar n) (c : Context) :
    Yields c (Parser.condition (n + 1)) (Shaped c.inLoop) :=
  Yields.bind (.grouping fun c' hc => hc ▸ h.expression c') fun _ htest =>
    .behind (.atSymbol _) fun _ => .behindUnless (.unexpected _) (.pure htest)

theorem conditional_succ (h : ShapedGrammar n) (c : Context) :
    Yields c (Parser.conditional (n + 1)) fun e => e.isCond = true ∧ Shaped c.inLoop e := by
  refine .behind .advance fun _ => (h.condition c).bind fun test htest => ?_
  refine (h.block c).bind fun yes hyes => .behind (.atKeyword _) fun otherwise => ?_
  split
  · refine .behind .advance fun _ => .behind (.atKeyword _) fun chained => ?_
    split
    · refine (h.conditional c).bind fun no hno =>
        .pure ⟨rfl, .cond htest hyes.1 hyes.2 ?_ ?_⟩
      · rintro _ ⟨⟩
        rw [hno.1, Bool.or_true]
      · rintro _ ⟨⟩
        exact hno.2
    · refine .behind (.atSymbol _) fun braced => ?_
      split
      · refine (h.block c).bind fun no hno => .pure ⟨rfl, .cond htest hyes.1 hyes.2 ?_ ?_⟩
        · rintro _ ⟨⟩
          rw [hno.1, Bool.true_or]
        · rintro _ ⟨⟩
          exact hno.2
      · exact .unexpected _
  · exact .pure ⟨rfl, .cond htest hyes.1 hyes.2 (fun _ hno => nomatch hno)
      fun _ hno => nomatch hno⟩

theorem loopBody_succ (h : ShapedGrammar n) (c : Context) :
    Yields c (Parser.loopBody (n + 1)) fun e => e.isBlock = true ∧ Shaped true e :=
  .behind (.atSymbol _) fun _ => .behindUnless (.unexpected _) (h.block _)

/-- All that the grammar reads is shaped. -/
theorem all (n : Nat) : ShapedGrammar n := by
  induction n with
  | zero => exact zero
  | succ n ih =>
    exact ⟨ih.blockItem_succ, ih.expression_succ, ih.assignment_succ, ih.binary_succ, ih.unary_succ,
      ih.postfixed_succ, ih.primary_succ, ih.delimited_succ, ih.object_succ, ih.block_succ,
      ih.condition_succ, ih.conditional_succ, ih.loopBody_succ⟩

end ShapedGrammar

theorem statement_shaped (allowance : Nat) (c : Context) :
    Yields c (statement allowance) fun s => Shaped c.inLoop s.expression.payload := by
  refine .behind .current fun start =>
    ((ShapedGrammar.all allowance).blockItem c).bind fun e he => ?_
  split
  · exact .behind (P := fun _ => True) (.failAt _ _) fun _ => .read (.get fun _ => .pure he)
  · exact .read (.get fun _ => .pure he)

theorem statements_shaped (allowance : Nat) (c : Context) :
    Yields c (statements allowance) fun ss => ∀ s ∈ ss, Shaped c.inLoop s.expression.payload := by
  refine .repeatRounds (fun ss => ∀ s ∈ ss, Shaped c.inLoop s.expression.payload)
    (fun _ hs => nomatch hs) fun ss hss => .behind .atFinish fun finished => ?_
  split
  · exact .pure fun s hs => hss s (List.mem_reverse.mp hs)
  refine .behind (.eat _) fun separator => ?_
  split
  · exact .pure hss
  refine (statement_shaped allowance c).bind fun s hs => .behind .statementEnd fun _ => ?_
  have hall : ∀ s' ∈ s :: ss, Shaped c.inLoop s'.expression.payload := by
    simpa using ⟨hs, hss⟩
  exact .pure hall

theorem readStatements_shaped {allowance : Nat} {file : String} {tokens : List Token}
    {ss : List Statement} (hsound : ∀ t ∈ tokens, t.kind.Sound)
    (h : readStatements allowance file tokens = .ok ss) :
    ∀ s ∈ ss, Shaped false s.expression.payload := by
  cases tokens with
  | nil =>
    cases h
    exact fun _ hs => nomatch hs
  | cons first ahead =>
    simp only [readStatements] at h
    obtain ⟨r, hr, hss⟩ := bind_eq_ok_iff.mp h
    cases hss
    exact (statements_shaped allowance _ ⟨first, ahead, .start⟩ _ _ hsound hr).1

end Parser

/-- Every statement of a script that was read from a text is shaped, outside all loops. -/
theorem parse_shaped {name source : String} {script : Script}
    (h : parse name source = .ok script) :
    ∀ s ∈ script.statements, Shaped false s.expression.payload := by
  obtain ⟨tokens, htokens, h⟩ := bind_eq_ok_iff.mp h
  obtain ⟨ss, hss, hscript⟩ := bind_eq_ok_iff.mp h
  cases hscript
  rw [Lexer.tokenize] at htokens
  split at htokens
  · rename_i hread
    cases htokens
    exact Parser.readStatements_shaped (Lexer.tokensFrom_sound (List.forall_mem_nil _) hread) hss
  · cases htokens

end Covenant
