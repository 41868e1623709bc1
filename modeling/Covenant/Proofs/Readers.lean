import Covenant.Proofs.Descent

/-!
# What holds of every reader

The grammar is made of a few primitive readers: they look at the current token, pass it, look at the
surroundings or at the place, or fail at a token that was seen. A property that these have and that
sequences keep is a property of every construct, whatever the allowance.

## Main definitions

* `Parser.Closed` : a property of readers that the primitives have and sequences keep.
* `Parser.Everywhere` : a property of every construct of the grammar.

## Main results

* `Parser.Closed.everywhere` : a closed property holds of every construct.
* `Parser.blockItem_behind` : an item of a block or script passes a token.
-/

namespace Covenant

namespace Parser

variable {α β : Type}

/-! ### Closed properties -/

/-- A property of readers that the primitives have and that sequences keep. The tokens that are seen
are good, and only good tokens are reported. -/
structure Closed (Good : Token → Prop) (P : (α : Type) → ParserM α → Prop) : Prop where
  pure {α : Type} (a : α) : P α (pure a)
  bind {α β : Type} {p : ParserM α} {f : α → ParserM β} : P α p → (∀ a, P β (f a)) →
    P β (p >>= f)
  failAt {α : Type} {token : Token} (fault : SyntaxFault) : Good token → P α (failAt token fault)
  current {β : Type} {f : Token → ParserM β} : (∀ t, Good t → P β (f t)) → P β (current >>= f)
  advance {β : Type} {f : Token → ParserM β} : (∀ t, Good t → P β (f t)) → P β (advance >>= f)
  read {β : Type} {f : Context → ParserM β} : (∀ c, P β (f c)) → P β (read >>= f)
  get {β : Type} {f : Cursor → ParserM β} : (∀ s, P β (f s)) → P β (get >>= f)
  within {α : Type} {p : ParserM α} {g : Context → Context} : (∀ c, (g c).file = c.file) →
    P α p → P α (withReader g p)

/-- A property of every construct of the grammar, with this allowance. -/
structure Everywhere (P : (α : Type) → ParserM α → Prop) (n : Nat) : Prop where
  blockItem : P _ (blockItem n)
  expression : P _ (expression n)
  assignment : P _ (assignment n)
  binary (level : Nat) : P _ (binary n level)
  unary : P _ (unary n)
  postfixed : P _ (postfixed n)
  primary : P _ (primary n)
  delimited (close : Symbol) (what : Expected) : P _ (delimited n close what)
  object : P _ (object n)
  block : P _ (block n)
  condition : P _ (condition n)
  conditional : P _ (conditional n)
  loopBody : P _ (loopBody n)

namespace Closed

variable {Good : Token → Prop} {P : (α : Type) → ParserM α → Prop} (h : Closed Good P)

include h

/-! ### Readers of few tokens -/

theorem unexpected (what : Expected) : P α (unexpected what) :=
  h.current fun _ ht => h.failAt _ ht

theorem exhausted : P α exhausted :=
  h.current fun _ ht => h.failAt _ ht

theorem atSymbol (symbol : Symbol) : P _ (atSymbol symbol) :=
  h.current fun _ _ => h.pure _

theorem atKeyword (keyword : Keyword) : P _ (atKeyword keyword) :=
  h.current fun _ _ => h.pure _

theorem atFinish : P _ atFinish :=
  h.current fun _ _ => h.pure _

theorem eat (symbol : Symbol) : P _ (eat symbol) := by
  refine h.bind (h.atSymbol symbol) fun found => ?_
  split
  · exact h.advance fun _ _ => h.pure _
  · exact h.pure _

theorem expect (symbol : Symbol) (what : Expected) : P _ (expect symbol what) := by
  refine h.bind (h.eat symbol) fun passed => ?_
  split
  · exact h.pure _
  · exact h.unexpected what

theorem continuesLine : P _ continuesLine :=
  h.current fun _ _ => h.read fun _ => h.pure _

theorem checkNesting (more : Nat) : P _ (checkNesting more) := by
  refine h.read fun c => ?_
  split
  · exact h.current fun _ ht => h.failAt _ ht
  · exact h.pure _

/-- A check that is made on a condition, and what comes behind it. -/
theorem checkedWhen {b : Bool} {more : Nat} {f : Unit → ParserM β} (hf : P _ (f ())) :
    P _ (if b = true then Parser.checkNesting more >>= f else f ()) := by
  split
  · exact h.bind (h.checkNesting more) fun _ => hf
  · exact hf

theorem objectAhead : P _ objectAhead := by
  refine h.get fun s => ?_
  split <;> exact h.pure _

theorem statementEnd : P _ statementEnd := by
  refine h.bind (h.eat _) fun _ => ?_
  split
  · exact h.pure _
  refine h.bind h.atFinish fun _ => ?_
  split
  · exact h.pure _
  refine h.bind (h.atSymbol _) fun _ => ?_
  split
  · exact h.pure _
  refine h.current fun _ _ => ?_
  split
  · exact h.pure _
  · exact h.unexpected _

theorem deeper {p : ParserM α} (levels : Nat) (hp : P _ p) : P _ (deeper levels p) :=
  h.within (fun _ => rfl) hp

theorem grouping {p : ParserM α} (grouped : Bool) (hp : P _ p) : P _ (grouping grouped p) :=
  h.within (fun _ => rfl) hp

theorem insideLoop {p : ParserM α} (hp : P _ p) : P _ (insideLoop p) :=
  h.within (fun _ => rfl) hp

theorem repeatRounds {round : α → ParserM (α ⊕ β)} (hround : ∀ a, P _ (round a)) (a : α) :
    P _ (repeatRounds a round) := by
  refine h.read fun c => ?_
  generalize c.rounds = n
  induction n generalizing a with
  | zero => exact h.exhausted
  | succ n ih =>
    refine h.bind (hround a) fun r => ?_
    cases r with
    | inl a => exact ih a
    | inr b => exact h.pure b

/-! ### Constructs -/

theorem zero : Everywhere P 0 := by
  constructor <;> intros <;> exact h.exhausted

variable {n : Nat} (hn : Everywhere P n)

include hn

theorem blockItem_succ : P _ (Parser.blockItem (n + 1)) := by
  refine h.current fun token htoken => ?_
  split
  · refine h.advance fun _ _ => h.advance fun nameToken hname => ?_
    split
    · exact h.bind (h.expect _ _) fun _ => h.bind hn.expression fun _ => h.pure _
    · exact h.failAt _ hname
  · refine h.advance fun _ _ => h.read fun _ => ?_
    split
    · exact h.pure _
    · exact h.failAt _ htoken
  · refine h.advance fun _ _ => h.read fun _ => ?_
    split
    · exact h.pure _
    · exact h.failAt _ htoken
  · exact hn.expression

theorem expression_succ : P _ (Parser.expression (n + 1)) :=
  h.bind (h.checkNesting 0) fun _ => h.deeper 1 hn.assignment

theorem assignment_succ : P _ (Parser.assignment (n + 1)) := by
  refine h.current fun start hstart => h.bind (hn.binary 0) fun target =>
    h.bind (h.eat _) fun assigned => ?_
  split
  · split
    · exact h.bind (h.checkNesting _) fun _ => h.bind (h.deeper 1 hn.assignment) fun _ => h.pure _
    · exact h.failAt _ hstart
  · exact h.pure _

theorem binary_succ (level : Nat) : P _ (Parser.binary (n + 1) level) := by
  rw [Parser.binary_succ]
  split
  · exact hn.unary
  refine h.bind (hn.binary (level + 1)) fun first => h.repeatRounds (fun state => ?_) _
  obtain ⟨chained, left⟩ := state
  refine h.bind h.continuesLine fun continued => ?_
  split
  · exact h.pure _
  refine h.current fun token _ => ?_
  split
  · split
    · exact h.bind (h.checkNesting _) fun _ => h.advance fun _ _ =>
        h.bind (h.deeper _ (hn.binary (level + 1))) fun _ => h.pure _
    · exact h.pure _
  · exact h.pure _

theorem unary_succ : P _ (Parser.unary (n + 1)) := by
  refine h.current fun token _ => ?_
  split
  · exact h.advance fun _ _ => h.bind (h.checkNesting _) fun _ =>
      h.bind (h.deeper 1 hn.unary) fun _ => h.pure _
  · exact hn.postfixed

theorem postfixed_succ : P _ (Parser.postfixed (n + 1)) := by
  rw [Parser.postfixed_succ]
  refine h.bind hn.primary fun first => h.repeatRounds (fun state => ?_) _
  obtain ⟨chained, e⟩ := state
  refine h.current fun token htoken => h.checkedWhen ?_
  split
  · refine h.advance fun _ _ => h.advance fun nameToken hname => ?_
    split
    · exact h.pure _
    · exact h.failAt _ hname
  · refine h.bind h.continuesLine fun continued => ?_
    split
    · refine h.advance fun _ _ => ?_
      split
      · exact h.bind (h.deeper _ (hn.delimited _ _)) fun _ => h.pure _
      · exact h.failAt _ htoken
    · exact h.pure _
  · refine h.bind h.continuesLine fun continued => ?_
    split
    · exact h.advance fun _ _ => h.bind (h.deeper _ (h.grouping true hn.expression)) fun _ =>
        h.bind (h.expect _ _) fun _ => h.pure _
    · exact h.pure _
  · exact h.pure _

theorem primary_succ : P _ (Parser.primary (n + 1)) := by
  refine h.current fun token _ => ?_
  generalize token.kind = kind
  cases kind with
  | integer | number | string | word => exact h.advance fun _ _ => h.pure _
  | keyword word =>
    cases word with
    | true_ | false_ | null => exact h.advance fun _ _ => h.pure _
    | if_ => exact hn.conditional
    | while_ =>
      exact h.advance fun _ _ => h.bind hn.condition fun _ => h.bind hn.loopBody fun _ => h.pure _
    | loop => exact h.advance fun _ _ => h.bind hn.loopBody fun _ => h.pure _
    | _ => exact h.unexpected _
  | symbol symbol =>
    cases symbol with
    | openParen =>
      exact h.advance fun _ _ => h.bind (h.grouping true hn.expression) fun _ =>
        h.bind (h.expect _ _) fun _ => h.pure _
    | openBracket => exact h.advance fun _ _ => h.bind (hn.delimited _ _) fun _ => h.pure _
    | openBrace =>
      refine h.bind h.objectAhead fun isObject => ?_
      split
      · exact hn.object
      · exact hn.block
    | _ => exact h.unexpected _
  | finish => exact h.unexpected _

theorem delimited_succ (close : Symbol) (what : Expected) :
    P _ (Parser.delimited (n + 1) close what) := by
  refine h.grouping true (h.repeatRounds (fun items => h.bind (h.eat _) fun closed => ?_) _)
  split
  · exact h.pure _
  refine h.bind hn.expression fun item => h.bind (h.eat _) fun more => ?_
  split
  · exact h.pure _
  · exact h.bind (h.expect _ _) fun _ => h.pure _

theorem object_succ : P _ (Parser.object (n + 1)) := by
  refine h.advance fun _ _ => h.grouping true
    (h.repeatRounds (fun entries => h.bind (h.eat _) fun closed => ?_) _)
  split
  · exact h.pure _
  refine h.advance fun keyToken hkey => ?_
  split <;>
    refine h.bind (by first | exact h.pure _ | exact h.failAt _ hkey) fun key =>
      h.bind (h.expect _ _) fun _ => h.bind hn.expression fun value =>
        h.bind (h.eat _) fun more => ?_
  all_goals
    split
    · exact h.pure _
    · exact h.bind (h.expect _ _) fun _ => h.pure _

theorem block_succ : P _ (Parser.block (n + 1)) := by
  rw [Parser.block_succ]
  refine h.bind (h.expect _ _) fun _ => h.grouping false
    (h.repeatRounds (fun items => h.bind (h.eat _) fun separator => ?_) _)
  split
  · exact h.pure _
  refine h.bind (h.eat _) fun closed => ?_
  split
  · exact h.pure _
  refine h.bind h.atFinish fun finished => ?_
  have hitem : P _ (do
      let item ← Parser.blockItem n
      Parser.statementEnd
      return Sum.inl (item :: items) : ParserM (List Expr ⊕ Expr)) :=
    h.bind hn.blockItem fun _ => h.bind h.statementEnd fun _ => h.pure _
  split
  · exact h.bind (h.unexpected _) fun _ => hitem
  · exact hitem

theorem condition_succ : P _ (Parser.condition (n + 1)) := by
  refine h.bind (h.grouping false hn.expression) fun test => h.bind (h.atSymbol _) fun braced => ?_
  split
  · exact h.pure _
  · exact h.bind (h.unexpected _) fun _ => h.pure _

theorem conditional_succ : P _ (Parser.conditional (n + 1)) := by
  refine h.advance fun _ _ => h.bind hn.condition fun test => h.bind hn.block fun yes =>
    h.bind (h.atKeyword _) fun otherwise => ?_
  split
  · refine h.advance fun _ _ => h.bind (h.atKeyword _) fun chained => ?_
    split
    · exact h.bind hn.conditional fun _ => h.pure _
    refine h.bind (h.atSymbol _) fun braced => ?_
    split
    · exact h.bind hn.block fun _ => h.pure _
    · exact h.unexpected _
  · exact h.pure _

theorem loopBody_succ : P _ (Parser.loopBody (n + 1)) := by
  refine h.bind (h.atSymbol _) fun braced => ?_
  split
  · exact h.insideLoop hn.block
  · exact h.bind (h.unexpected _) fun _ => h.insideLoop hn.block

omit hn

/-- A closed property holds of every construct of the grammar. -/
theorem everywhere (n : Nat) : Everywhere P n := by
  induction n with
  | zero => exact h.zero
  | succ n ih =>
    exact {
      blockItem := h.blockItem_succ ih
      expression := h.expression_succ ih
      assignment := h.assignment_succ ih
      binary := h.binary_succ ih
      unary := h.unary_succ ih
      postfixed := h.postfixed_succ ih
      primary := h.primary_succ ih
      delimited := h.delimited_succ ih
      object := h.object_succ ih
      block := h.block_succ ih
      condition := h.condition_succ ih
      conditional := h.conditional_succ ih
      loopBody := h.loopBody_succ ih }

end Closed

/-! ### Progress -/

/-- An item of a block or script passes a token, whatever the allowance: with a larger one that
suffices it is the same item, and what suffices for passing a token is known. -/
theorem blockItem_behind {tokens : List Token} (hends : Ends tokens) {c : Context} {s s' : Cursor}
    {n : Nat} {e : Expr} (hs : s.tokens <:+ tokens) (hrounds : tokens.length ≤ c.rounds)
    (h : blockItem n c s = .ok (e, s')) : s.Behind 1 s' := by
  have hlimited : Limited tokens tokens.length :=
    ⟨hends, fun _ _ _ hwithin hchain => Nat.le_trans hchain.le_countP
      (Nat.le_trans List.countP_le_length hwithin.length_le)⟩
  let enough := max n (c.reserve tokens.length + 2)
  have hrun : blockItem enough c s = .ok (e, s') := by
    rcases Extends.of_le (fun n => (extended n).blockItem) (Nat.le_max_left n _) c s with
      heq | ⟨e', he', -⟩
    · exact heq.trans h
    · cases h.symm.trans he'
  have hpasses := (hlimited.descends enough).blockItem c s ⟨hs, hrounds, Nat.le_max_right n _⟩
  rw [Passes, hrun] at hpasses
  exact hpasses

end Parser

end Covenant
