import Covenant.Proofs.Alignment
import Covenant.Proofs.CallShapes

/-!
# The grammar at aligned places

Every part of the grammar reads expressions with the same calls from aligned places, whichever
values are written out for the marks. A mark is read as a name that is not called, and a value as an
expression without calls. The descent of the two readers need not have the same bound.

The induction is on the bound of the first reader. Each part of the grammar is one lemma, which
takes the parts that it uses at the bound below.

## Main definitions

* `Parser.AlignedGrammar` : what every part of the grammar does at aligned places.

## Main results

* `Parser.alignedGrammar` : the grammar does so, however far the first reader may descend.
* `Parser.readStatements_aligned` : aligned tokens are read as statements with the same calls.
-/

namespace Covenant

open Lexer (markKind)

namespace Parser

variable {mark : Char} {α β α' β' : Type}

/-- One more item of a block. -/
def blockRound (n : Nat) : List Expr → ParserM (List Expr ⊕ Expr) :=
  fun items => do
    if ← eat .semicolon then return .inl items
    if ← eat .closeBrace then return .inr (.block items.reverse)
    if ← atFinish then unexpected .blockEnd
    let item ← blockItem n
    statementEnd
    return .inl (item :: items)

theorem block_succ (n : Nat) : block (n + 1) =
    expect .openBrace .openBrace >>= fun _ =>
      grouping false (repeatRounds [] (blockRound n)) := rfl

/-- With this allowance for the first reader and any for the second, the grammar reads expressions
that are alike at aligned places. Where an operand ends, the first reader may be stuck. -/
structure AlignedGrammar (mark : Char) (n : Nat) : Prop where
  blockItem (m : Nat) {c c' : Context} (hc : Akin c c') :
    Tracks mark (Stuck mark c) Alike c c' (blockItem n) (blockItem m)
  expression (m : Nat) {c c' : Context} (hc : Akin c c') :
    Tracks mark (Stuck mark c) Alike c c' (expression n) (expression m)
  assignment (m : Nat) {c c' : Context} (hc : Akin c c') :
    Tracks mark (Stuck mark c) Alike c c' (assignment n) (assignment m)
  binary (m level : Nat) {c c' : Context} (hc : Akin c c') :
    Tracks mark (Stuck mark c) Alike c c' (binary n level) (binary m level)
  unary (m : Nat) {c c' : Context} (hc : Akin c c') :
    Tracks mark (Stuck mark c) Alike c c' (unary n) (unary m)
  postfixed (m : Nat) {c c' : Context} (hc : Akin c c') :
    Tracks mark (Stuck mark c) Alike c c' (postfixed n) (postfixed m)
  -- the operand behind the sign of a negative number stands for a mark without a sign
  operand (m : Nat) {c c' : Context} (hc : Akin c c') (s s' : Cursor)
    (hmark : s.current.kind = markKind mark) (hnumber : Lexer.isNumeric s'.current.kind = true)
    (hrest : Aligned mark s.next.tokens s'.next.tokens) :
    Joint (Meets mark (Stuck mark c) Alike) (Parser.postfixed n c s) (Parser.postfixed m c' s')
  primary (m : Nat) {c c' : Context} (hc : Akin c c') :
    Tracks mark never Alike c c' (primary n) (primary m)
  delimited (m : Nat) {close : Symbol} (hclose : opensLiteral (.symbol close) = false)
    (what : Expected) {c c' : Context} (hc : Akin c c') :
    Tracks mark never (List.Forall₂ Alike) c c' (delimited n close what) (delimited m close what)
  object (m : Nat) {c c' : Context} (hc : Akin c c') {s s' : Cursor}
    (hs : Aligned mark s.next.tokens s'.next.tokens) :
    Joint (Meets mark never Alike) (object n c s) (object m c' s')
  block (m : Nat) {c c' : Context} (hc : Akin c c') :
    Tracks mark never Alike c c' (block n) (block m)
  condition (m : Nat) {c c' : Context} (hc : Akin c c') :
    Tracks mark never Alike c c' (condition n) (condition m)
  conditional (m : Nat) {c c' : Context} (hc : Akin c c') {s s' : Cursor}
    (hs : Aligned mark s.next.tokens s'.next.tokens) :
    Joint (Meets mark never Alike) (conditional n c s) (conditional m c' s')
  loopBody (m : Nat) {c c' : Context} (hc : Akin c c') :
    Tracks mark never Alike c c' (loopBody n) (loopBody m)

namespace AlignedGrammar

variable {n m : Nat} {c c' : Context}

theorem expression_succ (h : AlignedGrammar mark n) (hc : Akin c c') :
    Tracks mark (Stuck mark c) Alike c c' (Parser.expression (n + 1)) (Parser.expression m) := by
  rcases m with _ | m
  · exact .exhausted_right
  · exact .seq (.checkNesting 0 0) fun _ _ _ => .deeper (h.assignment m ⟨hc.inLoop, hc.grouped⟩)

theorem assignment_succ (h : AlignedGrammar mark n) (hc : Akin c c') :
    Tracks mark (Stuck mark c) Alike c c' (Parser.assignment (n + 1)) (Parser.assignment m) := by
  rcases m with _ | m
  · exact .exhausted_right
  refine .current fun start start' => (h.binary m 0 hc).bind (fun target s b s₁ hs hb => ?_)
    fun target target' htarget => .seq (.eat rfl) fun passed _ heq => ?_
  · obtain ⟨⟨passed, s₂⟩, heat, hb⟩ := bind_eq_ok_iff.mp hb
    rw [eat_run, hs.1, if_neg (by simp [markKind])] at heat
    cases heat
    cases hb
    exact hs
  subst heq
  split
  · cases target' with
    | ref name =>
      obtain rfl := htarget.ref name rfl
      refine .seq (.checkNesting 0 0) fun _ _ _ => ?_
      refine .map (.deeper (h.assignment m ⟨hc.inLoop, hc.grouped⟩)) fun value value' hvalue => ?_
      exact .node rfl (.cons hvalue .nil) rfl
    | _ => exact .failAt_right _ _
  · exact .pure htarget

/-- At a placeholder, no operator is read, so a chain of operations stays stuck. -/
theorem binaryRound_stuck {level : Nat} {a : Nat × Expr} {s s₁ : Cursor} {r : (Nat × Expr) ⊕ Expr}
    (hs : Stuck mark c s.current) (hr : binaryRound n level a c s = .ok (r, s₁)) :
    Stuck mark c s₁.current := by
  have hcontinues : (!s.current.newlineBefore || c.grouped) = true := by
    rcases hs.2 with hline | hgrouped
    · simp [hline]
    · simp [hgrouped]
  obtain ⟨chained, left⟩ := a
  rw [binaryRound, bind_of_run (continuesLine_run c s), hcontinues, if_neg (by decide),
    bind_of_run (current_run c s), hs.1] at hr
  cases hr
  exact hs

theorem binaryRound_tracks (h : AlignedGrammar mark n) (hc : Akin c c') {level : Nat}
    {a a' : Nat × Expr} (ha : Alike a.2 a'.2) :
    Tracks mark (Stuck mark c) (Sum.LiftRel (fun a a' => Alike a.2 a'.2) Alike) c c'
      (binaryRound n level a) (binaryRound m level a') := by
  intro s s' hs
  obtain ⟨chained, left⟩ := a
  obtain ⟨chained', left'⟩ := a'
  by_cases hstuck : Stuck mark c s.current
  · exact fun r s₁ _ _ hr _ hnot => absurd (binaryRound_stuck hstuck hr) hnot
  rw [binaryRound, bind_of_run (continuesLine_run c s), binaryRound,
    bind_of_run (continuesLine_run c' s'), ← hc.grouped]
  rcases hs.here with ⟨hkind, hline, -, hnext⟩ | ⟨hkind, -, -, -, -, hline, -, -⟩
  · rw [hline]
    split
    · exact .pure fun _ => ⟨.inr ha, hs⟩
    rw [bind_of_run (current_run c s), bind_of_run (current_run c' s'), hkind]
    rcases binaryOp? s'.current.kind with _ | op
    · exact .pure fun _ => ⟨.inr ha, hs⟩
    dsimp only
    split
    · refine .checkNesting (.advance ?_)
      refine Tracks.map (.deeper (h.binary m (level + 1) ⟨hc.inLoop, hc.grouped⟩))
        (fun right right' hright => ?_) _ _ hnext
      exact .inl (ha.binary hright op)
    · exact .pure fun _ => ⟨.inr ha, hs⟩
  · -- a placeholder on a line of its own ends the chain for both
    have hends : (!s.current.newlineBefore || c.grouped) = false := by
      by_contra hnot
      rw [Bool.not_eq_false, Bool.or_eq_true, Bool.not_eq_true'] at hnot
      exact hstuck ⟨hkind, hnot⟩
    rw [← hline, hends]
    exact .pure fun _ => ⟨.inr ha, hs⟩

theorem binary_succ (h : AlignedGrammar mark n) {level : Nat} (hc : Akin c c') :
    Tracks mark (Stuck mark c) Alike c c' (Parser.binary (n + 1) level)
      (Parser.binary m level) := by
  rcases m with _ | m
  · exact .exhausted_right
  rw [Parser.binary_succ, Parser.binary_succ]
  split
  · exact h.unary m hc
  refine (h.binary m (level + 1) hc).bind (fun first s b s₁ hs hb => ?_)
    fun first first' hfirst => ?_
  · exact rounds_stuck (fun _ _ _ _ => binaryRound_stuck) c.rounds hs hb
  · exact .repeatRounds (fun _ _ _ _ => binaryRound_stuck) (fun _ _ => binaryRound_tracks h hc)
      hfirst

theorem primary_leaf {s s₁ : Cursor} {e e' : Expr} (hleaf : leaf? s.current.kind = some e)
    (h : Parser.primary n c s = .ok (e', s₁)) : e' = e ∧ s₁ = s.next := by
  rcases n with _ | n
  · cases h
  rw [primary_of_leaf? n hleaf, bind_of_run (advance_run c s)] at h
  cases h
  exact ⟨rfl, rfl⟩

/-- At a placeholder, nothing is attached to an operand. -/
theorem postfixRound_mark {a : Nat × Expr} {s s₁ : Cursor} {r : (Nat × Expr) ⊕ Expr}
    (hs : s.current.kind = markKind mark) (hr : postfixRound n a c s = .ok (r, s₁)) :
    r = .inr a.2 ∧ s₁ = s := by
  obtain ⟨chained, e⟩ := a
  rw [postfixRound, bind_of_run (current_run c s), hs] at hr
  cases hr
  exact ⟨rfl, rfl⟩

/-- On a line of its own, the beginning of a value is not attached to an operand. -/
theorem postfixRound_line {a : Nat × Expr} {s s₁ : Cursor} {r : (Nat × Expr) ⊕ Expr}
    (hs : opensLiteral s.current.kind = true)
    (hline : (!s.current.newlineBefore || c.grouped) = false)
    (hr : postfixRound n a c s = .ok (r, s₁)) : r = .inr a.2 ∧ s₁ = s := by
  obtain ⟨chained, e⟩ := a
  rw [postfixRound, bind_of_run (current_run c s)] at hr
  revert hs hr
  generalize s.current.kind = kind
  intro hs hr
  cases kind with
  | symbol symbol =>
    cases symbol with
    | openParen | openBracket =>
      obtain ⟨⟨_, s₂⟩, hchecked, hr⟩ := bind_eq_ok_iff.mp hr
      obtain rfl := checkNesting_run hchecked
      dsimp only at hr
      rw [bind_of_run (continuesLine_run c s₂), hline, if_neg (by decide)] at hr
      cases hr
      exact ⟨rfl, rfl⟩
    | openBrace | minus =>
      cases hr
      exact ⟨rfl, rfl⟩
    | _ => cases hs
  | _ =>
    cases hr
    exact ⟨rfl, rfl⟩

theorem postfixRound_stuck {a : Nat × Expr} {s s₁ : Cursor} {r : (Nat × Expr) ⊕ Expr}
    (hs : Stuck mark c s.current) (hr : postfixRound n a c s = .ok (r, s₁)) :
    Stuck mark c s₁.current := by
  rw [(postfixRound_mark hs.1 hr).2]
  exact hs

theorem unary_run (n : Nat) (c : Context) (s : Cursor) : Parser.unary (n + 1) c s =
    (match unaryOp? s.current.kind with
      | some op => do
        let _ ← advance
        checkNesting 0
        let operand ← deeper 1 (Parser.unary n)
        return Expr.unary op operand
      | none => Parser.postfixed n) c s := rfl

/-- What is read at a minus sign in front of a number. -/
theorem unary_negative {s s₁ : Cursor} {t : Token} {ts : List Token} {e : Expr}
    (hminus : s.current.kind = .symbol .minus) (hahead : s.ahead = t :: ts)
    (ht : Lexer.isNumeric t.kind = true) (h : Parser.unary n c s = .ok (e, s₁)) :
    ∃ k operand, e = .unary .negate operand ∧
      Parser.postfixed k { c with nesting := c.nesting + 1 } ⟨t, ts, s.current.last⟩ =
        .ok (operand, s₁) := by
  rcases n with _ | n
  · cases h
  rw [unary_run, hminus] at h
  change (advance >>= _) c s = _ at h
  rw [bind_of_run (advance_run c s), Cursor.next, hahead] at h
  obtain ⟨⟨_, s₂⟩, hchecked, h⟩ := bind_eq_ok_iff.mp h
  obtain rfl := checkNesting_run hchecked
  obtain ⟨⟨operand, s₃⟩, hoperand, h⟩ := bind_eq_ok_iff.mp h
  cases h
  rcases n with _ | n
  · cases hoperand
  refine ⟨n, operand, rfl, ?_⟩
  change Parser.unary (n + 1) { c with nesting := c.nesting + 1 } ⟨t, ts, s.current.last⟩ = _
    at hoperand
  have hnone : unaryOp? t.kind = none := by
    unfold Lexer.isNumeric at ht
    split at ht <;> first | (rename_i hkind; rw [hkind]; rfl) | cases ht
  rw [unary_run, hnone] at hoperand
  exact hoperand

theorem unary_succ (h : AlignedGrammar mark n) (hc : Akin c c') :
    Tracks mark (Stuck mark c) Alike c c' (Parser.unary (n + 1)) (Parser.unary m) := by
  rcases m with _ | m
  · exact .exhausted_right
  intro s s' hs
  rw [unary_run, unary_run]
  rcases hs.here with ⟨hkind, -, -, hnext⟩ |
    @⟨v, vs, next, ts, hkind, hopens, hdefinite, hkinds, -, -, hahead, hrest⟩
  · rw [hkind]
    rcases unaryOp? s'.current.kind with _ | op
    · exact h.postfixed m hc s s' hs
    · refine .advance (.checkNesting ?_)
      refine Tracks.map (.deeper (h.unary m ⟨hc.inLoop, hc.grouped⟩)) (fun _ _ hoperand => ?_) _ _
        hnext
      exact .node rfl (.cons hoperand .nil) rfl
  · have hword : unaryOp? s.current.kind = none := by rw [hkind]; rfl
    rw [hword]
    by_cases hminus : s'.current.kind = .symbol .minus
    · -- a negative number: its sign is read first, and its digits stand for the mark
      obtain ⟨t, rfl, hnumeric⟩ := hdefinite.negative hkinds hminus
      intro e s₁ e' s₁' he he' hnot
      rw [← unary_run] at he'
      obtain ⟨m', operand, rfl, hoperand⟩ := unary_negative hminus hahead hnumeric he'
      have hdeeper : Akin c { c' with nesting := c'.nesting + 1 } := ⟨hc.inLoop, hc.grouped⟩
      obtain ⟨halike, haligned⟩ := h.operand m' hdeeper s
        ⟨t, next :: ts, s'.current.last⟩ hkind hnumeric hrest e s₁ operand s₁' he hoperand hnot
      exact ⟨halike.behind .negate, haligned⟩
    · have hnone : unaryOp? s'.current.kind = none :=
        unaryOp?_of_opensValue (opensValue_of_opensLiteral hopens) hminus
      rw [hnone]
      exact h.postfixed m hc s s' hs

theorem postfixRound_tracks (h : AlignedGrammar mark n) (hc : Akin c c') {a a' : Nat × Expr}
    (ha : Alike a.2 a'.2) :
    Tracks mark (Stuck mark c) (Sum.LiftRel (fun a a' => Alike a.2 a'.2) Alike) c c'
      (postfixRound n a) (postfixRound m a') := by
  intro s s' hs
  obtain ⟨chained, e⟩ := a
  obtain ⟨chained', e'⟩ := a'
  rcases hs.here with ⟨hkind, hline, -, hnext⟩ | ⟨hkind, hopens, -, -, -, hline, -, -⟩
  · rw [postfixRound, postfixRound, bind_of_run (current_run c s), bind_of_run (current_run c' s'),
      hkind]
    refine .checkWhen ?_
    split
    · refine .advance (.advance ?_)
      rcases hnext.here with ⟨hname, -, -, hrest⟩ | ⟨-, hopens, -, -, -, -, -, -⟩
      · rw [hname]
        generalize s'.next.current.kind = kind
        cases kind with
        | word name => exact .pure fun _ => ⟨.inl (ha.property name), hrest⟩
        | _ => exact .failAt_left _ _ _ _ _
      · generalize s'.next.current.kind = kind at hopens
        cases kind with
        | word name => cases hopens
        | _ => exact .failAt_right _ _ _ _ _
    · dsimp only
      rw [bind_of_run (continuesLine_run c s), bind_of_run (continuesLine_run c' s'), hline,
        hc.grouped]
      split
      · refine .advance ?_
        rcases hcallee : calleeName? e' with _ | name
        · exact .failAt_right _ _ _ _ _
        · rw [ha.callee name hcallee]
          refine Tracks.map (Tracks.loosen (.deeper (h.delimited m rfl _ ⟨hc.inLoop, hc.grouped⟩)))
            (fun args args' hargs => ?_) _ _ hnext
          exact .inl (.call hargs name)
      · exact .pure fun _ => ⟨.inr ha, hs⟩
    · dsimp only
      rw [bind_of_run (continuesLine_run c s), bind_of_run (continuesLine_run c' s'), hline,
        hc.grouped]
      split
      · refine .advance ?_
        have hposition : Tracks mark (Stuck mark { c with grouped := true }) Alike c c'
            (deeper (chained + 1) (grouping true (Parser.expression n)))
            (deeper (chained' + 1) (grouping true (Parser.expression m))) :=
          .deeper (.grouping (h.expression m ⟨hc.inLoop, rfl⟩))
        refine hposition.bind (fun _ s b s₁ hstuck hb => ?_) (fun position position' halike => ?_)
          _ _ hnext
        · obtain ⟨⟨_, s₂⟩, hclosed, -⟩ := bind_eq_ok_iff.mp hb
          exact absurd (expect_run hclosed).1 (by simp [hstuck.1, markKind])
        · refine .seq .expect fun _ _ _ => .pure (.inl ?_)
          exact .node rfl (.cons ha (.cons halike .nil)) rfl
      · exact .pure fun _ => ⟨.inr ha, hs⟩
    · exact .pure fun _ => ⟨.inr ha, hs⟩
  · -- the first reader stops here, and so does the second unless the first is stuck
    intro r s₁ r' s₁' hr hr' hnot
    obtain ⟨rfl, rfl⟩ := postfixRound_mark hkind hr
    have hends : (!s'.current.newlineBefore || c'.grouped) = false := by
      by_contra hcontinues
      rw [← hline, ← hc.grouped, Bool.not_eq_false, Bool.or_eq_true, Bool.not_eq_true']
        at hcontinues
      exact hnot ⟨hkind, hcontinues⟩
    obtain ⟨rfl, rfl⟩ := postfixRound_line hopens hends hr'
    exact ⟨.inr ha, hs⟩

theorem postfixed_succ (h : AlignedGrammar mark n) (hc : Akin c c') :
    Tracks mark (Stuck mark c) Alike c c' (Parser.postfixed (n + 1)) (Parser.postfixed m) := by
  rcases m with _ | m
  · exact .exhausted_right
  rw [Parser.postfixed_succ, Parser.postfixed_succ]
  refine .seq (h.primary m hc) fun first first' hfirst => ?_
  exact .repeatRounds (fun _ _ _ _ => postfixRound_stuck) (fun _ _ => postfixRound_tracks h hc)
    hfirst

theorem operand_succ (h : AlignedGrammar mark n) (hc : Akin c c') (s s' : Cursor)
    (hmark : s.current.kind = markKind mark) (hnumber : Lexer.isNumeric s'.current.kind = true)
    (hrest : Aligned mark s.next.tokens s'.next.tokens) :
    Joint (Meets mark (Stuck mark c) Alike) (Parser.postfixed (n + 1) c s)
      (Parser.postfixed m c' s') := by
  rcases m with _ | m
  · exact .exhausted_right _
  rw [Parser.postfixed_succ, Parser.postfixed_succ]
  have hname : leaf? s.current.kind = some (.ref (String.ofList [mark])) := by rw [hmark]; rfl
  obtain ⟨x, hx⟩ : ∃ x, leaf? s'.current.kind = some (.literal x) := by
    unfold Lexer.isNumeric at hnumber
    split at hnumber <;> first | (rename_i hkind; exact ⟨_, by rw [hkind]; rfl⟩) | cases hnumber
  have hprimary : Joint (Meets mark never Alike) (Parser.primary n c s)
      (Parser.primary m c' s') := by
    intro e s₁ e' s₁' he he' _
    obtain ⟨rfl, rfl⟩ := primary_leaf hname he
    obtain ⟨rfl, rfl⟩ := primary_leaf hx he'
    exact ⟨.node rfl .nil rfl, hrest⟩
  refine hprimary.bind fun first s₁ first' s₁' hmeets => ?_
  obtain ⟨hfirst, hs₁⟩ := hmeets id
  exact Tracks.repeatRounds (fun _ _ _ _ => postfixRound_stuck)
    (fun _ _ => postfixRound_tracks h hc) hfirst s₁ s₁' hs₁

/-- What the tokens behind an opening brace say about it is the same for both readers. -/
def opensObject : List Token → Bool
  | ⟨.symbol .closeBrace, _, _, _⟩ :: _ => true
  | ⟨.word _, _, _, _⟩ :: ⟨.symbol .colon, _, _, _⟩ :: _ => true
  | ⟨.string _, _, _, _⟩ :: ⟨.symbol .colon, _, _, _⟩ :: _ => true
  | _ => false

theorem objectAhead_run (c : Context) (s : Cursor) :
    objectAhead c s = .ok (opensObject s.ahead, s) := by
  obtain ⟨t, ahead, p⟩ := s
  change (match ahead with
    | ⟨.symbol .closeBrace, _, _, _⟩ :: _ => pure true
    | ⟨.word _, _, _, _⟩ :: ⟨.symbol .colon, _, _, _⟩ :: _ => pure true
    | ⟨.string _, _, _, _⟩ :: ⟨.symbol .colon, _, _, _⟩ :: _ => pure true
    | _ => pure false : ParserM Bool) c ⟨t, ahead, p⟩ = _
  unfold opensObject
  split <;> rfl

/-- Whether a token can be the key of an object. -/
def isKey : Token.Kind → Bool
  | .word _ | .string _ => true
  | _ => false

/-- Whether a colon comes first. -/
def colonAhead (ts : List Token) : Bool :=
  ts.head?.any fun t => t.kind = .symbol .colon

theorem opensObject_cons (t : Token) (ts : List Token) : opensObject (t :: ts) =
    (decide (t.kind = .symbol .closeBrace) || isKey t.kind && colonAhead ts) := by
  have hcolon (key : Token.Kind) (hkey : isKey key = true) (p q : Position) (line : Bool) :
      opensObject (⟨key, p, q, line⟩ :: ts) = colonAhead ts := by
    cases key with
    | word | string =>
      rcases ts with _ | ⟨⟨kind, _, _, _⟩, ts⟩
      · rfl
      · cases kind with
        | symbol symbol => cases symbol <;> rfl
        | _ => rfl
    | _ => cases hkey
  obtain ⟨kind, p, q, line⟩ := t
  cases kind with
  | word name => simpa [isKey] using hcolon (.word name) rfl p q line
  | string text => simpa [isKey] using hcolon (.string text) rfl p q line
  | symbol symbol => cases symbol <;> rfl
  | _ => rfl

theorem colonAhead_aligned {ts ts' : List Token} (h : Aligned mark ts ts') :
    colonAhead ts = colonAhead ts' := by
  rcases h with ⟨hkind, hkind', -⟩ | ⟨hkind, -, -⟩ | ⟨hkind, hdefinite, hkinds, -, -, -⟩
  · simp [colonAhead, hkind, hkind']
  · simp [colonAhead, hkind]
  · obtain ⟨k, ks, hk, hopens, -⟩ := hdefinite.exists_cons_kinds
    obtain ⟨rfl, -⟩ := List.cons.inj (hkinds.trans hk)
    rename_i t first v vs ts ts'
    have hne : first.kind ≠ .symbol .colon := ne_of_opensLiteral hopens rfl
    simp [colonAhead, hkind, markKind, hne]

/-- An opening brace begins an object for both readers or for none. -/
theorem opensObject_aligned {ts ts' : List Token} (h : Aligned mark ts ts') :
    opensObject ts = opensObject ts' := by
  rcases h with ⟨hkind, hkind', -⟩ | ⟨hkind, -, hrest⟩ | ⟨hkind, hdefinite, hkinds, -, hnext, hrest⟩
  · rw [opensObject_cons, opensObject_cons, hkind, hkind']
  · rw [opensObject_cons, opensObject_cons, hkind, colonAhead_aligned hrest]
  · -- a placeholder is no key, and what is written out for it begins as none
    rename_i t first v vs ts ts'
    have hcolon : colonAhead ts = false := by
      obtain ⟨u, us, -, -, rfl, -⟩ := hrest.exists_cons
      simpa [colonAhead] using hnext u rfl
    obtain ⟨k, ks, hk, hopens, -, hstring⟩ := hdefinite.exists_cons_kinds
    obtain ⟨rfl, hvs⟩ := List.cons.inj (hkinds.trans hk)
    have hkey : (isKey first.kind && colonAhead (vs ++ ts')) = false := by
      generalize first.kind = kind at hopens hstring
      cases kind with
      | string text =>
        obtain rfl := List.map_eq_nil_iff.mp (hvs.trans (hstring text rfl))
        rw [List.nil_append, ← colonAhead_aligned hrest, hcolon, Bool.and_false]
      | word name => cases hopens
      | _ => rfl
    have hclose : first.kind ≠ .symbol .closeBrace := ne_of_opensLiteral hopens rfl
    rw [opensObject_cons, opensObject_cons, hkey, hcolon, hkind, decide_eq_false hclose]
    rfl

/-- Where the first reader finds a placeholder and the second a value, one passes a name and the
other all tokens of the value. -/
theorem primary_hole {m : Nat} {s s' : Cursor} {v : Value} {next : Token} {vs ts : List Token}
    (hkind : s.current.kind = markKind mark) (hdefinite : v.Definite)
    (hkinds : (s'.current :: vs).map Token.kind = v.kinds) (hahead : s'.ahead = vs ++ next :: ts)
    (hrest : Aligned mark s.next.tokens (next :: ts)) :
    Joint (Meets mark never Alike) (Parser.primary (n + 1) c s) (Parser.primary (m + 1) c' s') := by
  intro e s₁ e' s₁' he he' _
  have hname : leaf? s.current.kind = some (.ref (String.ofList [mark])) := by rw [hkind]; rfl
  obtain ⟨rfl, rfl⟩ := primary_leaf hname he
  have hsign : v.kinds.head? ≠ some (.symbol .minus) := by
    intro hhead
    have hminus : s'.current.kind = .symbol .minus := by
      rw [← hkinds] at hhead
      exact Option.some.inj hhead
    replace he' := (bind_of_run (current_run c' s')).symm.trans he'
    rw [hminus] at he'
    cases he'
  have htokens : s'.tokens = (s'.current :: vs) ++ next :: ts := by
    rw [Cursor.tokens, hahead, List.cons_append]
  obtain ⟨rfl, hs₁'⟩ := (readsOperand hsign c' _ next ts hkinds (m + 1)).eq_of_ok htokens he'
  rw [hs₁']
  refine ⟨.of_callShapes_nil ?_ v.callShapes_sourceExpr hdefinite.calleeName?_sourceExpr, hrest⟩
  rw [Expr.callShapes_eq]
  rfl

theorem primary_succ (h : AlignedGrammar mark n) (hc : Akin c c') :
    Tracks mark never Alike c c' (Parser.primary (n + 1)) (Parser.primary m) := by
  rcases m with _ | m
  · exact .exhausted_right
  intro s s' hs
  rcases hs.here with ⟨hkind, -, hahead, hnext⟩ |
    ⟨hkind, -, hdefinite, hkinds, -, -, hahead, hrest⟩
  · have hrun : Parser.primary (n + 1) c s = _ := bind_of_run (current_run c s)
    have hrun' : Parser.primary (m + 1) c' s' = _ := bind_of_run (current_run c' s')
    rw [hrun, hrun', hkind]
    have hgrouped : Akin { c with grouped := true } { c' with grouped := true } := ⟨hc.inLoop, rfl⟩
    generalize s'.current.kind = kind
    cases kind with
    | integer value => exact .advance (.pure fun _ => ⟨.refl _, hnext⟩)
    | number value => exact .advance (.pure fun _ => ⟨.refl _, hnext⟩)
    | string text => exact .advance (.pure fun _ => ⟨.refl _, hnext⟩)
    | word name => exact .advance (.pure fun _ => ⟨.refl _, hnext⟩)
    | keyword word =>
      cases word with
      | true_ => exact .advance (.pure fun _ => ⟨.refl _, hnext⟩)
      | false_ => exact .advance (.pure fun _ => ⟨.refl _, hnext⟩)
      | null => exact .advance (.pure fun _ => ⟨.refl _, hnext⟩)
      | if_ => exact h.conditional m hc hnext
      | while_ =>
        refine .advance (Tracks.seq (h.condition m hc) (fun test test' htest => ?_) _ _ hnext)
        refine .map (h.loopBody m hc) fun body body' hbody => ?_
        exact .node rfl (.cons htest (.cons hbody .nil)) rfl
      | loop =>
        refine .advance (Tracks.map (h.loopBody m hc) (fun body body' hbody => ?_) _ _ hnext)
        exact .node rfl (.cons hbody .nil) rfl
      | _ => exact Tracks.unexpected_left _ s s' hs
    | symbol symbol =>
      cases symbol with
      | openParen =>
        refine .advance (Tracks.bind (.grouping (h.expression m hgrouped))
          (fun _ s b s₁ hstuck hb => ?_) (fun inner inner' hinner => ?_) _ _ hnext)
        · obtain ⟨⟨_, s₂⟩, hclosed, -⟩ := bind_eq_ok_iff.mp hb
          exact absurd (expect_run hclosed).1 (by simp [hstuck.1, markKind])
        · exact .seq .expect fun _ _ _ => .pure hinner
      | openBracket =>
        refine .advance (Tracks.map (h.delimited m rfl _ hc) (fun items items' hitems => ?_) _ _
          hnext)
        exact .node rfl hitems rfl
      | openBrace =>
        have hobject : opensObject s.ahead = opensObject s'.ahead := by
          rcases hahead with ⟨hnil, hnil'⟩ | hahead
          · rw [hnil, hnil']
          · exact opensObject_aligned hahead
        change Joint _ ((objectAhead >>= _) c s) ((objectAhead >>= _) c' s')
        rw [bind_of_run (objectAhead_run c s), bind_of_run (objectAhead_run c' s'), hobject]
        split
        · exact h.object m hc hnext
        · exact h.block m hc s s' hs
      | _ => exact Tracks.unexpected_left _ s s' hs
    | finish => exact Tracks.unexpected_left _ s s' hs
  · exact primary_hole hkind hdefinite hkinds hahead hrest

/-- What follows an item of a list: a comma and more items, or the closing symbol. -/
def separator (close : Symbol) (what : Expected) (more : α) (last : β) : ParserM (α ⊕ β) := do
  if ← eat .comma then return .inl more
  expect close what
  return .inr last

/-- No symbol comes where the first reader is stuck. -/
theorem expect_stuck {f : Unit → ParserM α} {symbol : Symbol} {what : Expected} {s s₁ : Cursor}
    {a : α} (hs : Stuck mark c s.current) (h : (expect symbol what >>= f) c s = .ok (a, s₁)) :
    False := by
  obtain ⟨⟨_, s₂⟩, hexpect, -⟩ := bind_eq_ok_iff.mp h
  have hsymbol := (expect_run hexpect).1
  rw [hs.1] at hsymbol
  cases hsymbol

theorem separator_stuck {close : Symbol} {what : Expected} {more : α} {last : β} {s s₁ : Cursor}
    {r : α ⊕ β} (hs : Stuck mark c s.current)
    (h : separator close what more last c s = .ok (r, s₁)) : False := by
  rw [separator, bind_of_run (eat_of_ne (by simp [hs.1, markKind])), if_neg (by decide)] at h
  exact expect_stuck hs h

theorem separator_tracks {I : α → α' → Prop} {R : β → β' → Prop} {close : Symbol} {what : Expected}
    {more : α} {more' : α'} {last : β} {last' : β'} (hmore : I more more') (hlast : R last last') :
    Tracks mark never (Sum.LiftRel I R) c c' (separator close what more last)
      (separator close what more' last') := by
  refine .seq (.eat rfl) fun passed _ heq => ?_
  subst heq
  split
  · exact .pure (.inl hmore)
  · exact .seq .expect fun _ _ _ => .pure (.inr hlast)

theorem delimited_succ (h : AlignedGrammar mark n) {close : Symbol}
    (hclose : opensLiteral (.symbol close) = false) (what : Expected) (hc : Akin c c') :
    Tracks mark never (List.Forall₂ Alike) c c' (Parser.delimited (n + 1) close what)
      (Parser.delimited m close what) := by
  rcases m with _ | m
  · exact .exhausted_right
  rw [Parser.delimited_succ, Parser.delimited_succ]
  have hgrouped : Akin { c with grouped := true } { c' with grouped := true } := ⟨hc.inLoop, rfl⟩
  refine .grouping (.repeatRounds (I := List.Forall₂ Alike) (fun _ _ _ _ hs => hs.elim)
    (fun items items' hitems => ?_) .nil)
  refine .seq (.eat hclose) fun closed _ heq => ?_
  subst heq
  split
  · exact .pure (.inr (List.rel_reverse hitems))
  refine (h.expression m hgrouped).bind (fun item s b s₁ hs hb => ?_) fun item item' hitem => ?_
  · exact separator_stuck hs hb
  · exact separator_tracks (.cons hitem hitems) (List.rel_reverse (.cons hitem hitems))

/-- What follows the key of an object. -/
def entryRest (n : Nat) (entries : List (String × Expr)) (key : String) :
    ParserM (List (String × Expr) ⊕ Expr) := do
  expect .colon .keyColon
  let value ← Parser.expression n
  let entries := (key, value) :: entries.filter fun entry => entry.1 ≠ key
  separator .closeBrace .entryEnd entries (.object entries.reverse)

/-- Entries with the same keys and values that are alike. -/
abbrev EntriesAlike : List (String × Expr) → List (String × Expr) → Prop :=
  List.Forall₂ fun entry entry' => entry.1 = entry'.1 ∧ Alike entry.2 entry'.2

theorem entryRest_tracks (h : AlignedGrammar mark n) (hc : Akin c c')
    {entries entries' : List (String × Expr)} (hentries : EntriesAlike entries entries')
    (key : String) :
    Tracks mark never (Sum.LiftRel EntriesAlike Alike) c c' (entryRest n entries key)
      (entryRest m entries' key) := by
  refine .seq .expect fun _ _ _ => (h.expression m hc).bind (fun _ s b s₁ hs hb => ?_)
    fun value value' hvalue => ?_
  · exact separator_stuck hs hb
  have hall : EntriesAlike ((key, value) :: entries.filter fun entry => entry.1 ≠ key)
      ((key, value') :: entries'.filter fun entry => entry.1 ≠ key) := by
    refine .cons ⟨rfl, hvalue⟩ (List.rel_filter (fun entry entry' hentry => ?_) hentries)
    simp only [hentry.1]
  exact separator_tracks hall (.object (List.rel_reverse hall))

theorem object_succ (h : AlignedGrammar mark n) (hc : Akin c c') {s s' : Cursor}
    (hs : Aligned mark s.next.tokens s'.next.tokens) :
    Joint (Meets mark never Alike) (Parser.object (n + 1) c s) (Parser.object m c' s') := by
  rcases m with _ | m
  · exact .exhausted_right _
  rw [Parser.object_succ, Parser.object_succ]
  have hgrouped : Akin { c with grouped := true } { c' with grouped := true } := ⟨hc.inLoop, rfl⟩
  refine .advance (Tracks.grouping (.repeatRounds (I := EntriesAlike)
    (fun _ _ _ _ hs => hs.elim) (fun entries entries' hentries => ?_) .nil) _ _ hs)
  refine .seq (.eat rfl) fun closed _ heq => ?_
  subst heq
  split
  · exact .pure (.inr (.object (List.rel_reverse hentries)))
  intro s s' hs
  refine .advance ?_
  rcases hs.here with ⟨hkind, -, -, hnext⟩ | ⟨hkind, -, -, -, hcolon, -, -, -⟩
  · rw [hkind]
    generalize s'.current.kind = kind
    cases kind with
    | word key => exact entryRest_tracks h hgrouped hentries key _ _ hnext
    | string key => exact entryRest_tracks h hgrouped hentries key _ _ hnext
    | _ => exact fun _ _ _ _ ha => nomatch ha
  · -- a placeholder is no key, since no colon follows it
    rw [hkind]
    intro r s₁ r' s₁' hr
    change entryRest n entries (String.ofList [mark]) _ s.next = _ at hr
    obtain ⟨⟨_, s₂⟩, hexpect, -⟩ := bind_eq_ok_iff.mp hr
    exact absurd (expect_run hexpect).1 hcolon

/-- The end of a statement does not come where the first reader is stuck and line breaks count. -/
theorem statementEnd_stuck {f : Unit → ParserM α} {s s₁ : Cursor} {a : α}
    (hc : c.grouped = false) (hs : Stuck mark c s.current)
    (h : (statementEnd >>= f) c s = .ok (a, s₁)) : False := by
  obtain ⟨⟨_, s₂⟩, hend, -⟩ := bind_eq_ok_iff.mp h
  have hline : s.current.newlineBefore = false := by
    rcases hs.2 with hline | hgrouped
    · exact hline
    · rw [hc] at hgrouped
      cases hgrouped
  rw [statementEnd, bind_of_run (eat_of_ne (by simp [hs.1, markKind])), if_neg (by decide),
    bind_of_run (atFinish_run c s), hs.1, if_neg (by simp [markKind])] at hend
  change (if decide (s.current.kind = .symbol .closeBrace) then _ else _ : ParserM Unit) c s = _
    at hend
  rw [hs.1, if_neg (by simp [markKind])] at hend
  change (if s.current.newlineBefore then _ else _ : ParserM Unit) c s = _ at hend
  rw [hline, if_neg (by decide)] at hend
  cases hend

theorem block_succ (h : AlignedGrammar mark n) (hc : Akin c c') :
    Tracks mark never Alike c c' (Parser.block (n + 1)) (Parser.block m) := by
  rcases m with _ | m
  · exact .exhausted_right
  rw [Parser.block_succ, Parser.block_succ]
  have hlines : Akin { c with grouped := false } { c' with grouped := false } := ⟨hc.inLoop, rfl⟩
  refine .seq .expect fun _ _ _ => .grouping (.repeatRounds (I := List.Forall₂ Alike)
    (fun _ _ _ _ hs => hs.elim) (fun items items' hitems => ?_) .nil)
  refine .seq (.eat rfl) fun passed _ heq => ?_
  subst heq
  split
  · exact .pure (.inl hitems)
  refine .seq (.eat rfl) fun closed _ heq => ?_
  subst heq
  split
  · exact .pure (.inr (.node rfl (List.rel_reverse hitems) rfl))
  refine .seq .atFinish fun finished _ heq => ?_
  subst heq
  have hitem : Tracks mark never (Sum.LiftRel (List.Forall₂ Alike) Alike)
      { c with grouped := false } { c' with grouped := false }
      (do let item ← Parser.blockItem n; statementEnd; return .inl (item :: items))
      (do let item ← Parser.blockItem m; statementEnd; return .inl (item :: items')) := by
    refine (h.blockItem m hlines).bind (fun item s b s₁ hs hb => ?_) fun item item' hitem => ?_
    · exact statementEnd_stuck rfl hs hb
    · exact .seq .statementEnd fun _ _ _ => .pure (.inl (.cons hitem hitems))
  split
  · intro s s' _ a s₁ b s₁' ha
    cases ha
  · exact hitem

/-- Where an opening brace is asked for, there is one. -/
theorem brace_of_ok {p : ParserM α} {f : Unit → ParserM α} {what : Expected} {s s₁ : Cursor} {a : α}
    (h : (atSymbol .openBrace >>= fun found =>
      if found = true then p else unexpected what >>= f) c s = .ok (a, s₁)) :
    s.current.kind = .symbol .openBrace ∧ p c s = .ok (a, s₁) := by
  change (if decide (s.current.kind = .symbol .openBrace) = true then _ else _ : ParserM α) c s = _
    at h
  split at h
  · rename_i hkind
    exact ⟨of_decide_eq_true hkind, h⟩
  · cases h

theorem brace_tracks {stuck : Token → Prop} {R : α → β → Prop} {p : ParserM α} {q : ParserM β}
    {f : Unit → ParserM α} {g : Unit → ParserM β} {what : Expected}
    (h : Tracks mark stuck R c c' p q) :
    Tracks mark stuck R c c'
      (atSymbol .openBrace >>= fun found => if found = true then p else unexpected what >>= f)
      (atSymbol .openBrace >>= fun found => if found = true then q else unexpected what >>= g) := by
  intro s s' hs a s₁ b s₁' ha hb
  exact h s s' hs a s₁ b s₁' (brace_of_ok ha).2 (brace_of_ok hb).2

theorem condition_succ (h : AlignedGrammar mark n) (hc : Akin c c') :
    Tracks mark never Alike c c' (Parser.condition (n + 1)) (Parser.condition m) := by
  rcases m with _ | m
  · exact .exhausted_right
  have hlines : Akin { c with grouped := false } { c' with grouped := false } := ⟨hc.inLoop, rfl⟩
  refine Tracks.bind (.grouping (h.expression m hlines)) (fun test s b s₁ hs hb => ?_)
    fun test test' htest => brace_tracks (.pure htest)
  have hbrace := (brace_of_ok hb).1
  rw [hs.1] at hbrace
  cases hbrace

theorem loopBody_succ (h : AlignedGrammar mark n) (hc : Akin c c') :
    Tracks mark never Alike c c' (Parser.loopBody (n + 1)) (Parser.loopBody m) := by
  rcases m with _ | m
  · exact .exhausted_right
  have hinside : Akin { c with inLoop := true } { c' with inLoop := true } := ⟨rfl, hc.grouped⟩
  exact brace_tracks (h.block m hinside)

/-- Both readers see a keyword that no value begins with, or none does. -/
theorem atKeyword_here {keyword : Keyword} (hkeyword : opensLiteral (.keyword keyword) = false)
    {post : α → Cursor → β → Cursor → Prop} {f : Bool → ParserM α} {g : Bool → ParserM β}
    {s s' : Cursor} (hs : Aligned mark s.tokens s'.tokens)
    (hyes : Aligned mark s.next.tokens s'.next.tokens → Joint post (f true c s) (g true c' s'))
    (hno : Joint post (f false c s) (g false c' s')) :
    Joint post ((atKeyword keyword >>= f) c s) ((atKeyword keyword >>= g) c' s') := by
  change Joint post (f (decide (s.current.kind = .keyword keyword)) c s)
    (g (decide (s'.current.kind = .keyword keyword)) c' s')
  rcases hs.here with ⟨hkind, -, -, hnext⟩ | ⟨hkind, hopens, -, -, -, -, -, -⟩
  · rw [hkind]
    by_cases h : s'.current.kind = .keyword keyword
    · rw [decide_eq_true h]
      exact hyes hnext
    · rw [decide_eq_false h]
      exact hno
  · have hmark : s.current.kind ≠ .keyword keyword := by simp [hkind, markKind]
    rw [decide_eq_false hmark, decide_eq_false (ne_of_opensLiteral hopens hkeyword)]
    exact hno

theorem conditional_succ (h : AlignedGrammar mark n) (hc : Akin c c') {s s' : Cursor}
    (hs : Aligned mark s.next.tokens s'.next.tokens) :
    Joint (Meets mark never Alike) (Parser.conditional (n + 1) c s)
      (Parser.conditional m c' s') := by
  rcases m with _ | m
  · exact .exhausted_right _
  refine .advance (Tracks.seq (h.condition m hc) (fun test test' htest => ?_) _ _ hs)
  refine .seq (h.block m hc) fun yes yes' hyes s s' hs => ?_
  have hno {no no' : Expr} (halike : Alike no no') :
      Alike (.cond test yes (some no)) (.cond test' yes' (some no')) :=
    .node rfl (.cons htest (.cons hyes (.cons halike .nil))) rfl
  refine atKeyword_here rfl hs (fun helse => ?_) (.pure fun _ => ⟨?_, hs⟩)
  · refine .advance (atKeyword_here rfl helse (fun hif => ?_) ?_)
    · exact (h.conditional m hc hif).bind fun no s₁ no' s₁' hmeets => .pure fun _ =>
        ⟨hno (hmeets id).1, (hmeets id).2⟩
    · rw [if_neg (by decide), if_neg (by decide)]
      exact brace_tracks (.map (h.block m hc) fun _ _ => hno) _ _ helse
  · exact .node rfl (.cons htest (.cons hyes .nil)) rfl

/-- A jump stands inside a loop for both readers or for none. -/
theorem jump_tracks (hc : Akin c c') (jump : Jump) (t t' : Token) :
    Tracks mark (Stuck mark c) Alike c c'
      (do if (← read).inLoop then return .jump jump
          failAt t (.jumpOutsideLoop jump))
      (do if (← read).inLoop then return .jump jump
          failAt t' (.jumpOutsideLoop jump)) := by
  refine .read ?_
  rw [hc.inLoop]
  split
  · exact .pure (.refl _)
  · exact .failAt_left _ _

/-- What follows the name of a declaration. -/
def declaration (n : Nat) (nameToken : Token) : ParserM Expr :=
  match nameToken.kind with
  | .word name => do
    expect .assign .bindingEquals
    let value ← Parser.expression n
    return .declare name value
  | _ => failAt nameToken .bindingName

theorem declaration_tracks (h : AlignedGrammar mark n) (hc : Akin c c') {s s' : Cursor}
    (hs : Aligned mark s.tokens s'.tokens) :
    Joint (Meets mark (Stuck mark c) Alike) (declaration n s.current c s.next)
      (declaration m s'.current c' s'.next) := by
  rw [declaration, declaration]
  rcases hs.here with ⟨hkind, -, -, hnext⟩ | ⟨-, hopens, -, -, -, -, -, -⟩
  · rw [hkind]
    generalize s'.current.kind = kind
    cases kind with
    | word name =>
      refine Tracks.seq .expect (fun _ _ _ => ?_) _ _ hnext
      refine .map (h.expression m hc) fun value value' hvalue => ?_
      exact .node rfl (.cons hvalue .nil) rfl
    | _ => exact .failAt_left _ _ _ _ _
  · -- nothing that a value is written as begins with a name
    generalize s'.current.kind = kind at hopens
    cases kind with
    | word name => cases hopens
    | _ => exact .failAt_right _ _ _ _ _

theorem blockItem_succ (h : AlignedGrammar mark n) (hc : Akin c c') :
    Tracks mark (Stuck mark c) Alike c c' (Parser.blockItem (n + 1)) (Parser.blockItem m) := by
  rcases m with _ | m
  · exact .exhausted_right
  intro s s' hs
  rw [Parser.blockItem, Parser.blockItem, bind_of_run (current_run c s),
    bind_of_run (current_run c' s')]
  rcases hs.here with ⟨hkind, -, -, hnext⟩ | ⟨hkind, hopens, -, -, -, -, -, -⟩
  · rw [hkind]
    generalize s'.current.kind = kind
    cases kind with
    | keyword word =>
      cases word with
      | let_ => exact .advance (.advance (h.declaration_tracks hc hnext))
      | break_ => exact .advance (jump_tracks hc .break_ _ _ _ _ hnext)
      | continue_ => exact .advance (jump_tracks hc .continue_ _ _ _ _ hnext)
      | _ => exact h.expression m hc s s' hs
    | _ => exact h.expression m hc s s' hs
  · rw [hkind]
    generalize s'.current.kind = kind at hopens
    cases kind with
    | keyword word =>
      cases word with
      | let_ | break_ | continue_ => cases hopens
      | _ => exact h.expression m hc s s' hs
    | _ => exact h.expression m hc s s' hs

protected theorem zero : AlignedGrammar mark 0 where
  blockItem _ _ _ _ := .exhausted_left
  expression _ _ _ _ := .exhausted_left
  assignment _ _ _ _ := .exhausted_left
  binary _ _ _ _ _ := .exhausted_left
  unary _ _ _ _ := .exhausted_left
  postfixed _ _ _ _ := .exhausted_left
  operand _ _ _ _ s _ _ _ _ := Joint.exhausted_left s
  primary _ _ _ _ := .exhausted_left
  delimited _ _ _ _ _ _ _ := .exhausted_left
  object _ _ _ _ s _ _ := Joint.exhausted_left s
  block _ _ _ _ := .exhausted_left
  condition _ _ _ _ := .exhausted_left
  conditional _ _ _ _ s _ _ := Joint.exhausted_left s
  loopBody _ _ _ _ := .exhausted_left

protected theorem succ (h : AlignedGrammar mark n) : AlignedGrammar mark (n + 1) where
  blockItem _ _ _ := h.blockItem_succ
  expression _ _ _ := h.expression_succ
  assignment _ _ _ := h.assignment_succ
  binary _ _ _ _ := h.binary_succ
  unary _ _ _ := h.unary_succ
  postfixed _ _ _ := h.postfixed_succ
  operand _ _ _ := h.operand_succ
  primary _ _ _ := h.primary_succ
  delimited _ _ hclose what _ _ := h.delimited_succ hclose what
  object _ _ _ hc _ _ := h.object_succ hc
  block _ _ _ := h.block_succ
  condition _ _ _ := h.condition_succ
  conditional _ _ _ hc _ _ := h.conditional_succ hc
  loopBody _ _ _ := h.loopBody_succ

end AlignedGrammar

/-- However far two readers may descend, they read expressions that are alike. -/
theorem alignedGrammar (mark : Char) (n : Nat) : AlignedGrammar mark n := by
  induction n with
  | zero => exact .zero
  | succ n ih => exact ih.succ

/-! ### Statements -/

/-- Statements that are alike. -/
abbrev StatementsAlike : List Statement → List Statement → Prop :=
  List.Forall₂ fun st st' => Alike st.expression st'.expression

/-- A statement is what is read as an item, at a location. -/
theorem statement_of_ok {allowance : Nat} {c : Context} {s s₁ : Cursor} {st : Statement}
    (h : statement allowance c s = .ok (st, s₁)) :
    blockItem allowance c s = .ok (st.expression, s₁) := by
  obtain ⟨⟨e, s₂⟩, he, h⟩ := bind_eq_ok_iff.mp h
  change (if maxNesting < e.depth then _ else _ : ParserM Statement) c s₂ = _ at h
  split at h
  · cases h
  · cases h
    exact he

theorem statement_tracks {c c' : Context} (hc : Akin c c') (n m : Nat) :
    Tracks mark (Stuck mark c) (fun st st' => Alike st.expression st'.expression) c c'
      (statement n) (statement m) := by
  intro s s' hs st s₁ st' s₁' hst hst'
  exact (alignedGrammar mark n).blockItem m hc s s' hs _ s₁ _ s₁' (statement_of_ok hst)
    (statement_of_ok hst')

theorem statements_tracks {c c' : Context} (hc : Akin c c') (hlines : c.grouped = false)
    (n m : Nat) :
    Tracks mark never StatementsAlike c c' (statements n) (statements m) := by
  rw [statements_eq, statements_eq]
  refine .repeatRounds (I := StatementsAlike) (fun _ _ _ _ hs => hs.elim)
    (fun read read' hread => ?_) .nil
  refine .seq .atFinish fun finished _ heq => ?_
  subst heq
  split
  · exact .pure (.inr (List.rel_reverse hread))
  refine .seq (.eat rfl) fun passed _ heq => ?_
  subst heq
  split
  · exact .pure (.inl hread)
  refine (statement_tracks hc n m).bind (fun st s b s₁ hs hb => ?_) fun st st' hst => ?_
  · exact AlignedGrammar.statementEnd_stuck hlines hs hb
  · exact .seq .statementEnd fun _ _ _ => .pure (.inl (.cons hst hread))

/-- Aligned tokens that are both read as statements have statements that are alike. -/
theorem readStatements_aligned {ts ts' : List Token} (h : Aligned mark ts ts') {n m : Nat}
    {file file' : String} {sts sts' : List Statement}
    (hread : readStatements n file ts = .ok sts) (hread' : readStatements m file' ts' = .ok sts') :
    StatementsAlike sts sts' := by
  obtain ⟨t, ts, t', ts', rfl, rfl⟩ := h.exists_cons
  set c : Context := ⟨file, 0, false, false, ts.length + 2⟩ with hc
  set c' : Context := ⟨file', 0, false, false, ts'.length + 2⟩ with hc'
  obtain ⟨⟨_, s₁⟩, hrun, hpure⟩ := bind_eq_ok_iff.mp hread
  obtain ⟨⟨_, s₁'⟩, hrun', hpure'⟩ := bind_eq_ok_iff.mp hread'
  cases hpure
  cases hpure'
  have hakin : Akin c c' := ⟨rfl, rfl⟩
  exact (statements_tracks hakin rfl n m ⟨t, ts, .start⟩ ⟨t', ts', .start⟩ h _ _ _ _ hrun hrun'
    id).1

end Parser

end Covenant
