import Covenant.Proofs.Lexing
import Covenant.Script.Parser

/-!
# Reading the tokens of a value

The tokens of a rendered value are read as one expression, its `Value.sourceExpr`, and exactly they
are passed. That is so wherever a value may stand, unless an allowance, the number of rounds or the
nesting gives out; and these suffice if they are at least what the value asks for.

## Main definitions

* `Value.sourceExpr` : the expression that the source form of a value is read as.
* `Parser.Reads` : what a reader makes of tokens, unless something gives out.

## Main results

* `Parser.primary_reads`, `Parser.expression_reads` : a value as an operand and as an expression.
-/

namespace Covenant

namespace Value

/-- An expression behind a sign. -/
def signed (negative : Bool) (e : Expr) : Expr :=
  if negative then .unary .negate e else e

mutual

/-- The expression that the source form of a value is read as. -/
def sourceExpr : Value → Expr
  | .string text => .literal (.string text)
  | .number x =>
    if x.isUndefined then .ref "NaN"
    else signed x.negative (if x.isFinite then .literal (.number x.abs) else .ref "inf")
  | .integer n =>
    if n = Int64.minValue then
      .binary (.unary .negate (.literal (.integer Int64.maxValue))) .subtract
        (.literal (.integer 1))
    else signed (n.toInt < 0) (.literal (.integer (Int64.ofInt n.toInt.natAbs)))
  | .boolean flag => .literal (.boolean flag)
  | .null => .literal .null
  | .array items => .array (sourceItems items)
  | .object fields => .object (sourceFields [] fields).reverse

/-- The expressions of items. -/
def sourceItems : List Value → List Expr
  | [] => []
  | item :: rest => item.sourceExpr :: sourceItems rest

/-- The entries of fields, the last one first, in front of those already read. Of entries with one
key the last stays. -/
def sourceFields (done : List (String × Expr)) : List (String × Value) → List (String × Expr)
  | [] => done
  | (key, value) :: rest =>
    sourceFields ((key, value.sourceExpr) :: done.filter fun entry => entry.1 ≠ key) rest

end

end Value

namespace Parser

variable {α β : Type}

/-- The tokens from the current one on. -/
def Cursor.tokens (s : Cursor) : List Token :=
  s.current :: s.ahead

/-- In these surroundings, the first tokens are read as `a` up to the second, unless something gives
out, which it does not under the condition. -/
def Reads (enough : Prop) (c : Context) (p : ParserM α) (ts : List Token) (a : α)
    (ts' : List Token) : Prop :=
  ∀ s : Cursor, s.tokens = ts →
    (∃ s' : Cursor, s'.tokens = ts' ∧ p c s = .ok (a, s')) ∨ ¬enough ∧ ∃ e, p c s = .error e

namespace Reads

variable {enough enough' : Prop} {c : Context} {p : ParserM α} {a : α} {ts ts₁ ts' : List Token}
  {t next : Token}

theorem mono (h : Reads enough c p ts a ts') (himp : enough' → enough) :
    Reads enough' c p ts a ts' := by
  intro s hs
  rcases h s hs with hok | ⟨hnot, herror⟩
  · exact .inl hok
  · exact .inr ⟨fun henough => hnot (himp henough), herror⟩

/-- Under the condition, a reader succeeds. -/
theorem run (h : Reads enough c p ts a ts') (henough : enough) {s : Cursor} (hs : s.tokens = ts) :
    ∃ s' : Cursor, s'.tokens = ts' ∧ p c s = .ok (a, s') := by
  rcases h s hs with hok | ⟨hnot, -⟩
  · exact hok
  · exact absurd henough hnot

/-- A reader that succeeds has read what it should. -/
theorem eq_of_ok (h : Reads enough c p ts a ts') {s s' : Cursor} {b : α} (hs : s.tokens = ts)
    (hok : p c s = .ok (b, s')) : b = a ∧ s'.tokens = ts' := by
  rcases h s hs with ⟨s₁, hs₁, hrun⟩ | ⟨-, e, herror⟩
  · obtain ⟨rfl, rfl⟩ := Prod.mk.inj (Except.ok.inj (hok.symm.trans hrun))
    exact ⟨rfl, hs₁⟩
  · cases hok.symm.trans herror

theorem pure (a : α) : Reads enough c (pure a) ts a ts :=
  fun s hs => .inl ⟨s, hs, rfl⟩

theorem bind {f : α → ParserM β} {b : β} (hp : Reads enough c p ts a ts₁)
    (hf : Reads enough c (f a) ts₁ b ts') : Reads enough c (p >>= f) ts b ts' := by
  intro s hs
  rcases hp s hs with ⟨s₁, hs₁, hok⟩ | ⟨hnot, e, herror⟩
  · have hrun : (p >>= f) c s = f a c s₁ := by
      simp only [Bind.bind, ReaderT.bind, StateT.bind, hok, Except.bind]
    rw [hrun]
    exact hf s₁ hs₁
  · refine .inr ⟨hnot, e, ?_⟩
    simp only [Bind.bind, ReaderT.bind, StateT.bind, herror, Except.bind]

theorem exhausted : Reads False c exhausted ts a ts' :=
  fun _ _ => .inr ⟨id, _, rfl⟩

theorem current : Reads enough c current (t :: ts) t (t :: ts) := by
  rintro s ⟨⟩
  exact .inl ⟨s, rfl, rfl⟩

theorem advance : Reads enough c advance (t :: next :: ts) t (next :: ts) := by
  rintro ⟨current, ahead, last⟩ hs
  obtain ⟨rfl, rfl⟩ := List.cons.inj hs
  exact .inl ⟨⟨next, ts, current.last⟩, rfl, rfl⟩

theorem read {f : Context → ParserM β} {b : β} (h : Reads enough c (f c) ts b ts') :
    Reads enough c (MonadReader.read >>= f) ts b ts' := h

theorem deeper {levels : Nat}
    (h : Reads enough { c with nesting := c.nesting + levels } p ts a ts') :
    Reads enough c (deeper levels p) ts a ts' := h

theorem grouping {grouped : Bool} (h : Reads enough { c with grouped } p ts a ts') :
    Reads enough c (grouping grouped p) ts a ts' := h

theorem atSymbol {symbol : Symbol} :
    Reads enough c (atSymbol symbol) (t :: ts) (decide (t.kind = .symbol symbol)) (t :: ts) :=
  bind current (pure _)

theorem eat_pass {symbol : Symbol} (h : t.kind = .symbol symbol) :
    Reads enough c (eat symbol) (t :: next :: ts) true (next :: ts) := by
  refine bind atSymbol ?_
  simp only [h, decide_true, if_true]
  exact bind advance (pure _)

theorem eat_stay {symbol : Symbol} (h : t.kind ≠ .symbol symbol) :
    Reads enough c (eat symbol) (t :: ts) false (t :: ts) := by
  refine bind atSymbol ?_
  simp only [h, decide_false]
  exact pure _

theorem expect {symbol : Symbol} {what : Expected} (h : t.kind = .symbol symbol) :
    Reads enough c (expect symbol what) (t :: next :: ts) () (next :: ts) :=
  bind (eat_pass h) (pure _)

theorem checkNesting {more : Nat} (h : enough → c.nesting + more < maxNesting) :
    Reads enough c (checkNesting more) ts () ts := by
  refine read ?_
  by_cases hnesting : maxNesting ≤ c.nesting + more
  · rw [if_pos hnesting]
    exact fun s _ => .inr ⟨fun henough => absurd (h henough) (Nat.not_lt.mpr hnesting), _, rfl⟩
  · rw [if_neg hnesting]
    exact pure _

/-- A round that yields a result ends a repetition. -/
theorem rounds_stop {round : α → ParserM (α ⊕ β)} {b : β} {n : Nat} (hn : enough → 0 < n)
    (h : Reads enough c (round a) ts (.inr b) ts') :
    Reads enough c (rounds round n a) ts b ts' := by
  rcases n with _ | n
  · exact exhausted.mono fun henough => absurd (hn henough) (Nat.lt_irrefl 0)
  · exact bind h (pure b)

/-- A round that yields no result yet is followed by others. -/
theorem rounds_next {round : α → ParserM (α ⊕ β)} (a' : α) {b : β} {n : Nat}
    (hn : enough → 0 < n) (h : Reads enough c (round a) ts (.inl a') ts₁)
    (hrest : Reads enough c (rounds round (n - 1) a') ts₁ b ts') :
    Reads enough c (rounds round n a) ts b ts' := by
  rcases n with _ | n
  · exact exhausted.mono fun henough => absurd (hn henough) (Nat.lt_irrefl 0)
  · exact bind h hrest

end Reads

/-! ### The rounds of the repetitions -/

/-- One more operand of a chain of operations. -/
def binaryRound (n level : Nat) : Nat × Expr → ParserM ((Nat × Expr) ⊕ Expr) :=
  fun (chained, left) => do
    if !(← continuesLine) then return .inr left
    match binaryOp? (← current).kind with
    | some op =>
      if op.level = level then
        checkNesting chained
        let _ ← advance
        let right ← deeper (chained + 1) (binary n (level + 1))
        return .inl (chained + 1, .binary left op right)
      else return .inr left
    | none => return .inr left

theorem binary_succ (n level : Nat) : binary (n + 1) level =
    if BinaryOp.levels ≤ level then unary n
    else binary n (level + 1) >>= fun first => repeatRounds (0, first) (binaryRound n level) := rfl

/-- One more part of an operand. -/
def postfixRound (n : Nat) : Nat × Expr → ParserM ((Nat × Expr) ⊕ Expr) :=
  fun (chained, e) => do
    let token ← current
    if attaches token.kind then checkNesting chained
    match token.kind with
    | .symbol .dot =>
      let _ ← advance
      let nameToken ← advance
      match nameToken.kind with
      | .word name => return .inl (chained + 1, .property e name)
      | _ => failAt nameToken .propertyName
    | .symbol .openParen =>
      if ← continuesLine then
        let _ ← advance
        match calleeName? e with
        | some name =>
          let args ← deeper (chained + 1) (delimited n .closeParen .closeParen)
          return .inl (chained + 1, .call name args)
        | none => failAt token .notCallable
      else return .inr e
    | .symbol .openBracket =>
      if ← continuesLine then
        let _ ← advance
        let position ← deeper (chained + 1) (grouping true (expression n))
        expect .closeBracket .closeBracket
        return .inl (chained + 1, .index e position)
      else return .inr e
    | _ => return .inr e

theorem postfixed_succ (n : Nat) : postfixed (n + 1) =
    primary n >>= fun first => repeatRounds (0, first) (postfixRound n) := rfl

/-- One more item of a list. -/
def itemRound (n : Nat) (close : Symbol) (what : Expected) :
    List Expr → ParserM (List Expr ⊕ List Expr) :=
  fun items => do
    if ← eat close then return .inr items.reverse
    let item ← expression n
    if ← eat .comma then return .inl (item :: items)
    expect close what
    return .inr (item :: items).reverse

theorem delimited_succ (n : Nat) (close : Symbol) (what : Expected) :
    delimited (n + 1) close what =
      grouping true (repeatRounds [] (itemRound n close what)) := rfl

/-- One more entry of an object. -/
def entryRound (n : Nat) : List (String × Expr) → ParserM (List (String × Expr) ⊕ Expr) :=
  fun entries => do
    if ← eat .closeBrace then return .inr (.object entries.reverse)
    let keyToken ← advance
    let key ←
      match keyToken.kind with
      | .word name => pure name
      | .string text => pure text
      | _ => failAt keyToken .objectKey
    expect .colon .keyColon
    let value ← expression n
    let entries := (key, value) :: entries.filter fun entry => entry.1 ≠ key
    if ← eat .comma then return .inl entries
    expect .closeBrace .entryEnd
    return .inr (.object entries.reverse)

theorem object_succ (n : Nat) : object (n + 1) =
    advance >>= fun _ => grouping true (repeatRounds [] (entryRound n)) := rfl

/-! ### Where expressions end -/

/-- No operator of this group stands here. -/
def Stops (level : Nat) (kind : Token.Kind) : Prop :=
  ∀ op, binaryOp? kind = some op → op.level ≠ level

/-- Whether an expression ends before such a token, wherever it stands. -/
def ends : Token.Kind → Bool
  | .symbol .comma | .symbol .closeParen | .symbol .closeBracket | .symbol .closeBrace | .finish =>
    true
  | _ => false

theorem attaches_of_ends {kind : Token.Kind} (h : ends kind = true) : attaches kind = false := by
  unfold ends at h
  split at h <;> first | rfl | cases h

theorem stops_of_ends {kind : Token.Kind} (h : ends kind = true) (level : Nat) :
    Stops level kind := by
  intro op hop
  unfold ends at h
  split at h <;> first | cases hop | cases h

theorem ne_assign_of_ends {kind : Token.Kind} (h : ends kind = true) :
    kind ≠ .symbol .assign := by
  rintro rfl
  cases h

/-- The expression of a token that is one by itself. -/
def leaf? : Token.Kind → Option Expr
  | .integer n => some (.literal (.integer n))
  | .number x => some (.literal (.number x))
  | .string text => some (.literal (.string text))
  | .keyword .true_ => some (.literal (.boolean true))
  | .keyword .false_ => some (.literal (.boolean false))
  | .keyword .null => some (.literal .null)
  | .word name => some (.ref name)
  | _ => none

/-- A token that is an operand by itself is passed, and no more. -/
theorem primary_of_leaf? (n : Nat) {c : Context} {s : Cursor} {e : Expr}
    (h : leaf? s.current.kind = some e) :
    primary (n + 1) c s = (advance >>= fun _ => pure e) c s := by
  obtain ⟨⟨kind, first, last, newlineBefore⟩, ahead, behind⟩ := s
  cases kind with
  | integer | number | string | word =>
    obtain rfl := Option.some.inj h
    rfl
  | keyword k =>
    cases k
    case true_ | false_ | null =>
      obtain rfl := Option.some.inj h
      rfl
    all_goals cases h
  | symbol | finish => cases h

/-- With an allowance that is at least so large, tokens are read as `a`. -/
def ReadsBy (least : Nat) (enough : Prop) (c : Context) (f : Nat → ParserM α) (ts : List Token)
    (a : α) (ts' : List Token) : Prop :=
  ∀ n, Reads (least ≤ n ∧ enough) c (f n) ts a ts'

namespace ReadsBy

variable {least least' : Nat} {enough enough' : Prop} {c : Context} {f : Nat → ParserM α} {a : α}
  {e e' : Expr} {ts ts₁ ts' : List Token} {t next : Token}

theorem mono (h : ReadsBy least enough c f ts a ts') (hleast : least ≤ least')
    (himp : enough' → enough) : ReadsBy least' enough' c f ts a ts' :=
  fun n => (h n).mono fun hn => ⟨Nat.le_trans hleast hn.1, himp hn.2⟩

theorem succ (hzero : f 0 = exhausted)
    (h : ∀ n, Reads (least ≤ n ∧ enough) c (f (n + 1)) ts a ts') :
    ReadsBy (least + 1) enough c f ts a ts' := by
  rintro (_ | n)
  · rw [hzero]
    exact Reads.exhausted.mono fun hn => absurd hn.1 (Nat.not_succ_le_zero least)
  · exact (h n).mono fun hn => ⟨Nat.le_of_succ_le_succ hn.1, hn.2⟩

/-! ### From operands to expressions -/

/-- What is attached to an operand ends where nothing more attaches. -/
theorem postfixRound_stop {n chained : Nat} (hnext : attaches next.kind = false) :
    Reads enough c (postfixRound n (chained, e)) (next :: ts) (.inr e) (next :: ts) := by
  refine Reads.bind .current ?_
  simp only [hnext, Bool.false_eq_true, if_false]
  split
  case h_4 => exact .pure _
  all_goals
    rename_i hkind
    rw [hkind] at hnext
    cases hnext

/-- An operand with nothing attached to it. -/
theorem postfixed (h : ReadsBy least enough c primary ts e (next :: ts'))
    (hnext : attaches next.kind = false) (hrounds : enough → 0 < c.rounds) :
    ReadsBy (least + 1) enough c postfixed ts e (next :: ts') := by
  refine succ rfl fun n => ?_
  rw [postfixed_succ]
  exact Reads.bind (h n) (Reads.read (.rounds_stop (hrounds ·.2) (postfixRound_stop hnext)))

/-- An operand without an operator in front. -/
theorem unary (h : ReadsBy least enough c Parser.postfixed (t :: ts) e ts')
    (ht : unaryOp? t.kind = none) : ReadsBy (least + 1) enough c unary (t :: ts) e ts' := by
  refine succ rfl fun n => Reads.bind .current ?_
  simp only [ht]
  exact h n

/-- An operand behind a minus sign. -/
theorem negate (h : ReadsBy least enough { c with nesting := c.nesting + 1 } Parser.unary
      (next :: ts) e ts')
    (ht : t.kind = .symbol .minus) (hnesting : enough → c.nesting < maxNesting) :
    ReadsBy (least + 1) enough c Parser.unary (t :: next :: ts) (.unary .negate e) ts' := by
  refine succ rfl fun n => Reads.bind .current ?_
  simp only [ht, unaryOp?]
  refine Reads.bind .advance (Reads.bind (.checkNesting (hnesting ·.2)) ?_)
  exact Reads.bind (.deeper (h n)) (.pure _)

/-- An operation of the tightest kind is an operand. -/
theorem binary_top (h : ReadsBy least enough c Parser.unary ts e ts') :
    ReadsBy (least + 1) enough c (binary · BinaryOp.levels) ts e ts' :=
  succ rfl h

/-- In a round that stops, what was read so far is the result. -/
theorem binaryRound_stop {level n chained : Nat} {left : Expr} (hnext : Stops level next.kind) :
    Reads enough c (binaryRound n level (chained, left)) (next :: ts) (.inr left) (next :: ts) := by
  refine Reads.bind (Reads.bind .current (.read (.pure _))) ?_
  split
  · exact .pure _
  refine Reads.bind .current ?_
  split
  · rename_i op hop
    rw [if_neg (hnext op hop)]
    exact .pure _
  · exact .pure _

/-- An operation of a group, with no operator of the group behind it. -/
theorem binary {level : Nat} (h : ReadsBy least enough c (Parser.binary · (level + 1)) ts e
      (next :: ts'))
    (hlevel : level < BinaryOp.levels) (hnext : Stops level next.kind)
    (hrounds : enough → 0 < c.rounds) :
    ReadsBy (least + 1) enough c (Parser.binary · level) ts e (next :: ts') := by
  refine succ rfl fun n => ?_
  rw [binary_succ, if_neg (Nat.not_le.mpr hlevel)]
  exact Reads.bind (h n) (Reads.read (.rounds_stop (hrounds ·.2) (binaryRound_stop hnext)))

/-- An operation of a group is one of the looser groups whose operators do not stand behind it. -/
theorem binary_looser {level : Nat} (looser : Nat) (hlevel : level + looser ≤ BinaryOp.levels)
    (h : ReadsBy least enough c (Parser.binary · (level + looser)) ts e (next :: ts'))
    (hnext : ∀ k, level ≤ k → k < level + looser → Stops k next.kind)
    (hrounds : enough → 0 < c.rounds) :
    ReadsBy (least + looser) enough c (Parser.binary · level) ts e (next :: ts') := by
  induction looser generalizing least with
  | zero => exact h
  | succ looser ih =>
    have hlooser : ReadsBy (least + 1) enough c (Parser.binary · (level + looser)) ts e
        (next :: ts') := binary h (by omega) (hnext _ (by omega) (by omega)) hrounds
    exact (ih (by omega) hlooser fun k hk hlt => hnext k hk (by omega)).mono (by omega) id

/-- An operation of a group is one of every looser group before the end of an expression. -/
theorem binary_loosest {level : Nat} (hlevel : level ≤ BinaryOp.levels)
    (h : ReadsBy least enough c (Parser.binary · level) ts e (next :: ts'))
    (hnext : ends next.kind = true) (hrounds : enough → 0 < c.rounds) :
    ReadsBy (least + level) enough c (Parser.binary · 0) ts e (next :: ts') :=
  binary_looser level (by rwa [Nat.zero_add]) (by rwa [Nat.zero_add])
    (fun k _ _ => stops_of_ends hnext k) hrounds

/-- A difference of two operations of tighter groups. -/
theorem subtract {op : Token} (hleft : ReadsBy least enough c (Parser.binary · 5) ts e
      (op :: next :: ts'))
    (hright : ReadsBy least enough { c with nesting := c.nesting + 1 } (Parser.binary · 5)
      (next :: ts') e' (t :: ts₁))
    (hop : op.kind = .symbol .minus) (hgrouped : c.grouped = true) (hnext : Stops 4 t.kind)
    (hrounds : enough → 1 < c.rounds) (hnesting : enough → c.nesting < maxNesting) :
    ReadsBy (least + 1) enough c (Parser.binary · 4) ts (.binary e .subtract e') (t :: ts₁) := by
  refine succ rfl fun n => ?_
  rw [binary_succ, if_neg (by decide)]
  refine Reads.bind (hleft n) (Reads.read (.rounds_next (0 + 1, .binary e .subtract e')
    (fun hn => ?_) ?_ (.rounds_stop (fun hn => ?_) (binaryRound_stop hnext))))
  · have := hrounds hn.2
    omega
  · refine Reads.bind (Reads.bind .current (.read (.pure _))) ?_
    simp only [hgrouped, Bool.or_true, Bool.not_true, Bool.false_eq_true, if_false]
    refine Reads.bind .current ?_
    simp only [hop, binaryOp?, BinaryOp.level, if_true]
    refine Reads.bind (.checkNesting (hnesting ·.2)) (Reads.bind .advance ?_)
    exact Reads.bind (.deeper (hright n)) (.pure _)
  · have := hrounds hn.2
    omega

/-- An operation that nothing is assigned to. -/
theorem assignment (h : ReadsBy least enough c (Parser.binary · 0) (t :: ts) e (next :: ts'))
    (hnext : next.kind ≠ .symbol .assign) :
    ReadsBy (least + 1) enough c assignment (t :: ts) e (next :: ts') := by
  refine succ rfl fun n => Reads.bind .current (Reads.bind (h n) ?_)
  exact Reads.bind (.eat_stay hnext) (.pure _)

theorem expression (h : ReadsBy least enough { c with nesting := c.nesting + 1 } Parser.assignment
      ts e ts') (hnesting : enough → c.nesting < maxNesting) :
    ReadsBy (least + 1) enough c expression ts e ts' :=
  succ rfl fun n => Reads.bind (.checkNesting (hnesting ·.2)) (.deeper (h n))

/-- An operation that is a whole expression. -/
theorem expression_of_binary {level : Nat} (hlevel : level ≤ BinaryOp.levels)
    (h : ReadsBy least enough { c with nesting := c.nesting + 1 } (Parser.binary · level) (t :: ts)
      e (next :: ts'))
    (hnext : ends next.kind = true) (hrounds : enough → 0 < c.rounds)
    (hnesting : enough → c.nesting < maxNesting) :
    ReadsBy (least + level + 2) enough c Parser.expression (t :: ts) e (next :: ts') :=
  expression (assignment (binary_loosest hlevel h hnext hrounds) (ne_assign_of_ends hnext)) hnesting

/-- An operand that is a whole expression. -/
theorem expression_of_unary
    (h : ReadsBy least enough { c with nesting := c.nesting + 1 } Parser.unary (t :: ts) e
      (next :: ts'))
    (hnext : ends next.kind = true) (hrounds : enough → 0 < c.rounds)
    (hnesting : enough → c.nesting < maxNesting) :
    ReadsBy (least + 9) enough c Parser.expression (t :: ts) e (next :: ts') := by
  have hbinary := expression_of_binary (Nat.le_refl BinaryOp.levels) (binary_top h) hnext hrounds
    hnesting
  exact hbinary.mono (Nat.le_refl _) id

theorem leaf (h : leaf? t.kind = some e) :
    ReadsBy 1 enough c primary (t :: next :: ts) e (next :: ts) := by
  refine succ rfl fun n s hs => ?_
  obtain ⟨rfl, -⟩ := List.cons.inj hs
  rw [primary_of_leaf? n h]
  exact Reads.bind .advance (.pure e) s hs

/-- A token that is an operand by itself. -/
theorem leaf_unary (c : Context) (ts : List Token) (h : leaf? t.kind = some e)
    (hnext : attaches next.kind = false) (hrounds : enough → 0 < c.rounds) :
    ReadsBy 3 enough c Parser.unary (t :: next :: ts) e (next :: ts) := by
  have ht : unaryOp? t.kind = none := by
    unfold unaryOp?
    split <;> first | rfl | (rename_i hkind; rw [hkind] at h; cases h)
  exact ((leaf h).postfixed hnext hrounds).unary ht

end ReadsBy

/-! ### Values -/

/-- Whether a value may begin with such a token. -/
def opensValue : Token.Kind → Bool
  | .integer _ | .number _ | .string _ | .word _ => true
  | .keyword .true_ | .keyword .false_ | .keyword .null => true
  | .symbol .minus | .symbol .openParen | .symbol .openBracket | .symbol .openBrace => true
  | _ => false

theorem opensValue_kinds (v : Value) : ∃ k ks, v.kinds = k :: ks ∧ opensValue k = true := by
  cases v with
  | string text => exact ⟨_, _, rfl, rfl⟩
  | number x =>
    simp only [Value.kinds, Value.numberKinds, Value.signKinds]
    split_ifs <;> exact ⟨_, _, rfl, rfl⟩
  | integer n =>
    simp only [Value.kinds, Value.integerKinds, Value.signKinds]
    split_ifs <;> exact ⟨_, _, rfl, rfl⟩
  | boolean flag => cases flag <;> exact ⟨_, _, rfl, rfl⟩
  | object fields => exact ⟨_, _, rfl, rfl⟩
  | array items => exact ⟨_, _, rfl, rfl⟩
  | null => exact ⟨_, _, rfl, rfl⟩

/-- The first of the tokens of a value. -/
theorem exists_cons_of_kinds {v : Value} {vs : List Token} (h : vs.map Token.kind = v.kinds) :
    ∃ t ts, vs = t :: ts ∧ opensValue t.kind = true := by
  obtain ⟨k, ks, hks, hopens⟩ := opensValue_kinds v
  rw [hks] at h
  obtain ⟨t, ts, rfl, rfl, -⟩ := List.map_eq_cons_iff.mp h
  exact ⟨t, ts, rfl, hopens⟩

/-- A value is read where an expression may stand. -/
def ReadsValue (enough : Prop) (c : Context) (n : Nat) (v : Value) : Prop :=
  ∀ (vs : List Token) (next : Token) (ts : List Token), vs.map Token.kind = v.kinds →
    ends next.kind = true →
    Reads enough c (expression n) (vs ++ next :: ts) v.sourceExpr (next :: ts)

section Containers

variable {enough : Prop} {c : Context} {n : Nat} {next : Token} {ts : List Token}

theorem ne_symbol_of_opensValue {kind : Token.Kind} {symbol : Symbol}
    (h : opensValue kind = true) (hsymbol : opensValue (.symbol symbol) = false) :
    kind ≠ .symbol symbol := by
  rintro rfl
  rw [h] at hsymbol
  cases hsymbol

theorem advance_append {t : Token} {more : List Token} {last : Token} (ts : List Token) :
    Reads enough c advance (t :: (more ++ last :: ts)) t (more ++ last :: ts) := by
  rcases more with _ | ⟨u, more⟩
  · exact .advance
  · exact .advance

/-- Behind a separator there is another token. -/
theorem eat_separator {symbol : Symbol} {t : Token} {more : List Token} {last : Token}
    {ts : List Token} (h : t.kind = .symbol symbol) :
    Reads enough c (eat symbol) (t :: (more ++ last :: ts)) true (more ++ last :: ts) := by
  rcases more with _ | ⟨u, more⟩
  · exact .eat_pass h
  · exact .eat_pass h

/-- With fewer items than rounds there is a round left for the items behind the first. -/
theorem length_lt_pred {item : α} {items : List α} {count : Nat}
    (hcount : enough → (item :: items).length < count) (henough : enough) :
    items.length < count - 1 :=
  Nat.lt_sub_of_add_lt (hcount henough)

/-- An item with a comma behind it is read in a round that is not the last. -/
theorem itemRound_next {symbol : Symbol} {what : Expected} {t comma : Token}
    {front more : List Token} {e : Expr} (done : List Expr) (hopens : t.kind ≠ .symbol symbol)
    (hread : Reads enough c (expression n) (t :: front) e (comma :: (more ++ next :: ts)))
    (hcomma : comma.kind = .symbol .comma) :
    Reads enough c (itemRound n symbol what done) (t :: front) (.inl (e :: done))
      (more ++ next :: ts) :=
  Reads.bind (.eat_stay hopens) (Reads.bind hread (Reads.bind (eat_separator hcomma) (.pure _)))

/-- An item with the end of the list behind it is read in the last round. -/
theorem itemRound_last {symbol : Symbol} {what : Expected} {t close : Token} {front : List Token}
    {e : Expr} (done : List Expr) (hopens : t.kind ≠ .symbol symbol)
    (hread : Reads enough c (expression n) (t :: front) e (close :: next :: ts))
    (hclose : close.kind = .symbol symbol) (hcomma : symbol ≠ .comma) :
    Reads enough c (itemRound n symbol what done) (t :: front) (.inr (e :: done).reverse)
      (next :: ts) := by
  refine Reads.bind (.eat_stay hopens) (Reads.bind hread ?_)
  refine Reads.bind (.eat_stay (by simp [hclose, hcomma])) ?_
  exact Reads.bind (.expect hclose) (.pure _)

/-- A word or a string names an entry. -/
def Names (key : String) (kind : Token.Kind) : Prop :=
  kind = .word key ∨ kind = .string key

/-- The name of an entry and the colon behind it are read, and then its value. -/
theorem entryRound_reads {key : String} {keyToken colon t : Token} {front ts' : List Token}
    {done : List (String × Expr)} {r : List (String × Expr) ⊕ Expr}
    (hkey : Names key keyToken.kind) (hcolon : colon.kind = .symbol .colon)
    (hrest : Reads enough c (do
      let value ← expression n
      let entries := (key, value) :: done.filter fun entry => entry.1 ≠ key
      if ← eat .comma then return .inl entries
      expect .closeBrace .entryEnd
      return .inr (.object entries.reverse)) (t :: front) r ts') :
    Reads enough c (entryRound n done) (keyToken :: colon :: t :: front) r ts' := by
  rcases hkey with hkey | hkey
  all_goals
    refine Reads.bind (.eat_stay (by simp [hkey])) (Reads.bind .advance ?_)
    simp only [hkey]
    exact Reads.bind (.pure key) (Reads.bind (.expect hcolon) hrest)

/-- An entry with a comma behind it is read in a round that is not the last. -/
theorem entryRound_next {key : String} {keyToken colon comma t : Token} {front more : List Token}
    {e : Expr} (done : List (String × Expr)) (hkey : Names key keyToken.kind)
    (hcolon : colon.kind = .symbol .colon)
    (hread : Reads enough c (expression n) (t :: front) e (comma :: (more ++ next :: ts)))
    (hcomma : comma.kind = .symbol .comma) :
    Reads enough c (entryRound n done) (keyToken :: colon :: t :: front)
      (.inl ((key, e) :: done.filter fun entry => entry.1 ≠ key)) (more ++ next :: ts) :=
  entryRound_reads hkey hcolon (Reads.bind hread (Reads.bind (eat_separator hcomma) (.pure _)))

/-- An entry with the closing brace behind it is read in the last round. -/
theorem entryRound_last {key : String} {keyToken colon close t : Token} {front : List Token}
    {e : Expr} (done : List (String × Expr)) (hkey : Names key keyToken.kind)
    (hcolon : colon.kind = .symbol .colon)
    (hread : Reads enough c (expression n) (t :: front) e (close :: next :: ts))
    (hclose : close.kind = .symbol .closeBrace) :
    Reads enough c (entryRound n done) (keyToken :: colon :: t :: front)
      (.inr (.object ((key, e) :: done.filter fun entry => entry.1 ≠ key).reverse))
      (next :: ts) := by
  refine entryRound_reads hkey hcolon (Reads.bind hread ?_)
  exact Reads.bind (.eat_stay (by simp [hclose])) (Reads.bind (.expect hclose) (.pure _))

/-- Items are read one in a round. -/
theorem rounds_items {close : Token} (hclose : close.kind = .symbol .closeBracket)
    (items : List Value) (hitems : ∀ item ∈ items, ReadsValue enough c n item)
    (done : List Expr) (vs : List Token) (hkinds : vs.map Token.kind = Value.kindsItems items)
    (count : Nat) (hcount : enough → items.length < count) :
    Reads enough c (rounds (itemRound n .closeBracket .closeBracket) count done)
      (vs ++ close :: next :: ts) (done.reverse ++ Value.sourceItems items) (next :: ts) := by
  have hends : ends close.kind = true := by rw [hclose]; rfl
  have hpos (henough : enough) : 0 < count := Nat.zero_lt_of_lt (hcount henough)
  induction items generalizing done vs count with
  | nil =>
    obtain rfl := List.map_eq_nil_iff.mp hkinds
    rw [Value.sourceItems, List.append_nil]
    exact .rounds_stop hpos (Reads.bind (.eat_pass hclose) (.pure _))
  | cons item items ih =>
    have hitem := hitems item List.mem_cons_self
    rw [Value.sourceItems]
    rcases items with _ | ⟨second, items⟩
    · rw [Value.kindsItems] at hkinds
      have hread := hitem vs close (next :: ts) hkinds hends
      obtain ⟨t, vs, rfl, hopens⟩ := exists_cons_of_kinds hkinds
      rw [Value.sourceItems, ← List.reverse_cons]
      exact .rounds_stop hpos
        (itemRound_last done (ne_symbol_of_opensValue hopens rfl) hread hclose (by simp))
    · rw [Value.kindsItems_cons, List.map_eq_append_iff] at hkinds
      obtain ⟨vs, more, rfl, hvs, hmore⟩ := hkinds
      obtain ⟨comma, more, rfl, hcomma, hmore⟩ := List.map_eq_cons_iff.mp hmore
      have hcommaEnds : ends comma.kind = true := by rw [hcomma]; rfl
      have hfewer := length_lt_pred hcount
      have hrest := ih (fun other hother => hitems other (List.mem_cons_of_mem _ hother))
        (item.sourceExpr :: done) more hmore (count - 1) hfewer
        fun henough => Nat.zero_lt_of_lt (hfewer henough)
      rw [List.reverse_cons, List.append_assoc, List.singleton_append] at hrest
      refine .rounds_next (item.sourceExpr :: done) hpos ?_ hrest
      have hread := hitem vs comma (more ++ close :: next :: ts) hvs hcommaEnds
      rw [List.append_assoc, List.cons_append]
      obtain ⟨t, vs, rfl, hopens⟩ := exists_cons_of_kinds hvs
      exact itemRound_next done (ne_symbol_of_opensValue hopens rfl) hread hcomma

/-- Fields are read one in a round. -/
theorem rounds_fields {close : Token} (hclose : close.kind = .symbol .closeBrace)
    (fields : List (String × Value)) (hfields : ∀ field ∈ fields, ReadsValue enough c n field.2)
    (done : List (String × Expr)) (vs : List Token)
    (hkinds : vs.map Token.kind = Value.kindsFields fields)
    (count : Nat) (hcount : enough → fields.length < count) :
    Reads enough c (rounds (entryRound n) count done) (vs ++ close :: next :: ts)
      (.object (Value.sourceFields done fields).reverse) (next :: ts) := by
  have hends : ends close.kind = true := by rw [hclose]; rfl
  have hpos (henough : enough) : 0 < count := Nat.zero_lt_of_lt (hcount henough)
  induction fields generalizing done vs count with
  | nil =>
    obtain rfl := List.map_eq_nil_iff.mp hkinds
    exact .rounds_stop hpos (Reads.bind (.eat_pass hclose) (.pure _))
  | cons field fields ih =>
    obtain ⟨key, value⟩ := field
    have hvalue := hfields (key, value) List.mem_cons_self
    rw [Value.sourceFields]
    rcases fields with _ | ⟨second, fields⟩
    · rw [Value.kindsFields] at hkinds
      obtain ⟨keyToken, vs, rfl, hkey, hkinds⟩ := List.map_eq_cons_iff.mp hkinds
      obtain ⟨colon, vs, rfl, hcolon, hkinds⟩ := List.map_eq_cons_iff.mp hkinds
      have hread := hvalue vs close (next :: ts) hkinds hends
      obtain ⟨t, vs, rfl, hopens⟩ := exists_cons_of_kinds hkinds
      exact .rounds_stop hpos (entryRound_last done (.inr hkey) hcolon hread hclose)
    · rw [Value.kindsFields_cons] at hkinds
      obtain ⟨keyToken, vs, rfl, hkey, hkinds⟩ := List.map_eq_cons_iff.mp hkinds
      obtain ⟨colon, vs, rfl, hcolon, hkinds⟩ := List.map_eq_cons_iff.mp hkinds
      obtain ⟨vs, more, rfl, hvs, hmore⟩ := List.map_eq_append_iff.mp hkinds
      obtain ⟨comma, more, rfl, hcomma, hmore⟩ := List.map_eq_cons_iff.mp hmore
      have hcommaEnds : ends comma.kind = true := by rw [hcomma]; rfl
      have hfewer := length_lt_pred hcount
      refine .rounds_next _ hpos ?_
        (ih (fun other hother => hfields other (List.mem_cons_of_mem _ hother)) _ more hmore
          (count - 1) hfewer fun henough => Nat.zero_lt_of_lt (hfewer henough))
      have hread := hvalue vs comma (more ++ close :: next :: ts) hvs hcommaEnds
      rw [List.cons_append, List.cons_append, List.append_assoc, List.cons_append]
      obtain ⟨t, vs, rfl, hopens⟩ := exists_cons_of_kinds hvs
      exact entryRound_next done (.inr hkey) hcolon hread hcomma

/-- The tokens of fields tell an object from a block. -/
theorem objectAhead_fields {t close : Token} {fields : List (String × Value)} {vs : List Token}
    (hvs : vs.map Token.kind = Value.kindsFields fields)
    (hclose : close.kind = .symbol .closeBrace) :
    Reads enough c objectAhead (t :: (vs ++ close :: next :: ts)) true
      (t :: (vs ++ close :: next :: ts)) := by
  rintro ⟨current, ahead, lastEnd⟩ hs
  refine .inl ⟨_, hs, ?_⟩
  obtain ⟨-, rfl⟩ := List.cons.inj hs
  rcases fields with _ | ⟨⟨key, value⟩, fields⟩
  · obtain rfl := List.map_eq_nil_iff.mp hvs
    obtain ⟨_, first, last, newline⟩ := close
    cases hclose
    rfl
  · obtain ⟨rest, hrest⟩ : ∃ rest, Value.kindsFields ((key, value) :: fields) =
        .string key :: .symbol .colon :: rest := by
      rcases fields with _ | ⟨second, fields⟩ <;> exact ⟨_, rfl⟩
    rw [hrest] at hvs
    obtain ⟨⟨_, first, last, newline⟩, vs, rfl, hkey, hvs⟩ := List.map_eq_cons_iff.mp hvs
    obtain ⟨⟨_, first', last', newline'⟩, vs, rfl, hcolon, hvs⟩ := List.map_eq_cons_iff.mp hvs
    cases hkey
    cases hcolon
    rfl

end Containers

/-- What a value asks for as an operand: rounds for its tokens and open constructs for its depth,
with one for the expression that it stands in. -/
def OperandRoom (c : Context) (v : Value) : Prop :=
  v.kinds.length ≤ c.rounds ∧ c.nesting + v.depth ≤ maxNesting - 1

/-- What a value asks for as an expression. -/
def ExpressionRoom (c : Context) (v : Value) : Prop :=
  v.kinds.length ≤ c.rounds ∧ c.nesting + v.depth ≤ maxNesting - 2

/-- The tokens of a value are read as an operand. -/
def ReadsOperand (v : Value) : Prop :=
  ∀ (c : Context) (vs : List Token) (next : Token) (ts : List Token),
    vs.map Token.kind = v.kinds →
    ReadsBy (16 * v.kinds.length - 12) (OperandRoom c v) c primary (vs ++ next :: ts)
      v.sourceExpr (next :: ts)

/-- The tokens of a value are read as an expression. -/
def ReadsExpression (v : Value) : Prop :=
  ∀ (c : Context) (vs : List Token) (next : Token) (ts : List Token),
    vs.map Token.kind = v.kinds → ends next.kind = true →
    ReadsBy (16 * v.kinds.length) (ExpressionRoom c v) c expression (vs ++ next :: ts)
      v.sourceExpr (next :: ts)

theorem length_kinds_pos (v : Value) : 0 < v.kinds.length :=
  List.length_pos_iff.mpr v.kinds_ne_nil

theorem unaryOp?_of_opensValue {kind : Token.Kind} (h : opensValue kind = true)
    (hkind : kind ≠ .symbol .minus) : unaryOp? kind = none := by
  unfold unaryOp?
  split
  · exact absurd rfl hkind
  · cases h
  · rfl

/-- An operand is an expression, unless it begins with a sign. -/
theorem ReadsOperand.expression {v : Value} (h : ReadsOperand v)
    (hsign : v.kinds.head? ≠ some (.symbol .minus)) : ReadsExpression v := by
  intro c vs next ts hvs hnext
  have hlength := length_kinds_pos v
  have hoperand := h { c with nesting := c.nesting + 1 } vs next ts hvs
  obtain ⟨t, vs, rfl, hopens⟩ := exists_cons_of_kinds hvs
  have ht : t.kind ≠ .symbol .minus := by
    intro hminus
    rw [← hvs] at hsign
    exact hsign (congrArg some hminus)
  have hunary := (hoperand.postfixed (attaches_of_ends hnext) fun hroom => ?_).unary
    (unaryOp?_of_opensValue hopens ht)
  · refine (hunary.expression_of_unary hnext (fun hroom => ?_) fun hroom => ?_).mono ?_
      fun hroom => ⟨hroom.1, ?_⟩
    · exact Nat.lt_of_lt_of_le hlength hroom.1
    · have hnesting : c.nesting + 1 + v.depth ≤ 127 := hroom.2
      have hmax : maxNesting = 128 := rfl
      omega
    · omega
    · have hnesting : c.nesting + v.depth ≤ 126 := hroom.2
      have hmax : maxNesting = 128 := rfl
      dsimp only
      omega
  · exact Nat.lt_of_lt_of_le hlength hroom.1

/-- A value that is a single token. -/
theorem readsOperand_leaf {v : Value} {kind : Token.Kind} (hkinds : v.kinds = [kind])
    (hleaf : leaf? kind = some v.sourceExpr) : ReadsOperand v := by
  intro c vs next ts hvs
  rw [hkinds] at hvs
  obtain ⟨t, rfl, rfl⟩ := List.map_eq_singleton_iff.mp hvs
  exact (ReadsBy.leaf hleaf).mono (by simp [hkinds]) id

/-- A value that is a sign and a single token. -/
theorem readsExpression_signed {v : Value} {kind : Token.Kind} {e : Expr}
    (hkinds : v.kinds = [.symbol .minus, kind]) (hleaf : leaf? kind = some e)
    (hsource : v.sourceExpr = .unary .negate e) : ReadsExpression v := by
  intro c vs next ts hvs hnext
  rw [hkinds] at hvs
  obtain ⟨sign, vs, rfl, hsign, hvs⟩ := List.map_eq_cons_iff.mp hvs
  obtain ⟨t, rfl, rfl⟩ := List.map_eq_singleton_iff.mp hvs
  have hrounds (hroom : ExpressionRoom c v) : 0 < c.rounds :=
    Nat.lt_of_lt_of_le (length_kinds_pos v) hroom.1
  have hnesting (hroom : ExpressionRoom c v) : c.nesting + 1 < maxNesting := by
    have hle : c.nesting + v.depth ≤ 126 := hroom.2
    have hmax : maxNesting = 128 := rfl
    omega
  have hoperand : ReadsBy 3 (ExpressionRoom c v) { c with nesting := c.nesting + 2 } unary
      (t :: next :: ts) e (next :: ts) := .leaf_unary _ ts hleaf (attaches_of_ends hnext) hrounds
  have hnegated : ReadsBy 4 (ExpressionRoom c v) { c with nesting := c.nesting + 1 } unary
      (sign :: t :: next :: ts) (.unary .negate e) (next :: ts) := hoperand.negate hsign hnesting
  rw [hsource]
  refine (hnegated.expression_of_unary hnext hrounds fun hroom => ?_).mono
    (by simp [hkinds]) id
  have := hnesting hroom
  omega

/-- The least integer is read as a difference. -/
theorem readsOperand_minValue : ReadsOperand (.integer Int64.minValue) := by
  intro c vs next ts hvs
  obtain ⟨opening, vs, rfl, hopening, hvs⟩ := List.map_eq_cons_iff.mp hvs
  obtain ⟨sign, vs, rfl, hsign, hvs⟩ := List.map_eq_cons_iff.mp hvs
  obtain ⟨left, vs, rfl, hleft, hvs⟩ := List.map_eq_cons_iff.mp hvs
  obtain ⟨minus, vs, rfl, hminus, hvs⟩ := List.map_eq_cons_iff.mp hvs
  obtain ⟨right, vs, rfl, hright, hvs⟩ := List.map_eq_cons_iff.mp hvs
  obtain ⟨closing, rfl, hclosing⟩ := List.map_eq_singleton_iff.mp hvs
  have hrounds (hroom : OperandRoom c (.integer Int64.minValue)) : 1 < c.rounds :=
    Nat.lt_of_lt_of_le (by decide) hroom.1
  have hpos (hroom : OperandRoom c (.integer Int64.minValue)) : 0 < c.rounds :=
    Nat.lt_of_lt_of_le (by decide) hroom.1
  have hnesting (hroom : OperandRoom c (.integer Int64.minValue)) :
      c.nesting + 1 < maxNesting := by
    have hle : c.nesting + 1 ≤ 127 := hroom.2
    exact Nat.lt_succ_of_le hle
  have hends : ends closing.kind = true := by rw [hclosing]; rfl
  have hstops : Stops 5 minus.kind := by
    rw [hminus]
    rintro _ ⟨⟩
    decide
  -- the sign applies to the left operand only, which ends before the second minus sign
  have hmagnitude : ReadsBy 3 (OperandRoom c (.integer Int64.minValue))
      { c with grouped := true, nesting := c.nesting + 2 } unary
      (left :: minus :: right :: closing :: next :: ts) (.literal (.integer Int64.maxValue))
      (minus :: right :: closing :: next :: ts) :=
    .leaf_unary _ _ (by rw [hleft]; rfl) (by rw [hminus]; rfl) hpos
  have hnegated : ReadsBy 4 (OperandRoom c (.integer Int64.minValue))
      { c with grouped := true, nesting := c.nesting + 1 } unary
      (sign :: left :: minus :: right :: closing :: next :: ts)
      (.unary .negate (.literal (.integer Int64.maxValue)))
      (minus :: right :: closing :: next :: ts) :=
    hmagnitude.negate hsign hnesting
  have hone : ReadsBy 3 (OperandRoom c (.integer Int64.minValue))
      { c with grouped := true, nesting := c.nesting + 2 } unary
      (right :: closing :: next :: ts) (.literal (.integer 1)) (closing :: next :: ts) :=
    .leaf_unary _ _ (by rw [hright]; rfl) (attaches_of_ends hends) hpos
  have hdifference := (hnegated.binary_top.binary (by decide) hstops hpos).subtract
    ((hone.binary_top.binary (by decide) (stops_of_ends hends 5) hpos).mono (by decide) id)
    hminus rfl (stops_of_ends hends 4) hrounds hnesting
  have hinner := ReadsBy.expression_of_binary (c := { c with grouped := true }) (by decide)
    hdifference hends hpos fun hroom => Nat.lt_of_succ_lt (hnesting hroom)
  have hprimary : ReadsBy (6 + 1 + 4 + 2 + 1) (OperandRoom c (.integer Int64.minValue)) c primary
      (opening :: sign :: left :: minus :: right :: closing :: next :: ts)
      (Value.integer Int64.minValue).sourceExpr (next :: ts) := by
    refine ReadsBy.succ rfl fun n => Reads.bind .current ?_
    simp only [hopening]
    refine Reads.bind .advance (Reads.bind (.grouping (hinner n)) ?_)
    exact Reads.bind (.expect hclosing) (.pure _)
  exact hprimary.mono (by decide) id

/-! ### Containers -/

theorem length_kinds_le_items {item : Value} {items : List Value} (h : item ∈ items) :
    item.kinds.length ≤ (Value.kindsItems items).length := by
  induction items with
  | nil => cases h
  | cons first items ih =>
    rcases items with _ | ⟨second, items⟩
    · rw [List.mem_singleton.mp h]
      exact Nat.le_refl _
    · rw [Value.kindsItems_cons, List.length_append, List.length_cons]
      rcases List.mem_cons.mp h with rfl | h
      · omega
      · have := ih h
        omega

theorem length_items_le (items : List Value) : items.length ≤ (Value.kindsItems items).length := by
  induction items with
  | nil => exact Nat.le_refl _
  | cons first items ih =>
    have hfirst := length_kinds_pos first
    rcases items with _ | ⟨second, items⟩
    · exact hfirst
    · rw [Value.kindsItems_cons]
      simp only [List.length_append, List.length_cons] at ih ⊢
      omega

theorem depth_le_items {item : Value} {items : List Value} (h : item ∈ items) :
    item.depth ≤ Value.depthItems items := by
  induction items with
  | nil => cases h
  | cons first items ih =>
    rw [Value.depthItems]
    rcases List.mem_cons.mp h with rfl | h
    · exact Nat.le_max_left _ _
    · exact Nat.le_trans (ih h) (Nat.le_max_right _ _)

theorem length_kinds_le_fields {field : String × Value} {fields : List (String × Value)}
    (h : field ∈ fields) : field.2.kinds.length ≤ (Value.kindsFields fields).length := by
  induction fields with
  | nil => cases h
  | cons first fields ih =>
    obtain ⟨key, value⟩ := first
    rcases fields with _ | ⟨second, fields⟩
    · rw [List.mem_singleton.mp h]
      exact Nat.le_succ_of_le (Nat.le_succ _)
    · rw [Value.kindsFields_cons, List.length_cons, List.length_cons, List.length_append,
        List.length_cons]
      rcases List.mem_cons.mp h with rfl | h
      · dsimp only
        omega
      · have := ih h
        omega

theorem length_fields_le (fields : List (String × Value)) :
    fields.length ≤ (Value.kindsFields fields).length := by
  induction fields with
  | nil => exact Nat.le_refl _
  | cons first fields ih =>
    obtain ⟨key, value⟩ := first
    rcases fields with _ | ⟨second, fields⟩
    · simp [Value.kindsFields]
    · rw [Value.kindsFields_cons]
      simp only [List.length_append, List.length_cons] at ih ⊢
      omega

theorem depth_le_fields {field : String × Value} {fields : List (String × Value)}
    (h : field ∈ fields) : field.2.depth ≤ Value.depthFields fields := by
  induction fields with
  | nil => cases h
  | cons first fields ih =>
    obtain ⟨key, value⟩ := first
    rw [Value.depthFields]
    rcases List.mem_cons.mp h with rfl | h
    · exact Nat.le_max_left _ _
    · exact Nat.le_trans (ih h) (Nat.le_max_right _ _)

/-- The room for an array is room for its items. -/
theorem OperandRoom.item {c : Context} {items : List Value} {item : Value}
    (h : OperandRoom c (.array items)) (hitem : item ∈ items) :
    ExpressionRoom { c with grouped := true } item := by
  have hlength := length_kinds_le_items hitem
  have hdepth := depth_le_items hitem
  have hrounds : (Value.array items).kinds.length ≤ c.rounds := h.1
  have hnesting : c.nesting + (Value.depthItems items + 1) ≤ maxNesting - 1 := h.2
  refine ⟨?_, ?_⟩
  · simp only [Value.kinds, List.length_cons, List.length_append] at hrounds
    dsimp only
    omega
  · dsimp only
    omega

/-- The room for an object is room for the values of its fields. -/
theorem OperandRoom.field {c : Context} {fields : List (String × Value)} {field : String × Value}
    (h : OperandRoom c (.object fields)) (hfield : field ∈ fields) :
    ExpressionRoom { c with grouped := true } field.2 := by
  have hlength := length_kinds_le_fields hfield
  have hdepth := depth_le_fields hfield
  have hrounds : (Value.object fields).kinds.length ≤ c.rounds := h.1
  have hnesting : c.nesting + (Value.depthFields fields + 1) ≤ maxNesting - 1 := h.2
  refine ⟨?_, ?_⟩
  · simp only [Value.kinds, List.length_cons, List.length_append] at hrounds
    dsimp only
    omega
  · dsimp only
    omega

/-- An array is read if its items are. -/
theorem readsOperand_array {items : List Value} (h : ∀ item ∈ items, ReadsExpression item) :
    ReadsOperand (.array items) := by
  intro c all next ts hall
  rw [Value.kinds] at hall
  obtain ⟨opening, all, rfl, hopening, hall⟩ := List.map_eq_cons_iff.mp hall
  obtain ⟨vs, last, rfl, hvs, hlast⟩ := List.map_eq_append_iff.mp hall
  obtain ⟨closing, rfl, hclosing⟩ := List.map_eq_singleton_iff.mp hlast
  have hlength : (Value.array items).kinds.length = (Value.kindsItems items).length + 2 := by
    simp [Value.kinds]
  have hdelimited : ReadsBy (16 * (Value.kindsItems items).length + 1)
      (OperandRoom c (.array items)) c (delimited · .closeBracket .closeBracket)
      (vs ++ closing :: next :: ts) (Value.sourceItems items) (next :: ts) := by
    refine ReadsBy.succ rfl fun n => .grouping (.read (rounds_items hclosing items ?_ [] vs hvs
      c.rounds fun henough => ?_))
    · intro item hitem vs next ts hvs hnext
      refine (h item hitem { c with grouped := true } vs next ts hvs hnext n).mono
        fun henough => ⟨?_, henough.2.item hitem⟩
      have hitemLength := length_kinds_le_items hitem
      omega
    · have hcount := length_items_le items
      have hrounds := henough.2.1
      omega
  have hprimary : ReadsBy (16 * (Value.kindsItems items).length + 1 + 1)
      (OperandRoom c (.array items)) c primary (opening :: (vs ++ closing :: next :: ts))
      (.array (Value.sourceItems items)) (next :: ts) := by
    refine ReadsBy.succ rfl fun n => Reads.bind .current ?_
    simp only [hopening]
    exact Reads.bind (advance_append _) (Reads.bind (hdelimited n) (.pure _))
  rw [List.cons_append, List.append_assoc, List.singleton_append, Value.sourceExpr]
  exact hprimary.mono (by omega) id

/-- An object is read if the values of its fields are. -/
theorem readsOperand_object {fields : List (String × Value)}
    (h : ∀ field ∈ fields, ReadsExpression field.2) : ReadsOperand (.object fields) := by
  intro c all next ts hall
  rw [Value.kinds] at hall
  obtain ⟨opening, all, rfl, hopening, hall⟩ := List.map_eq_cons_iff.mp hall
  obtain ⟨vs, last, rfl, hvs, hlast⟩ := List.map_eq_append_iff.mp hall
  obtain ⟨closing, rfl, hclosing⟩ := List.map_eq_singleton_iff.mp hlast
  have hlength : (Value.object fields).kinds.length = (Value.kindsFields fields).length + 2 := by
    simp [Value.kinds]
  have hobject : ReadsBy (16 * (Value.kindsFields fields).length + 1)
      (OperandRoom c (.object fields)) c object (opening :: (vs ++ closing :: next :: ts))
      (.object (Value.sourceFields [] fields).reverse) (next :: ts) := by
    refine ReadsBy.succ rfl fun n => Reads.bind (advance_append _) (.grouping (.read
      (rounds_fields hclosing fields ?_ [] vs hvs c.rounds fun henough => ?_)))
    · intro field hfield vs next ts hvs hnext
      refine (h field hfield { c with grouped := true } vs next ts hvs hnext n).mono
        fun henough => ⟨?_, henough.2.field hfield⟩
      have hfieldLength := length_kinds_le_fields hfield
      omega
    · have hcount := length_fields_le fields
      have hrounds := henough.2.1
      omega
  have hprimary : ReadsBy (16 * (Value.kindsFields fields).length + 1 + 1)
      (OperandRoom c (.object fields)) c primary (opening :: (vs ++ closing :: next :: ts))
      (.object (Value.sourceFields [] fields).reverse) (next :: ts) := by
    refine ReadsBy.succ rfl fun n => Reads.bind .current ?_
    simp only [hopening]
    refine Reads.bind (objectAhead_fields hvs hclosing) ?_
    exact hobject n
  rw [List.cons_append, List.append_assoc, List.singleton_append, Value.sourceExpr]
  exact hprimary.mono (by omega) id

/-! ### All values -/

/-- A double is one token behind a sign. -/
theorem number_leaf (x : Double) : ∃ kind e, leaf? kind = some e ∧
    ((Value.number x).kinds = [kind] ∧ (Value.number x).sourceExpr = e ∨
      (Value.number x).kinds = [.symbol .minus, kind] ∧
        (Value.number x).sourceExpr = .unary .negate e) := by
  simp only [Value.kinds, Value.numberKinds, Value.signKinds, Value.sourceExpr, Value.signed]
  split_ifs
  · exact ⟨_, _, rfl, .inl ⟨rfl, rfl⟩⟩
  · exact ⟨_, _, rfl, .inr ⟨rfl, rfl⟩⟩
  · exact ⟨_, _, rfl, .inr ⟨rfl, rfl⟩⟩
  · exact ⟨_, _, rfl, .inl ⟨rfl, rfl⟩⟩
  · exact ⟨_, _, rfl, .inl ⟨rfl, rfl⟩⟩

/-- An integer other than the least is one token behind a sign. -/
theorem integer_leaf {n : Int64} (h : n ≠ Int64.minValue) : ∃ kind e, leaf? kind = some e ∧
    ((Value.integer n).kinds = [kind] ∧ (Value.integer n).sourceExpr = e ∨
      (Value.integer n).kinds = [.symbol .minus, kind] ∧
        (Value.integer n).sourceExpr = .unary .negate e) := by
  simp only [Value.kinds, Value.integerKinds, Value.signKinds, Value.sourceExpr, Value.signed,
    decide_eq_true_eq, if_neg h]
  split_ifs
  · exact ⟨_, _, rfl, .inr ⟨rfl, rfl⟩⟩
  · exact ⟨_, _, rfl, .inl ⟨rfl, rfl⟩⟩

/-- A value of one token, with or without a sign. -/
theorem readsExpression_leaf {v : Value} {kind : Token.Kind} {e : Expr}
    (hleaf : leaf? kind = some e)
    (h : v.kinds = [kind] ∧ v.sourceExpr = e ∨
      v.kinds = [.symbol .minus, kind] ∧ v.sourceExpr = .unary .negate e) : ReadsExpression v := by
  rcases h with ⟨hkinds, rfl⟩ | ⟨hkinds, hsource⟩
  · refine (readsOperand_leaf hkinds hleaf).expression ?_
    rw [hkinds]
    rintro ⟨⟩
    cases hleaf
  · exact readsExpression_signed hkinds hleaf hsource

/-- The tokens of every value are read as an expression. -/
theorem readsExpression (v : Value) : ReadsExpression v := by
  induction v with
  | string text => exact readsExpression_leaf rfl (.inl ⟨rfl, rfl⟩)
  | number x =>
    obtain ⟨kind, e, hleaf, h⟩ := number_leaf x
    exact readsExpression_leaf hleaf h
  | integer n =>
    by_cases hmin : n = Int64.minValue
    · subst hmin
      exact readsOperand_minValue.expression (by simp [Value.kinds, Value.integerKinds])
    · obtain ⟨kind, e, hleaf, h⟩ := integer_leaf hmin
      exact readsExpression_leaf hleaf h
  | boolean flag => cases flag <;> exact readsExpression_leaf rfl (.inl ⟨rfl, rfl⟩)
  | null => exact readsExpression_leaf rfl (.inl ⟨rfl, rfl⟩)
  | array items ih => exact (readsOperand_array ih).expression (by simp [Value.kinds])
  | object fields ih => exact (readsOperand_object ih).expression (by simp [Value.kinds])

/-- The tokens of a value without a sign in front are read as an operand. -/
theorem readsOperand {v : Value} (h : v.kinds.head? ≠ some (.symbol .minus)) : ReadsOperand v := by
  cases v with
  | string text => exact readsOperand_leaf rfl rfl
  | number x =>
    obtain ⟨kind, e, hleaf, ⟨hkinds, rfl⟩ | ⟨hkinds, -⟩⟩ := number_leaf x
    · exact readsOperand_leaf hkinds hleaf
    · exact absurd (congrArg List.head? hkinds) h
  | integer n =>
    by_cases hmin : n = Int64.minValue
    · subst hmin
      exact readsOperand_minValue
    · obtain ⟨kind, e, hleaf, ⟨hkinds, rfl⟩ | ⟨hkinds, -⟩⟩ := integer_leaf hmin
      · exact readsOperand_leaf hkinds hleaf
      · exact absurd (congrArg List.head? hkinds) h
  | boolean flag => cases flag <;> exact readsOperand_leaf rfl rfl
  | null => exact readsOperand_leaf rfl rfl
  | array items => exact readsOperand_array fun item _ => readsExpression item
  | object fields => exact readsOperand_object fun field _ => readsExpression field.2

end Parser

end Covenant
