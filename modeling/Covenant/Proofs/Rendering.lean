import Covenant.Engine
import Covenant.Proofs.Literals
import Covenant.Proofs.Tracing

/-!
# Rendering is inverted by reading and evaluating

The source form of a value is a script of one statement, and that evaluates to the value again. The
value may have any strings and keys, any integers and finite doubles of either sign, and containers
of any width, as long as it is not nested deeper than the reader allows.

## Main definitions

* `Eval.Gives` : an evaluation that ends with a given value, whatever the world.

## Main results

* `parse_render` : the source form of a value is read as one statement.
* `Value.eval_sourceExpr` : what is read evaluates to the value.
* `execute_render` : executing the source form of a value yields the value.
-/

namespace Covenant

/-! ### Reading -/

namespace Parser

variable {α β : Type}

theorem bind_run (p : ParserM α) (f : α → ParserM β) (c : Context) (s : Cursor) :
    (p >>= f) c s = p c s >>= fun r => f r.1 c r.2 := rfl

theorem bind_of_run {p : ParserM α} {f : α → ParserM β} {c : Context} {s s₁ : Cursor} {a : α}
    (h : p c s = .ok (a, s₁)) : (p >>= f) c s = f a c s₁ := by
  simp only [bind, ReaderT.bind, StateT.bind, h, Except.bind]

/-- A statement that begins with a value is an expression. -/
theorem blockItem_reads {enough : Prop} {c : Context} {n : Nat} {t : Token} {ts ts' : List Token}
    {e : Expr} (h : Reads enough c (expression n) (t :: ts) e ts')
    (ht : opensValue t.kind = true) : Reads enough c (blockItem (n + 1)) (t :: ts) e ts' := by
  refine Reads.bind .current ?_
  split
  case h_4 => exact h
  all_goals
    rename_i hkind
    rw [hkind] at ht
    cases ht

/-- A statement whose expression is not too deep. -/
theorem statement_run {allowance : Nat} {c : Context} {s s' : Cursor} {e : Expr}
    (h : blockItem allowance c s = .ok (e, s')) (hdepth : e.depth ≤ maxNesting) :
    ∃ location, statement allowance c s = .ok (⟨e, location⟩, s') := by
  refine ⟨some (Location.between c.file s.current.first s'.lastEnd), ?_⟩
  have hnot : ¬maxNesting < e.depth := Nat.not_lt.mpr hdepth
  have hstart : current c s = .ok (s.current, s) := rfl
  rw [statement, bind_of_run hstart, bind_of_run h, if_neg hnot]
  rfl

theorem eat_of_ne {c : Context} {s : Cursor} {symbol : Symbol}
    (h : s.current.kind ≠ .symbol symbol) : eat symbol c s = .ok (false, s) := by
  have hat : atSymbol symbol c s = .ok (false, s) := by
    change Except.ok (decide (s.current.kind = .symbol symbol), s) = _
    rw [decide_eq_false h]
  rw [eat, bind_of_run hat]
  rfl

theorem atFinish_run (c : Context) (s : Cursor) :
    atFinish c s = .ok (decide (s.current.kind = .finish), s) := rfl

theorem atFinish_reads {enough : Prop} {c : Context} {t : Token} {ts : List Token} :
    Reads enough c atFinish (t :: ts) (decide (t.kind = .finish)) (t :: ts) :=
  Reads.bind .current (.pure _)

theorem statementEnd_finish {enough : Prop} {c : Context} {t : Token} {ts : List Token}
    (ht : t.kind = .finish) : Reads enough c statementEnd (t :: ts) () (t :: ts) := by
  refine Reads.bind (.eat_stay (by simp [ht])) (Reads.bind atFinish_reads ?_)
  simp only [ht, decide_true, if_true]
  exact .pure _

/-- One more statement of a script. -/
def statementRound (allowance : Nat) :
    List Statement → ParserM (List Statement ⊕ List Statement) :=
  fun read => do
    if ← atFinish then return .inr read.reverse
    if ← eat .semicolon then return .inl read
    let s ← statement allowance
    statementEnd
    return .inl (s :: read)

theorem statements_eq (allowance : Nat) :
    statements allowance = repeatRounds [] (statementRound allowance) := rfl

/-- Reading starts at the first token, with nothing open around it. -/
theorem readStatements_cons (allowance : Nat) (file : String) (first : Token)
    (ahead : List Token) : readStatements allowance file (first :: ahead) =
      statements allowance ⟨file, 0, false, false, ahead.length + 2⟩ ⟨first, ahead, .start⟩ >>=
        fun r => pure r.1 := rfl

theorem statementRound_finish {enough : Prop} {c : Context} {allowance : Nat} {t : Token}
    {ts : List Token} (read : List Statement) (ht : t.kind = .finish) :
    Reads enough c (statementRound allowance read) (t :: ts) (.inr read.reverse) (t :: ts) := by
  refine Reads.bind atFinish_reads ?_
  simp only [ht, decide_true, if_true]
  exact .pure _

/-- A round that reads a statement of the right depth up to where a statement ends. -/
theorem statementRound_run {allowance : Nat} {c : Context} {s : Cursor} {e : Expr}
    {ts : List Token} (hfinish : s.current.kind ≠ .finish)
    (hsemicolon : s.current.kind ≠ .symbol .semicolon)
    (h : Reads True c (blockItem allowance) s.tokens e ts)
    (hend : Reads True c statementEnd ts () ts) (hdepth : e.depth ≤ maxNesting)
    (read : List Statement) :
    ∃ location s', s'.tokens = ts ∧
      statementRound allowance read c s = .ok (.inl (⟨e, location⟩ :: read), s') := by
  obtain ⟨s₁, hs₁, hrun⟩ := h.run trivial rfl
  obtain ⟨location, hstatement⟩ := statement_run hrun hdepth
  obtain ⟨s', hs', hend⟩ := hend.run trivial hs₁
  refine ⟨location, s', hs', ?_⟩
  rw [statementRound, bind_of_run (atFinish_run c s), decide_eq_false hfinish,
    if_neg (by decide), bind_of_run (eat_of_ne hsemicolon), if_neg (by decide),
    bind_of_run hstatement, bind_of_run hend]
  rfl

/-- Tokens that are read as an expression of the right depth, up to the end of the text, are one
statement. -/
theorem readStatements_expression (allowance : Nat) (file : String) {e : Expr} {t finish : Token}
    {ts : List Token} (ht : opensValue t.kind = true) (hfinish : finish.kind = .finish)
    (hdepth : e.depth ≤ maxNesting)
    (h : ∀ c : Context, c.nesting = 0 → c.rounds = ts.length + 3 →
      Reads True c (expression allowance) (t :: (ts ++ [finish])) e [finish]) :
    ∃ location, readStatements (allowance + 1) file (t :: (ts ++ [finish])) =
      .ok [⟨e, location⟩] := by
  set c : Context := ⟨file, 0, false, false, (ts ++ [finish]).length + 2⟩ with hc
  have hitem : Reads True c (blockItem (allowance + 1)) (t :: (ts ++ [finish])) e [finish] :=
    blockItem_reads (h c rfl (by simp [hc])) ht
  have hnot : t.kind ≠ .finish := by
    intro hkind
    rw [hkind] at ht
    cases ht
  obtain ⟨location, s₁, hs₁, hfirst⟩ :=
    statementRound_run (s := ⟨t, ts ++ [finish], .start⟩) hnot (ne_symbol_of_opensValue ht rfl)
      hitem (statementEnd_finish hfinish) hdepth []
  obtain ⟨s₂, -, hsecond⟩ :=
    (statementRound_finish (c := c) [⟨e, location⟩] hfinish).run trivial hs₁
  have hrun : statements (allowance + 1) c ⟨t, ts ++ [finish], .start⟩ =
      .ok ([⟨e, location⟩], s₂) := by
    change rounds (statementRound _) ((ts ++ [finish]).length + 2) [] c _ = _
    rw [rounds, bind_of_run hfirst]
    change rounds (statementRound _) ((ts ++ [finish]).length + 1) _ c _ = _
    rw [rounds, bind_of_run hsecond]
    rfl
  refine ⟨location, ?_⟩
  change (statements (allowance + 1) c ⟨t, ts ++ [finish], .start⟩ >>= _) = _
  rw [hrun]
  rfl

/-- The tokens of a value up to the end of the text are one statement. -/
theorem readStatements_value {v : Value} (hdepth : v.depth ≤ maxNesting - 2)
    (hsource : v.sourceExpr.depth ≤ maxNesting) {ts : List Token}
    (hts : ts.map Token.kind = v.kinds ++ [.finish]) (file : String) :
    ∃ location, readStatements (descentAllowance ts.length) file ts =
      .ok [⟨v.sourceExpr, location⟩] := by
  obtain ⟨vs, last, rfl, hvs, hlast⟩ := List.map_eq_append_iff.mp hts
  obtain ⟨finish, rfl, hfinish⟩ := List.map_eq_singleton_iff.mp hlast
  have hlength : vs.length = v.kinds.length := by rw [← hvs, List.length_map]
  obtain ⟨t, vs, rfl, hopens⟩ := exists_cons_of_kinds hvs
  have hends : ends finish.kind = true := by rw [hfinish]; rfl
  have hallowance : descentAllowance ((t :: vs) ++ [finish]).length =
      16 * v.kinds.length + 31 + 1 := by
    rw [descentAllowance, List.length_append, hlength, List.length_singleton]
    omega
  rw [hallowance]
  refine readStatements_expression _ file hopens hfinish hsource fun c hnesting hrounds => ?_
  have hroom : ExpressionRoom c v := by
    refine ⟨?_, by simpa [hnesting] using hdepth⟩
    rw [List.length_cons] at hlength
    omega
  exact (readsExpression v c (t :: vs) finish [] hvs hends _).mono fun _ => ⟨by omega, hroom⟩

end Parser

/-! ### The depth of what is read -/

namespace Value

theorem mem_sourceItems {items : List Value} {e : Expr} (h : e ∈ sourceItems items) :
    ∃ item ∈ items, item.sourceExpr = e := by
  induction items with
  | nil => cases h
  | cons item items ih =>
    rw [sourceItems] at h
    rcases List.mem_cons.mp h with rfl | h
    · exact ⟨item, List.mem_cons_self, rfl⟩
    · obtain ⟨other, hother, rfl⟩ := ih h
      exact ⟨other, List.mem_cons_of_mem _ hother, rfl⟩

theorem mem_sourceFields {fields : List (String × Value)} {done : List (String × Expr)}
    {entry : String × Expr} (h : entry ∈ sourceFields done fields) :
    entry ∈ done ∨ ∃ field ∈ fields, field.2.sourceExpr = entry.2 := by
  induction fields generalizing done with
  | nil => exact .inl h
  | cons field fields ih =>
    obtain ⟨key, value⟩ := field
    rw [sourceFields] at h
    rcases ih h with hdone | ⟨other, hother, heq⟩
    · rcases List.mem_cons.mp hdone with rfl | hdone
      · exact .inr ⟨(key, value), List.mem_cons_self, rfl⟩
      · exact .inl (List.mem_filter.mp hdone).1
    · exact .inr ⟨other, List.mem_cons_of_mem _ hother, heq⟩

/-- A literal, with or without a sign, has at most two levels. -/
theorem depth_signed_le (negative : Bool) {e : Expr} (h : e.children = []) :
    (signed negative e).depth ≤ 2 := by
  have he : e.depth ≤ 1 := by
    rw [Expr.depth_le_succ_iff, h]
    exact fun _ hpart => nomatch hpart
  unfold signed
  split
  · rw [Expr.depth_le_succ_iff]
    simpa [Expr.children] using he
  · omega

/-- What the source form of a value is read as is at most two levels deeper than the value. -/
theorem depth_sourceExpr_le (v : Value) : v.sourceExpr.depth ≤ v.depth + 2 := by
  have hleaf {e : Expr} (h : e.children = []) : e.depth ≤ 1 := by
    rw [Expr.depth_le_succ_iff, h]
    exact fun _ hpart => nomatch hpart
  induction v with
  | string text | boolean flag | null => exact Nat.le_trans (hleaf rfl) (by simp [depth])
  | number x =>
    have hdepth : (number x).depth = 1 := rfl
    rw [sourceExpr, hdepth]
    split
    · exact Nat.le_trans (hleaf rfl) (by decide)
    · refine Nat.le_trans (depth_signed_le _ ?_) (by decide)
      split <;> rfl
  | integer n =>
    have hdepth : (integer n).depth = 1 := rfl
    rw [sourceExpr, hdepth]
    split
    · rw [Expr.depth_le_succ_iff]
      simp only [Expr.children, List.mem_cons, List.not_mem_nil, or_false]
      rintro part (rfl | rfl)
      · exact depth_signed_le true rfl
      · exact Nat.le_trans (hleaf rfl) (by decide)
    · exact Nat.le_trans (depth_signed_le _ rfl) (by decide)
  | array items ih =>
    rw [sourceExpr, depth, Nat.add_right_comm, Expr.depth_le_succ_iff]
    intro part hpart
    obtain ⟨item, hitem, rfl⟩ := mem_sourceItems hpart
    exact Nat.le_trans (ih item hitem) (Nat.add_le_add_right (Parser.depth_le_items hitem) 2)
  | object fields ih =>
    rw [sourceExpr, depth, Nat.add_right_comm, Expr.depth_le_succ_iff]
    intro part hpart
    obtain ⟨entry, hentry, rfl⟩ := List.mem_map.mp hpart
    obtain hnil | ⟨field, hfield, heq⟩ := mem_sourceFields (List.mem_reverse.mp hentry)
    · cases hnil
    · rw [← heq]
      exact Nat.le_trans (ih field hfield) (Nat.add_le_add_right (Parser.depth_le_fields hfield) 2)

end Value

/-- The script of a text with these tokens. -/
theorem parse_of_tokens {name source : String} {ts : List Token} {statements : List Statement}
    (hts : Lexer.tokens source = .ok ts)
    (hread : Parser.readStatements (Parser.descentAllowance ts.length) name ts = .ok statements) :
    parse name source = .ok ⟨name, statements, source, []⟩ := by
  have htokens : Lexer.tokenize name source = .ok ts := by
    rw [Lexer.tokenize, hts]
  rw [parse, htokens]
  change (Parser.readStatements _ name ts >>= _) = _
  rw [hread]
  rfl

/-- The source form of a value is read as a script of one statement. -/
theorem parse_render {v : Value} (h : v.depth ≤ maxNesting - 2) (name : String) :
    ∃ script location, parse name v.render = .ok script ∧
      script.statements = [⟨v.sourceExpr, location⟩] := by
  obtain ⟨ts, hts, hkinds, -⟩ := (@Value.spells_render v [] trivial).tokens
  have hsource : v.sourceExpr.depth ≤ maxNesting := by
    have hle := v.depth_sourceExpr_le
    have hmax : maxNesting = 128 := rfl
    omega
  obtain ⟨location, hstatements⟩ := Parser.readStatements_value h hsource hkinds name
  exact ⟨_, location, parse_of_tokens hts hstatements, rfl⟩

/-! ### Evaluating -/

namespace Eval

variable {ι σ α β : Type}

/-- From every world, an evaluation ends with this value. -/
def Gives (x : Eval σ α) (a : α) : Prop :=
  ∀ w, ∃ w', x w = .ok a w'

namespace Gives

theorem pure (a : α) : Gives (pure a : Eval σ α) a := fun w => ⟨w, rfl⟩

theorem bind {x : Eval σ α} {f : α → Eval σ β} {a : α} {b : β} (hx : Gives x a)
    (hf : Gives (f a) b) : Gives (x >>= f) b := by
  intro w
  obtain ⟨w₁, hw₁⟩ := hx w
  obtain ⟨w', hw'⟩ := hf w₁
  exact ⟨w', (bind_of_ok hw₁).trans hw'⟩

/-- Without a limit on steps, an evaluation gives the value that it leads to. -/
theorem of_leads {limits : Limits} {bound : Nat → Nat} {x : Eval σ α} {a : α}
    (hsteps : limits.maxSteps = none) (h : ∀ n w, Leads limits n (bound n) x w (.ok a w)) :
    Gives x a := by
  intro w
  obtain ⟨k, hk⟩ := (h w.ledger.steps w).exists_eq (Nat.le_refl _)
    (Limits.within_of_unlimited hsteps _)
  exact ⟨w.withSteps k, hk⟩

/-- Without a limit on steps, a node is entered unless it lies too deep. -/
theorem enter {setting : Setting ι σ} (hsteps : setting.limits.maxSteps = none) {depth : Nat}
    (hdepth : depth ≤ setting.limits.maxExpressionDepth.toNat) :
    Gives (enter setting depth) () := by
  intro w
  have hcharge : Run.charge setting.limits w.ledger =
      .ok () { w.ledger with steps := w.ledger.steps + 1 } := by
    simp only [Run.charge, hsteps]
  refine ⟨⟨w.scopes, { w.ledger with steps := w.ledger.steps + 1 }⟩, ?_⟩
  rw [Eval.enter, bind_of_ok (ofRun_of_ok hcharge), Run.checkExpressionDepth,
    if_neg (Nat.not_lt.mpr hdepth)]
  rfl

/-- Evaluations in turn give their values. -/
theorem collect {γ : Type} (f : γ → Eval σ Value) (value : γ → Value) (done : List Value)
    (items : List γ) (h : ∀ item ∈ items, Gives (f item) (value item)) :
    Gives (collect done (items.map f)) (done.reverse ++ items.map value) := by
  induction items generalizing done with
  | nil => simpa [Eval.collect] using Gives.pure done.reverse
  | cons item items ih =>
    refine bind (h item List.mem_cons_self) ?_
    have hrest := ih (value item :: done) fun other hother =>
      h other (List.mem_cons_of_mem _ hother)
    simpa using hrest

/-- Fields with ascending keys are gathered in their order. -/
theorem gather (f : String × Value → Eval σ Value) (done : Table Value)
    (fields : List (String × Value)) (h : ∀ field ∈ fields, Gives (f field) field.2)
    (hfields : Table.Ascending fields)
    (hdone : ∀ entry ∈ done, ∀ field ∈ fields, entry.1 < field.1) :
    Gives (gather done (fields.map fun field => (field.1, f field))) (done ++ fields) := by
  induction fields generalizing done with
  | nil => simpa [Eval.gather] using Gives.pure done
  | cons field fields ih =>
    obtain ⟨key, value⟩ := field
    obtain ⟨hbelow, hrest⟩ := List.pairwise_cons.mp hfields
    refine bind (h (key, value) List.mem_cons_self) ?_
    have hinsert : done.insert key value = done ++ [(key, value)] :=
      Table.insert_of_above value fun entry hentry =>
        hdone entry hentry (key, value) List.mem_cons_self
    have habove (entry : String × Value) (hentry : entry ∈ done ++ [(key, value)])
        (other : String × Value) (hother : other ∈ fields) : entry.1 < other.1 := by
      rcases List.mem_append.mp hentry with hentry | hentry
      · exact hdone entry hentry other (List.mem_cons_of_mem _ hother)
      · rw [List.mem_singleton.mp hentry]
        exact hbelow other hother
    have hgather := ih (done ++ [(key, value)])
      (fun other hother => h other (List.mem_cons_of_mem _ hother)) hrest habove
    rw [List.append_assoc, List.singleton_append] at hgather
    rw [hinsert]
    exact hgather

/-- A node gives what its construct makes of its parts. -/
theorem node {setting : Setting ι σ} {allowance depth : Nat} {e : Expr} {v : Value}
    (hsteps : setting.limits.maxSteps = none)
    (hdepth : depth + 1 ≤ setting.limits.maxExpressionDepth.toNat)
    (h : Gives (evalNode setting allowance (eval setting allowance (depth + 1)) e) v) :
    Gives (eval setting allowance depth e) v := by
  rw [eval_eq]
  exact bind (enter hsteps hdepth) h

end Gives

end Eval

namespace Value

open Eval

theorem sourceItems_eq (items : List Value) : sourceItems items = items.map sourceExpr := by
  induction items with
  | nil => rfl
  | cons item items ih => rw [sourceItems, ih, List.map_cons]

/-- Fields with ascending keys are read in their order. -/
theorem sourceFields_eq (fields : List (String × Value)) (done : List (String × Expr))
    (hfields : Table.Ascending fields)
    (hdone : ∀ entry ∈ done, ∀ field ∈ fields, entry.1 < field.1) :
    sourceFields done fields =
      (fields.map fun field => (field.1, field.2.sourceExpr)).reverse ++ done := by
  induction fields generalizing done with
  | nil => rfl
  | cons field fields ih =>
    obtain ⟨key, value⟩ := field
    obtain ⟨hbelow, hrest⟩ := List.pairwise_cons.mp hfields
    have hkeep : done.filter (fun entry => entry.1 ≠ key) = done := by
      refine List.filter_eq_self.mpr fun entry hentry => ?_
      have hlt : entry.1 < key := hdone entry hentry (key, value) List.mem_cons_self
      simp only [ne_eq, decide_eq_true_eq]
      intro heq
      rw [heq] at hlt
      exact String.lt_irrefl key hlt
    rw [sourceFields, hkeep, ih _ hrest]
    · simp
    · intro entry hentry other hother
      rcases List.mem_cons.mp hentry with rfl | hentry
      · exact hbelow other hother
      · exact hdone entry hentry other (List.mem_cons_of_mem _ hother)

theorem sourceExpr_object {fields : List (String × Value)} (h : Table.Ascending fields) :
    (object fields).sourceExpr =
      .object (fields.map fun field => (field.1, field.2.sourceExpr)) := by
  rw [sourceExpr, sourceFields_eq fields [] h (List.forall_mem_nil _), List.append_nil,
    List.reverse_reverse]

section Evaluation

variable {ι σ : Type} {setting : Setting ι σ} {allowance depth : Nat}

/-- A literal behind a sign leads to its number. -/
theorem leads_signed (hdepth : depth + 2 ≤ setting.limits.maxExpressionDepth.toNat)
    {negative : Bool} {magnitude v : Value} (hpositive : negative = false → magnitude = v)
    (hnegative : negative = true → UnaryOp.negate.apply magnitude = .ok v) (n : Nat)
    (w : World σ) :
    Leads setting.limits n (n + 2)
      (eval setting allowance depth (signed negative (.literal magnitude))) w (.ok v w) := by
  cases negative with
  | false =>
    obtain rfl := hpositive rfl
    exact (Leads.literal (by omega)).mono (Nat.le_succ _)
  | true =>
    have hresult : Eval.ofExcept (UnaryOp.negate.apply magnitude) w = .ok v w := by
      rw [hnegative rfl]
      rfl
    rw [← hresult]
    exact .unary (by omega) (.literal (by omega))

theorem negate_number {x : Double} (h : x.negative = true) :
    UnaryOp.negate.apply (.number x.abs) = .ok (.number x) := by
  rw [UnaryOp.apply, Double.abs, Double.neg_ofParts_magnitude h]

theorem negate_integer {n : Int64} (hmin : n ≠ Int64.minValue) (h : n.toInt < 0) :
    UnaryOp.negate.apply (.integer (Int64.ofInt n.toInt.natAbs)) = .ok (.integer n) := by
  have hbound := natAbs_lt hmin
  have hmagnitude : (Int64.ofInt n.toInt.natAbs).toInt = n.toInt.natAbs :=
    Int64.toInt_ofInt_of_le (by omega) (by omega)
  have hnegated : -(n.toInt.natAbs : Int) = n.toInt := by omega
  have hlow : Int64.minValue.toInt ≤ n.toInt := n.le_toInt
  have hhigh : n.toInt ≤ Int64.maxValue.toInt := by
    have hmax : Int64.maxValue.toInt = 2 ^ 63 - 1 := by decide
    omega
  rw [UnaryOp.apply, hmagnitude, hnegated, Number.integer?, if_pos ⟨hlow, hhigh⟩,
    Int64.ofInt_toInt]

theorem gives_number (hsteps : setting.limits.maxSteps = none)
    (hdepth : depth + 2 ≤ setting.limits.maxExpressionDepth.toNat) {x : Double}
    (hfinite : x.isFinite = true) :
    Gives (eval setting allowance depth (Value.number x).sourceExpr) (.number x) := by
  rw [sourceExpr, Double.isUndefined_of_isFinite hfinite, if_neg (by decide), if_pos hfinite]
  refine .of_leads hsteps (leads_signed hdepth (fun hsign => ?_) negate_number)
  rw [Double.abs, ← hsign, Double.ofParts_self]

theorem leads_integer (hdepth : depth + 3 ≤ setting.limits.maxExpressionDepth.toNat) (n : Int64)
    (i : Nat) (w : World σ) :
    Leads setting.limits i (i + 4) (eval setting allowance depth (Value.integer n).sourceExpr) w
      (.ok (.integer n) w) := by
  rw [sourceExpr]
  by_cases hmin : n = Int64.minValue
  · rw [if_pos hmin, hmin]
    have hleft : Leads setting.limits (i + 1) (i + 3) (eval setting allowance (depth + 1)
        (signed true (.literal (.integer Int64.maxValue)))) w
        (.ok (.integer (-Int64.maxValue)) w) :=
      leads_signed (by omega) (fun h => Bool.noConfusion h) (fun _ => rfl) (i + 1) w
    exact .binary (by omega) rfl hleft (.literal (by omega))
  · rw [if_neg hmin]
    have hbound := natAbs_lt hmin
    refine .mono (leads_signed (by omega) (fun hsign => ?_) (fun hsign => ?_) i w) (by omega)
    · have hnonneg : ((n.toInt.natAbs : Nat) : Int) = n.toInt := by
        have := of_decide_eq_false hsign
        omega
      rw [hnonneg, Int64.ofInt_toInt]
    · exact negate_integer hmin (of_decide_eq_true hsign)

/-- What the source form of a value is read as evaluates to the value. -/
theorem eval_sourceExpr (hsteps : setting.limits.maxSteps = none) {v : Value}
    (hcanonical : v.Canonical) (hfinite : v.Finite)
    (hdepth : depth + v.depth + 2 ≤ setting.limits.maxExpressionDepth.toNat) :
    Gives (eval setting allowance depth v.sourceExpr) v := by
  induction v generalizing depth with
  | string text | boolean flag | null =>
    exact .node hsteps (by simp only [Value.depth] at hdepth; omega) (.pure _)
  | number x =>
    have hdepth : depth + 1 + 2 ≤ setting.limits.maxExpressionDepth.toNat := hdepth
    exact gives_number hsteps (by omega) hfinite
  | integer n =>
    have hdepth : depth + 1 + 2 ≤ setting.limits.maxExpressionDepth.toNat := hdepth
    exact .of_leads hsteps (leads_integer (by omega) n)
  | array items ih =>
    have hdepth : depth + (depthItems items + 1) + 2 ≤ setting.limits.maxExpressionDepth.toNat :=
      hdepth
    rw [sourceExpr, sourceItems_eq]
    refine .node hsteps (by omega) ?_
    have hitems (item : Value) (hitem : item ∈ items) :
        Gives (eval setting allowance (depth + 1) item.sourceExpr) item := by
      have hitemDepth := Parser.depth_le_items hitem
      exact ih item hitem (canonicalItems_iff.mp hcanonical item hitem)
        (finiteItems_iff.mp hfinite item hitem) (by omega)
    have hcollect := Gives.collect (fun item => eval setting allowance (depth + 1) item.sourceExpr)
      id [] items hitems
    rw [List.reverse_nil, List.nil_append, List.map_id] at hcollect
    refine .bind ?_ (.pure (Value.array items))
    rw [List.map_map]
    exact hcollect
  | object fields ih =>
    obtain ⟨hascending, hcanonical⟩ := hcanonical
    have hdepth : depth + (depthFields fields + 1) + 2 ≤
        setting.limits.maxExpressionDepth.toNat := hdepth
    have hfields (field : String × Value) (hfield : field ∈ fields) :
        Gives (eval setting allowance (depth + 1) field.2.sourceExpr) field.2 := by
      have hfieldDepth := Parser.depth_le_fields hfield
      exact ih field hfield (canonicalFields_iff.mp hcanonical field hfield)
        (finiteFields_iff.mp hfinite field hfield) (by omega)
    have hgather := Gives.gather
      (fun field => eval setting allowance (depth + 1) field.2.sourceExpr) [] fields hfields
      hascending (List.forall_mem_nil _)
    rw [List.nil_append] at hgather
    rw [sourceExpr_object hascending]
    refine .node hsteps (by omega) (.bind ?_ (.pure (Value.object fields)))
    rw [List.map_map]
    exact hgather

end Evaluation

end Value

/-- Executing the source form of a value without a step limit yields the value: the same kinds, and
doubles bit for bit. -/
theorem execute_render {ι σ : Type} {v : Value} (hcanonical : v.Canonical) (hfinite : v.Finite)
    (hdepth : v.depth ≤ 126) (name : String) :
    ∃ script statement, parse name v.render = .ok script ∧ script.statements = [statement] ∧
      ∀ (engine : Engine ι) (around : Surroundings ι σ) (options : Options) (state : σ),
        engine.limitsFor options = { maxSteps := none } →
        ∃ outcome, (engine.execute around options script state).1 = .value outcome ∧
          outcome.value = v := by
  obtain ⟨script, location, hparse, hstatements⟩ := parse_render hdepth name
  refine ⟨script, ⟨v.sourceExpr, location⟩, hparse, hstatements, ?_⟩
  intro engine around options state hlimits
  have hsteps : (engine.setting around options).limits.maxSteps = none :=
    congrArg Limits.maxSteps hlimits
  have hmax : (engine.setting around options).limits.maxExpressionDepth.toNat = 256 :=
    congrArg (fun limits : Limits => limits.maxExpressionDepth.toNat) hlimits
  have hgives : Eval.Gives (eval (engine.setting around options)
      ((engine.setting around options).limits.allowance around.horizon) 0 v.sourceExpr) v :=
    Value.eval_sourceExpr hsteps hcanonical hfinite (by omega)
  obtain ⟨world, hworld⟩ := hgives ⟨globalsOf options.bindings, .start options.cancelled state⟩
  have hinterpret : interpret (engine.setting around options)
      ((engine.setting around options).limits.allowance around.horizon) script options.bindings
      (.start options.cancelled state) = .ok v world := by
    rw [interpret, hstatements]
    exact bind_of_ok hworld
  refine ⟨world.ledger.outcome v, ?_, rfl⟩
  simp only [Engine.execute, hinterpret, Engine.endingOf]

/-- A value with the least integer, a negative zero, the least double, a control character and a
quote in a key. -/
def Value.sample : Value :=
  .object [
    ("a\n", .array [.integer Int64.minValue, .number (Double.zero true), .number ⟨1⟩, .array []]),
    ("b\"", .string "\x7f\u00e9")]

theorem execute_render_sample :
    (Value.sample.Canonical ∧ Value.sample.Finite ∧ Value.sample.depth ≤ 126) ∧
      ∃ script statement, parse "sample" Value.sample.render = .ok script ∧
        script.statements = [statement] ∧
        ∀ (engine : Engine Unit) (around : Surroundings Unit Unit) (options : Options)
          (state : Unit), engine.limitsFor options = { maxSteps := none } →
          ∃ outcome, (engine.execute around options script state).1 = .value outcome ∧
            outcome.value = Value.sample := by
  have hcanonical : Value.sample.Canonical := by
    simp only [Value.sample, Value.Canonical, Value.CanonicalFields, Value.CanonicalItems,
      Table.Ascending, List.pairwise_cons, List.mem_singleton, forall_eq, List.not_mem_nil,
      false_implies, implies_true, List.Pairwise.nil, and_true]
    decide
  have hfinite : Value.sample.Finite := by
    simp only [Value.sample, Value.Finite, Value.FiniteFields, Value.FiniteItems, and_true,
      true_and]
    decide
  have hdepth : Value.sample.depth ≤ 126 := by decide
  exact ⟨⟨hcanonical, hfinite, hdepth⟩, execute_render hcanonical hfinite hdepth "sample"⟩

end Covenant
