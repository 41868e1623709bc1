import Covenant.Host.Registry
import Covenant.Proofs.Rendering
import Covenant.Proofs.Scanning

/-!
# The text of a call

Identifiers, as registries check them, are words to the reader of scripts, and none of them is
reserved. So two identifiers with a point between them are read as a property of a name, and with
parentheses behind them as a call under the dotted name. The point also tells the two parts of such
a name apart.

## Main results

* `Lexer.Spells.identifier` : an identifier is read as a word.
* `Capability.parts_eq_of_qualifiedName_eq` : a qualified name determines its parts.
* `parse_qualifiedName` : a qualified name with parentheses is read as a call.
-/

namespace Covenant

/-! ### Identifiers -/

theorem isIdentifier_iff {name : String} :
    isIdentifier name = true ↔ ∃ c rest, name.toList = c :: rest ∧ startsIdentifier c = true ∧
      (∀ d ∈ rest, continuesIdentifier d = true) ∧ Keyword.ofText? name = none := by
  unfold isIdentifier
  cases name.toList with
  | nil => simp
  | cons c rest => simp [and_assoc]

theorem continuesIdentifier_of_starts {c : Char} (h : startsIdentifier c = true) :
    continuesIdentifier c = true := by
  simp only [startsIdentifier, continuesIdentifier, Bool.or_eq_true] at h ⊢
  exact h.imp_left .inl

/-- Every character of an identifier may stand in one. -/
theorem continuesIdentifier_of_mem {name : String} (h : isIdentifier name = true) {c : Char}
    (hc : c ∈ name.toList) : continuesIdentifier c = true := by
  obtain ⟨first, rest, hname, hfirst, hrest, -⟩ := isIdentifier_iff.mp h
  rw [hname] at hc
  obtain rfl | hc := List.mem_cons.mp hc
  · exact continuesIdentifier_of_starts hfirst
  · exact hrest c hc

/-- No identifier has a point. -/
theorem point_notMem {name : String} (h : isIdentifier name = true) : '.' ∉ name.toList :=
  fun hmem => absurd (continuesIdentifier_of_mem h hmem) (by decide)

namespace Lexer

theorem isLetter_of_isAsciiLetter {c : Char} (h : Text.isAsciiLetter c = true) :
    Text.isLetter c = true := by
  have hascii : c.toNat < 128 := by
    rw [isAsciiLetter_iff] at h
    omega
  rw [Text.isLetter, if_pos hascii, h]

theorem startsWord_of_startsIdentifier {c : Char} (h : startsIdentifier c = true) :
    startsWord c = true := by
  simp only [startsIdentifier, startsWord, Bool.or_eq_true] at h ⊢
  exact h.symm.imp_right isLetter_of_isAsciiLetter

theorem continuesWord_of_continuesIdentifier {c : Char} (h : continuesIdentifier c = true) :
    continuesWord c = true := by
  simp only [continuesIdentifier, Bool.or_eq_true] at h
  obtain (hletter | hdigit) | hunderscore := h
  · simp [continuesWord, isLetter_of_isAsciiLetter hletter]
  · exact continuesWord_of_isDigit hdigit
  · simp [continuesWord, of_decide_eq_true hunderscore]

theorem isDigit_of_startsIdentifier {c : Char} (h : startsIdentifier c = true) :
    Text.isDigit c = false := by
  by_contra hdigit
  rw [Bool.not_eq_false, isDigit_iff] at hdigit
  rw [startsIdentifier, Bool.or_eq_true, isAsciiLetter_iff, decide_eq_true_eq] at h
  obtain hletter | rfl := h
  · omega
  · exact absurd hdigit (by decide)

/-- An identifier is read as a word that is not reserved. -/
theorem Spells.identifier {name : String} (h : isIdentifier name = true) {rest : List Char}
    (hrest : Detached rest) : Spells name.toList [.word name] rest := by
  have hword (c : Char) (hc : c ∈ name.toList) : continuesWord c = true :=
    continuesWord_of_continuesIdentifier (continuesIdentifier_of_mem h hc)
  obtain ⟨c, more, hname, hstart, -, hkeyword⟩ := isIdentifier_iff.mp h
  have hkind : wordKind name.toList = .word name := by
    rw [wordKind, String.ofList_toList, hkeyword]
  rw [← hkind, hname]
  rw [hname] at hword
  exact .word (startsWord_of_startsIdentifier hstart) (isDigit_of_startsIdentifier hstart)
    (solid_of_continuesWord (hword c List.mem_cons_self) _) (List.all_eq_true.mpr hword) hrest

/-- A point in front of anything is a symbol by itself. -/
theorem Spells.point (rest : List Char) : Spells ['.'] [.symbol .dot] rest := by
  have hdouble : (rest.head?).bind (doubleSymbol? '.') = none := by
    rcases rest with _ | ⟨d, rest⟩ <;> rfl
  refine .single (by simp) ⟨'.', rest, rfl, by decide, by decide, by decide⟩ (by simp)
    fun p => ⟨p.shift 1, ?_⟩
  have hdigit : Text.isDigit '.' = false := by decide
  have hstart : startsWord '.' = false := by decide
  simp [scanKind, hdigit, hstart, scanSymbol, hdouble, singleSymbol?]

end Lexer

/-! ### Qualified names -/

namespace Capability

variable {ι : Type}

theorem toList_qualifiedName (c : Capability ι) :
    c.qualifiedName.toList = c.subsystem.toList ++ '.' :: c.function.toList := by
  simp [qualifiedName]

/-- A qualified name determines its parts. -/
theorem parts_eq_of_qualifiedName_eq {c c' : Capability ι}
    (hsubsystem : isIdentifier c.subsystem = true) (hfunction : isIdentifier c.function = true)
    (h : c.qualifiedName = c'.qualifiedName) :
    c.subsystem = c'.subsystem ∧ c.function = c'.function := by
  have hlist := congrArg String.toList h
  rw [toList_qualifiedName, toList_qualifiedName,
    List.append_cons_inj_of_notMem (point_notMem hsubsystem) (point_notMem hfunction)] at hlist
  exact ⟨String.toList_inj.mp hlist.1, String.toList_inj.mp hlist.2.2⟩

/-- No built-in function has a qualified name. -/
theorem not_isName_qualifiedName (c : Capability ι) : Builtin.isName c.qualifiedName = false := by
  have hname (b : Builtin) : '.' ∉ b.name.toList := by
    cases b <;> decide
  have hpoint : '.' ∈ c.qualifiedName.toList := by simp [toList_qualifiedName]
  by_contra hfound
  rw [Bool.not_eq_false] at hfound
  obtain ⟨b, hb⟩ := Option.isSome_iff_exists.mp hfound
  have heq : b.name = c.qualifiedName := by simpa using List.find?_some hb
  exact hname b (heq ▸ hpoint)

end Capability

/-! ### Calls without arguments -/

namespace Parser

variable {enough : Prop} {c : Context} {n : Nat} {t : Token}

/-- A point and a word attach a property to an operand. -/
theorem postfixRound_property {dot word next : Token} {ts : List Token} {name : String}
    (chained : Nat) (e : Expr) (hdot : dot.kind = .symbol .dot) (hword : word.kind = .word name)
    (hnesting : enough → c.nesting + chained < maxNesting) :
    Reads enough c (postfixRound n (chained, e)) (dot :: word :: next :: ts)
      (.inl (chained + 1, .property e name)) (next :: ts) := by
  refine Reads.bind .current ?_
  simp only [hdot, attaches, if_true]
  refine Reads.bind (.checkNesting hnesting) (Reads.bind .advance (Reads.bind .advance ?_))
  simp only [hword]
  exact .pure _

/-- Parentheses with nothing between them make a call of what has a name. -/
theorem postfixRound_call {opens closes next : Token} {ts : List Token} {name : String}
    (chained : Nat) {e : Expr} (hopens : opens.kind = .symbol .openParen)
    (hcloses : closes.kind = .symbol .closeParen) (hline : opens.newlineBefore = false)
    (hname : calleeName? e = some name)
    (hnesting : enough → c.nesting + chained < maxNesting) (hrounds : enough → 0 < c.rounds)
    (hn : enough → 0 < n) :
    Reads enough c (postfixRound n (chained, e)) (opens :: closes :: next :: ts)
      (.inl (chained + 1, .call name [])) (next :: ts) := by
  refine Reads.bind .current ?_
  simp only [hopens, attaches, if_true]
  refine Reads.bind (.checkNesting hnesting) ?_
  have hcontinues : Reads enough c continuesLine (opens :: closes :: next :: ts) true
      (opens :: closes :: next :: ts) := by
    refine Reads.bind .current (.read ?_)
    rw [hline]
    exact .pure _
  refine Reads.bind hcontinues ?_
  simp only [if_true, hname]
  refine Reads.bind .advance (Reads.bind (.deeper ?_) (.pure _))
  rcases n with _ | n
  · exact Reads.exhausted.mono fun henough => absurd (hn henough) (Nat.lt_irrefl 0)
  · rw [delimited_succ]
    exact .grouping (.read (.rounds_stop hrounds (Reads.bind (.eat_pass hcloses) (.pure _))))

/-- Two words with a point between them and parentheses behind them are a call. -/
theorem expression_call {word dot word' opens closes next : Token} {ts : List Token}
    {name name' : String} (hword : word.kind = .word name) (hdot : dot.kind = .symbol .dot)
    (hword' : word'.kind = .word name') (hopens : opens.kind = .symbol .openParen)
    (hcloses : closes.kind = .symbol .closeParen) (hline : opens.newlineBefore = false)
    (hnext : ends next.kind = true) :
    ReadsBy 12 (c.nesting + 2 < maxNesting ∧ 2 < c.rounds) c expression
      (word :: dot :: word' :: opens :: closes :: next :: ts) (.call (name ++ "." ++ name') [])
      (next :: ts) := by
  have hpostfixed : ReadsBy 2 (c.nesting + 2 < maxNesting ∧ 2 < c.rounds)
      { c with nesting := c.nesting + 1 } postfixed
      (word :: dot :: word' :: opens :: closes :: next :: ts) (.call (name ++ "." ++ name') [])
      (next :: ts) := by
    have hleaf : leaf? word.kind = some (.ref name) := by rw [hword]; rfl
    refine .succ rfl fun n => ?_
    rw [postfixed_succ]
    refine Reads.bind (ReadsBy.leaf hleaf n) (Reads.read ?_)
    refine .rounds_next (1, .property (.ref name) name') (fun h => ?_)
      (postfixRound_property 0 _ hdot hword' fun h => ?_) ?_
    · exact Nat.zero_lt_of_lt h.2.2
    · exact Nat.lt_of_succ_lt h.2.1
    refine .rounds_next (2, .call (name ++ "." ++ name') []) (fun h => ?_)
      (postfixRound_call 1 hopens hcloses hline rfl (fun h => h.2.1) (fun h => ?_) fun h => h.1)
      (.rounds_stop (fun h => ?_) (ReadsBy.postfixRound_stop (attaches_of_ends hnext)))
    · exact Nat.sub_pos_of_lt (Nat.lt_of_succ_lt h.2.2)
    · exact Nat.zero_lt_of_lt h.2.2
    · exact Nat.sub_pos_of_lt (Nat.lt_sub_of_add_lt h.2.2)
  have hunary : unaryOp? word.kind = none := by rw [hword]; rfl
  exact (hpostfixed.unary hunary).expression_of_unary hnext (fun h => Nat.zero_lt_of_lt h.2)
    fun h => Nat.lt_of_le_of_lt (Nat.le_add_right _ 2) h.1

end Parser

/-- A qualified name with parentheses behind it is read as a script of one statement, a call under
that name. -/
theorem parse_qualifiedName {ι : Type} {c : Capability ι}
    (hsubsystem : isIdentifier c.subsystem = true) (hfunction : isIdentifier c.function = true)
    (name : String) :
    ∃ script location, parse name (c.qualifiedName ++ "()") = .ok script ∧
      script.statements = [⟨.call c.qualifiedName [], location⟩] := by
  have hparens : Lexer.Spells ['(', ')'] [.symbol .openParen, .symbol .closeParen] [] :=
    .cons (.symbol rfl rfl [')']) (.symbol rfl rfl [])
  have hspells : Lexer.Spells
      (c.subsystem.toList ++ (['.'] ++ (c.function.toList ++ ['(', ')'])))
      [.word c.subsystem, .symbol .dot, .word c.function, .symbol .openParen, .symbol .closeParen]
      [] := by
    have hafter : Lexer.Detached (['(', ')'] ++ []) := .cons (by decide) (by decide) _
    have hpoint : Lexer.Detached (['.'] ++ (c.function.toList ++ ['(', ')']) ++ []) := by
      obtain ⟨first, rest, hname, hfirst, -⟩ := isIdentifier_iff.mp hfunction
      refine ⟨by decide, fun _ => ?_⟩
      simp [hname, Lexer.digitAhead, Lexer.isDigit_of_startsIdentifier hfirst]
    exact (Lexer.Spells.identifier hsubsystem hpoint).cons
      ((Lexer.Spells.point _).cons ((Lexer.Spells.identifier hfunction hafter).cons hparens))
  have htext : String.ofList (c.subsystem.toList ++ (['.'] ++ (c.function.toList ++ ['(', ')']))) =
      c.qualifiedName ++ "()" := by
    apply String.toList_inj.mp
    simp [Capability.qualifiedName]
  obtain ⟨ts, hts, hkinds, hline⟩ := hspells.tokens
  rw [htext] at hts
  simp only [List.cons_append, List.nil_append, List.map_eq_cons_iff, List.map_eq_nil_iff]
    at hkinds
  obtain ⟨word, _, rfl, hword, dot, _, rfl, hdot, word', _, rfl, hword', opens, _, rfl, hopens,
    closes, _, rfl, hcloses, finish, _, rfl, hfinish, rfl⟩ := hkinds
  have hdepth : (Expr.call c.qualifiedName []).depth ≤ maxNesting :=
    Nat.le_trans ((Expr.depth_le_succ_iff _ 0).mpr (List.forall_mem_nil _)) (by decide)
  have hcall (context : Parser.Context) (hnesting : context.nesting = 0)
      (hrounds : context.rounds = [dot, word', opens, closes].length + 3) :
      Parser.Reads True context (Parser.expression 111)
        (word :: ([dot, word', opens, closes] ++ [finish])) (.call c.qualifiedName []) [finish] :=
    (Parser.expression_call hword hdot hword' hopens hcloses (hline opens (by simp))
      (by rw [hfinish]; rfl) 111).mono fun _ => by simp [hnesting, hrounds, maxNesting]
  obtain ⟨location, hread⟩ := Parser.readStatements_expression 111 name (by rw [hword]; rfl)
    hfinish hdepth hcall
  exact ⟨_, location, parse_of_tokens hts hread, rfl⟩

end Covenant
