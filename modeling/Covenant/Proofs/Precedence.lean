import Covenant.Proofs.Grouping
import Covenant.Proofs.Rendering
import Covenant.Proofs.Seams

/-!
# Reading chains of operations

A chain of operands on one line, which are names or integers, with binary operators between them is
read as one statement. Its tree is the one that is grouped and from left to right reads as the
chain, whatever the operators are and whatever white space stands around them.

The reader goes through the groups from the loosest to the tightest. In each it repeats over the
operators of that group, so a chain falls apart at these (`exists_split`), and its parts are read
as operations of tighter groups.

## Main definitions

* `Atom`, `Gap`, `Link`, `Chain` : chains of operations in a text.
* `Parser.Climbs` : from a level on, a chain is read as a grouped tree.

## Main results

* `Chain.spells` : the tokens of a chain.
* `Parser.exists_climbs` : a chain is read as a grouped tree at every level.
* `parse_chain` : a chain is read as the only grouped tree of it.
-/

namespace Covenant

/-! ### Chains -/

/-- White space on one line. -/
structure Gap where
  chars : List Char
  blank : ∀ c ∈ chars, Text.isBlank c = true ∧ c ≠ '\n'

/-- An operand of one token. -/
inductive Atom where
  /-- A name that is not reserved. -/
  | name (c : Char) (rest : List Char) (starts : Lexer.startsWord c = true)
    (continues : rest.all Lexer.continuesWord = true)
    (free : Keyword.ofText? (String.ofList (c :: rest)) = none)
  /-- An integer that fits in 64 bits: digits, and further groups of digits behind underscores. -/
  | integer (digits : List Char) (groups : List (List Char)) (nonempty : digits ≠ [])
    (isDigits : digits.all Text.isDigit = true)
    (areDigits : ∀ group ∈ groups, group ≠ [] ∧ group.all Text.isDigit = true)
    (fits : Number.ofDigits (digits ++ groups.flatten) < 2 ^ 63)

/-- An operator and the operand behind it. -/
structure Link where
  before : Gap
  op : BinaryOp
  after : Gap
  operand : Atom

/-- Operands with operators between them. -/
structure Chain where
  first : Atom
  links : List Link

namespace Atom

/-- The integer that groups of digits write. -/
def value (digits : List Char) (groups : List (List Char)) : Int64 :=
  Int64.ofInt (Number.ofDigits (digits ++ groups.flatten))

/-- The characters of an operand. -/
def chars : Atom → List Char
  | name c rest _ _ _ => c :: rest
  | integer digits groups _ _ _ _ => digits ++ groups.flatMap ('_' :: ·)

/-- The token of an operand. -/
def kind : Atom → Token.Kind
  | name c rest _ _ _ => .word (String.ofList (c :: rest))
  | integer digits groups _ _ _ _ => .integer (value digits groups)

/-- The expression of an operand. -/
def expr : Atom → Expr
  | name c rest _ _ _ => .ref (String.ofList (c :: rest))
  | integer digits groups _ _ _ _ => .literal (.integer (value digits groups))

end Atom

/-- The symbol that spells an operator. -/
def BinaryOp.token : BinaryOp → Symbol
  | or => .or
  | and => .and
  | equal => .equal
  | notEqual => .notEqual
  | less => .less
  | lessEqual => .lessEqual
  | greater => .greater
  | greaterEqual => .greaterEqual
  | add => .plus
  | subtract => .minus
  | multiply => .star
  | divide => .slash
  | modulo => .percent

namespace Link

/-- The characters of an operator and its operand. -/
def chars (l : Link) : List Char :=
  l.before.chars ++ (l.op.symbol.toList ++ (l.after.chars ++ l.operand.chars))

/-- The tokens of operators and their operands. -/
def kinds (links : List Link) : List Token.Kind :=
  links.flatMap fun l => [.symbol l.op.token, l.operand.kind]

theorem kinds_append (links links' : List Link) :
    kinds (links ++ links') = kinds links ++ kinds links' := by
  simp [kinds]

end Link

namespace Chain

/-- The characters of a chain. -/
def chars (chain : Chain) : List Char :=
  chain.first.chars ++ chain.links.flatMap Link.chars

/-- The operands and operators of a chain. -/
def reading (chain : Chain) : Expr × List (BinaryOp × Expr) :=
  (chain.first.expr, chain.links.map fun l => (l.op, l.operand.expr))

/-- The tokens of a chain. -/
def kinds (chain : Chain) : List Token.Kind :=
  chain.first.kind :: Link.kinds chain.links

theorem length_kinds (chain : Chain) : chain.kinds.length = 2 * chain.links.length + 1 := by
  simp [kinds, Link.kinds, List.length_flatMap, Nat.mul_comm]

end Chain

/-! ### The tokens of a chain -/

namespace Lexer

theorem continuesWord_of_startsWord {c : Char} (h : startsWord c = true) :
    continuesWord c = true := by
  rw [startsWord] at h
  rw [continuesWord, h, Bool.true_or]

theorem isDigit_of_startsWord {c : Char} (h : startsWord c = true) : Text.isDigit c = false := by
  by_contra hdigit
  rw [Bool.not_eq_false] at hdigit
  have hascii := toNat_lt_of_isDigit hdigit
  rw [isDigit_iff] at hdigit
  rw [startsWord, Bool.or_eq_true, decide_eq_true_eq, Text.isLetter, if_pos hascii,
    isAsciiLetter_iff] at h
  rcases h with rfl | hletter
  · exact absurd hdigit (by decide)
  · omega

/-- White space in front of a text parts nothing. -/
theorem Spells.gap (gap : Gap) {cs rest : List Char} {kinds : List Token.Kind}
    (h : Spells cs kinds rest) (hne : kinds ≠ []) : Spells (gap.chars ++ cs) kinds rest := by
  obtain ⟨blanks, hblanks⟩ := gap
  induction blanks with
  | nil => exact h
  | cons c blanks ih =>
    obtain ⟨⟨hblank, hline⟩, hblanks⟩ := List.forall_mem_cons.mp hblanks
    have hrest := ih hblanks
    refine ⟨Nat.le_succ_of_le hrest.short, fun p => ?_⟩
    obtain ⟨ts, p', hts, rfl, hlines⟩ := hrest.lexes (p.advance c)
    have hnext : nextToken ⟨p, c :: (blanks ++ cs ++ rest)⟩ =
        nextToken ⟨p.advance c, blanks ++ cs ++ rest⟩ := by
      simp [nextToken, skipTrivia, hline, hblank]
    exact ⟨ts, p', hts.congr (by simpa using hne) hnext, rfl, hlines⟩

theorem scanDigits_run {digits : List Char} (hdigits : digits.all Text.isDigit = true)
    {cs rest read : List Char} {taken : Nat} (h : scanDigits cs = (read, taken, rest)) :
    scanDigits (digits ++ cs) = (digits ++ read, digits.length + taken, rest) := by
  induction digits with
  | nil => simpa using h
  | cons d digits ih =>
    rw [List.all_cons, Bool.and_eq_true] at hdigits
    rw [List.cons_append, scanDigits, if_pos hdigits.1, ih hdigits.2]
    simp [Nat.add_right_comm]

/-- Groups of digits behind underscores are read as their digits. -/
theorem scanDigits_groups {groups : List (List Char)}
    (hgroups : ∀ group ∈ groups, group ≠ [] ∧ group.all Text.isDigit = true) {rest : List Char}
    (hrest : Detached rest) :
    scanDigits (groups.flatMap ('_' :: ·) ++ rest) =
      (groups.flatten, (groups.flatMap ('_' :: ·)).length, rest) := by
  induction groups with
  | nil =>
    have hscan := scanDigits_append (List.forall_mem_nil _) fun c hc => (hrest.head c hc).1
    simpa using hscan
  | cons group groups ih =>
    obtain ⟨⟨hne, hdigits⟩, hgroups⟩ := List.forall_mem_cons.mp hgroups
    have hscan := scanDigits_run hdigits (ih hgroups)
    have hahead : digitAhead (group ++ (groups.flatMap ('_' :: ·) ++ rest)) = true :=
      digitAhead_append hne (List.all_eq_true.mp hdigits) _
    have hmark : Text.isDigit '_' = false := by decide
    rw [List.flatMap_cons, List.append_assoc, List.cons_append, scanDigits]
    simp [hmark, hahead, hscan, Nat.add_comm]

end Lexer

namespace Atom

open Lexer

/-- An operand begins as a word or a number does. -/
theorem exists_cons_chars (a : Atom) :
    ∃ c cs, a.chars = c :: cs ∧ continuesWord c = true := by
  cases a with
  | name c rest starts => exact ⟨c, rest, rfl, continuesWord_of_startsWord starts⟩
  | integer digits groups nonempty isDigits =>
    obtain ⟨d, digits, rfl⟩ := List.exists_cons_of_ne_nil nonempty
    exact ⟨d, _, rfl, continuesWord_of_isDigit (List.all_eq_true.mp isDigits d (by simp))⟩

/-- An operand is one token, whatever stands detached behind it. -/
theorem spells (a : Atom) {rest : List Char} (hrest : Detached rest) :
    Spells a.chars [a.kind] rest := by
  cases a with
  | name c word starts continues free =>
    have hstart := continuesWord_of_startsWord starts
    have hspells := Spells.word starts (isDigit_of_startsWord starts)
      (solid_of_continuesWord hstart (word ++ rest)) (by simp [hstart, continues]) hrest
    rwa [wordKind, free] at hspells
  | integer digits groups nonempty isDigits areDigits fits =>
    have hscan := scanDigits_run isDigits (scanDigits_groups areDigits hrest)
    rw [← List.append_assoc] at hscan
    refine .number (by simp [chars, nonempty]) (fun c hc => ?_) (by simp [kind])
      fun p => ⟨p.shift (digits.length + (groups.flatMap ('_' :: ·)).length), ?_⟩
    · obtain ⟨d, digits, rfl⟩ := List.exists_cons_of_ne_nil nonempty
      cases hc
      exact List.all_eq_true.mp isDigits _ (by simp)
    · rw [chars, scanNumber_of_scanDigits hscan hrest, integerLiteral_of_lt fits]
      rfl

theorem leaf?_kind (a : Atom) : Parser.leaf? a.kind = some a.expr := by
  cases a <;> rfl

theorem root?_expr (a : Atom) : a.expr.root? = none := by
  cases a <;> rfl

theorem children_expr (a : Atom) : a.expr.children = [] := by
  cases a <;> rfl

theorem opensValue_kind (a : Atom) : Parser.opensValue a.kind = true := by
  cases a <;> rfl

end Atom

namespace Lexer

/-- What stands behind an operator without making it longer. -/
def Parted (cs : List Char) : Prop :=
  ∀ c ∈ cs.head?, c ≠ '=' ∧ c ≠ '/'

theorem parted_operand (gap : Gap) (a : Atom) (rest : List Char) :
    Parted (gap.chars ++ (a.chars ++ rest)) := by
  obtain ⟨c, cs, hchars, hc⟩ := a.exists_cons_chars
  obtain ⟨_ | ⟨b, blanks⟩, hblanks⟩ := gap
  · rw [hchars]
    rintro _ ⟨⟩
    constructor <;> rintro rfl <;> exact absurd hc (by decide)
  · obtain ⟨hblank, -⟩ := hblanks b (by simp)
    rintro _ ⟨⟩
    constructor <;> rintro rfl <;> exact absurd hblank (by decide)

theorem doubleSymbol?_of_parted {c : Char} (hc : c ≠ '&' ∧ c ≠ '|') {rest : List Char}
    (h : Parted rest) : rest.head?.bind (doubleSymbol? c) = none := by
  rcases rest with _ | ⟨d, rest⟩
  · rfl
  · obtain ⟨hequal, -⟩ := h d rfl
    change doubleSymbol? c d = none
    unfold doubleSymbol?
    split <;> simp_all

/-- An operator begins with a character that nothing but symbols has. -/
theorem exists_cons_symbol (op : BinaryOp) :
    ∃ c cs, op.symbol.toList = c :: cs ∧ c ≠ '\n' ∧ Text.isBlank c = false ∧
      continuesWord c = false ∧ c ≠ '"' ∧ c ≠ '.' ∧ (c = '/' → cs = []) := by
  cases op <;> exact ⟨_, _, rfl, by decide, by decide, by decide, by decide, by decide, by decide⟩

/-- The symbol of an operator is read whole. -/
theorem scanSymbol_operator {op : BinaryOp} {c : Char} {cs : List Char}
    (hop : op.symbol.toList = c :: cs) {rest : List Char} (hrest : Parted rest) (p : Position) :
    ∃ p', scanSymbol p c (cs ++ rest) = .ok (.symbol op.token, ⟨p', rest⟩) := by
  have hshort {c : Char} {s : Symbol} (hc : c ≠ '&' ∧ c ≠ '|') (hs : singleSymbol? c = some s) :
      scanSymbol p c rest = .ok (.symbol s, ⟨p.shift 1, rest⟩) := by
    rw [scanSymbol, doubleSymbol?_of_parted hc hrest, hs]
  cases op with
  | or | and | equal | notEqual | lessEqual | greaterEqual =>
    obtain ⟨rfl, rfl⟩ := List.cons.inj hop
    exact ⟨p.shift 2, rfl⟩
  | less | greater | add | subtract | multiply | divide | modulo =>
    obtain ⟨rfl, rfl⟩ := List.cons.inj hop
    exact ⟨p.shift 1, hshort (by decide) rfl⟩

/-- An operator is one token, whatever stands parted behind it. -/
theorem Spells.operator (op : BinaryOp) {rest : List Char} (hrest : Parted rest) :
    Spells op.symbol.toList [.symbol op.token] rest := by
  obtain ⟨c, cs, hchars, hline, hblank, hword, hquote, -, hslash⟩ := exists_cons_symbol op
  rw [hchars]
  refine ⟨Nat.succ_le_succ (Nat.zero_le _), fun p => ?_⟩
  obtain ⟨p', hp'⟩ := scanSymbol_operator hchars hrest p
  have hdigit : Text.isDigit c = false := by
    by_contra hdigit
    rw [Bool.not_eq_false] at hdigit
    exact absurd (continuesWord_of_isDigit hdigit) (by simp [hword])
  have hstart : startsWord c = false := by
    by_contra hstart
    rw [Bool.not_eq_false] at hstart
    exact absurd (continuesWord_of_startsWord hstart) (by simp [hword])
  have hcomment : (c = '/' && (cs ++ rest).head? = some '/') = false := by
    by_contra hcomment
    rw [Bool.not_eq_false, Bool.and_eq_true, decide_eq_true_eq, decide_eq_true_eq] at hcomment
    rw [hslash hcomment.1, List.nil_append] at hcomment
    exact (hrest '/' hcomment.2).2 rfl
  have hskip : skipTrivia false false p (c :: (cs ++ rest)) = (false, ⟨p, c :: (cs ++ rest)⟩) := by
    rw [skipTrivia, if_neg hline, if_neg (by simp), hblank, hcomment]
    rfl
  have hnext : nextToken ⟨p, c :: (cs ++ rest)⟩ =
      .ok (⟨.symbol op.token, p, p', false⟩, ⟨p', rest⟩) := by
    simp [nextToken, hskip, scanKind, hdigit, hstart, hquote, hp', bind, Except.bind, pure,
      Except.pure]
  exact ⟨[⟨.symbol op.token, p, p', false⟩], p', .cons hnext (by simp) .nil, rfl, by simp⟩

end Lexer

/-- What stands behind an operand makes it no longer. -/
theorem detached_links (links : List Link) : Lexer.Detached (links.flatMap Link.chars) := by
  rcases links with _ | ⟨⟨⟨_ | ⟨b, blanks⟩, hblanks⟩, op, after, operand⟩, links⟩
  · trivial
  · obtain ⟨c, cs, hchars, -, -, hword, -, hpoint, -⟩ := Lexer.exists_cons_symbol op
    simp only [List.flatMap_cons, Link.chars, List.nil_append, hchars, List.cons_append]
    exact .cons hword hpoint _
  · obtain ⟨hblank, -⟩ := hblanks b (by simp)
    refine .cons (Lexer.continuesWord_of_isBlank hblank) ?_ _
    rintro rfl
    exact absurd hblank (by decide)

theorem spells_links (links : List Link) :
    Lexer.Spells (links.flatMap Link.chars) (Link.kinds links) [] := by
  induction links with
  | nil => exact .nil []
  | cons l links ih =>
    have hdetached : Lexer.Detached (links.flatMap Link.chars ++ []) := by
      rw [List.append_nil]
      exact detached_links links
    have hparted : Lexer.Parted (l.after.chars ++ (l.operand.chars ++
        links.flatMap Link.chars) ++ []) := by
      rw [List.append_nil]
      exact Lexer.parted_operand l.after l.operand _
    have hoperand := ((l.operand.spells hdetached).cons ih).gap l.after (by simp)
    have hlink := ((Lexer.Spells.operator l.op hparted).cons hoperand).gap l.before (by simp)
    simpa [Link.chars, Link.kinds] using hlink

/-- The characters of a chain spell its tokens. -/
theorem Chain.spells (chain : Chain) : Lexer.Spells chain.chars chain.kinds [] := by
  refine .cons (chain.first.spells ?_) (spells_links chain.links)
  rw [List.append_nil]
  exact detached_links chain.links

/-! ### Reading a chain -/

namespace Parser

@[simp] theorem binaryOp?_token (op : BinaryOp) : binaryOp? (.symbol op.token) = some op := by
  cases op <;> rfl

/-- Links of a level or tighter fall apart at the first operator of that level. -/
theorem exists_split {level : Nat} (links : List Link) (h : ∀ l ∈ links, level ≤ l.op.level) :
    ∃ tighter rest, links = tighter ++ rest ∧ (∀ l ∈ tighter, level + 1 ≤ l.op.level) ∧
      (∀ l ∈ rest, level ≤ l.op.level) ∧ ∀ l ∈ rest.head?, l.op.level = level := by
  induction links with
  | nil => exact ⟨[], [], rfl, by simp, by simp, by simp⟩
  | cons l links ih =>
    obtain ⟨hl, hlinks⟩ := List.forall_mem_cons.mp h
    rcases Nat.eq_or_lt_of_le hl with heq | hlt
    · exact ⟨[], l :: links, rfl, by simp, h, by simpa using heq.symm⟩
    · obtain ⟨tighter, rest, rfl, htighter, hrest, hhead⟩ := ih hlinks
      exact ⟨l :: tighter, rest, rfl, List.forall_mem_cons.mpr ⟨hlt, htighter⟩, hrest, hhead⟩

/-- What the links of a chain ask for: a round for each and one more, and a level for each. -/
def LinkRoom (c : Context) (links : List Link) : Prop :=
  links.length < c.rounds ∧ c.nesting + links.length ≤ maxNesting

/-- Nothing of this level or tighter goes on with an operation. -/
structure Bounds (level : Nat) (kind : Token.Kind) : Prop where
  detached : attaches kind = false
  stops (k : Nat) : level ≤ k → Stops k kind

theorem Bounds.operator {level : Nat} {op : BinaryOp} (h : op.level = level) :
    Bounds (level + 1) (.symbol op.token) where
  detached := by cases op <;> rfl
  stops k hk o ho := by
    rw [binaryOp?_token] at ho
    cases ho
    omega

/-- Where a level ends, so does every tighter one. -/
theorem Bounds.tighter {level : Nat} {kind : Token.Kind} (h : Bounds level kind) :
    Bounds (level + 1) kind :=
  ⟨h.detached, fun k hk => h.stops k (Nat.le_of_succ_le hk)⟩

/-- The first token behind a part of a chain, which bounds that part. -/
theorem exists_bounds (ts : List Token) {level : Nat} {rest : List Link} {vs : List Token}
    {next : Token} (hvs : vs.map Token.kind = Link.kinds rest)
    (hhead : ∀ l ∈ rest.head?, l.op.level = level) (hnext : Bounds level next.kind) :
    ∃ next' ts', vs ++ next :: ts = next' :: ts' ∧ Bounds (level + 1) next'.kind := by
  rcases rest with _ | ⟨l, rest⟩
  · obtain rfl := List.map_eq_nil_iff.mp hvs
    exact ⟨next, ts, rfl, hnext.tighter⟩
  · obtain ⟨op, vs, rfl, hop, -⟩ := List.map_eq_cons_iff.mp hvs
    refine ⟨op, vs ++ next :: ts, rfl, ?_⟩
    rw [hop]
    exact .operator (hhead l rfl)

/-- At a level, the operands and operators of a chain are read as a tree that is grouped and reads
as the chain. -/
structure Climbs (level : Nat) (first : Atom) (links : List Link) (tree : Expr) : Prop where
  grouped : tree.Grouped
  root : ∀ o ∈ tree.root?, level ≤ o.level
  inOrder : tree.inOrder = (first.expr, links.map fun l => (l.op, l.operand.expr))
  reads (c : Context) (vs : List Token) (next : Token) (ts : List Token) :
    vs.map Token.kind = first.kind :: Link.kinds links → (∀ t ∈ vs, t.newlineBefore = false) →
    Bounds level next.kind →
    ReadsBy (BinaryOp.levels + 4 - level) (LinkRoom c links) c (binary · level) (vs ++ next :: ts)
      tree (next :: ts)

/-- What is tighter in front of the other links of a chain is read, and they are left. -/
theorem Climbs.reads_front {level : Nat} {first : Atom} {tighter rest : List Link} {tree : Expr}
    (h : Climbs (level + 1) first tighter tree) (hhead : ∀ l ∈ rest.head?, l.op.level = level)
    {vs ts : List Token} {next : Token}
    (hvs : vs.map Token.kind = first.kind :: Link.kinds (tighter ++ rest))
    (hlines : ∀ t ∈ vs, t.newlineBefore = false) (hnext : Bounds level next.kind) :
    ∃ more, more.map Token.kind = Link.kinds rest ∧ (∀ t ∈ more, t.newlineBefore = false) ∧
      ∀ c, ReadsBy (BinaryOp.levels + 3 - level) (LinkRoom c tighter) c (binary · (level + 1))
        (vs ++ next :: ts) tree (more ++ next :: ts) := by
  rw [Link.kinds_append, ← List.cons_append] at hvs
  obtain ⟨front, more, rfl, hfront, hmore⟩ := List.map_eq_append_iff.mp hvs
  obtain ⟨hfrontLines, hmoreLines⟩ := List.forall_mem_append.mp hlines
  obtain ⟨next', ts', hbehind, hbounds⟩ := exists_bounds ts hmore hhead hnext
  refine ⟨more, hmore, hmoreLines, fun c => ?_⟩
  rw [List.append_assoc, hbehind]
  exact (h.reads c front next' ts' hfront hfrontLines hbounds).mono (by omega) id

/-- At a level, the rounds behind a left operand read the links of a chain. -/
structure GoesOn (level : Nat) (left : Expr) (links : List Link) (tree : Expr) : Prop where
  grouped : tree.Grouped
  root : ∀ o ∈ tree.root?, level ≤ o.level
  inOrder : tree.inOrder =
    (left.inOrder.1, left.inOrder.2 ++ links.map fun l => (l.op, l.operand.expr))
  reads (enough : Prop) (n : Nat) (c : Context) (count chained : Nat) (vs : List Token)
    (next : Token) (ts : List Token) :
    vs.map Token.kind = Link.kinds links → (∀ t ∈ vs, t.newlineBefore = false) →
    Bounds level next.kind →
    (enough → BinaryOp.levels + 3 - level ≤ n ∧ links.length < count ∧ links.length < c.rounds ∧
      c.nesting + chained + links.length ≤ maxNesting) →
    Reads enough c (rounds (binaryRound n level) count (chained, left)) (vs ++ next :: ts) tree
      (next :: ts)

/-- A round that takes an operator of the level and what is tighter behind it. -/
theorem binaryRound_next {enough : Prop} {c : Context} {n level chained : Nat} {left right : Expr}
    {o : BinaryOp} {op next : Token} {vs ts ts' : List Token} (hop : op.kind = .symbol o.token)
    (hline : op.newlineBefore = false) (hlevel : o.level = level)
    (hnesting : enough → c.nesting + chained < maxNesting)
    (hright : Reads enough { c with nesting := c.nesting + (chained + 1) } (binary n (level + 1))
      (vs ++ next :: ts) right ts') :
    Reads enough c (binaryRound n level (chained, left)) (op :: (vs ++ next :: ts))
      (.inl (chained + 1, .binary left o right)) ts' := by
  refine Reads.bind (Reads.bind .current (.read (.pure _))) ?_
  simp only [hline, Bool.not_false, Bool.true_or, Bool.not_true, Bool.false_eq_true, if_false]
  refine Reads.bind .current ?_
  simp only [hop, binaryOp?_token, if_pos hlevel]
  refine Reads.bind (.checkNesting hnesting) (Reads.bind (advance_append _) ?_)
  exact Reads.bind (.deeper hright) (.pure _)

/-- If tighter chains are read as grouped trees, so are the links behind a left operand. -/
theorem exists_goesOn {level : Nat}
    (htighter : ∀ first links, (∀ l ∈ links, level + 1 ≤ l.op.level) →
      ∃ tree, Climbs (level + 1) first links tree)
    {links : List Link} (hlinks : ∀ l ∈ links, level ≤ l.op.level)
    (hhead : ∀ l ∈ links.head?, l.op.level = level) {left : Expr} (hleft : left.Grouped)
    (hroot : ∀ o ∈ left.root?, level ≤ o.level) : ∃ tree, GoesOn level left links tree := by
  -- each round takes an operator of the level and what is tighter behind it, and leaves fewer links
  induction h : links.length using Nat.strong_induction_on generalizing links left with
  | _ length ih =>
    rcases links with _ | ⟨l, links⟩
    · refine ⟨left, hleft, hroot, by simp, ?_⟩
      intro enough n c count chained vs next ts hvs _ hnext henough
      obtain rfl := List.map_eq_nil_iff.mp hvs
      exact .rounds_stop (fun h => (henough h).2.1)
        (ReadsBy.binaryRound_stop (hnext.stops level (Nat.le_refl _)))
    · obtain ⟨-, hlinks⟩ := List.forall_mem_cons.mp hlinks
      have hop : l.op.level = level := hhead l rfl
      obtain ⟨tighter, rest, rfl, htight, hrest, hrestHead⟩ := exists_split links hlinks
      obtain ⟨right, hright⟩ := htighter l.operand tighter htight
      -- the left operand may have operators of the level, the right one only tighter ones
      have hgrouped : (Expr.binary left l.op right).Grouped :=
        ⟨hleft, hright.grouped, by rwa [hop], by rw [hop]; exact hright.root⟩
      obtain ⟨tree, htree⟩ := ih rest.length (by simp at h; omega) hrest hrestHead hgrouped
        (by rintro _ ⟨⟩; exact Nat.le_of_eq hop.symm) rfl
      refine ⟨tree, htree.grouped, htree.root, ?_, ?_⟩
      · simp [htree.inOrder, Expr.inOrder, hright.inOrder]
      intro enough n c count chained vs next ts hvs hlines hnext henough
      have hlength : (l :: (tighter ++ rest)).length = tighter.length + rest.length + 1 := by simp
      rw [hlength] at henough
      obtain ⟨op, vs, rfl, hopKind, hvs⟩ := List.map_eq_cons_iff.mp hvs
      obtain ⟨hline, hlines⟩ := List.forall_mem_cons.mp hlines
      obtain ⟨more, hmore, hmoreLines, hfront⟩ := hright.reads_front hrestHead hvs hlines hnext
      have hround : Reads enough c (binaryRound n level (chained, left)) (op :: (vs ++ next :: ts))
          (.inl (chained + 1, .binary left l.op right)) (more ++ next :: ts) := by
        refine binaryRound_next hopKind hline hop (fun h => ?_) ((hfront _ n).mono fun h => ?_)
        · have hroom := henough h
          omega
        · have hroom := henough h
          refine ⟨by omega, ?_, ?_⟩ <;> dsimp only <;> omega
      have hrounds := htree.reads enough n c (count - 1) (chained + 1) more next ts hmore hmoreLines
        hnext fun h => by have hroom := henough h; omega
      exact .rounds_next _ (fun h => by have hroom := henough h; omega) hround hrounds

/-- At every level, a chain without looser operators is read as a grouped tree. -/
theorem exists_climbs {level : Nat} (hlevel : level ≤ BinaryOp.levels) (first : Atom)
    (links : List Link) (hlinks : ∀ l ∈ links, level ≤ l.op.level) :
    ∃ tree, Climbs level first links tree := by
  induction hlevel using Nat.decreasingInduction generalizing first links with
  | self =>
    -- there is no operator at the tightest level, so the chain is an operand
    obtain rfl : links = [] := List.eq_nil_iff_forall_not_mem.mpr fun l hl =>
      absurd (hlinks l hl) (by cases l.op <;> decide)
    refine ⟨first.expr, Expr.grouped_operand first.root?_expr, ?_, ?_, ?_⟩
    · rw [first.root?_expr]
      exact fun _ ho => nomatch ho
    · exact Expr.inOrder_operand first.root?_expr
    intro c vs next ts hvs _ hnext
    obtain ⟨t, rfl, ht⟩ := List.map_eq_singleton_iff.mp hvs
    have hunary : ReadsBy 3 (LinkRoom c []) c unary (t :: next :: ts) first.expr (next :: ts) :=
      .leaf_unary c ts (by rw [ht]; exact first.leaf?_kind) hnext.detached fun hroom => hroom.1
    exact hunary.binary_top
  | of_succ level hlevel ih =>
    obtain ⟨tighter, rest, rfl, htight, hrest, hhead⟩ := exists_split links hlinks
    obtain ⟨left, hleft⟩ := ih first tighter htight
    obtain ⟨tree, htree⟩ := exists_goesOn ih hrest hhead hleft.grouped
      fun o ho => Nat.le_of_succ_le (hleft.root o ho)
    refine ⟨tree, htree.grouped, htree.root, ?_, ?_⟩
    · simp [htree.inOrder, hleft.inOrder]
    intro c vs next ts hvs hlines hnext
    obtain ⟨more, hmore, hmoreLines, hfront⟩ := hleft.reads_front hhead hvs hlines hnext
    have hlength : (tighter ++ rest).length = tighter.length + rest.length := List.length_append
    have hleast : BinaryOp.levels + 4 - level = BinaryOp.levels + 3 - level + 1 := by omega
    rw [hleast]
    refine ReadsBy.succ rfl fun n => ?_
    rw [binary_succ, if_neg (Nat.not_le.mpr hlevel)]
    refine Reads.bind ((hfront c n).mono fun h => ?_) (.read ?_)
    · obtain ⟨hn, hrounds, hnesting⟩ := h
      exact ⟨hn, by omega, by omega⟩
    · refine htree.reads _ n c c.rounds 0 more next ts hmore hmoreLines hnext fun h => ?_
      obtain ⟨hn, hrounds, hnesting⟩ := h
      omega

theorem bounds_finish {kind : Token.Kind} (h : kind = .finish) : Bounds 0 kind := by
  subst h
  exact ⟨rfl, fun _ _ _ hop => nomatch hop⟩

/-- The tree of a chain is no deeper than the chain has operands. -/
theorem Climbs.depth_le {level : Nat} {first : Atom} {links : List Link} {tree : Expr}
    (h : Climbs level first links tree) : tree.depth ≤ links.length + 1 := by
  have hdepth := Expr.depth_le_of_inOrder (e := tree) (by rw [h.inOrder]; exact first.children_expr)
    (by simp [h.inOrder, Atom.children_expr])
  rwa [h.inOrder, List.length_map] at hdepth

/-- A chain with few operators is a statement. -/
theorem readStatements_chain {chain : Chain} (hlinks : chain.links.length < maxNesting)
    {tree : Expr} (htree : Climbs 0 chain.first chain.links tree) {ts : List Token}
    (hts : ts.map Token.kind = chain.kinds ++ [.finish])
    (hlines : ∀ t ∈ ts, t.newlineBefore = false) (file : String) : ∃ location,
      readStatements (descentAllowance ts.length) file ts = .ok [⟨tree, location⟩] := by
  obtain ⟨vs, last, rfl, hvs, hlast⟩ := List.map_eq_append_iff.mp hts
  obtain ⟨finish, rfl, hfinish⟩ := List.map_eq_singleton_iff.mp hlast
  obtain ⟨hlines, -⟩ := List.forall_mem_append.mp hlines
  have hlength : vs.length = 2 * chain.links.length + 1 := by
    rw [← List.length_map, hvs, chain.length_kinds]
  have hreads (c : Context) := htree.reads { c with nesting := c.nesting + 1 } vs finish [] hvs
    hlines (bounds_finish hfinish)
  obtain ⟨first, vs, rfl, hfirst, -⟩ := List.map_eq_cons_iff.mp hvs
  have hopens : opensValue first.kind = true := by
    rw [hfirst]
    exact chain.first.opensValue_kind
  have hallowance : descentAllowance ((first :: vs) ++ [finish]).length =
      16 * (vs.length + 2) + 15 + 1 := by
    simp [descentAllowance, Nat.mul_add]
  rw [hallowance]
  refine readStatements_expression _ file hopens hfinish (Nat.le_trans htree.depth_le hlinks)
    fun c hnesting hrounds => ?_
  have hexpression : ReadsBy 12 (LinkRoom { c with nesting := c.nesting + 1 } chain.links) c
      expression (first :: (vs ++ [finish])) tree [finish] :=
    ((hreads c).assignment (by simp [hfinish])).expression fun _ => by rw [hnesting]; decide
  refine (hexpression _).mono fun _ => ⟨by omega, ?_⟩
  rw [List.length_cons] at hlength
  constructor <;> dsimp only <;> omega

end Parser

/-- A chain with at most 127 operators is read as one statement, whose tree is the only one that is
grouped and from left to right reads as the chain. -/
theorem parse_chain (chain : Chain) (h : chain.links.length ≤ 127) (name : String) :
    ∃ tree location,
      parse name (String.ofList chain.chars) =
        .ok ⟨name, [⟨tree, location⟩], String.ofList chain.chars, []⟩ ∧
      tree.inOrder = chain.reading ∧ tree.Grouped ∧
      ∀ other : Expr, other.inOrder = chain.reading → other.Grouped → other = tree := by
  obtain ⟨tree, htree⟩ := Parser.exists_climbs (Nat.zero_le _) chain.first chain.links
    fun _ _ => Nat.zero_le _
  obtain ⟨ts, hts, hkinds, hlines⟩ := chain.spells.tokens
  obtain ⟨location, hread⟩ :=
    Parser.readStatements_chain (Nat.lt_succ_of_le h) htree hkinds hlines name
  refine ⟨tree, location, parse_of_tokens hts hread, htree.inOrder, htree.grouped, ?_⟩
  exact fun other hother hgrouped =>
    hgrouped.eq_of_inOrder_eq htree.grouped (hother.trans htree.inOrder.symm)

/-- The chain `a + 2*b < 1_0`. -/
def Chain.sample : Chain :=
  let space : Gap := ⟨[' '], List.forall_mem_singleton.mpr (by decide)⟩
  let nothing : Gap := ⟨[], List.forall_mem_nil _⟩
  ⟨.name 'a' [] (by decide) (by decide) (by decide),
    [⟨space, .add, space, .integer ['2'] [] (by decide) (by decide) (by decide) (by decide)⟩,
      ⟨nothing, .multiply, nothing, .name 'b' [] (by decide) (by decide) (by decide)⟩,
      ⟨space, .less, space,
        .integer ['1'] [['0']] (by decide) (by decide) (by decide) (by decide)⟩]⟩

theorem parse_chain_sample :
    Chain.sample.links.length ≤ 127 ∧ String.ofList Chain.sample.chars = "a + 2*b < 1_0" ∧
      ∃ location, parse "sample" "a + 2*b < 1_0" = .ok ⟨"sample",
        [⟨.binary (.binary (.ref "a") .add
            (.binary (.literal (.integer 2)) .multiply (.ref "b"))) .less
            (.literal (.integer 10)), location⟩], "a + 2*b < 1_0", []⟩ := by
  have hlinks : Chain.sample.links.length ≤ 127 := by decide
  have htext : String.ofList Chain.sample.chars = "a + 2*b < 1_0" := by decide
  obtain ⟨tree, location, hparse, -, -, hunique⟩ := parse_chain Chain.sample hlinks "sample"
  rw [htext] at hparse
  refine ⟨hlinks, htext, location, ?_⟩
  rw [hparse, hunique (.binary (.binary (.ref "a") .add
    (.binary (.literal (.integer 2)) .multiply (.ref "b"))) .less (.literal (.integer 10))) rfl]
  simp [Expr.Grouped, Expr.root?, BinaryOp.level]

end Covenant
