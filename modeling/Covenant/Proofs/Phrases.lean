import Covenant.Proofs.AlignedGrammar
import Covenant.Proofs.CallText
import Covenant.Proofs.Precedence

/-!
# Reading phrases

A phrase is a part of a script: an expression together with the tokens that write it. Phrases are
put together as the grammar has it, from names and literals up to statements, and each carries what
the reader makes of its tokens. So whatever is built from phrases is read as its expression.

The tokens of a phrase are given by slots. A slot takes a token of one kind, which may have to
stand on the line of the token before it or begin a line, or it takes the tokens of a value. So a
phrase may have values in it that are not known.

What a phrase asks of the reader is counted by its tokens: an allowance of sixteen for each, a round
and an open construct for each.

## Main definitions

* `Parser.Slot`, `Parser.Fills` : what the tokens of a phrase are.
* `Parser.Role` : the places where a phrase may stand, from the tightest to the loosest.
* `Parser.Phrase` : an expression, its tokens and what is read of them.

## Main results

* `Parser.Phrase.path`, `Parser.Phrase.call`, `Parser.Phrase.object`, … : how phrases are built.
* `Parser.readStatements_items` : the tokens of statements are read as their expressions.
-/

namespace Covenant

namespace Parser

/-! ### Slots -/

/-- What takes the place of a slot: a token of a kind, which may have to begin a line or not to
begin one, or the tokens of a value. -/
inductive Slot where
  | token (kind : Token.Kind) (line : Option Bool)
  | value (v : Value)

/-- How many tokens a slot takes. -/
def Slot.width : Slot → Nat
  | token _ _ => 1
  | value v => v.kinds.length

/-- How many tokens slots take. -/
def width (slots : List Slot) : Nat :=
  (slots.map Slot.width).sum

@[simp] theorem width_nil : width [] = 0 := rfl

@[simp] theorem width_cons (slot : Slot) (slots : List Slot) :
    width (slot :: slots) = slot.width + width slots := by
  simp [width]

@[simp] theorem width_append (slots slots' : List Slot) :
    width (slots ++ slots') = width slots + width slots' := by
  simp [width]

@[simp] theorem Slot.width_token (kind : Token.Kind) (line : Option Bool) :
    (token kind line).width = 1 := rfl

theorem Slot.width_pos (slot : Slot) : 0 < slot.width := by
  cases slot with
  | token => exact Nat.zero_lt_one
  | value v => exact length_kinds_pos v

/-- The tokens fill the slots. -/
inductive Fills : List Slot → List Token → Prop
  | nil : Fills [] []
  | token {kind : Token.Kind} {line : Option Bool} {t : Token} {slots : List Slot}
    {ts : List Token} (kind_eq : t.kind = kind)
    (line_eq : ∀ begins ∈ line, t.newlineBefore = begins)
    (rest : Fills slots ts) : Fills (.token kind line :: slots) (t :: ts)
  | value {v : Value} {vs : List Token} {slots : List Slot} {ts : List Token}
    (kinds : vs.map Token.kind = v.kinds) (rest : Fills slots ts) :
    Fills (.value v :: slots) (vs ++ ts)

section Fills

variable {kind : Token.Kind} {line : Option Bool} {slots slots' : List Slot} {ts : List Token}

theorem fills_token : Fills (.token kind line :: slots) ts ↔ ∃ t ts', ts = t :: ts' ∧
    t.kind = kind ∧ (∀ begins ∈ line, t.newlineBefore = begins) ∧ Fills slots ts' := by
  constructor
  · rintro ⟨⟩
    exact ⟨_, _, rfl, ‹_›, ‹_›, ‹_›⟩
  · rintro ⟨t, ts', rfl, hkind, hline, hrest⟩
    exact .token hkind hline hrest

theorem fills_nil : Fills [] ts ↔ ts = [] := by
  constructor
  · rintro ⟨⟩
    rfl
  · rintro rfl
    exact .nil

theorem fills_append : Fills (slots ++ slots') ts ↔
    ∃ vs vs', ts = vs ++ vs' ∧ Fills slots vs ∧ Fills slots' vs' := by
  constructor
  · intro h
    induction slots generalizing ts with
    | nil => exact ⟨[], ts, rfl, .nil, h⟩
    | cons slot slots ih =>
      rcases h with _ | ⟨hkind, hline, hrest⟩ | ⟨hkinds, hrest⟩
      · obtain ⟨vs, vs', rfl, hvs, hvs'⟩ := ih hrest
        exact ⟨_ :: vs, vs', rfl, .token hkind hline hvs, hvs'⟩
      · obtain ⟨vs, vs', rfl, hvs, hvs'⟩ := ih hrest
        exact ⟨_ ++ vs, vs', by rw [List.append_assoc], .value hkinds hvs, hvs'⟩
  · rintro ⟨vs, vs', rfl, h, h'⟩
    induction h with
    | nil => exact h'
    | token hkind hline _ ih => exact .token hkind hline ih
    | value hkinds _ ih =>
      rw [List.append_assoc]
      exact .value hkinds ih

theorem Fills.length_eq (h : Fills slots ts) : ts.length = width slots := by
  induction h with
  | nil => rfl
  | token _ _ _ ih => simp [ih, Nat.add_comm]
  | value hkinds _ ih => simp [ih, Slot.width, ← hkinds]

end Fills

/-! ### Roles -/

/-- Whether an operand without a sign in front may begin with such a token. -/
def opensOperand : Token.Kind → Bool
  | .integer _ | .number _ | .string _ | .word _ => true
  | .keyword .true_ | .keyword .false_ | .keyword .null | .keyword .if_ => true
  | .symbol .openBrace => true
  | _ => false

/-- An operand begins here, wherever that is. -/
def Slot.OpensOperand (slot : Slot) : Prop :=
  ∃ kind, slot = .token kind none ∧ opensOperand kind = true

/-- An operand begins here, or a value. -/
def Slot.OpensArgument (slot : Slot) : Prop :=
  slot.OpensOperand ∨ ∃ v, slot = .value v

/-- A statement begins here, on a line of its own. -/
def Slot.OpensItem (slot : Slot) : Prop :=
  ∃ kind, slot = .token kind (some true) ∧
    (opensOperand kind = true ∨ kind = .keyword .let_)

/-- An expression ends before such a token. -/
structure EndsExpression (kind : Token.Kind) : Prop extends Bounds 0 kind where
  ne_assign : kind ≠ .symbol .assign

/-- A place where a phrase may stand. -/
structure Role where
  /-- What reads the phrase. -/
  reader : Nat → ParserM Expr
  /-- How much less than sixteen for each token and one more is allowed. -/
  slack : Nat
  /-- How many more constructs than tokens are open. -/
  spare : Nat
  /-- What the phrase begins with. -/
  opens : Slot → Prop
  /-- What may stand behind it. -/
  follow : Token.Kind → Prop

namespace Role

/-- An operand with all that is attached to it. -/
def operand : Role where
  reader := postfixed
  slack := 11
  spare := 1
  opens := Slot.OpensOperand
  follow kind := attaches kind = false

/-- A block by itself. -/
def braces : Role where
  reader := block
  slack := 13
  spare := 1
  opens slot := slot = .token (.symbol .openBrace) none
  follow _ := True

/-- An operation of a group or a tighter one. -/
def operation (level : Nat) : Role where
  reader := (binary · level)
  slack := 3 + level
  spare := 1
  opens := Slot.OpensOperand
  follow := Bounds level

/-- An expression, whatever ends it. -/
def whole : Role where
  reader := expression
  slack := 1
  spare := 2
  opens := Slot.OpensOperand
  follow := EndsExpression

/-- An expression before a comma or a closing symbol. -/
def argument : Role where
  reader := expression
  slack := 1
  spare := 2
  opens := Slot.OpensArgument
  follow kind := ends kind = true

/-- A statement on a line of its own. -/
def item : Role where
  reader := blockItem
  slack := 0
  spare := 2
  opens := Slot.OpensItem
  follow := EndsExpression

/-- What a phrase of so many tokens asks for: a round and an open construct for each, and some
more. -/
def Room (role : Role) (c : Context) (tokens : Nat) : Prop :=
  tokens < c.rounds ∧ c.nesting + tokens + role.spare ≤ maxNesting

theorem room_operand {c : Context} {tokens : Nat} :
    operand.Room c tokens ↔ tokens < c.rounds ∧ c.nesting + tokens + 1 ≤ maxNesting := Iff.rfl

theorem room_argument {c : Context} {tokens : Nat} :
    argument.Room c tokens ↔ tokens < c.rounds ∧ c.nesting + tokens + 2 ≤ maxNesting := Iff.rfl

theorem room_operation {c : Context} {level tokens : Nat} :
    (operation level).Room c tokens ↔ tokens < c.rounds ∧ c.nesting + tokens + 1 ≤ maxNesting :=
  Iff.rfl

theorem room_whole {c : Context} {tokens : Nat} :
    whole.Room c tokens ↔ tokens < c.rounds ∧ c.nesting + tokens + 2 ≤ maxNesting := Iff.rfl

theorem room_item {c : Context} {tokens : Nat} :
    item.Room c tokens ↔ tokens < c.rounds ∧ c.nesting + tokens + 2 ≤ maxNesting := Iff.rfl

theorem room_braces {c : Context} {tokens : Nat} :
    braces.Room c tokens ↔ tokens < c.rounds ∧ c.nesting + tokens + 1 ≤ maxNesting := Iff.rfl

/-- The tokens are read in this role as an expression, wherever that is. -/
def ReadsAs (role : Role) (slots : List Slot) (e : Expr) : Prop :=
  ∀ (c : Context) (vs : List Token) (next : Token) (ts : List Token), Fills slots vs →
    role.follow next.kind →
    ReadsBy (16 * width slots + 1 - role.slack) (role.Room c (width slots)) c role.reader
      (vs ++ next :: ts) e (next :: ts)

end Role

/-- An expression and the tokens that write it. -/
structure Phrase (role : Role) where
  /-- The first slot. -/
  head : Slot
  /-- The other slots. -/
  tail : List Slot
  /-- What the tokens are read as. -/
  expr : Expr
  opens : role.opens head
  depth_le : expr.depth ≤ width (head :: tail) + 2
  reads : role.ReadsAs (head :: tail) expr

namespace Phrase

variable {role : Role}

/-- The slots of a phrase. -/
def slots (p : Phrase role) : List Slot :=
  p.head :: p.tail

theorem width_slots_pos (p : Phrase role) : 0 < width p.slots :=
  Nat.lt_of_lt_of_le p.head.width_pos (by simp [slots])

/-- The first token of a phrase. -/
theorem exists_cons (p : Phrase role) {vs : List Token} (h : Fills p.slots vs) :
    ∃ t ts, vs = t :: ts := by
  refine List.exists_cons_of_ne_nil fun hnil => ?_
  have hlength := h.length_eq
  have hpos := p.width_slots_pos
  simp only [hnil, List.length_nil] at hlength
  omega

end Phrase

/-! ### What stands behind a phrase -/

section Tokens

variable {enough : Prop} {c : Context} {n : Nat} {t next : Token} {vs ts ts' : List Token}
  {e e' : Expr} {kind : Token.Kind}

theorem exists_cons_append (vs : List Token) (next : Token) (ts : List Token) :
    ∃ u us, vs ++ next :: ts = u :: us := by
  rcases vs with _ | ⟨u, us⟩
  · exact ⟨next, ts, rfl⟩
  · exact ⟨u, us ++ next :: ts, rfl⟩

theorem unaryOp?_of_opensOperand (h : opensOperand kind = true) : unaryOp? kind = none := by
  cases kind with
  | symbol s => cases s <;> first | rfl | cases h
  | _ => rfl

/-- Neither an operator nor a part of an operand begins like an operand. -/
theorem ends_of_opensOperand (h : opensOperand kind = true) (hbrace : kind ≠ .symbol .assign) :
    EndsExpression kind := by
  refine ⟨⟨?_, fun k _ op hop => ?_⟩, hbrace⟩
  · cases kind with
    | symbol s => cases s <;> first | rfl | cases h
    | _ => rfl
  · cases kind with
    | symbol s =>
      cases s with
      | openBrace => cases hop
      | _ => cases h
    | _ => cases hop

/-! ### Operands -/

/-- The slots of properties. -/
def propertySlots (fields : List String) : List Slot :=
  fields.flatMap fun name => [.token (.symbol .dot) none, .token (.word name) none]

theorem width_propertySlots (fields : List String) :
    width (propertySlots fields) = 2 * fields.length := by
  induction fields with
  | nil => rfl
  | cons name fields ih =>
    rw [propertySlots, List.flatMap_cons, width_append, ← propertySlots, ih]
    simp only [width_cons, Slot.width_token, width_nil, List.length_cons]
    omega

/-- A property of a property, and so on. -/
def properties (e : Expr) (fields : List String) : Expr :=
  fields.foldl .property e

theorem depth_properties (e : Expr) (fields : List String) :
    (properties e fields).depth ≤ e.depth + fields.length := by
  induction fields generalizing e with
  | nil => exact Nat.le_refl _
  | cons name fields ih =>
    have hproperty : (Expr.property e name).depth ≤ e.depth + 1 := by
      rw [Expr.depth_le_succ_iff]
      simp [Expr.children]
    have hrest := ih (.property e name)
    rw [List.length_cons]
    change (properties (.property e name) fields).depth ≤ _
    omega

/-- Properties are attached one in a round. -/
theorem rounds_properties {fields : List String} {count chained : Nat}
    (hvs : Fills (propertySlots fields) vs) (hcount : enough → fields.length ≤ count)
    (hnesting : enough → c.nesting + chained + fields.length ≤ maxNesting)
    (h : Reads enough c (rounds (postfixRound n) (count - fields.length)
      (chained + fields.length, properties e fields)) (next :: ts) e' ts') :
    Reads enough c (rounds (postfixRound n) count (chained, e)) (vs ++ next :: ts) e' ts' := by
  induction fields generalizing count chained e vs with
  | nil =>
    obtain rfl := fills_nil.mp hvs
    exact h
  | cons name fields ih =>
    obtain ⟨dot, vs, rfl, hdot, -, hvs⟩ := fills_token.mp hvs
    obtain ⟨word, vs, rfl, hword, -, hvs⟩ := fills_token.mp hvs
    have hrest : Reads enough c (rounds (postfixRound n) (count - 1)
        (chained + 1, .property e name)) (vs ++ next :: ts) e' ts' := by
      refine ih hvs (fun henough => ?_) (fun henough => ?_) ?_
      · exact Nat.le_sub_of_add_le (hcount henough)
      · have := hnesting henough
        rw [List.length_cons] at this
        omega
      · rwa [Nat.sub_sub, Nat.add_comm 1, Nat.add_assoc, Nat.add_comm 1]
    obtain ⟨u, us, hbehind⟩ := exists_cons_append vs next ts
    rw [List.cons_append, List.cons_append]
    rw [hbehind] at hrest ⊢
    refine .rounds_next _ (fun henough => ?_)
      (postfixRound_property chained e hdot hword fun henough => ?_) hrest
    · exact Nat.lt_of_lt_of_le (Nat.succ_pos _) (hcount henough)
    · have := hnesting henough
      rw [List.length_cons] at this
      omega

/-- A token that is an operand by itself, whatever stands behind it. -/
theorem leaf_append (h : leaf? t.kind = some e) (vs : List Token) (next : Token)
    (ts : List Token) :
    ReadsBy 1 enough c primary (t :: (vs ++ next :: ts)) e (vs ++ next :: ts) := by
  obtain ⟨u, us, hbehind⟩ := exists_cons_append vs next ts
  rw [hbehind]
  exact .leaf h

end Tokens

theorem Role.reads_path (name : String) (fields : List String) :
    Role.operand.ReadsAs (.token (.word name) none :: propertySlots fields)
      (properties (.ref name) fields) := by
  intro c all next ts hall hnext
  obtain ⟨t, vs, rfl, ht, -, hvs⟩ := fills_token.mp hall
  have hleaf : leaf? t.kind = some (.ref name) := by rw [ht]; rfl
  have hwidth : width (.token (.word name) none :: propertySlots fields) =
      2 * fields.length + 1 := by
    rw [width_cons, width_propertySlots, Slot.width_token, Nat.add_comm]
  rw [hwidth]
  have hpostfixed : ReadsBy (1 + 1) (operand.Room c (2 * fields.length + 1)) c postfixed
      (t :: (vs ++ next :: ts)) (properties (.ref name) fields) (next :: ts) := by
    refine ReadsBy.succ rfl fun n => ?_
    rw [postfixed_succ]
    refine Reads.bind (leaf_append hleaf vs next ts n) (Reads.read (rounds_properties hvs
      (fun henough => ?_) (fun henough => ?_) (.rounds_stop (fun henough => ?_)
        (ReadsBy.postfixRound_stop hnext))))
    all_goals
      obtain ⟨hrounds, hnesting⟩ := room_operand.mp henough.2
      omega
  exact hpostfixed.mono (by simp only [operand]; omega) id

namespace Phrase

/-- A name, or a property of one. -/
def path (name : String) (fields : List String) : Phrase .operand where
  head := .token (.word name) none
  tail := propertySlots fields
  expr := properties (.ref name) fields
  opens := ⟨_, rfl, rfl⟩
  depth_le := by
    have hname : (Expr.ref name).depth ≤ 1 := by
      rw [Expr.depth_le_succ_iff]
      exact List.forall_mem_nil _
    have hproperties := depth_properties (.ref name) fields
    rw [width_cons, width_propertySlots]
    omega
  reads := Role.reads_path name fields

/-- A token that is an operand by itself. -/
def leaf (kind : Token.Kind) (e : Expr) (hleaf : leaf? kind = some e)
    (hchildren : e.children = []) : Phrase .operand where
  head := .token kind none
  tail := []
  expr := e
  opens := by
    refine ⟨kind, rfl, ?_⟩
    cases kind with
    | symbol s => cases hleaf
    | keyword k => cases k <;> first | rfl | cases hleaf
    | _ => first | rfl | cases hleaf
  depth_le := by
    have hdepth : e.depth ≤ 1 := by
      rw [Expr.depth_le_succ_iff, hchildren]
      exact List.forall_mem_nil _
    simp only [width_cons]
    omega
  reads := by
    intro c all next ts hall hnext
    obtain ⟨t, vs, rfl, rfl, -, hvs⟩ := fills_token.mp hall
    obtain rfl := fills_nil.mp hvs
    exact ((ReadsBy.leaf hleaf).postfixed hnext fun henough => Nat.zero_lt_of_lt henough.1).mono
      (by simp [Role.operand]) id

/-- A literal. -/
def integer (n : Int64) : Phrase .operand :=
  leaf (.integer n) (.literal (.integer n)) rfl rfl

def boolean (flag : Bool) : Phrase .operand :=
  leaf (.keyword (if flag then .true_ else .false_)) (.literal (.boolean flag))
    (by cases flag <;> rfl) rfl

end Phrase

/-! ### Arguments -/

/-- The slots of parts with commas between them. -/
def commas : List (List Slot) → List Slot
  | [] => []
  | [part] => part
  | part :: second :: parts => part ++ .token (.symbol .comma) none :: commas (second :: parts)

theorem commas_cons (part second : List Slot) (parts : List (List Slot)) :
    commas (part :: second :: parts) =
      part ++ .token (.symbol .comma) none :: commas (second :: parts) := rfl

theorem width_le_commas {part : List Slot} {parts : List (List Slot)} (h : part ∈ parts) :
    width part ≤ width (commas parts) := by
  induction parts with
  | nil => cases h
  | cons first parts ih =>
    rcases parts with _ | ⟨second, parts⟩
    · rw [List.mem_singleton.mp h, commas]
    · rw [commas_cons, width_append, width_cons]
      rcases List.mem_cons.mp h with rfl | h
      · omega
      · have := ih h
        omega

theorem length_le_commas {parts : List (List Slot)} (h : ∀ part ∈ parts, 0 < width part) :
    parts.length ≤ width (commas parts) := by
  induction parts with
  | nil => exact Nat.le_refl _
  | cons first parts ih =>
    obtain ⟨hfirst, hrest⟩ := List.forall_mem_cons.mp h
    rcases parts with _ | ⟨second, parts⟩
    · exact hfirst
    · have := ih hrest
      rw [commas_cons, width_append, width_cons, Slot.width_token]
      rw [List.length_cons]
      omega

/-- Whether an argument may begin with such a token. -/
def opensArgument (kind : Token.Kind) : Prop :=
  opensOperand kind = true ∨ opensValue kind = true

theorem ne_symbol_of_opensArgument {kind : Token.Kind} {symbol : Symbol} (h : opensArgument kind)
    (hoperand : opensOperand (.symbol symbol) = false)
    (hvalue : opensValue (.symbol symbol) = false) : kind ≠ .symbol symbol := by
  rintro rfl
  rcases h with h | h
  · exact Bool.noConfusion (hoperand.symm.trans h)
  · exact Bool.noConfusion (hvalue.symm.trans h)

namespace Phrase

/-- The slots of arguments. -/
def argumentSlots (args : List (Phrase .argument)) : List Slot :=
  commas (args.map slots)

theorem exists_opensArgument (p : Phrase .argument) {vs : List Token} (h : Fills p.slots vs) :
    ∃ t ts, vs = t :: ts ∧ opensArgument t.kind := by
  obtain ⟨head, tail, e, hopens, hdepth, hreads⟩ := p
  obtain ⟨kind, rfl, hkind⟩ | ⟨v, rfl⟩ := hopens
  · obtain ⟨t, ts, rfl, rfl, -⟩ := fills_token.mp h
    exact ⟨t, ts, rfl, .inl hkind⟩
  · rcases h with - | - | ⟨hkinds, hrest⟩
    obtain ⟨t, vs, rfl, hopens⟩ := exists_cons_of_kinds hkinds
    exact ⟨t, _, rfl, .inr hopens⟩

end Phrase

section Arguments

variable {enough : Prop} {c : Context} {n : Nat} {next close : Token} {vs ts : List Token}

/-- Arguments are read one in a round. -/
theorem rounds_arguments (hclose : close.kind = .symbol .closeParen)
    (args : List (Phrase .argument))
    (hargs : ∀ arg ∈ args, enough →
      16 * width arg.slots ≤ n ∧ Role.argument.Room c (width arg.slots))
    (done : List Expr) (hvs : Fills (Phrase.argumentSlots args) vs) (count : Nat)
    (hcount : enough → args.length < count) :
    Reads enough c (rounds (itemRound n .closeParen .closeParen) count done)
      (vs ++ close :: next :: ts) (done.reverse ++ args.map Phrase.expr) (next :: ts) := by
  have hends : ends close.kind = true := by rw [hclose]; rfl
  have hpos (henough : enough) : 0 < count := Nat.zero_lt_of_lt (hcount henough)
  induction args generalizing done vs count with
  | nil =>
    obtain rfl := fills_nil.mp hvs
    rw [List.map_nil, List.append_nil]
    exact .rounds_stop hpos (Reads.bind (.eat_pass hclose) (.pure _))
  | cons arg args ih =>
    obtain ⟨harg, hargs⟩ := List.forall_mem_cons.mp hargs
    have hread {vs : List Token} (hvs : Fills arg.slots vs) (next : Token) (ts : List Token)
        (hnext : ends next.kind = true) :
        Reads enough c (expression n) (vs ++ next :: ts) arg.expr (next :: ts) :=
      (arg.reads c vs next ts hvs hnext n).mono fun henough => harg henough
    rcases args with _ | ⟨second, args⟩
    · have hlast := hread hvs close (next :: ts) hends
      obtain ⟨t, more, rfl, hopens⟩ := arg.exists_opensArgument hvs
      rw [List.map_singleton, ← List.reverse_cons]
      exact .rounds_stop hpos (itemRound_last done
        (ne_symbol_of_opensArgument hopens rfl rfl) hlast hclose (by simp))
    · obtain ⟨front, more, rfl, hfront, hbehind⟩ := fills_append.mp hvs
      obtain ⟨comma, more, rfl, hcomma, -, hmore⟩ := fills_token.mp hbehind
      have hcommaEnds : ends comma.kind = true := by rw [hcomma]; rfl
      have hfewer := length_lt_pred hcount
      have hrest := ih hargs (arg.expr :: done) hmore (count - 1) hfewer
        fun henough => Nat.zero_lt_of_lt (hfewer henough)
      rw [List.reverse_cons, List.append_assoc, List.singleton_append] at hrest
      refine .rounds_next (arg.expr :: done) hpos ?_ hrest
      have hfirst := hread hfront comma (more ++ close :: next :: ts) hcommaEnds
      rw [List.append_assoc, List.cons_append]
      obtain ⟨t, front, rfl, hopens⟩ := arg.exists_opensArgument hfront
      exact itemRound_next done (ne_symbol_of_opensArgument hopens rfl rfl) hfirst hcomma

/-- Arguments in parentheses make a call of what has a name. -/
theorem postfixRound_arguments {opens : Token} {name : String} {e : Expr}
    (args : List (Phrase .argument)) (chained : Nat) (hopens : opens.kind = .symbol .openParen)
    (hline : opens.newlineBefore = false) (hname : calleeName? e = some name)
    (hvs : Fills (Phrase.argumentSlots args) vs) (hclose : close.kind = .symbol .closeParen)
    (hn : enough → 16 * width (Phrase.argumentSlots args) < n)
    (hrounds : enough → width (Phrase.argumentSlots args) < c.rounds)
    (hnesting : enough →
      c.nesting + chained + width (Phrase.argumentSlots args) + 3 ≤ maxNesting) :
    Reads enough c (postfixRound n (chained, e)) (opens :: (vs ++ close :: next :: ts))
      (.inl (chained + 1, .call name (args.map Phrase.expr))) (next :: ts) := by
  have hlength : args.length ≤ width (Phrase.argumentSlots args) := by
    have hle := length_le_commas (List.forall_mem_map.mpr fun (p : Phrase .argument)
      (_ : p ∈ args) => p.width_slots_pos)
    rwa [List.length_map] at hle
  have hcontinues : Reads enough c continuesLine (opens :: (vs ++ close :: next :: ts)) true
      (opens :: (vs ++ close :: next :: ts)) := by
    refine Reads.bind .current (.read ?_)
    rw [hline]
    exact .pure _
  refine Reads.bind .current ?_
  simp only [hopens, attaches, if_true]
  refine Reads.bind (.checkNesting fun henough => ?_) (Reads.bind hcontinues ?_)
  · have := hnesting henough
    omega
  simp only [if_true, hname]
  refine Reads.bind (advance_append _) (Reads.bind (.deeper ?_) (.pure _))
  rcases n with _ | n
  · exact Reads.exhausted.mono fun henough => absurd (hn henough) (Nat.not_lt_zero _)
  rw [delimited_succ]
  refine .grouping (.read (rounds_arguments hclose args (fun arg harg henough => ?_) [] hvs _
    fun henough => ?_))
  · have hwidth : width arg.slots ≤ width (Phrase.argumentSlots args) :=
      width_le_commas (List.mem_map_of_mem harg)
    have hn := hn henough
    have hrounds := hrounds henough
    have hnesting := hnesting henough
    refine ⟨by omega, Role.room_argument.mpr ⟨Nat.lt_of_le_of_lt hwidth hrounds, ?_⟩⟩
    dsimp only
    omega
  · have hrounds := hrounds henough
    dsimp only
    omega

end Arguments

/-- The slots of arguments in parentheses. -/
def callSlots (args : List (Phrase .argument)) : List Slot :=
  .token (.symbol .openParen) (some false) ::
    (Phrase.argumentSlots args ++ [.token (.symbol .closeParen) none])

theorem width_callSlots (args : List (Phrase .argument)) :
    width (callSlots args) = width (Phrase.argumentSlots args) + 2 := by
  simp only [callSlots, width_cons, width_append, Slot.width_token, width_nil]
  omega

theorem Role.reads_call {name callee : String} {fields : List String}
    (hname : calleeName? (properties (.ref name) fields) = some callee)
    (args : List (Phrase .argument)) :
    Role.operand.ReadsAs
      (.token (.word name) none :: (propertySlots fields ++ callSlots args))
      (.call callee (args.map Phrase.expr)) := by
  intro c all next ts hall hnext
  obtain ⟨t, rest, rfl, ht, -, hrest⟩ := fills_token.mp hall
  obtain ⟨vs, more, rfl, hvs, hmore⟩ := fills_append.mp hrest
  obtain ⟨opens, inside, rfl, hopens, hline, hinside⟩ := fills_token.mp hmore
  obtain ⟨more, last, rfl, hargs, hlast⟩ := fills_append.mp hinside
  obtain ⟨close, last, rfl, hclose, -, hnil⟩ := fills_token.mp hlast
  obtain rfl := fills_nil.mp hnil
  have hleaf : leaf? t.kind = some (.ref name) := by rw [ht]; rfl
  set inner := width (Phrase.argumentSlots args) with hinner
  have hwidth : width (.token (.word name) none :: (propertySlots fields ++ callSlots args)) =
      2 * fields.length + inner + 3 := by
    rw [width_cons, width_append, width_propertySlots, width_callSlots, Slot.width_token]
    omega
  rw [hwidth]
  have hpostfixed : ReadsBy (16 * inner + 1 + 1)
      (operand.Room c (2 * fields.length + inner + 3)) c postfixed
      (t :: (vs ++ opens :: (more ++ close :: next :: ts))) (.call callee (args.map Phrase.expr))
      (next :: ts) := by
    refine ReadsBy.succ rfl fun n => ?_
    rw [postfixed_succ]
    refine Reads.bind ((leaf_append hleaf vs opens _ n).mono fun h => ⟨by omega, h.2⟩)
      (Reads.read (rounds_properties hvs (fun henough => ?_) (fun henough => ?_)
        (.rounds_next _ (fun henough => ?_) (postfixRound_arguments args _ hopens (hline false rfl)
          hname hargs hclose (fun henough => henough.1) (fun henough => ?_) fun henough => ?_)
          (.rounds_stop (fun henough => ?_) (ReadsBy.postfixRound_stop hnext)))))
    all_goals
      obtain ⟨hrounds, hnesting⟩ := room_operand.mp henough.2
      omega
  have happend : t :: (vs ++ opens :: (more ++ [close])) ++ next :: ts =
      t :: (vs ++ opens :: (more ++ close :: next :: ts)) := by
    simp
  rw [happend]
  exact hpostfixed.mono (by simp only [operand]; omega) id

namespace Phrase

theorem depth_le_of_mem_arguments {args : List (Phrase .argument)} {e : Expr}
    (h : e ∈ args.map expr) : e.depth ≤ width (argumentSlots args) + 2 := by
  obtain ⟨arg, harg, rfl⟩ := List.mem_map.mp h
  have hwidth : width arg.slots ≤ width (argumentSlots args) :=
    width_le_commas (List.mem_map_of_mem harg)
  exact Nat.le_trans arg.depth_le (Nat.add_le_add_right hwidth 2)

/-- A call of a name, or of what points make of several. -/
def call (name : String) (fields : List String) (callee : String)
    (hname : calleeName? (properties (.ref name) fields) = some callee)
    (args : List (Phrase .argument)) : Phrase .operand where
  head := .token (.word name) none
  tail := propertySlots fields ++ callSlots args
  expr := .call callee (args.map expr)
  opens := ⟨_, rfl, rfl⟩
  depth_le := by
    rw [width_cons, width_append, width_callSlots, Expr.depth_le_succ_iff]
    intro part hpart
    have := depth_le_of_mem_arguments hpart
    omega
  reads := Role.reads_call hname args

end Phrase

/-! ### Operations -/

theorem Role.reads_operation {slots : List Slot} {e : Expr} (hpos : 0 < width slots)
    (hopens : ∀ vs, Fills slots vs → ∃ t ts, vs = t :: ts ∧ unaryOp? t.kind = none)
    (h : Role.operand.ReadsAs slots e) : (Role.operation BinaryOp.levels).ReadsAs slots e := by
  intro c vs next ts hvs hnext
  have hoperand := h c vs next ts hvs hnext.detached
  obtain ⟨t, vs, rfl, ht⟩ := hopens vs hvs
  have hlevels : BinaryOp.levels = 6 := rfl
  refine (ReadsBy.binary_top (ReadsBy.unary hoperand ht)).mono ?_ id
  simp only [operand, operation]
  omega

/-- What is read as an operation of a group is read as one of every looser group. -/
theorem Role.reads_looser {slots : List Slot} {e : Expr} {level : Nat} (looser : Nat)
    (hlevel : level + looser ≤ BinaryOp.levels) (hpos : 0 < width slots)
    (h : (Role.operation (level + looser)).ReadsAs slots e) :
    (Role.operation level).ReadsAs slots e := by
  intro c vs next ts hvs hnext
  have hbounds : Bounds (level + looser) next.kind :=
    ⟨hnext.detached, fun k hk => hnext.stops k (by omega)⟩
  have hlevels : BinaryOp.levels = 6 := rfl
  refine (ReadsBy.binary_looser looser hlevel (h c vs next ts hvs hbounds)
    (fun k hk _ => hnext.stops k hk) fun henough => Nat.zero_lt_of_lt henough.1).mono ?_ id
  simp only [operation]
  omega

namespace Phrase

theorem exists_opensOperand {role : Role} (p : Phrase role) (hrole : p.head.OpensOperand)
    {vs : List Token} (h : Fills p.slots vs) :
    ∃ t ts, vs = t :: ts ∧ opensOperand t.kind = true := by
  obtain ⟨head, tail, e, hopens, hdepth, hreads⟩ := p
  obtain ⟨kind, rfl, hkind⟩ := hrole
  obtain ⟨t, ts, rfl, rfl, -⟩ := fills_token.mp h
  exact ⟨t, ts, rfl, hkind⟩

/-- An operand is an operation of the tightest group. -/
def operation (p : Phrase .operand) : Phrase (.operation BinaryOp.levels) where
  head := p.head
  tail := p.tail
  expr := p.expr
  opens := p.opens
  depth_le := p.depth_le
  reads := by
    refine Role.reads_operation p.width_slots_pos (fun vs hvs => ?_) p.reads
    obtain ⟨t, ts, rfl, ht⟩ := p.exists_opensOperand p.opens hvs
    exact ⟨t, ts, rfl, unaryOp?_of_opensOperand ht⟩

/-- An operation of a group is one of every looser group. -/
def looser {level : Nat} (looser : Nat) (hlevel : level + looser ≤ BinaryOp.levels)
    (p : Phrase (.operation (level + looser))) : Phrase (.operation level) where
  head := p.head
  tail := p.tail
  expr := p.expr
  opens := p.opens
  depth_le := p.depth_le
  reads := Role.reads_looser looser hlevel p.width_slots_pos p.reads

/-- An operand is an operation of every group. -/
def atLevel (level : Nat) (hlevel : level ≤ BinaryOp.levels) (p : Phrase .operand) :
    Phrase (.operation level) where
  head := p.head
  tail := p.tail
  expr := p.expr
  opens := p.opens
  depth_le := p.depth_le
  reads := by
    refine Role.reads_looser (BinaryOp.levels - level) (by omega) p.width_slots_pos ?_
    rw [Nat.add_sub_cancel' hlevel]
    exact p.operation.reads

/-- Operators of a group with operations of tighter groups behind them. -/
abbrev Links (level : Nat) : Type :=
  List (BinaryOp × Phrase (.operation (level + 1)))

namespace Links

variable {level : Nat}

/-- The slots of operators and operands. -/
def slots (links : Links level) : List Slot :=
  links.flatMap fun link => .token (.symbol link.1.token) (some false) :: link.2.slots

/-- What operators and operands make of what is in front of them, from left to right. -/
def expr (left : Expr) (links : Links level) : Expr :=
  links.foldl (fun left link => .binary left link.1 link.2.expr) left

theorem slots_cons (op : BinaryOp) (p : Phrase (.operation (level + 1))) (links : Links level) :
    slots ((op, p) :: links) =
      .token (.symbol op.token) (some false) :: (p.slots ++ slots links) := rfl

theorem width_slots_cons (op : BinaryOp) (p : Phrase (.operation (level + 1)))
    (links : Links level) : width (slots ((op, p) :: links)) =
      width p.slots + width (slots links) + 1 := by
  rw [slots_cons, width_cons, width_append, Slot.width_token, Nat.add_comm]

theorem length_le (links : Links level) : links.length ≤ width links.slots := by
  induction links with
  | nil => exact Nat.le_refl _
  | cons link links ih =>
    obtain ⟨op, p⟩ := link
    rw [width_slots_cons, List.length_cons]
    omega

theorem depth_expr_le (left : Expr) (links : Links level) {n : Nat} (hleft : left.depth ≤ n + 2) :
    (expr left links).depth ≤ n + width links.slots + 2 := by
  induction links generalizing left n with
  | nil => exact hleft
  | cons link links ih =>
    obtain ⟨op, p⟩ := link
    have hbinary : (Expr.binary left op p.expr).depth ≤ n + width p.slots + 1 + 2 := by
      rw [Expr.depth_le_succ_iff]
      simp only [Expr.children, List.mem_cons, List.not_mem_nil, or_false]
      rintro part (rfl | rfl)
      · omega
      · have := p.depth_le
        have : p.expr.depth ≤ width p.slots + 2 := this
        omega
    have hrest := ih _ hbinary
    rw [width_slots_cons]
    change (expr (.binary left op p.expr) links).depth ≤ _
    omega

/-- What stands behind a part of a chain bounds it: an operator of the level, or what bounds the
chain. -/
theorem exists_bounds {links : Links level} (hlinks : ∀ link ∈ links, link.1.level = level)
    {vs : List Token} (hvs : Fills links.slots vs) {next : Token} (ts : List Token)
    (hnext : Bounds level next.kind) :
    ∃ u us, vs ++ next :: ts = u :: us ∧ Bounds (level + 1) u.kind := by
  rcases links with _ | ⟨⟨op, p⟩, links⟩
  · obtain rfl := fills_nil.mp hvs
    exact ⟨next, ts, rfl, hnext.tighter⟩
  · obtain ⟨t, vs, rfl, ht, -, -⟩ := fills_token.mp hvs
    refine ⟨t, vs ++ next :: ts, rfl, ?_⟩
    rw [ht]
    exact .operator (hlinks (op, p) List.mem_cons_self)

/-- Operators of a group are read one in a round. -/
theorem rounds_reads {enough : Prop} {c : Context} {n count chained : Nat} {left : Expr}
    {links : Links level} (hlinks : ∀ link ∈ links, link.1.level = level) {vs : List Token}
    (hvs : Fills links.slots vs) {next : Token} {ts : List Token} (hnext : Bounds level next.kind)
    (hn : enough → 16 * width links.slots ≤ n + level + 19)
    (hcount : enough → links.length < count) (hrounds : enough → width links.slots < c.rounds)
    (hnesting : enough → c.nesting + chained + width links.slots + 1 ≤ maxNesting) :
    Reads enough c (rounds (binaryRound n level) count (chained, left)) (vs ++ next :: ts)
      (expr left links) (next :: ts) := by
  induction links generalizing count chained left vs with
  | nil =>
    obtain rfl := fills_nil.mp hvs
    exact .rounds_stop hcount (ReadsBy.binaryRound_stop (hnext.stops level (Nat.le_refl _)))
  | cons link links ih =>
    obtain ⟨op, p⟩ := link
    obtain ⟨hop, hrest⟩ := List.forall_mem_cons.mp hlinks
    obtain ⟨t, behind, rfl, ht, hline, hbehind⟩ := fills_token.mp hvs
    obtain ⟨front, more, rfl, hfront, hmore⟩ := fills_append.mp hbehind
    rw [width_slots_cons] at hn hrounds hnesting
    obtain ⟨u, us, hus, hu⟩ := exists_bounds hrest hmore ts hnext
    have hread : Reads enough { c with nesting := c.nesting + (chained + 1) }
        (binary n (level + 1)) (front ++ more ++ next :: ts) p.expr (more ++ next :: ts) := by
      rw [List.append_assoc, hus]
      refine (p.reads _ front u us hfront hu n).mono fun henough => ?_
      have hn := hn henough
      have hrounds := hrounds henough
      have hnesting := hnesting henough
      refine ⟨?_, Role.room_operation.mpr ⟨?_, ?_⟩⟩
      · change 16 * width p.slots + 1 - (3 + (level + 1)) ≤ n
        omega
      · change width p.slots < c.rounds
        omega
      · change c.nesting + (chained + 1) + width p.slots + 1 ≤ maxNesting
        omega
    refine .rounds_next (chained + 1, .binary left op p.expr) (fun henough => ?_)
      (binaryRound_next ht (hline false rfl) hop (fun henough => ?_) hread)
      (ih hrest hmore (fun henough => ?_) (fun henough => ?_) (fun henough => ?_)
        fun henough => ?_)
    · exact Nat.zero_lt_of_lt (hcount henough)
    · have := hnesting henough
      omega
    · have := hn henough
      omega
    · have := hcount henough
      rw [List.length_cons] at this
      omega
    · have := hrounds henough
      omega
    · have := hnesting henough
      omega

end Links

theorem reads_chain {level : Nat} (hlevel : level < BinaryOp.levels)
    (first : Phrase (.operation (level + 1))) {links : Links level}
    (hlinks : ∀ link ∈ links, link.1.level = level) :
    (Role.operation level).ReadsAs (first.head :: (first.tail ++ links.slots))
      (links.expr first.expr) := by
  intro c all next ts hall hnext
  rw [← List.cons_append, fills_append] at hall
  obtain ⟨vs, more, rfl, hvs, hmore⟩ := hall
  obtain ⟨u, us, hus, hu⟩ := Links.exists_bounds hlinks hmore ts hnext
  have hwidth : width (first.head :: (first.tail ++ links.slots)) =
      width first.slots + width links.slots := by
    rw [← List.cons_append, width_append, slots]
  have hpos := first.width_slots_pos
  have hlength := links.length_le
  rw [hwidth, List.append_assoc]
  have hlevels : BinaryOp.levels = 6 := rfl
  have hbinary : ReadsBy (16 * (width first.slots + width links.slots) - (3 + level) + 1)
      ((Role.operation level).Room c (width first.slots + width links.slots)) c (binary · level)
      (vs ++ (more ++ next :: ts)) (links.expr first.expr) (next :: ts) := by
    refine ReadsBy.succ rfl fun n => ?_
    rw [binary_succ, if_neg (Nat.not_le.mpr hlevel)]
    have hfirst : Reads (16 * (width first.slots + width links.slots) - (3 + level) ≤ n ∧
        (Role.operation level).Room c (width first.slots + width links.slots)) c
        (binary n (level + 1)) (vs ++ (more ++ next :: ts)) first.expr (more ++ next :: ts) := by
      rw [hus]
      refine (first.reads c vs u us hvs hu n).mono fun henough => ?_
      obtain ⟨hn, hroom⟩ := henough
      obtain ⟨hrounds, hnesting⟩ := Role.room_operation.mp hroom
      refine ⟨?_, Role.room_operation.mpr ⟨?_, ?_⟩⟩
      · change 16 * width first.slots + 1 - (3 + (level + 1)) ≤ n
        omega
      · change width first.slots < c.rounds
        omega
      · change c.nesting + width first.slots + 1 ≤ maxNesting
        omega
    refine Reads.bind hfirst (Reads.read (Links.rounds_reads hlinks hmore hnext (fun henough => ?_)
      (fun henough => ?_) (fun henough => ?_) fun henough => ?_))
    all_goals
      obtain ⟨hn, hroom⟩ := henough
      obtain ⟨hrounds, hnesting⟩ := Role.room_operation.mp hroom
      omega
  have hslack : (Role.operation level).slack = 3 + level := rfl
  exact hbinary.mono (by rw [hslack]; omega) id

/-- Operations of tighter groups with operators of a group between them. -/
def chain {level : Nat} (hlevel : level < BinaryOp.levels) (first : Phrase (.operation (level + 1)))
    (links : Links level) (hlinks : ∀ link ∈ links, link.1.level = level) :
    Phrase (.operation level) where
  head := first.head
  tail := first.tail ++ links.slots
  expr := links.expr first.expr
  opens := first.opens
  depth_le := by
    rw [← List.cons_append, width_append]
    exact Links.depth_expr_le _ links first.depth_le
  reads := reads_chain hlevel first hlinks

end Phrase

end Parser

end Covenant
