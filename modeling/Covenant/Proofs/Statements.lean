import Covenant.Proofs.Phrases

/-!
# Reading statements

From the phrases for operations come those for whole expressions, for objects and blocks, for
choices and for statements, and from these whole scripts.

The statements of a block or script each begin a line. A line break ends a statement because no
statement begins with what could go on with an expression.

## Main results

* `Parser.Phrase.whole`, `Parser.Phrase.argument`, `Parser.Phrase.value` : expressions.
* `Parser.Phrase.object`, `Parser.Phrase.braces`, `Parser.Phrase.cond` : operands with parts.
* `Parser.Phrase.item`, `Parser.Phrase.declare` : statements.
* `Parser.readStatements_items` : the tokens of statements are read as their expressions.
-/

namespace Covenant

namespace Value

theorem depthItems_le {items : List Value} {n : Nat} (h : ∀ item ∈ items, item.depth ≤ n) :
    depthItems items ≤ n := by
  induction items with
  | nil => exact Nat.zero_le n
  | cons item items ih =>
    obtain ⟨hitem, hitems⟩ := List.forall_mem_cons.mp h
    exact Nat.max_le.mpr ⟨hitem, ih hitems⟩

theorem depthFields_le {fields : List (String × Value)} {n : Nat}
    (h : ∀ field ∈ fields, field.2.depth ≤ n) : depthFields fields ≤ n := by
  induction fields with
  | nil => exact Nat.zero_le n
  | cons field fields ih =>
    obtain ⟨hfield, hfields⟩ := List.forall_mem_cons.mp h
    exact Nat.max_le.mpr ⟨hfield, ih hfields⟩

/-- A value is nested no deeper than it has tokens. -/
theorem depth_le_kinds (v : Value) : v.depth ≤ v.kinds.length := by
  induction v with
  | string | number | integer | boolean | null => exact Parser.length_kinds_pos _
  | array items ih =>
    have hitems := depthItems_le fun item hitem =>
      (ih item hitem).trans (Parser.length_kinds_le_items hitem)
    simp only [depth, kinds, List.length_cons, List.length_append]
    omega
  | object fields ih =>
    have hfields := depthFields_le fun field hfield =>
      (ih field hfield).trans (Parser.length_kinds_le_fields hfield)
    simp only [depth, kinds, List.length_cons, List.length_append]
    omega

end Value

namespace Parser

open AlignedGrammar (opensObject opensObject_cons objectAhead_run isKey colonAhead)

variable {enough : Prop} {c : Context} {n : Nat} {t next close : Token} {vs ts : List Token}
  {kind : Token.Kind}

/-! ### Whole expressions -/

theorem endsExpression_of_ends (h : ends kind = true) : EndsExpression kind :=
  ⟨⟨attaches_of_ends h, fun level _ => stops_of_ends h level⟩, ne_assign_of_ends h⟩

theorem Role.reads_whole (p : Phrase (.operation 0)) : Role.whole.ReadsAs p.slots p.expr := by
  intro c vs next ts hvs hnext
  have hpos : 0 < width p.slots := p.width_slots_pos
  have hbinary := p.reads { c with nesting := c.nesting + 1 } vs next ts hvs hnext.toBounds
  obtain ⟨t, vs, rfl⟩ := p.exists_cons hvs
  have hassignment := hbinary.assignment hnext.ne_assign
  have hnested : ReadsBy (16 * width p.slots - 1) (Role.whole.Room c (width p.slots))
      { c with nesting := c.nesting + 1 } assignment (t :: (vs ++ next :: ts)) p.expr
      (next :: ts) := by
    refine hassignment.mono ?_ fun hroom => Role.room_operation.mpr ⟨hroom.1, ?_⟩
    · change 16 * width p.slots + 1 - (3 + 0) + 1 ≤ _
      omega
    · have hnesting : c.nesting + width p.slots + 2 ≤ maxNesting := hroom.2
      change c.nesting + 1 + width p.slots + 1 ≤ maxNesting
      omega
  refine (hnested.expression fun hroom => ?_).mono ?_ id
  · have hnesting : c.nesting + width p.slots + 2 ≤ maxNesting := hroom.2
    omega
  · change _ ≤ 16 * width p.slots + 1 - 1
    omega

theorem Role.reads_value (v : Value) : Role.argument.ReadsAs [.value v] v.sourceExpr := by
  intro c all next ts hall hnext
  have hwidth : width [Slot.value v] = v.kinds.length := Nat.add_zero _
  have hkinds := v.depth_le_kinds
  obtain - | - | ⟨hvs, hnil⟩ := hall
  obtain rfl := fills_nil.mp hnil
  rw [hwidth, List.append_nil]
  refine (readsExpression v c _ next ts hvs hnext).mono (Nat.le_of_eq rfl) fun hroom => ?_
  obtain ⟨hrounds, hnesting⟩ := Role.room_argument.mp hroom
  have hmax : maxNesting = 128 := rfl
  exact ⟨Nat.le_of_lt hrounds, by omega⟩

theorem depth_sourceExpr_le_width (v : Value) : v.sourceExpr.depth ≤ width [.value v] + 2 := by
  have hdepth := v.depth_sourceExpr_le
  have hkinds := v.depth_le_kinds
  simp only [width_cons, Slot.width, width_nil]
  omega

namespace Phrase

/-- An operation that nothing is assigned to is an expression. -/
def whole (p : Phrase (.operation 0)) : Phrase .whole where
  head := p.head
  tail := p.tail
  expr := p.expr
  opens := p.opens
  depth_le := p.depth_le
  reads := Role.reads_whole p

/-- An expression may stand before a comma or a closing symbol. -/
def argument (p : Phrase .whole) : Phrase .argument where
  head := p.head
  tail := p.tail
  expr := p.expr
  opens := .inl p.opens
  depth_le := p.depth_le
  reads c vs next ts hvs hnext := p.reads c vs next ts hvs (endsExpression_of_ends hnext)

/-- The tokens of a value. -/
def value (v : Value) : Phrase .argument where
  head := .value v
  tail := []
  expr := v.sourceExpr
  opens := .inr ⟨v, rfl⟩
  depth_le := depth_sourceExpr_le_width v
  reads := Role.reads_value v

end Phrase

/-! ### Objects -/

/-- The entries of an object, by their keys. -/
abbrev Entries : Type :=
  List (String × Phrase .argument)

namespace Entries

/-- The slots of an entry: the key, a colon and the value. -/
def entrySlots (entry : String × Phrase .argument) : List Slot :=
  .token (.word entry.1) none :: .token (.symbol .colon) none :: entry.2.slots

/-- The slots of the entries of an object. -/
def slots (entries : Entries) : List Slot :=
  commas (entries.map entrySlots)

/-- What entries are read as. -/
def exprs (entries : Entries) : List (String × Expr) :=
  entries.map fun entry => (entry.1, entry.2.expr)

theorem width_le {entries : Entries} {entry : String × Phrase .argument} (h : entry ∈ entries) :
    width entry.2.slots + 2 ≤ width entries.slots := by
  have hle : width (entrySlots entry) ≤ width entries.slots :=
    width_le_commas (List.mem_map_of_mem h)
  simp only [entrySlots, width_cons, Slot.width_token] at hle
  omega

theorem length_le (entries : Entries) : entries.length ≤ width entries.slots := by
  have hle : (entries.map entrySlots).length ≤ width entries.slots :=
    length_le_commas (List.forall_mem_map.mpr fun entry _ => by
      simp only [entrySlots, width_cons, Slot.width_token]
      omega)
  rwa [List.length_map] at hle

theorem depth_le_of_mem {entries : Entries} {e : Expr} (h : e ∈ entries.exprs.map Prod.snd) :
    e.depth ≤ width entries.slots := by
  obtain ⟨_, hentry, rfl⟩ := List.mem_map.mp h
  obtain ⟨entry, hmem, rfl⟩ := List.mem_map.mp hentry
  have hdepth : entry.2.expr.depth ≤ width entry.2.slots + 2 := entry.2.depth_le
  exact hdepth.trans (width_le hmem)

/-- Entries with keys of their own are read one in a round. -/
theorem rounds_reads {entries : Entries} (hkeys : (entries.map Prod.fst).Nodup)
    (hclose : close.kind = .symbol .closeBrace)
    (hargs : ∀ entry ∈ entries, enough →
      16 * width entry.2.slots ≤ n ∧ Role.argument.Room c (width entry.2.slots))
    {done : List (String × Expr)} (hdone : ∀ entry ∈ done, entry.1 ∉ entries.map Prod.fst)
    (hvs : Fills entries.slots vs) {count : Nat} (hcount : enough → entries.length < count) :
    Reads enough c (rounds (entryRound n) count done) (vs ++ close :: next :: ts)
      (.object (done.reverse ++ entries.exprs)) (next :: ts) := by
  have hends : ends close.kind = true := by rw [hclose]; rfl
  have hpos (henough : enough) : 0 < count := Nat.zero_lt_of_lt (hcount henough)
  induction entries generalizing done vs count with
  | nil =>
    obtain rfl := fills_nil.mp hvs
    rw [exprs, List.map_nil, List.append_nil]
    exact .rounds_stop hpos (Reads.bind (.eat_pass hclose) (.pure _))
  | cons entry entries ih =>
    obtain ⟨key, p⟩ := entry
    obtain ⟨harg, hargs⟩ := List.forall_mem_cons.mp hargs
    obtain ⟨hkey, hkeys⟩ := List.nodup_cons.mp hkeys
    have hfresh : done.filter (fun entry => entry.1 ≠ key) = done := by
      refine List.filter_eq_self.mpr fun entry hentry => ?_
      have hnot := hdone entry hentry
      rw [List.map_cons, List.mem_cons, not_or] at hnot
      simpa using hnot.1
    have hread {vs : List Token} (hvs : Fills p.slots vs) (next : Token) (ts : List Token)
        (hnext : ends next.kind = true) :
        Reads enough c (expression n) (vs ++ next :: ts) p.expr (next :: ts) :=
      (p.reads c vs next ts hvs hnext n).mono fun henough => harg henough
    rcases entries with _ | ⟨second, entries⟩
    · obtain ⟨keyToken, behind, rfl, hkeyToken, -, hbehind⟩ := fills_token.mp hvs
      obtain ⟨colon, behind, rfl, hcolon, -, hvalue⟩ := fills_token.mp hbehind
      have hlast := hread hvalue close (next :: ts) hends
      obtain ⟨t, more, rfl⟩ := p.exists_cons hvalue
      have hround := entryRound_last done (.inl hkeyToken) hcolon hlast hclose
      rw [hfresh, List.reverse_cons] at hround
      exact .rounds_stop hpos hround
    · obtain ⟨front, more, rfl, hfront, hbehind⟩ := fills_append.mp hvs
      obtain ⟨comma, more, rfl, hcomma, -, hmore⟩ := fills_token.mp hbehind
      obtain ⟨keyToken, front, rfl, hkeyToken, -, hfront⟩ := fills_token.mp hfront
      obtain ⟨colon, front, rfl, hcolon, -, hvalue⟩ := fills_token.mp hfront
      have hcommaEnds : ends comma.kind = true := by rw [hcomma]; rfl
      have hfewer := length_lt_pred hcount
      have hdone' : ∀ entry ∈ (key, p.expr) :: done,
          entry.1 ∉ (second :: entries).map Prod.fst := by
        refine List.forall_mem_cons.mpr ⟨hkey, fun entry hentry => ?_⟩
        have hnot := hdone entry hentry
        rw [List.map_cons, List.mem_cons, not_or] at hnot
        exact hnot.2
      have hrest := ih hkeys hargs hdone' hmore hfewer
        fun henough => Nat.zero_lt_of_lt (hfewer henough)
      rw [List.reverse_cons, List.append_assoc, List.singleton_append] at hrest
      refine .rounds_next ((key, p.expr) :: done) hpos ?_ hrest
      have hfirst := hread hvalue comma (more ++ close :: next :: ts) hcommaEnds
      obtain ⟨t, front, rfl⟩ := p.exists_cons hvalue
      simp only [List.append_assoc, List.cons_append] at hfirst ⊢
      have hround := entryRound_next done (.inl hkeyToken) hcolon hfirst hcomma
      rwa [hfresh] at hround

/-- The tokens of entries tell an object from a block. -/
theorem opensObject_append {entries : Entries} (hvs : Fills entries.slots vs)
    (hclose : close.kind = .symbol .closeBrace) : opensObject (vs ++ close :: ts) = true := by
  rcases entries with _ | ⟨⟨key, p⟩, entries⟩
  · obtain rfl := fills_nil.mp hvs
    rw [List.nil_append, opensObject_cons, hclose]
    rfl
  · have hslots : ∃ rest, slots ((key, p) :: entries) =
        .token (.word key) none :: .token (.symbol .colon) none :: rest := by
      rcases entries with _ | ⟨second, entries⟩ <;> exact ⟨_, rfl⟩
    obtain ⟨rest, hrest⟩ := hslots
    rw [hrest] at hvs
    obtain ⟨keyToken, behind, rfl, hkey, -, hbehind⟩ := fills_token.mp hvs
    obtain ⟨colon, behind, rfl, hcolon, -, -⟩ := fills_token.mp hbehind
    rw [List.cons_append, opensObject_cons, hkey]
    simp [isKey, colonAhead, hcolon]

end Entries

/-- Whether an object or a block is ahead is seen from the tokens. -/
theorem objectAhead_reads {ahead : List Token} {object : Bool} (h : opensObject ahead = object) :
    Reads enough c objectAhead (t :: ahead) object (t :: ahead) := by
  rintro ⟨current, ahead, lastEnd⟩ hs
  obtain ⟨rfl, rfl⟩ := List.cons.inj hs
  exact .inl ⟨_, rfl, by rw [objectAhead_run, h]⟩

theorem Role.reads_object {entries : Entries} (hkeys : (entries.map Prod.fst).Nodup) :
    Role.operand.ReadsAs (.token (.symbol .openBrace) none ::
        (entries.slots ++ [.token (.symbol .closeBrace) none])) (.object entries.exprs) := by
  intro c all next ts hall hnext
  obtain ⟨opening, rest, rfl, hopening, -, hrest⟩ := fills_token.mp hall
  obtain ⟨vs, last, rfl, hvs, hlast⟩ := fills_append.mp hrest
  obtain ⟨close, last, rfl, hclose, -, hnil⟩ := fills_token.mp hlast
  obtain rfl := fills_nil.mp hnil
  set inner := width entries.slots with hinner
  have hwidth : width (.token (.symbol .openBrace) none ::
      (entries.slots ++ [.token (.symbol .closeBrace) none])) = inner + 2 := by
    simp only [width_cons, width_append, Slot.width_token, width_nil]
    omega
  rw [hwidth]
  have hobject : ReadsBy (16 * inner + 1) (operand.Room c (inner + 2)) c object
      (opening :: (vs ++ close :: next :: ts)) (.object entries.exprs) (next :: ts) := by
    refine ReadsBy.succ rfl fun n => Reads.bind (advance_append _) (.grouping (.read
      (entries.rounds_reads hkeys hclose (fun entry hentry henough => ?_)
        (List.forall_mem_nil _) hvs fun henough => ?_)))
    · have hle := Entries.width_le hentry
      obtain ⟨hrounds, hnesting⟩ := room_operand.mp henough.2
      refine ⟨by omega, room_argument.mpr ⟨?_, ?_⟩⟩ <;> dsimp only <;> omega
    · have hle := entries.length_le
      obtain ⟨hrounds, hnesting⟩ := room_operand.mp henough.2
      dsimp only
      omega
  have hprimary : ReadsBy (16 * inner + 1 + 1) (operand.Room c (inner + 2)) c primary
      (opening :: (vs ++ close :: next :: ts)) (.object entries.exprs) (next :: ts) := by
    refine ReadsBy.succ rfl fun n => Reads.bind .current ?_
    simp only [hopening]
    exact Reads.bind (objectAhead_reads (Entries.opensObject_append hvs hclose)) (hobject n)
  have happend : opening :: (vs ++ [close]) ++ next :: ts =
      opening :: (vs ++ close :: next :: ts) := by
    simp
  rw [happend]
  refine (hprimary.postfixed hnext fun hroom => Nat.zero_lt_of_lt hroom.1).mono ?_ id
  change _ ≤ 16 * (inner + 2) + 1 - 11
  omega

namespace Phrase

/-- An object with keys of its own. -/
def object (entries : Entries) (hkeys : (entries.map Prod.fst).Nodup) : Phrase .operand where
  head := .token (.symbol .openBrace) none
  tail := entries.slots ++ [.token (.symbol .closeBrace) none]
  expr := .object entries.exprs
  opens := ⟨_, rfl, rfl⟩
  depth_le := by
    simp only [width_cons, width_append, Slot.width_token, width_nil]
    rw [Expr.depth_le_succ_iff]
    intro part hpart
    have := Entries.depth_le_of_mem hpart
    omega
  reads := Role.reads_object hkeys

end Phrase

/-! ### Statements -/

/-- What stands behind a statement: the end of the text or of the block, or the next statement on a
line of its own. -/
structure Parts (t : Token) : Prop where
  ends : EndsExpression t.kind
  ne_semicolon : t.kind ≠ .symbol .semicolon
  apart : t.kind = .finish ∨ t.kind = .symbol .closeBrace ∨ t.newlineBefore = true

theorem parts_finish (h : t.kind = .finish) : Parts t := by
  refine ⟨⟨bounds_finish h, ?_⟩, ?_, .inl h⟩ <;> simp [h]

theorem parts_closeBrace (h : t.kind = .symbol .closeBrace) : Parts t :=
  ⟨endsExpression_of_ends (by rw [h]; rfl), by simp [h], .inr (.inl h)⟩

/-- A statement ends before what stands behind it. -/
theorem statementEnd_parts (h : Parts t) : Reads enough c statementEnd (t :: ts) () (t :: ts) := by
  refine Reads.bind (.eat_stay h.ne_semicolon) (Reads.bind atFinish_reads ?_)
  by_cases hfinish : t.kind = .finish
  · simp only [hfinish, decide_true, if_true]
    exact .pure _
  simp only [hfinish, decide_false]
  refine Reads.bind .atSymbol ?_
  by_cases hclose : t.kind = .symbol .closeBrace
  · simp only [hclose, decide_true, if_true]
    exact .pure _
  simp only [hclose, decide_false]
  refine Reads.bind .current ?_
  rw [(h.apart.resolve_left hfinish).resolve_left hclose]
  exact .pure _

/-- Whether a statement may begin with such a token. -/
def OpensStatement (kind : Token.Kind) : Prop :=
  opensOperand kind = true ∨ kind = .keyword .let_

theorem OpensStatement.ne (h : OpensStatement kind) {other : Token.Kind}
    (hoperand : opensOperand other = false) (hlet : other ≠ .keyword .let_) : kind ≠ other := by
  rintro rfl
  rcases h with h | h
  · exact Bool.noConfusion (hoperand.symm.trans h)
  · exact hlet h

theorem OpensStatement.ends (h : OpensStatement kind) : EndsExpression kind := by
  have hassign : kind ≠ .symbol .assign := h.ne rfl (by simp)
  rcases h with h | rfl
  · exact ends_of_opensOperand h hassign
  · exact ⟨⟨rfl, fun _ _ _ hop => nomatch hop⟩, hassign⟩

theorem OpensStatement.parts (h : OpensStatement t.kind) (hline : t.newlineBefore = true) :
    Parts t :=
  ⟨h.ends, h.ne rfl (by simp), .inr (.inr hline)⟩

/-- A statement that begins like an operand is an expression. -/
theorem blockItem_of_opensOperand {e : Expr} {ts' : List Token} (ht : opensOperand t.kind = true)
    (h : Reads enough c (expression n) (t :: ts) e ts') :
    Reads enough c (blockItem (n + 1)) (t :: ts) e ts' := by
  refine Reads.bind .current ?_
  split
  case h_4 => exact h
  all_goals
    rename_i hkind
    rw [hkind] at ht
    cases ht

namespace Phrase

theorem exists_opensStatement (p : Phrase .item) (h : Fills p.slots vs) :
    ∃ t ts, vs = t :: ts ∧ OpensStatement t.kind ∧ t.newlineBefore = true := by
  obtain ⟨head, tail, e, ⟨kind, rfl, hkind⟩, hdepth, hreads⟩ := p
  obtain ⟨t, ts, rfl, rfl, hline, -⟩ := fills_token.mp h
  exact ⟨t, ts, rfl, hkind, hline true rfl⟩

end Phrase

/-- A slot on a line of its own. -/
def Slot.onNewLine : Slot → Slot
  | token kind _ => token kind (some true)
  | value v => value v

theorem Slot.width_onNewLine (slot : Slot) : slot.onNewLine.width = slot.width := by
  cases slot <;> rfl

theorem Slot.OpensOperand.opensItem {slot : Slot} (h : slot.OpensOperand) :
    slot.onNewLine.OpensItem := by
  obtain ⟨kind, rfl, hkind⟩ := h
  exact ⟨kind, rfl, .inl hkind⟩

theorem fills_of_onNewLine {slot : Slot} {slots : List Slot} (hslot : slot.OpensOperand)
    (h : Fills (slot.onNewLine :: slots) vs) : Fills (slot :: slots) vs := by
  obtain ⟨kind, rfl, -⟩ := hslot
  obtain ⟨t, ts, rfl, hkind, -, hrest⟩ := fills_token.mp h
  exact .token hkind (fun _ h => nomatch h) hrest

theorem Role.reads_item (p : Phrase .whole) :
    Role.item.ReadsAs (p.head.onNewLine :: p.tail) p.expr := by
  intro c vs next ts hvs hnext
  have hfills : Fills p.slots vs := fills_of_onNewLine p.opens hvs
  have hwidth : width (p.head.onNewLine :: p.tail) = width p.slots := by
    rw [width_cons, Slot.width_onNewLine, Phrase.slots, width_cons]
  have hread := p.reads c vs next ts hfills hnext
  obtain ⟨t, vs, rfl, ht⟩ := p.exists_opensOperand p.opens hfills
  rw [hwidth]
  exact ReadsBy.succ rfl fun n => blockItem_of_opensOperand ht (hread n)

theorem Role.reads_declare (name : String) (p : Phrase .whole) :
    Role.item.ReadsAs (.token (.keyword .let_) (some true) :: .token (.word name) none ::
      .token (.symbol .assign) none :: p.slots) (.declare name p.expr) := by
  intro c all next ts hall hnext
  obtain ⟨let_, rest, rfl, hlet, -, hrest⟩ := fills_token.mp hall
  obtain ⟨word, rest, rfl, hword, -, hrest⟩ := fills_token.mp hrest
  obtain ⟨assign, vs, rfl, hassign, -, hvs⟩ := fills_token.mp hrest
  have hread := p.reads c vs next ts hvs hnext
  obtain ⟨t, vs, rfl⟩ := p.exists_cons hvs
  have hitem : ReadsBy (16 * width p.slots + 1) (Role.whole.Room c (width p.slots)) c blockItem
      (let_ :: word :: assign :: t :: (vs ++ next :: ts)) (.declare name p.expr)
      (next :: ts) := by
    refine ReadsBy.succ rfl fun n => Reads.bind .current ?_
    simp only [hlet]
    refine Reads.bind .advance (Reads.bind .advance ?_)
    simp only [hword]
    exact Reads.bind (.expect hassign) (Reads.bind (hread n) (.pure _))
  have hslack : Role.item.slack = 0 := rfl
  refine hitem.mono ?_ fun hroom => ?_
  · simp only [width_cons, Slot.width_token, hslack]
    omega
  · obtain ⟨hrounds, hnesting⟩ := Role.room_item.mp hroom
    simp only [width_cons, Slot.width_token] at hrounds hnesting
    exact Role.room_whole.mpr ⟨by omega, by omega⟩

namespace Phrase

/-- An expression is a statement. -/
def item (p : Phrase .whole) : Phrase .item where
  head := p.head.onNewLine
  tail := p.tail
  expr := p.expr
  opens := Slot.OpensOperand.opensItem p.opens
  depth_le := by
    rw [width_cons, Slot.width_onNewLine]
    exact p.depth_le
  reads := Role.reads_item p

/-- A statement that declares a name. -/
def declare (name : String) (p : Phrase .whole) : Phrase .item where
  head := .token (.keyword .let_) (some true)
  tail := .token (.word name) none :: .token (.symbol .assign) none :: p.slots
  expr := .declare name p.expr
  opens := ⟨_, rfl, .inr rfl⟩
  depth_le := by
    have hdepth : p.expr.depth ≤ width p.slots + 2 := p.depth_le
    simp only [width_cons, Slot.width_token]
    rw [Nat.add_right_comm, Nat.add_comm 1, Nat.add_right_comm, Expr.depth_le_succ_iff]
    simp only [Expr.children, List.mem_singleton, forall_eq]
    omega
  reads := Role.reads_declare name p

end Phrase

/-- The statements of a block or script. -/
abbrev Items : Type :=
  List (Phrase .item)

namespace Items

/-- The slots of statements. -/
def slots (items : Items) : List Slot :=
  items.flatMap Phrase.slots

/-- What statements are read as. -/
def exprs (items : Items) : List Expr :=
  items.map Phrase.expr

theorem width_slots_cons (p : Phrase .item) (items : Items) :
    width (slots (p :: items)) = width p.slots + width items.slots := by
  rw [slots, List.flatMap_cons, width_append, slots]

theorem width_le {items : Items} {p : Phrase .item} (h : p ∈ items) :
    width p.slots ≤ width items.slots := by
  induction items with
  | nil => cases h
  | cons first items ih =>
    rw [width_slots_cons]
    rcases List.mem_cons.mp h with rfl | h
    · omega
    · have := ih h
      omega

theorem length_le (items : Items) : items.length ≤ width items.slots := by
  induction items with
  | nil => exact Nat.le_refl _
  | cons p items ih =>
    have := p.width_slots_pos
    rw [width_slots_cons, List.length_cons]
    omega

theorem depth_le_of_mem {items : Items} {e : Expr} (h : e ∈ items.exprs) :
    e.depth ≤ width items.slots + 2 := by
  obtain ⟨p, hp, rfl⟩ := List.mem_map.mp h
  exact p.depth_le.trans (Nat.add_le_add_right (width_le hp) 2)

/-- What stands behind a statement: the next one, or what stands behind all of them. -/
theorem exists_parts {items : Items} (hvs : Fills items.slots vs) (ts : List Token)
    (hnext : Parts next) : ∃ u us, vs ++ next :: ts = u :: us ∧ Parts u := by
  rcases items with _ | ⟨p, items⟩
  · obtain rfl := fills_nil.mp hvs
    exact ⟨next, ts, rfl, hnext⟩
  · obtain ⟨front, more, rfl, hfront, -⟩ := fills_append.mp hvs
    obtain ⟨t, front, rfl, ht, hline⟩ := p.exists_opensStatement hfront
    exact ⟨t, front ++ more ++ next :: ts, rfl, ht.parts hline⟩

/-- Statements of a block are read one in a round. -/
theorem rounds_reads {items : Items} (hclose : close.kind = .symbol .closeBrace)
    (hitems : ∀ p ∈ items, enough →
      16 * width p.slots + 1 ≤ n ∧ Role.item.Room c (width p.slots))
    (done : List Expr) (hvs : Fills items.slots vs) {count : Nat}
    (hcount : enough → items.length < count) :
    Reads enough c (rounds (blockRound n) count done) (vs ++ close :: next :: ts)
      (.block (done.reverse ++ items.exprs)) (next :: ts) := by
  induction items generalizing done vs count with
  | nil =>
    obtain rfl := fills_nil.mp hvs
    rw [exprs, List.map_nil, List.append_nil]
    refine .rounds_stop hcount (Reads.bind (.eat_stay (by simp [hclose])) ?_)
    exact Reads.bind (.eat_pass hclose) (.pure _)
  | cons p items ih =>
    obtain ⟨hitem, hitems⟩ := List.forall_mem_cons.mp hitems
    obtain ⟨front, more, rfl, hfront, hmore⟩ := fills_append.mp hvs
    have hfewer (henough : enough) : items.length < count - 1 :=
      Nat.lt_sub_of_add_lt (hcount henough)
    have hrest := ih hitems (p.expr :: done) hmore hfewer
    rw [List.reverse_cons, List.append_assoc, List.singleton_append] at hrest
    obtain ⟨u, us, hus, hu⟩ := exists_parts hmore (next :: ts) (parts_closeBrace hclose)
    rw [List.append_assoc, hus]
    rw [hus] at hrest
    refine .rounds_next (p.expr :: done) (fun henough => Nat.zero_lt_of_lt (hcount henough)) ?_
      hrest
    have hread := (p.reads c front u us hfront hu.ends n).mono hitem
    obtain ⟨t, front, rfl, ht, -⟩ := p.exists_opensStatement hfront
    have hfinish : t.kind ≠ .finish := ht.ne rfl (by simp)
    refine Reads.bind (.eat_stay (ht.ne rfl (by simp))) (Reads.bind
      (.eat_stay (ht.ne rfl (by simp))) (Reads.bind atFinish_reads ?_))
    simp only [hfinish, decide_false]
    exact Reads.bind hread (Reads.bind (statementEnd_parts hu) (.pure _))

end Items

/-! ### Blocks and choices -/

theorem expect_append {symbol : Symbol} {what : Expected} (h : t.kind = .symbol symbol) :
    Reads enough c (expect symbol what) (t :: (vs ++ next :: ts)) () (vs ++ next :: ts) :=
  Reads.bind (eat_separator h) (.pure _)

/-- The slots of a block behind its opening brace. -/
def blockTail (items : Items) : List Slot :=
  items.slots ++ [.token (.symbol .closeBrace) none]

theorem width_block (items : Items) :
    width (.token (.symbol .openBrace) none :: blockTail items) = width items.slots + 2 := by
  simp only [blockTail, width_cons, width_append, Slot.width_token, width_nil]
  omega

theorem Role.reads_braces (items : Items) : Role.braces.ReadsAs
    (.token (.symbol .openBrace) none :: blockTail items) (.block items.exprs) := by
  intro c all next ts hall _
  obtain ⟨opening, rest, rfl, hopening, -, hrest⟩ := fills_token.mp hall
  obtain ⟨vs, last, rfl, hvs, hlast⟩ := fills_append.mp hrest
  obtain ⟨close, last, rfl, hclose, -, hnil⟩ := fills_token.mp hlast
  obtain rfl := fills_nil.mp hnil
  rw [width_block]
  set inner := width items.slots with hinner
  have hblock : ReadsBy (16 * inner + 1 + 1) (braces.Room c (inner + 2)) c block
      (opening :: (vs ++ close :: next :: ts)) (.block items.exprs) (next :: ts) := by
    refine ReadsBy.succ rfl fun n => ?_
    rw [Parser.block_succ]
    refine Reads.bind (expect_append hopening) (.grouping (.read
      (items.rounds_reads hclose (fun p hp henough => ?_) [] hvs fun henough => ?_)))
    · have hle := Items.width_le hp
      obtain ⟨hrounds, hnesting⟩ := room_braces.mp henough.2
      refine ⟨by omega, room_item.mpr ⟨?_, ?_⟩⟩ <;> dsimp only <;> omega
    · have hle := items.length_le
      obtain ⟨hrounds, hnesting⟩ := room_braces.mp henough.2
      dsimp only
      omega
  have happend : opening :: (vs ++ [close]) ++ next :: ts =
      opening :: (vs ++ close :: next :: ts) := by
    simp
  rw [happend]
  refine hblock.mono ?_ id
  change _ ≤ 16 * (inner + 2) + 1 - 13
  omega

namespace Phrase

/-- Statements in braces. -/
def braces (items : Items) : Phrase .braces where
  head := .token (.symbol .openBrace) none
  tail := blockTail items
  expr := .block items.exprs
  opens := rfl
  depth_le := by
    rw [width_block, Expr.depth_le_succ_iff]
    intro part hpart
    have := Items.depth_le_of_mem hpart
    omega
  reads := Role.reads_braces items

end Phrase

/-- A block whose first statement begins with no key is an operand. -/
theorem Role.reads_block {slots : List Slot} {e : Expr} (hpos : 0 < width slots)
    (hslots : ∀ vs, Fills slots vs → ∃ t u us, vs = t :: u :: us ∧
      t.kind = .symbol .openBrace ∧ u.kind ≠ .symbol .closeBrace ∧ isKey u.kind = false)
    (h : Role.braces.ReadsAs slots e) : Role.operand.ReadsAs slots e := by
  intro c vs next ts hvs hnext
  have hbraces := h c vs next ts hvs trivial
  obtain ⟨t, u, us, rfl, ht, hclose, hkey⟩ := hslots vs hvs
  have hahead : opensObject (u :: (us ++ next :: ts)) = false := by
    rw [opensObject_cons, decide_eq_false hclose, hkey]
    rfl
  have hslack : Role.braces.slack = 13 := rfl
  rw [hslack] at hbraces
  have hprimary : ReadsBy (16 * width slots + 1 - 13 + 1) (Role.operand.Room c (width slots)) c
      primary (t :: u :: (us ++ next :: ts)) e (next :: ts) := by
    refine ReadsBy.succ rfl fun n => Reads.bind .current ?_
    simp only [ht]
    exact Reads.bind (objectAhead_reads hahead) (hbraces n)
  refine (hprimary.postfixed hnext fun hroom => Nat.zero_lt_of_lt hroom.1).mono ?_ id
  change _ ≤ 16 * width slots + 1 - 11
  omega

theorem atKeyword_reads {keyword : Keyword} : Reads enough c (atKeyword keyword) (t :: ts)
    (decide (t.kind = .keyword keyword)) (t :: ts) :=
  Reads.bind .current (.pure _)

/-- A test ends before the brace of a block. -/
theorem ends_openBrace : EndsExpression (.symbol .openBrace) :=
  ⟨⟨rfl, fun _ _ _ hop => nomatch hop⟩, by simp⟩

/-- An expression before a brace is a test. -/
theorem condition_whole (test : Phrase .whole) {opens : Token} (hvs : Fills test.slots vs)
    (hopens : opens.kind = .symbol .openBrace) (ts : List Token) :
    ReadsBy (16 * width test.slots + 1) (Role.whole.Room c (width test.slots)) c condition
      (vs ++ opens :: ts) test.expr (opens :: ts) := by
  have hread := test.reads { c with grouped := false } vs opens ts hvs
    (by rw [hopens]; exact ends_openBrace)
  refine ReadsBy.succ rfl fun n => Reads.bind (.grouping (hread n)) (Reads.bind .atSymbol ?_)
  simp only [hopens, decide_true, if_true]
  exact .pure _

/-- The slots of a choice behind its keyword. -/
def condTail (test : Phrase .whole) (yes no : Phrase .braces) : List Slot :=
  test.slots ++ (yes.slots ++ .token (.keyword .else_) none :: no.slots)

theorem width_cond (test : Phrase .whole) (yes no : Phrase .braces) :
    width (.token (.keyword .if_) none :: condTail test yes no) =
      width test.slots + width yes.slots + width no.slots + 2 := by
  simp only [condTail, width_cons, width_append, Slot.width_token]
  omega

theorem exists_openBrace (p : Phrase .braces) (h : Fills p.slots vs) :
    ∃ t ts, vs = t :: ts ∧ t.kind = .symbol .openBrace := by
  obtain ⟨head, tail, e, rfl, hdepth, hreads⟩ := p
  obtain ⟨t, ts, rfl, ht, -⟩ := fills_token.mp h
  exact ⟨t, ts, rfl, ht⟩

theorem conditional_phrases (test : Phrase .whole) (yes no : Phrase .braces) {if_ else_ : Token}
    {testTokens yesTokens noTokens : List Token} (helse : else_.kind = .keyword .else_)
    (htest : Fills test.slots testTokens) (hyes : Fills yes.slots yesTokens)
    (hno : Fills no.slots noTokens) (next : Token) (ts : List Token) {tokens : Nat}
    (htokens : tokens = width test.slots + width yes.slots + width no.slots + 2) :
    ReadsBy (16 * tokens - 20) (Role.operand.Room c tokens) c conditional
      (if_ :: (testTokens ++ (yesTokens ++ else_ :: (noTokens ++ next :: ts))))
      (.cond test.expr yes.expr (some no.expr)) (next :: ts) := by
  have htestPos := test.width_slots_pos
  have hyesPos := yes.width_slots_pos
  have hnoPos := no.width_slots_pos
  have hyesRead := yes.reads c yesTokens else_ (noTokens ++ next :: ts) hyes trivial
  have hnoRead := no.reads c noTokens next ts hno trivial
  obtain ⟨opens, yesTokens, rfl, hopens⟩ := exists_openBrace yes hyes
  obtain ⟨opens', noTokens, rfl, hopens'⟩ := exists_openBrace no hno
  have htestRead := condition_whole test htest hopens
    (yesTokens ++ else_ :: (opens' :: noTokens ++ next :: ts)) (c := c)
  have hbraces (p : Phrase .braces) {n : Nat} (hle : width p.slots + 2 ≤ tokens)
      (henough : 16 * tokens - 21 ≤ n ∧ Role.operand.Room c tokens) :
      16 * width p.slots + 1 - 13 ≤ n ∧ Role.braces.Room c (width p.slots) := by
    obtain ⟨hrounds, hnesting⟩ := Role.room_operand.mp henough.2
    exact ⟨by omega, Role.room_braces.mpr ⟨by omega, by omega⟩⟩
  have hconditional : ReadsBy (16 * tokens - 21 + 1) (Role.operand.Room c tokens) c conditional
      (if_ :: (testTokens ++ opens :: (yesTokens ++ else_ :: (opens' :: noTokens ++ next :: ts))))
      (.cond test.expr yes.expr (some no.expr)) (next :: ts) := by
    refine ReadsBy.succ rfl fun n => Reads.bind (advance_append _)
      (Reads.bind ((htestRead n).mono fun henough => ?_)
        (Reads.bind ((hyesRead n).mono (hbraces yes (by omega))) (Reads.bind atKeyword_reads ?_)))
    · obtain ⟨hrounds, hnesting⟩ := Role.room_operand.mp henough.2
      exact ⟨by omega, Role.room_whole.mpr ⟨by omega, by omega⟩⟩
    simp only [helse, decide_true, if_true]
    refine Reads.bind .advance (Reads.bind atKeyword_reads ?_)
    simp only [hopens']
    refine Reads.bind .atSymbol ?_
    simp only [hopens', decide_true, if_true]
    exact Reads.bind ((hnoRead n).mono (hbraces no (by omega))) (.pure _)
  exact hconditional.mono (by omega) id

theorem Role.reads_cond (test : Phrase .whole) (yes no : Phrase .braces) :
    Role.operand.ReadsAs (.token (.keyword .if_) none :: condTail test yes no)
      (.cond test.expr yes.expr (some no.expr)) := by
  intro c all next ts hall hnext
  obtain ⟨if_, rest, rfl, hif, -, hrest⟩ := fills_token.mp hall
  obtain ⟨testTokens, rest, rfl, htest, hrest⟩ := fills_append.mp hrest
  obtain ⟨yesTokens, rest, rfl, hyes, hrest⟩ := fills_append.mp hrest
  obtain ⟨else_, noTokens, rfl, helse, -, hno⟩ := fills_token.mp hrest
  have htestPos := test.width_slots_pos
  rw [width_cond]
  set tokens := width test.slots + width yes.slots + width no.slots + 2 with htokens
  have hprimary : ReadsBy (16 * tokens - 20 + 1) (operand.Room c tokens) c primary
      (if_ :: (testTokens ++ (yesTokens ++ else_ :: (noTokens ++ next :: ts))))
      (.cond test.expr yes.expr (some no.expr)) (next :: ts) := by
    refine ReadsBy.succ rfl fun n => Reads.bind .current ?_
    simp only [hif]
    exact conditional_phrases test yes no helse htest hyes hno next ts htokens n
  have happend : if_ :: (testTokens ++ (yesTokens ++ else_ :: noTokens)) ++ next :: ts =
      if_ :: (testTokens ++ (yesTokens ++ else_ :: (noTokens ++ next :: ts))) := by
    simp
  rw [happend]
  refine (hprimary.postfixed hnext fun hroom => Nat.zero_lt_of_lt hroom.1).mono ?_ id
  change _ ≤ 16 * tokens + 1 - 11
  omega

namespace Phrase

/-- A block with statements in it, the first of which begins with no key. -/
def block (first : Phrase .item) (rest : Items)
    (hfirst : ∀ kind line, first.head = .token kind line → isKey kind = false) :
    Phrase .operand where
  head := .token (.symbol .openBrace) none
  tail := blockTail (first :: rest)
  expr := .block (Items.exprs (first :: rest))
  opens := ⟨_, rfl, rfl⟩
  depth_le := (braces (first :: rest)).depth_le
  reads := by
    refine Role.reads_block (braces (first :: rest)).width_slots_pos (fun vs hvs => ?_)
      (braces (first :: rest)).reads
    obtain ⟨t, rest, rfl, ht, -, hrest⟩ := fills_token.mp hvs
    obtain ⟨inside, last, rfl, hinside, -⟩ := fills_append.mp hrest
    obtain ⟨front, more, rfl, hfront, -⟩ := fills_append.mp hinside
    obtain ⟨head, tail, e, ⟨kind, rfl, hkind⟩, hdepth, hreads⟩ := first
    obtain ⟨u, us, rfl, rfl, -, -⟩ := fills_token.mp hfront
    exact ⟨t, u, us ++ more ++ last, by simp, ht, OpensStatement.ne hkind rfl (by simp),
      hfirst _ _ rfl⟩

/-- A choice between two blocks. -/
def cond (test : Phrase .whole) (yes no : Phrase .braces) : Phrase .operand where
  head := .token (.keyword .if_) none
  tail := condTail test yes no
  expr := .cond test.expr yes.expr (some no.expr)
  opens := ⟨_, rfl, rfl⟩
  depth_le := by
    have htest : test.expr.depth ≤ width test.slots + 2 := test.depth_le
    have hyes : yes.expr.depth ≤ width yes.slots + 2 := yes.depth_le
    have hno : no.expr.depth ≤ width no.slots + 2 := no.depth_le
    rw [width_cond, Expr.depth_le_succ_iff]
    simp only [Expr.children, Option.toList_some, List.mem_cons, List.not_mem_nil, or_false]
    rintro part (rfl | rfl | rfl) <;> omega
  reads := Role.reads_cond test yes no

end Phrase

/-! ### Scripts -/

/-- Statements up to the end of the text are read one in a round. -/
theorem Items.rounds_run {allowance : Nat} {finish : Token} (hfinish : finish.kind = .finish)
    (items : Items) (hallowance : 16 * width items.slots + 1 ≤ allowance)
    (hrounds : width items.slots < c.rounds)
    (hnesting : c.nesting + width items.slots + 2 ≤ maxNesting)
    (done : List Statement) (hvs : Fills items.slots vs) {count : Nat}
    (hcount : items.length < count) {s : Cursor} (hs : s.tokens = vs ++ [finish]) :
    ∃ read s', rounds (statementRound allowance) count done c s = .ok (done.reverse ++ read, s') ∧
      read.map Statement.expression = items.exprs := by
  induction items generalizing done vs count s with
  | nil =>
    obtain rfl := fills_nil.mp hvs
    have hstop : Reads True c (rounds (statementRound allowance) count done) [finish] done.reverse
        [finish] := .rounds_stop (fun _ => hcount) (statementRound_finish done hfinish)
    obtain ⟨s', -, hrun⟩ := hstop.run trivial hs
    exact ⟨[], s', by rw [hrun, List.append_nil], rfl⟩
  | cons p items ih =>
    obtain ⟨front, more, rfl, hfront, hmore⟩ := fills_append.mp hvs
    obtain ⟨u, us, hus, hu⟩ := exists_parts hmore [] (parts_finish hfinish)
    rw [width_slots_cons] at hallowance hrounds hnesting
    have hread : Reads True c (blockItem allowance) (front ++ u :: us) p.expr (u :: us) :=
      (p.reads c front u us hfront hu.ends allowance).mono fun _ =>
        ⟨by change 16 * width p.slots + 1 - 0 ≤ allowance; omega,
          Role.room_item.mpr ⟨by change width p.slots < c.rounds; omega,
            by change c.nesting + width p.slots + 2 ≤ maxNesting; omega⟩⟩
    have hdepth : p.expr.depth ≤ maxNesting := by
      have hle : p.expr.depth ≤ width p.slots + 2 := p.depth_le
      omega
    obtain ⟨t, front, rfl, ht, -⟩ := p.exists_opensStatement hfront
    rw [List.append_assoc, hus] at hs
    obtain ⟨current, ahead, lastEnd⟩ := s
    obtain ⟨rfl, rfl⟩ := List.cons.inj hs
    obtain ⟨location, s₁, hs₁, hround⟩ := statementRound_run (ht.ne rfl (by simp))
      (ht.ne rfl (by simp)) hread (statementEnd_parts hu) hdepth done
    rcases count with _ | count
    · exact absurd hcount (Nat.not_lt_zero _)
    rw [← hus] at hs₁
    obtain ⟨read, s', hrun, hexprs⟩ := ih (by omega) (by omega) (by omega)
      (⟨p.expr, location⟩ :: done) hmore (Nat.lt_of_succ_lt_succ hcount) hs₁
    refine ⟨⟨p.expr, location⟩ :: read, s', ?_, ?_⟩
    · rw [rounds, bind_of_run hround]
      change rounds (statementRound allowance) count _ c s₁ = _
      rw [hrun, List.reverse_cons, List.append_assoc, List.singleton_append]
    · rw [List.map_cons, hexprs]
      rfl

/-- The tokens of statements up to the end of the text are read as the expressions of the
statements. -/
theorem readStatements_items {items : Items} (hwidth : width items.slots + 2 ≤ maxNesting)
    {finish : Token} (hfinish : finish.kind = .finish) (hvs : Fills items.slots vs)
    (file : String) :
    ∃ read, readStatements (descentAllowance (vs ++ [finish]).length) file (vs ++ [finish]) =
      .ok read ∧ read.map Statement.expression = items.exprs := by
  have hlength : (vs ++ [finish]).length = width items.slots + 1 := by
    rw [List.length_append, hvs.length_eq, List.length_singleton]
  obtain ⟨first, ahead, hcons⟩ := exists_cons_append vs finish []
  have hahead : ahead.length = width items.slots := by
    rw [hcons, List.length_cons] at hlength
    omega
  have hallowance : 16 * width items.slots + 1 ≤ descentAllowance (vs ++ [finish]).length := by
    rw [hlength, descentAllowance]
    omega
  set context : Context := ⟨file, 0, false, false, ahead.length + 2⟩ with hcontext
  have hrounds : width items.slots < context.rounds := by
    simp only [hcontext, hahead]
    omega
  have hnesting : context.nesting + width items.slots + 2 ≤ maxNesting := by
    simpa [hcontext] using hwidth
  obtain ⟨read, s', hrun, hexprs⟩ := items.rounds_run hfinish hallowance hrounds hnesting [] hvs
    (Nat.lt_of_le_of_lt items.length_le hrounds) (s := ⟨first, ahead, .start⟩) hcons.symm
  refine ⟨read, ?_, hexprs⟩
  rw [hcons] at hrun ⊢
  rw [readStatements_cons, statements_eq]
  change (rounds _ context.rounds [] context _ >>= _) = _
  rw [hrun]
  rfl

end Parser

end Covenant
