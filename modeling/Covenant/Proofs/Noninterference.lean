import Covenant.Proofs.AlignedGrammar
import Covenant.Template.Basic

/-!
# Parameters do not change the calls of a template

A template whose placeholders stand only where operands do is instantiated to scripts with the same
calls, whatever the parameters are: the calls are those of the text in which a name stands for every
placeholder. The value of a parameter is written out as tokens of its own, which are read as an
expression without calls.

Where a placeholder stands elsewhere, in a string, in a longer word, as a key or behind an operand,
a parameter can add calls, leave calls out or give a call another name.

## Main definitions

* `Template.marked` : the text of a template with a name for every placeholder.
* `Template.OperandsOnly` : placeholders stand only where operands do.
* `Template.CallsDiffer` : two values for which the scripts differ in their calls.

## Main results

* `Template.instantiate_calls_eq` : all scripts of such a template have the same calls.
* `Template.instantiate_calls_ne` : other templates for which two scripts differ in their calls.
-/

namespace Covenant

/-- The tokens and the statements of a text that is read. -/
theorem exists_of_parse {name source : String} {script : Script}
    (h : parse name source = .ok script) :
    ∃ ts, Lexer.tokens source = .ok ts ∧ Lexer.Lexed ⟨.start, source.toList⟩ ts ∧
      Parser.readStatements (Parser.descentAllowance ts.length) name ts =
        .ok script.statements := by
  obtain ⟨ts, htokenize, h⟩ := bind_eq_ok_iff.mp h
  obtain ⟨statements, hread, h⟩ := bind_eq_ok_iff.mp h
  cases h
  rw [Lexer.tokenize] at htokenize
  split at htokenize
  · rename_i hts
    cases htokenize
    obtain ⟨_, rfl, hlexed⟩ := Lexer.lexed_of_tokensFrom hts
    exact ⟨_, hts, hlexed, hread⟩
  · cases htokenize

/-! ### Resolved parameters -/

/-- What a parameter takes has a literal. -/
theorem ParameterType.definite_of_accept? {type : ParameterType} {value taken : Value}
    (h : type.accept? value = some taken) : taken.Definite := by
  rintro x rfl
  unfold accept? at h
  split at h
  case h_6 =>
    split_ifs at h with hfinite
    cases h
    exact hfinite
  case h_7 n =>
    cases h
    exact Double.isFinite_ofInteger n
  all_goals grind

namespace Template

variable {t : Template} {mark : Char} {given resolved : Table Value} {s : Script}

theorem definite_of_resolve {p : Parameter} {value? : Option Value} {v : Value}
    (h : resolve p value? = .ok v) : v.Definite := by
  have hnull : Value.null.Definite := fun _ hx => nomatch hx
  unfold resolve at h
  split at h
  · rename_i value
    split at h
    · cases h
      exact hnull
    · rw [ParameterType.accept] at h
      rcases haccept : p.type.accept? value with _ | taken
      · rw [haccept] at h
        cases h
      · rw [haccept] at h
        cases h
        exact ParameterType.definite_of_accept? haccept
  · cases h
    rcases hdefault : p.default?.bind p.type.accept? with _ | taken
    · exact hnull
    · obtain ⟨value, -, haccept⟩ := Option.bind_eq_some_iff.mp hdefault
      exact ParameterType.definite_of_accept? haccept

/-- Every parameter has a value, and all values have literals. -/
theorem find?_of_resolveAll {done : Table Value} {ps : List Parameter}
    (h : resolveAll given done ps = .ok resolved) {name : String}
    (hname : (∃ p ∈ ps, p.name = name) ∨ ∃ v, Table.find? name done = some v ∧ v.Definite) :
    ∃ v, Table.find? name resolved = some v ∧ v.Definite := by
  induction ps generalizing done with
  | nil =>
    cases h
    rcases hname with ⟨p, hp, -⟩ | hdone
    · cases hp
    · exact hdone
  | cons p ps ih =>
    obtain ⟨value, hvalue, h⟩ := bind_eq_ok_iff.mp h
    refine ih h ?_
    rw [Table.find?_insert]
    by_cases hp : p.name = name
    · exact .inr ⟨value, if_pos hp, definite_of_resolve hvalue⟩
    · rw [if_neg hp]
      simpa [hp] using hname

theorem exists_of_instantiate (h : t.instantiate given = .ok s) :
    ∃ resolved script, resolveAll given [] t.parameters = .ok resolved ∧
      parse t.name (t.source resolved) = .ok script ∧ s.statements = script.statements := by
  rw [instantiate] at h
  split at h
  · cases h
  dsimp only at h
  split at h
  · cases h
  obtain ⟨resolved, hresolved, h⟩ := bind_eq_ok_iff.mp h
  obtain ⟨script, hscript, h⟩ := bind_eq_ok_iff.mp h
  cases h
  refine ⟨resolved, script, hresolved, ?_, rfl⟩
  rcases hparse : parse t.name (t.source resolved) with e | script'
  · rw [hparse] at hscript
    cases hscript
  · rw [hparse] at hscript
    cases hscript
    rfl

/-! ### Declared placeholders -/

theorem exists_of_checkPlaceholders {names : List String}
    (h : t.checkPlaceholders names = .ok ()) {name : String} (hname : name ∈ names) :
    ∃ p ∈ t.parameters, p.name = name := by
  induction names with
  | nil => cases hname
  | cons other names ih =>
    rw [checkPlaceholders] at h
    split at h
    · rename_i hdeclared
      rcases List.mem_cons.mp hname with rfl | hname
      · simpa using hdeclared
      · exact ih h hname
    · cases h

theorem mem_firstOccurrences {found names : List String} {name : String}
    (h : name ∈ found ∨ name ∈ names) : name ∈ firstOccurrences found names := by
  induction names generalizing found with
  | nil => simpa [firstOccurrences] using h
  | cons other names ih =>
    rw [firstOccurrences]
    split <;> exact ih (by grind)

/-- The placeholders of a well-formed template are parameters. -/
theorem exists_of_validate (h : t.validate = .ok ()) {name : String} {spelling : List Char}
    (hname : .placeholder name spelling ∈ Segment.segments t.script) :
    ∃ p ∈ t.parameters, p.name = name := by
  rw [validate] at h
  split at h
  · obtain ⟨-, -, h⟩ := bind_eq_ok_iff.mp h
    exact exists_of_checkPlaceholders h
      (mem_firstOccurrences (.inr (List.mem_filterMap.mpr ⟨_, hname, rfl⟩)))
  · cases h

/-! ### The text with a name for every placeholder -/

/-- The text of a template with a name for every placeholder. -/
def marked (t : Template) (mark : Char) : String :=
  substitute t.script fun _ => some [mark]

/-- Placeholders stand only where operands do: with a name for every placeholder the text can be
read, and no placeholder stands in a string or a longer word, and none as a key or a property. -/
structure OperandsOnly (t : Template) (mark : Char) : Prop where
  isMark : IsMark mark
  parses : ∃ script, parse t.name (t.marked mark) = .ok script
  tokens : ∃ ts, Lexer.tokens (t.marked mark) = .ok ts ∧ (∀ u ∈ ts, Lexer.Clear mark u.kind) ∧
    ts.IsChain (Lexer.Fits mark)

instance (t : Template) (mark : Char) : Decidable (t.OperandsOnly mark) :=
  decidable_of_iff ((Text.isLetter mark = true ∧ 128 ≤ mark.toNat) ∧
      (parse t.name (t.marked mark)).toOption.any (fun _ => true) = true ∧
      (Lexer.tokens (t.marked mark)).toOption.any (fun ts =>
        decide ((∀ u ∈ ts, Lexer.Clear mark u.kind) ∧ ts.IsChain (Lexer.Fits mark))) = true) <| by
    simp only [← exists_ok_iff_check, decide_eq_true_eq, and_true]
    exact ⟨fun ⟨hmark, hparses, htokens⟩ => ⟨⟨hmark.1, hmark.2⟩, hparses, htokens⟩,
      fun h => ⟨⟨h.isMark.letter, h.isMark.beyond⟩, h.parses, h.tokens⟩⟩

/-- The piece of a segment, for resolved parameters. -/
def piece (resolved : Table Value) : Segment → Piece
  | .plain c => .plain c
  | .placeholder name _ => .filled ((Table.find? name resolved).getD .null)

/-- The pieces of a text, for resolved parameters. -/
def pieces (t : Template) (resolved : Table Value) : List Piece :=
  (Segment.segments t.script).map (piece resolved)

theorem toList_marked (t : Template) (mark : Char) (resolved : Table Value) :
    (t.marked mark).toList = (t.pieces resolved).map (Piece.marked mark) := by
  rw [marked, substitute, String.toList_ofList, pieces, List.map_map, List.map_eq_flatMap]
  congr 1
  funext segment
  cases segment <;> rfl

theorem toList_source (hvalid : t.validate = .ok ())
    (hresolved : resolveAll given [] t.parameters = .ok resolved) :
    (t.source resolved).toList = (t.pieces resolved).flatMap Piece.chars := by
  rw [source, substitute, String.toList_ofList, pieces, List.flatMap_map]
  refine List.flatMap_congr fun segment hsegment => ?_
  cases segment with
  | plain c => rfl
  | placeholder name spelling =>
    obtain ⟨v, hv, -⟩ := find?_of_resolveAll hresolved (.inl (exists_of_validate hvalid hsegment))
    simp [Segment.expand, piece, Piece.chars, hv]

theorem definite_of_mem_pieces (hvalid : t.validate = .ok ())
    (hresolved : resolveAll given [] t.parameters = .ok resolved) {v : Value}
    (hv : Piece.filled v ∈ t.pieces resolved) : v.Definite := by
  obtain ⟨segment, hsegment, hpiece⟩ := List.mem_map.mp hv
  cases segment with
  | plain c => cases hpiece
  | placeholder name spelling =>
    obtain ⟨w, hw, hdefinite⟩ :=
      find?_of_resolveAll hresolved (.inl (exists_of_validate hvalid hsegment))
    simp only [piece, hw, Option.getD_some, Piece.filled.injEq] at hpiece
    exact hpiece ▸ hdefinite

/-! ### Calls -/

/-- Every script of a template has the calls of the text with a name for every placeholder. -/
theorem map_calls_of_instantiate (hvalid : t.validate = .ok ()) (hoperands : t.OperandsOnly mark)
    {named : Script} (hnamed : parse t.name (t.marked mark) = .ok named)
    (h : t.instantiate given = .ok s) :
    named.calls.map (fun call => (call.1, call.2.length)) =
      s.calls.map fun call => (call.1, call.2.length) := by
  obtain ⟨resolved, script, hresolved, hscript, hstatements⟩ := exists_of_instantiate h
  obtain ⟨ts, hts, hlexed, hread⟩ := exists_of_parse hnamed
  obtain ⟨ts', -, hlexed', hread'⟩ := exists_of_parse hscript
  obtain ⟨all, hall, hclear, hfits⟩ := hoperands.tokens
  obtain rfl : all = ts := Except.ok.inj (hall.symm.trans hts)
  have hdefinite (v : Value) (hv : Piece.filled v ∈ t.pieces resolved) : v.Definite :=
    definite_of_mem_pieces hvalid hresolved hv
  rw [t.toList_marked mark resolved] at hlexed
  rw [toList_source hvalid hresolved] at hlexed'
  have haligned : Aligned mark all ts' :=
    hlexed.aligned hoperands.isMark rfl hdefinite hclear hfits hlexed' rfl
  refine map_calls_eq ?_
  rw [hstatements]
  exact Parser.readStatements_aligned haligned hread hread'

/-- Whatever its parameters are, the scripts of a template have the same calls, if its placeholders
stand only where operands do. -/
theorem instantiate_calls_eq {given' : Table Value} {s' : Script} (hvalid : t.validate = .ok ())
    (hoperands : t.OperandsOnly mark) (h : t.instantiate given = .ok s)
    (h' : t.instantiate given' = .ok s') :
    s.calls.map (fun call => (call.1, call.2.length)) =
      s'.calls.map fun call => (call.1, call.2.length) := by
  obtain ⟨named, hnamed⟩ := hoperands.parses
  rw [← map_calls_of_instantiate hvalid hoperands hnamed h,
    map_calls_of_instantiate hvalid hoperands hnamed h']

/-- A template with a comment and a call, whose placeholders stand in the comment, as an argument
and as the value of a key. -/
def greeting : Template where
  name := "greeting"
  parameters := [
    { name := "who", type := .string, required := true },
    { name := "limit", type := .integer, default? := some (.integer 3) }]
  script := "// for \x7b\x7bwho\x7d\x7d\nprint(\x7b\x7b who \x7d\x7d, \x7b limit: \x7b\x7blimit\x7d\x7d \x7d)"

theorem greeting_calls_eq : ∃ s s',
    greeting.instantiate [("who", .string "\"); print(\"")] = .ok s ∧
      greeting.instantiate [("limit", .integer Int64.minValue), ("who", .string "")] = .ok s' ∧
      s.calls.map (fun call => (call.1, call.2.length)) =
        s'.calls.map fun call => (call.1, call.2.length) := by
  have hvalid : greeting.validate.toOption.any (fun _ => true) = true := by decide +kernel
  have hfirst : (greeting.instantiate [("who", .string "\"); print(\"")]).toOption.any
      (fun _ => true) = true := by
    decide +kernel
  have hsecond : (greeting.instantiate [("limit", .integer Int64.minValue),
      ("who", .string "")]).toOption.any (fun _ => true) = true := by
    decide +kernel
  have hoperands : greeting.OperandsOnly 'é' := by decide +kernel
  obtain ⟨⟨⟩, hvalid, -⟩ := exists_ok_of_check hvalid
  obtain ⟨s, hs, -⟩ := exists_ok_of_check hfirst
  obtain ⟨s', hs', -⟩ := exists_ok_of_check hsecond
  exact ⟨s, s', hs, hs', instantiate_calls_eq hvalid hoperands hs hs'⟩

/-- A template with one parameter. -/
def single (type : ParameterType) (script : String) : Template where
  name := "single"
  parameters := [{ name := "x", type }]
  script

/-- The template is well formed, and for these two values of its parameter `x` it is instantiated to
scripts that differ in their calls. -/
def CallsDiffer (t : Template) (v w : Value) : Prop :=
  t.validate = .ok () ∧ ∃ s s', t.instantiate [("x", v)] = .ok s ∧
    t.instantiate [("x", w)] = .ok s' ∧
    s.calls.map (fun call => (call.1, call.2.length)) ≠
      s'.calls.map fun call => (call.1, call.2.length)

theorem callsDiffer_of_check {t : Template} {v w : Value}
    (h : (t.validate.toOption.any (fun _ => true) &&
      (t.instantiate [("x", v)]).toOption.any fun s =>
        (t.instantiate [("x", w)]).toOption.any fun s' =>
          s.calls.map (fun call => (call.1, call.2.length)) ≠
            s'.calls.map fun call => (call.1, call.2.length)) = true) : CallsDiffer t v w := by
  obtain ⟨hvalid, hcheck⟩ := (Bool.and_eq_true _ _).mp h
  obtain ⟨⟨⟩, hvalid, -⟩ := exists_ok_of_check hvalid
  obtain ⟨s, hs, hcheck⟩ := exists_ok_of_check hcheck
  obtain ⟨s', hs', hne⟩ := exists_ok_of_check hcheck
  exact ⟨hvalid, s, s', hs, hs', of_decide_eq_true hne⟩

/-- Where a placeholder stands in a string, in a longer word, as a key or behind an operand, two
scripts of a template can differ in their calls. -/
theorem instantiate_calls_ne :
    CallsDiffer (single .string "\"\x7b\x7bx\x7d\x7d\"") (.string ";") (.string ";print(1);") ∧
    CallsDiffer (single .integer "f\x7b\x7bx\x7d\x7d()") (.integer 1) (.integer 2) ∧
    CallsDiffer (single .string "\x7b \x7b\x7bx\x7d\x7d: f(), a: 0 \x7d") (.string "a")
      (.string "b") ∧
    CallsDiffer (single .integer "f \x7b\x7bx\x7d\x7d") (.integer (-1))
      (.integer Int64.minValue) := by
  refine ⟨?_, ?_, ?_, ?_⟩ <;> exact callsDiffer_of_check (by decide +kernel)

end Template

end Covenant
