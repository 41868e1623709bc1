import Covenant.Proofs.Noninterference
import Covenant.Proofs.Seams

/-!
# The tokens of the text of a template

Where placeholders are delimited, a value takes the place of a placeholder as tokens of its own: the
text of a template for resolved parameters has the tokens of the texts around the placeholders and,
between them, those of the values. No value joins, splits or hides a token of the template.

A placeholder is delimited by the start of the text, white space, an opening parenthesis or bracket,
a comma or a colon in front of it, and by the end of the text, white space, a closing bracket of any
kind, a comma or a semicolon behind it.

## Main definitions

* `Segment.parts` : the text in front of the first placeholder, and each with the text behind it.
* `Segment.Delimits` : segments next to each other, of which a placeholder is delimited.
* `Template.texts` : the texts around the placeholders.
* `Template.partKinds` : the tokens of the texts and of the values between them.

## Main results

* `Template.tokens_source_of_delimited` : the tokens of the text for resolved parameters.
-/

namespace Covenant

namespace Segment

/-- The text in front of the first placeholder, and each placeholder with the text behind it. -/
def parts : List Segment → List Char × List (String × List Char)
  | [] => ([], [])
  | plain c :: rest => (c :: (parts rest).1, (parts rest).2)
  | placeholder name _ :: rest => ([], (name, (parts rest).1) :: (parts rest).2)

/-- Segments next to each other. A placeholder stands neither next to another one nor next to a
character that could join a value. -/
def Delimits : Segment → Segment → Prop
  | plain _, plain _ => True
  | plain c, placeholder _ _ => Lexer.precedesValue c = true
  | placeholder _ _, plain c => Lexer.followsValue c = true
  | placeholder _ _, placeholder _ _ => False

instance : DecidableRel Delimits
  | plain _, plain _ => isTrue trivial
  | plain c, placeholder _ _ => inferInstanceAs (Decidable (Lexer.precedesValue c = true))
  | placeholder _ _, plain c => inferInstanceAs (Decidable (Lexer.followsValue c = true))
  | placeholder _ _, placeholder _ _ => isFalse id

/-- A text, placeholders and the texts behind them, where the placeholders are delimited. -/
inductive Delimited : List Char → List (String × List Char) → Prop
  | text (text : List Char) : Delimited text []
  | placeholder {text next : List Char} {name : String} {more : List (String × List Char)}
    (before : ∀ c ∈ text.getLast?, Lexer.precedesValue c = true)
    (after : ∀ c ∈ next.head?, Lexer.followsValue c = true) (apart : next = [] → more = [])
    (rest : Delimited next more) : Delimited text ((name, next) :: more)

namespace Delimited

variable {text : List Char} {more : List (String × List Char)}

/-- A further character in front of a text does not change what stands in front of a placeholder. -/
theorem cons {d : Char} (h : Delimited (d :: text) more) (c : Char) :
    Delimited (c :: d :: text) more := by
  cases h with
  | text => exact .text _
  | placeholder before after apart rest =>
    exact .placeholder (by simpa using before) after apart rest

theorem cons_nil (h : Delimited [] more) {c : Char} (hc : Lexer.precedesValue c = true) :
    Delimited [c] more := by
  cases h with
  | text => exact .text _
  | placeholder _ after apart rest => exact .placeholder (by simpa using hc) after apart rest

end Delimited

/-- The parts of segments of which the placeholders are delimited. -/
theorem delimited_of_isChain {segments : List Segment} (h : segments.IsChain Delimits) :
    Delimited (parts segments).1 (parts segments).2 := by
  induction segments with
  | nil => exact .text []
  | cons segment segments ih =>
    have hrest := ih h.tail
    cases segment with
    | plain c =>
      rcases segments with _ | ⟨d | ⟨name, spelling⟩, segments⟩
      · exact .text [c]
      · exact hrest.cons c
      · exact hrest.cons_nil (List.isChain_cons_cons.mp h).1
    | placeholder name spelling =>
      rcases segments with _ | ⟨d | ⟨name, spelling⟩, segments⟩
      · exact .placeholder (by simp [parts]) (by simp [parts]) (fun _ => rfl) hrest
      · have hd : Lexer.followsValue d = true := (List.isChain_cons_cons.mp h).1
        refine .placeholder (by simp [parts]) ?_ (fun hnil => nomatch hnil) hrest
        rintro _ ⟨⟩
        exact hd
      · exact absurd (List.isChain_cons_cons.mp h).1 id

/-- The characters of segments, where each placeholder has a replacement, part by part. -/
theorem flatMap_expand {segments : List Segment} {replace : String → Option (List Char)}
    {written : String → List Char}
    (h : ∀ name ∈ segments.filterMap name?, replace name = some (written name)) :
    segments.flatMap (expand replace) = (parts segments).1 ++
      (parts segments).2.flatMap fun part => written part.1 ++ part.2 := by
  induction segments with
  | nil => rfl
  | cons segment segments ih =>
    cases segment with
    | plain c =>
      have hrest := ih (by simpa [name?] using h)
      rw [List.flatMap_cons, hrest]
      rfl
    | placeholder name spelling =>
      have hname : replace name = some (written name) := h name (by simp [name?])
      have hrest := ih fun other hother => h other (by simp [name?, hother])
      rw [List.flatMap_cons, hrest, expand, hname]
      simp [parts]

end Segment

namespace Template

open Lexer

/-- The texts around the placeholders. -/
def texts (t : Template) : List (List Char) :=
  (Segment.parts (Segment.segments t.script)).1 ::
    (Segment.parts (Segment.segments t.script)).2.map Prod.snd

/-- The tokens of a text, and for each placeholder those of its value and of the text behind it. -/
def partKinds (value : String → Value) (parts : List Char × List (String × List Char)) :
    List Token.Kind :=
  kindsOf parts.1 ++
    parts.2.flatMap fun part => kindsOf (value part.1).renderChars ++ kindsOf part.2

/-- The tokens of texts with values written out between them. -/
theorem yields_parts {first : List Char} {more : List (String × List Char)}
    (h : Segment.Delimited first more) (value : String → Value)
    (hread : ∀ text ∈ first :: more.map Prod.snd, ∃ ts, tokens (String.ofList text) = .ok ts)
    (hcomment : ∀ text ∈ (first :: more.map Prod.snd).dropLast, endsInComment text = false) :
    Yields (first ++ more.flatMap fun part => (value part.1).renderChars ++ part.2)
      (partKinds value (first, more)) := by
  induction h with
  | text text =>
    have h := Yields.of_tokens (hread text List.mem_cons_self)
    simpa [partKinds] using h
  | @placeholder text next name more before after apart rest ih =>
    -- from behind: first the value is joined to what follows it, then the text to the value
    have hnext := ih (fun other hother => hread other (List.mem_cons_of_mem _ hother))
      fun other hother => hcomment other (by simpa using .inr hother)
    have hdetached : Detached (next ++
        more.flatMap fun part => (value part.1).renderChars ++ part.2) := by
      rcases next with _ | ⟨c, next⟩
      · rw [apart rfl]
        trivial
      · exact detached_of_followsValue (by simpa using after)
    have hvalue := hnext.render hdetached (value name)
    have hseam : text ≠ [] → Seam text ((value name).renderChars ++ (next ++
        more.flatMap fun part => (value part.1).renderChars ++ part.2)) := by
      intro hne
      exact .inr ⟨text.getLast hne, List.getLast?_eq_some_getLast hne,
        before _ (List.getLast?_eq_some_getLast hne)⟩
    have hall := hvalue.append (hread text List.mem_cons_self) hseam fun _ =>
      hcomment text (by simp)
    simpa [partKinds, kindsOf_render] using hall

theorem source_eq_parts {t : Template} {resolved : Table Value} {value : String → Value}
    (hvalue : ∀ name ∈ t.placeholders, Table.find? name resolved = some (value name)) :
    t.source resolved = String.ofList ((Segment.parts (Segment.segments t.script)).1 ++
      (Segment.parts (Segment.segments t.script)).2.flatMap fun part =>
        (value part.1).renderChars ++ part.2) := by
  have hreplace (name : String)
      (hname : name ∈ (Segment.segments t.script).filterMap Segment.name?) :
      (Table.find? name resolved).map Value.renderChars = some (value name).renderChars := by
    rw [hvalue name (mem_firstOccurrences (.inr hname)), Option.map_some]
  rw [source, substitute, Segment.flatMap_expand hreplace]

/-- Where placeholders are delimited, each text around them can be read, and none but the last ends
within a comment, the text for resolved parameters has the tokens of the parts one after the other:
those of the texts and, between them, those of the source forms of the values. -/
theorem tokens_source_of_delimited (t : Template) (resolved : Table Value)
    (value : String → Value)
    (hvalue : ∀ name ∈ t.placeholders, Table.find? name resolved = some (value name))
    (hdelimited : (Segment.segments t.script).IsChain Segment.Delimits)
    (hread : ∀ text ∈ t.texts, ∃ ts, tokens (String.ofList text) = .ok ts)
    (hcomment : ∀ text ∈ t.texts.dropLast, endsInComment text = false) :
    (∀ name ∈ t.placeholders, ∃ ts, tokens (value name).render = .ok ts) ∧
      ∃ ts, tokens (t.source resolved) = .ok ts ∧ ts.map Token.kind =
        partKinds value (Segment.parts (Segment.segments t.script)) ++ [.finish] := by
  constructor
  · intro name _
    have hend : Detached [] := trivial
    obtain ⟨ts, hts, -⟩ := ((value name).spells_render hend).tokens
    exact ⟨ts, hts⟩
  · have hyields := yields_parts (Segment.delimited_of_isChain hdelimited) value hread hcomment
    rw [source_eq_parts hvalue]
    exact hyields.tokens

/-- A template with placeholders behind a blank, a parenthesis and a bracket. One of its texts has a
comment in it, and the last one ends within a comment. -/
def transfer : Template where
  name := "transfer"
  script := "let due = \x7b\x7b amount \x7d\x7d; // now\n" ++
    "pay(\x7b\x7bto\x7d\x7d, [\x7b\x7bamount\x7d\x7d, due]) // done"

/-- The values of its parameters. -/
def transferValue (name : String) : Value :=
  if name = "to" then .string "did:\"; // " else .integer (-5)

theorem transfer_tokens : ∃ ts, tokens (transfer.source
      [("amount", transferValue "amount"), ("to", transferValue "to")]) = .ok ts ∧
    ts.map Token.kind = [.keyword .let_, .word "due", .symbol .assign, .symbol .minus, .integer 5,
      .symbol .semicolon, .word "pay", .symbol .openParen, .string "did:\"; // ", .symbol .comma,
      .symbol .openBracket, .symbol .minus, .integer 5, .symbol .comma, .word "due",
      .symbol .closeBracket, .symbol .closeParen, .finish] := by
  have hnames : transfer.placeholders = ["amount", "to"] := by decide +kernel
  have hvalue : ∀ name ∈ transfer.placeholders, Table.find? name
      [("amount", transferValue "amount"), ("to", transferValue "to")] =
        some (transferValue name) := by
    simp only [hnames, List.forall_mem_cons]
    exact ⟨rfl, rfl, List.forall_mem_nil _⟩
  have hread : ∀ text ∈ transfer.texts, ∃ ts, tokens (String.ofList text) = .ok ts := by
    have hcheck : transfer.texts.all (fun text =>
        (tokens (String.ofList text)).toOption.any fun _ => true) = true := by
      decide +kernel
    intro text htext
    obtain ⟨ts, hts, -⟩ := exists_ok_of_check (List.all_eq_true.mp hcheck text htext)
    exact ⟨ts, hts⟩
  obtain ⟨-, ts, hts, hkinds⟩ := tokens_source_of_delimited transfer _ transferValue hvalue
    (by decide +kernel) hread (by decide +kernel)
  exact ⟨ts, hts, hkinds.trans (by decide +kernel)⟩

end Template

end Covenant
