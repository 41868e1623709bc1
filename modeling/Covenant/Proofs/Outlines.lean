import Covenant.Proofs.Comments
import Covenant.Proofs.Instantiation
import Covenant.Proofs.Statements
import Covenant.Template.Builtin

/-!
# The scripts of a template

What the slots of statements have in common, whatever values are in them, is their outline: tokens
as known, and places for values. If the text of a template with a mark for every placeholder has
tokens as outlined, then with values for the placeholders it is read as those statements with these
values in them.

That is a statement about all values, and its condition is about one text, so that it can be
decided.

## Main definitions

* `Parser.outline`, `Parser.Takes` : outlines, and the tokens that fit them.
* `Template.Outlined` : the tokens of a template are as outlined.

## Main results

* `Filled.fills` : filled-in tokens fill the slots of the outline.
* `Template.exists_parse` : the text of an outlined template is read as the statements.
* `Template.exists_instantiate` : with values for its parameters, the script has the statements.
-/

namespace Covenant

open Lexer (markKind)

/-! ### Outlines -/

namespace Parser

/-- The value of a slot. -/
def Slot.value? : Slot → Option Value
  | token _ _ => none
  | value v => some v

/-- What is known of a slot without its value. -/
def Slot.place : Slot → Option (Token.Kind × Option Bool)
  | token kind line => some (kind, line)
  | value _ => none

/-- The values of slots, in order. -/
def values (slots : List Slot) : List Value :=
  slots.filterMap Slot.value?

/-- What is known of slots without their values. -/
def outline (slots : List Slot) : List (Option (Token.Kind × Option Bool)) :=
  slots.map Slot.place

theorem outline_append (slots slots' : List Slot) :
    outline (slots ++ slots') = outline slots ++ outline slots' :=
  List.map_append

/-- Slots take a token for each that is known, and those of the values. -/
theorem width_eq (slots : List Slot) : width slots =
    ((values slots).map fun v => v.kinds.length).sum + (outline slots).countP Option.isSome := by
  induction slots with
  | nil => rfl
  | cons slot slots ih =>
    rw [width_cons, ih]
    cases slot with
    | token kind line =>
      have hvalues : values (.token kind line :: slots) = values slots := rfl
      have houtline :
          outline (.token kind line :: slots) = some (kind, line) :: outline slots := rfl
      rw [hvalues, houtline, List.countP_cons_of_pos rfl, Slot.width_token]
      omega
    | value v =>
      have hvalues : values (.value v :: slots) = v :: values slots := rfl
      have houtline : outline (.value v :: slots) = none :: outline slots := rfl
      rw [hvalues, houtline, List.countP_cons_of_neg (by decide), List.map_cons, List.sum_cons,
        Slot.width]
      omega

/-- A token that takes a place in a text with marks: a mark for a value, or a token as known. -/
def Takes (mark : Char) (place : Option (Token.Kind × Option Bool)) (t : Token) : Prop :=
  match place with
  | some (kind, line) =>
    t.kind = kind ∧ kind ≠ markKind mark ∧ ∀ begins ∈ line, t.newlineBefore = begins
  | none => t.kind = markKind mark

instance (mark : Char) (place : Option (Token.Kind × Option Bool)) (t : Token) :
    Decidable (Takes mark place t) :=
  match place with
  | some (kind, line) => inferInstanceAs
      (Decidable (t.kind = kind ∧ kind ≠ markKind mark ∧ ∀ begins ∈ line, t.newlineBefore = begins))
  | none => inferInstanceAs (Decidable (t.kind = markKind mark))

/-- The tokens take the places one by one. -/
def Conforms (mark : Char) (places : List (Option (Token.Kind × Option Bool))) (ts : List Token) :
    Prop :=
  List.Forall₂ (Takes mark) places ts

instance (mark : Char) : (places : List (Option (Token.Kind × Option Bool))) → (ts : List Token) →
    Decidable (Conforms mark places ts)
  | [], [] => isTrue .nil
  | [], _ :: _ => isFalse nofun
  | _ :: _, [] => isFalse nofun
  | place :: places, t :: ts =>
    have : Decidable (Conforms mark places ts) := instDecidableConforms mark places ts
    decidable_of_iff (Takes mark place t ∧ Conforms mark places ts) List.forall₂_cons.symm

end Parser

open Covenant.Parser (Slot Fills Conforms outline)

/-- Tokens with values filled in fill slots with these values, if the tokens with marks follow their
outline. -/
theorem Filled.fills {mark : Char} {values : List Value} {slots : List Slot} {ts ts' : List Token}
    (h : Filled mark values ts ts') (hcount : values.length = marks mark ts)
    (hconforms : Conforms mark (outline slots) ts) (hvalues : Parser.values slots = values) :
    Fills slots ts' := by
  induction h generalizing slots with
  | finish hkind hkind' hline =>
    rcases slots with _ | ⟨slot, slots⟩
    · cases hconforms
    obtain ⟨htakes, hrest⟩ := List.forall₂_cons.mp hconforms
    obtain rfl := List.map_eq_nil_iff.mp (List.forall₂_nil_right_iff.mp hrest)
    cases slot with
    | token kind line =>
      obtain ⟨rfl, -, hbegins⟩ := htakes
      exact .token (hkind'.trans hkind.symm) (fun begins h => hline.symm.trans (hbegins begins h))
        .nil
    | value v => cases hvalues
  | same hkind hline hrest ih =>
    rcases slots with _ | ⟨slot, slots⟩
    · cases hconforms
    obtain ⟨htakes, hbehind⟩ := List.forall₂_cons.mp hconforms
    cases slot with
    | token kind line =>
      obtain ⟨rfl, hmark, hbegins⟩ := htakes
      rw [marks_cons_of_ne hmark] at hcount
      exact .token hkind.symm (fun begins h => hline.symm.trans (hbegins begins h))
        (ih hcount hbehind hvalues)
    | value v =>
      -- a mark that stays as it is would leave fewer marks than values
      have hle := hrest.length_le
      rw [marks_cons_of_eq htakes] at hcount
      omega
  | hole hkind hkinds hline hnext hrest ih =>
    rcases slots with _ | ⟨slot, slots⟩
    · cases hconforms
    obtain ⟨htakes, hbehind⟩ := List.forall₂_cons.mp hconforms
    cases slot with
    | token kind line =>
      obtain ⟨rfl, hmark, -⟩ := htakes
      exact absurd hkind hmark
    | value v =>
      obtain ⟨rfl, hrest⟩ := List.cons.inj hvalues
      rw [marks_cons_of_eq hkind, List.length_cons] at hcount
      exact .value hkinds (ih (Nat.succ.inj hcount) hbehind hrest)

/-- There are as many places for values as marks. -/
theorem Parser.length_values {mark : Char} {slots : List Slot} {ts : List Token}
    (h : Conforms mark (outline slots) ts) : (Parser.values slots).length = marks mark ts := by
  induction slots generalizing ts with
  | nil =>
    obtain rfl := List.forall₂_nil_left_iff.mp h
    rfl
  | cons slot slots ih =>
    rcases ts with _ | ⟨t, ts⟩
    · cases h
    obtain ⟨htakes, hrest⟩ := List.forall₂_cons.mp h
    cases slot with
    | token kind line =>
      obtain ⟨rfl, hmark, -⟩ := htakes
      rw [marks_cons_of_ne hmark]
      exact ih hrest
    | value v =>
      rw [marks_cons_of_eq htakes, ← ih hrest]
      rfl

namespace Lexer

/-- A text has at most one token more than characters. -/
theorem Lexed.length_le {c : Cursor} {ts : List Token} (h : Lexed c ts) :
    ts.length ≤ c.rest.length + 1 := by
  induction h with
  | finish => exact Nat.succ_le_succ (Nat.zero_le _)
  | cons hnext hkind _ ih =>
    have := length_rest_of_nextToken hnext hkind
    rw [List.length_cons]
    omega

theorem Lexed.tokens {source : String} {ts : List Token} (h : Lexed ⟨.start, source.toList⟩ ts) :
    tokens source = .ok ts := by
  rw [Lexer.tokens, h.tokensFrom h.length_le []]
  rfl

/-- The tokens of a text with these characters. -/
def tokensOf (cs : List Char) : Except Failure (List Token) :=
  tokensFrom (cs.length + 1) ⟨.start, cs⟩ []

theorem lexed_of_tokensOf {cs : List Char} {ts : List Token} (h : tokensOf cs = .ok ts) :
    Lexed ⟨.start, cs⟩ ts := by
  obtain ⟨_, rfl, hlexed⟩ := lexed_of_tokensFrom h
  exact hlexed

end Lexer

namespace Segment

/-- The character of a segment, where placeholders are marked. -/
def marked (mark : Char) : Segment → Char
  | plain c => c
  | placeholder _ _ => mark

/-- The names of the placeholders among segments, in order. -/
def names (segments : List Segment) : List String :=
  segments.filterMap name?

end Segment

namespace Template

variable {t : Template} {mark : Char} {given resolved : Table Value}

/-- With a mark for every placeholder a text has tokens as outlined, and the mark stands for nothing
else. -/
structure Outlined (segments : List Segment) (mark : Char)
    (places : List (Option (Token.Kind × Option Bool))) : Prop where
  isMark : IsMark mark
  unused : Segment.plain mark ∉ segments
  tokens : ∃ ts, Lexer.tokensOf (segments.map (Segment.marked mark)) = .ok ts ∧
    (∀ u ∈ ts, Lexer.Clear mark u.kind) ∧ ts.IsChain (Lexer.Fits mark) ∧ Conforms mark places ts

instance (segments : List Segment) (mark : Char)
    (places : List (Option (Token.Kind × Option Bool))) :
    Decidable (Outlined segments mark places) :=
  decidable_of_iff ((Text.isLetter mark = true ∧ 128 ≤ mark.toNat) ∧
      Segment.plain mark ∉ segments ∧
      (Lexer.tokensOf (segments.map (Segment.marked mark))).toOption.any (fun ts =>
        decide ((∀ u ∈ ts, Lexer.Clear mark u.kind) ∧ ts.IsChain (Lexer.Fits mark) ∧
          Conforms mark places ts)) = true) <| by
    simp only [← exists_ok_iff_check, decide_eq_true_eq]
    exact ⟨fun ⟨hmark, hunused, htokens⟩ => ⟨⟨hmark.1, hmark.2⟩, hunused, htokens⟩,
      fun h => ⟨⟨h.isMark.letter, h.isMark.beyond⟩, h.unused, h.tokens⟩⟩

/-- The value that stands for a placeholder. -/
def valueOf (resolved : Table Value) (name : String) : Value :=
  (Table.find? name resolved).getD .null

theorem map_marked_pieces (t : Template) (mark : Char) (resolved : Table Value) :
    (t.pieces resolved).map (Piece.marked mark) =
      (Segment.segments t.script).map (Segment.marked mark) := by
  rw [pieces, List.map_map]
  refine List.map_congr_left fun segment _ => ?_
  cases segment <;> rfl

theorem values_pieces (t : Template) (resolved : Table Value) :
    (t.pieces resolved).filterMap Piece.value? =
      (Segment.names (Segment.segments t.script)).map (valueOf resolved) := by
  rw [pieces, Segment.names, List.filterMap_map, List.map_filterMap]
  refine List.filterMap_congr fun segment _ => ?_
  cases segment <;> rfl

theorem plain_notMem_pieces (h : Segment.plain mark ∉ Segment.segments t.script) :
    Piece.plain mark ∉ t.pieces resolved := by
  intro hmem
  obtain ⟨segment, hsegment, hpiece⟩ := List.mem_map.mp hmem
  cases segment with
  | plain c =>
    obtain rfl := Piece.plain.inj hpiece
    exact h hsegment
  | placeholder => cases hpiece

/-- The text of an outlined template has tokens that fill the slots with the values of its
placeholders. -/
theorem exists_tokens {slots : List Slot} (hvalid : t.validate = .ok ())
    (hresolved : resolveAll given [] t.parameters = .ok resolved)
    (houtlined : Outlined (Segment.segments t.script) mark (outline slots))
    (hvalues : Parser.values slots =
      (Segment.names (Segment.segments t.script)).map (valueOf resolved)) :
    ∃ ts, Lexer.tokens (t.source resolved) = .ok ts ∧ Fills slots ts := by
  obtain ⟨ts, hts, hclear, hfits, hconforms⟩ := houtlined.tokens
  have hlexed := Lexer.lexed_of_tokensOf hts
  rw [← t.map_marked_pieces mark resolved] at hlexed
  have hrest : (⟨.start, (t.source resolved).toList⟩ : Lexer.Cursor).rest =
      (t.pieces resolved).flatMap Piece.chars := by
    dsimp only
    exact toList_source hvalid hresolved
  obtain ⟨values, ts', hsublist, hlexed', hfilled, hcount⟩ :=
    hlexed.filled houtlined.isMark rfl hclear hfits hrest
  have hlength := hcount (plain_notMem_pieces houtlined.unused)
  rw [values_pieces, ← hvalues] at hsublist
  have hall : values = Parser.values slots :=
    hsublist.eq_of_length (hlength.trans (Parser.length_values hconforms).symm)
  exact ⟨ts', hlexed'.tokens, hfilled.fills hlength hconforms hall.symm⟩

/-- The text of an outlined template is read as the statements. -/
theorem exists_parse {items : Parser.Items} (hvalid : t.validate = .ok ())
    (hresolved : resolveAll given [] t.parameters = .ok resolved)
    (houtlined : Outlined (Segment.segments t.script) mark
      (outline (items.slots ++ [.token .finish none])))
    (hvalues : Parser.values items.slots =
      (Segment.names (Segment.segments t.script)).map (valueOf resolved))
    (hwidth : Parser.width items.slots + 2 ≤ maxNesting) :
    ∃ script, parse t.name (t.source resolved) = .ok script ∧
      script.statements.map Statement.expression = items.exprs := by
  have hall : Parser.values (items.slots ++ [.token .finish none]) =
      (Segment.names (Segment.segments t.script)).map (valueOf resolved) := by
    rw [← hvalues, Parser.values, List.filterMap_append]
    exact List.append_nil _
  obtain ⟨ts, hts, hfills⟩ := exists_tokens hvalid hresolved houtlined hall
  obtain ⟨vs, last, rfl, hvs, hlast⟩ := Parser.fills_append.mp hfills
  obtain ⟨finish, last, rfl, hfinish, -, hnil⟩ := Parser.fills_token.mp hlast
  obtain rfl := Parser.fills_nil.mp hnil
  obtain ⟨statements, hread, hexprs⟩ :=
    Parser.readStatements_items hwidth hfinish hvs t.name
  exact ⟨_, parse_of_tokens hts hread, hexprs⟩

/-- Parameters that are taken with these values make a script of the statements. -/
theorem exists_instantiate {items : Parser.Items} (value : String → Value)
    (hvalid : t.validate = .ok ()) (hmissing : ∀ p ∈ t.parameters, ¬p.Missing given)
    (hundeclared : ∀ key ∈ given.keys, ¬t.Undeclared key)
    (hresolve : ∀ p ∈ t.parameters, resolve p (Table.find? p.name given) = .ok (value p.name))
    (houtlined : Outlined (Segment.segments t.script) mark
      (outline (items.slots ++ [.token .finish none])))
    (hnames : ∀ name ∈ Segment.names (Segment.segments t.script),
      name ∈ t.parameters.map Parameter.name)
    (hvalues : Parser.values items.slots = (Segment.names (Segment.segments t.script)).map value)
    (hwidth : Parser.width items.slots + 2 ≤ maxNesting) :
    ∃ script, t.instantiate given = .ok script ∧
      script.statements.map Statement.expression = items.exprs := by
  obtain ⟨resolved, hresolved⟩ := exists_resolveAll (fun p hp => ⟨_, hresolve p hp⟩) []
  have hvalue : ∀ name ∈ Segment.names (Segment.segments t.script),
      value name = valueOf resolved name := by
    intro name hname
    obtain ⟨p, hp, rfl⟩ := List.mem_map.mp (hnames name hname)
    obtain ⟨v, hv, hfind⟩ := find?_resolveAll hresolved (nodup_of_validate hvalid) hp
    rw [valueOf, hfind]
    exact Except.ok.inj ((hresolve p hp).symm.trans hv)
  rw [List.map_congr_left hvalue] at hvalues
  obtain ⟨script, hscript, hstatements⟩ :=
    exists_parse hvalid hresolved houtlined hvalues hwidth
  exact ⟨_, instantiate_eq_ok hmissing hundeclared hresolved hscript, hstatements⟩

/-! ### Texts made of lines -/

theorem toList_lines (ls : List String) :
    (lines ls).toList = ls.flatMap fun line => line.toList ++ ['\n'] := by
  have hjoin (done : String) (ls : List String) :
      (ls.foldl (fun done line => done ++ line) done).toList =
        done.toList ++ ls.flatMap String.toList := by
    induction ls generalizing done with
    | nil => exact (List.append_nil _).symm
    | cons line ls ih => rw [List.foldl_cons, ih, String.toList_append, List.flatMap_cons,
        List.append_assoc]
  rw [lines, String.join, hjoin, List.flatMap_map]
  refine List.flatMap_congr fun line _ => ?_
  rw [String.toList_append]
  rfl

theorem toList_hole (name : String) :
    (hole name).toList = '\x7b' :: '\x7b' :: (name.toList ++ ['\x7d', '\x7d']) := by
  rw [hole, String.toList_append, String.toList_append]
  rfl

end Template

end Covenant
