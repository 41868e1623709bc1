import Covenant.Proofs.Placeholders
import Mathlib.Data.Nat.Digits.Defs

/-!
# String literals

A string literal is a quote, items and a quote. An item is a character that is neither a quote nor
a backslash, a backslash with a letter from a table, or the code point of a character in hexadecimal
digits. Reading a string finds exactly these literals and one more kind of item: the digits of a
code point may have a plus sign in front of them.

## Main definitions

* `StringLiteral.Item`, `StringLiteral.Items` : the items of a literal and what they stand for, by
  whether a code point is signed.
* `StringLiteral.Opens` : a text that begins with a literal.
* `StringLiteral.Documented` : the first token of a text is the documented literal it begins with.

## Main results

* `StringLiteral.Items.unique` : a text begins with at most one literal.
* `StringLiteral.firstToken_iff` : what is read as a string.
* `StringLiteral.documented_iff` : texts are read as documented if no code point is signed.
-/

namespace Covenant

namespace StringLiteral

open Lexer

/-! ### Literals -/

/-- The letters that may stand behind a backslash, with the characters they stand for. -/
def escapes : List (Char × Char) :=
  [('"', '"'), ('\\', '\\'), ('n', '\n'), ('r', '\r'), ('t', '\t'), ('0', '\x00')]

/-- One or more hexadecimal digits that write the code point of a character. -/
def Names (digits : List Char) (c : Char) : Prop :=
  digits ≠ [] ∧ ∃ values,
    List.Forall₂ (fun d value => Text.hexValue? d = some value) digits values ∧
      c.toNat = Nat.ofDigits 16 values.reverse

/-- A plus sign or nothing. -/
def sign (signed : Bool) : List Char :=
  if signed then ['+'] else []

/-- An item of a literal, whether it is a signed code point, and the character it stands for. -/
inductive Item : Bool → List Char → Char → Prop
  | plain {c} : c ≠ '"' → c ≠ '\\' → Item false [c] c
  | escape {letter c} : (letter, c) ∈ escapes → Item false ['\\', letter] c
  | code {digits c} (signed) : Names digits c →
    Item signed ('\\' :: 'u' :: '{' :: (sign signed ++ digits ++ ['}'])) c

/-- Items one behind the other, whether there is a signed code point among them, and the text they
stand for. -/
inductive Items : Bool → List Char → List Char → Prop
  | nil : Items false [] []
  | cons {signed signed' run runs c text} : Item signed run c → Items signed' runs text →
    Items (signed || signed') (run ++ runs) (c :: text)

/-- A text begins with a literal: a quote, items and a quote. -/
def Opens (source : String) (signed : Bool) (text : String) : Prop :=
  ∃ run rest, source.toList = '"' :: (run ++ '"' :: rest) ∧ Items signed run text.toList

/-- The first token of a text is of this kind. -/
def FirstToken (source : String) (kind : Token.Kind) : Prop :=
  ∃ t c, nextToken ⟨.start, source.toList⟩ = .ok (t, c) ∧ t.kind = kind

/-- The first token of a text is the literal that it begins with, where no code point is signed. If
it begins with none, it cannot be read. -/
def Documented (name source : String) : Prop :=
  (∀ text, FirstToken source (.string text) ↔ Opens source false text) ∧
    ((∀ text, ¬Opens source false text) → ∃ e, tokenize name source = .error e)

/-! ### Code points -/

theorem foldl_hexValue?_eq_some_iff {digits : List Char} {n m : Nat} :
    digits.foldl (fun n c => n.bind fun n => (Text.hexValue? c).map (16 * n + ·)) (some n) =
      some m ↔ ∃ values, List.Forall₂ (fun d value => Text.hexValue? d = some value) digits values ∧
        m = values.foldl (16 * · + ·) n := by
  induction digits generalizing n with
  | nil => simp [eq_comm]
  | cons d digits ih =>
    rw [List.foldl_cons, Option.bind_some]
    rcases hd : Text.hexValue? d with _ | value
    · have hnone (ds : List Char) : ds.foldl (fun n c => n.bind fun n =>
          (Text.hexValue? c).map (16 * n + ·)) none = none := by
        induction ds with
        | nil => rfl
        | cons d ds ih => exact ih
      simp [hnone, List.forall₂_cons_left_iff, hd]
    · rw [Option.map_some, ih]
      simp [List.forall₂_cons_left_iff, hd]

theorem readHex?_eq_some_iff {digits : List Char} {n : Nat} : readHex? digits = some n ↔
    digits ≠ [] ∧ ∃ values,
      List.Forall₂ (fun d value => Text.hexValue? d = some value) digits values ∧
        n = Nat.ofDigits 16 values.reverse := by
  have hdigits (values : List Nat) :
      values.foldl (16 * · + ·) 0 = Nat.ofDigits 16 values.reverse := by
    rw [Nat.ofDigits_eq_foldr, List.foldr_reverse]
    simp [Nat.add_comm]
  simp [readHex?, foldl_hexValue?_eq_some_iff, hdigits]

theorem names_iff {digits : List Char} {c : Char} :
    Names digits c ↔ readHex? digits = some c.toNat :=
  readHex?_eq_some_iff.symm

theorem Names.unique {digits : List Char} {c c' : Char} (h : Names digits c)
    (h' : Names digits c') : c = c' :=
  Char.toNat_inj.mp (Option.some.inj ((names_iff.mp h).symm.trans (names_iff.mp h')))

theorem Names.isSome_hexValue? {digits : List Char} {c d : Char} (h : Names digits c)
    (hd : d ∈ digits) : (Text.hexValue? d).isSome = true := by
  obtain ⟨-, values, hvalues, -⟩ := h
  induction hvalues with
  | nil => cases hd
  | cons hvalue _ ih =>
    rcases List.mem_cons.mp hd with rfl | hd
    · rw [hvalue]
      rfl
    · exact ih hd

theorem readHex?_bind_eq_some_iff {digits : List Char} {c : Char} :
    ((readHex? digits).bind fun n => if n.isValidChar then some (Char.ofNat n) else none) = some c ↔
      Names digits c := by
  rw [names_iff, Option.bind_eq_some_iff]
  constructor
  · rintro ⟨n, hn, hchar⟩
    split_ifs at hchar with hvalid
    obtain rfl := Option.some.inj hchar
    rw [hn, Char.ofNat, dif_pos hvalid]
    rfl
  · intro hdigits
    have hvalid : c.toNat.isValidChar := c.valid
    exact ⟨c.toNat, hdigits, by rw [if_pos hvalid, Char.ofNat_toNat]⟩

/-- What stands between the braces of a code point. -/
theorem codePoint?_eq_some_iff {inner : List Char} {c : Char} : codePoint? inner = some c ↔
    ∃ signed digits, inner = sign signed ++ digits ∧ Names digits c := by
  unfold codePoint?
  split
  case h_1 digits =>
    rw [readHex?_bind_eq_some_iff]
    refine ⟨fun h => ⟨true, digits, rfl, h⟩, ?_⟩
    rintro ⟨signed, digits', hsplit, h⟩
    cases signed with
    | true =>
      obtain rfl : digits = digits' := (List.cons.inj hsplit).2
      exact h
    | false =>
      -- a plus sign is no digit
      obtain rfl : '+' :: digits = digits' := hsplit
      exact absurd (h.isSome_hexValue? List.mem_cons_self) (by decide)
  case h_2 hplus =>
    rw [readHex?_bind_eq_some_iff]
    refine ⟨fun h => ⟨false, inner, rfl, h⟩, ?_⟩
    rintro ⟨signed, digits, rfl, h⟩
    cases signed with
    | true => exact absurd rfl (hplus digits)
    | false => exact h

/-! ### Uniqueness -/

theorem notMem_inner {signed : Bool} {digits : List Char} {c : Char} (h : Names digits c) :
    '}' ∉ sign signed ++ digits := by
  rw [List.mem_append, not_or]
  constructor
  · cases signed <;> decide
  · intro hmem
    exact absurd (h.isSome_hexValue? hmem) (by decide)

theorem eq_of_append_cons {c : Char} {cs cs' rest rest' : List Char} (h : c ∉ cs) (h' : c ∉ cs')
    (heq : cs ++ c :: rest = cs' ++ c :: rest') : cs = cs' ∧ rest = rest' := by
  induction cs generalizing cs' with
  | nil =>
    rcases cs' with _ | ⟨d, cs'⟩
    · exact ⟨rfl, (List.cons.inj heq).2⟩
    · obtain rfl : c = d := (List.cons.inj heq).1
      exact absurd List.mem_cons_self h'
  | cons d cs ih =>
    rw [List.mem_cons, not_or] at h
    rcases cs' with _ | ⟨d', cs'⟩
    · exact absurd (List.cons.inj heq).1.symm h.1
    · obtain ⟨rfl, htail⟩ := List.cons.inj heq
      rw [List.mem_cons, not_or] at h'
      obtain ⟨rfl, rfl⟩ := ih h.2 h'.2 htail
      exact ⟨rfl, rfl⟩

/-- The sign and the digits of a code point are found from what stands behind the opening brace. -/
theorem unique_of_append {signed signed' : Bool} {digits digits' rest rest' : List Char}
    {c c' : Char} (h : Names digits c) (h' : Names digits' c')
    (heq : sign signed ++ digits ++ '}' :: rest = sign signed' ++ digits' ++ '}' :: rest') :
    signed = signed' ∧ c = c' ∧ rest = rest' := by
  obtain ⟨hinner, rfl⟩ := eq_of_append_cons (notMem_inner h) (notMem_inner h') heq
  have hplus {digits : List Char} {c : Char} (h : Names ('+' :: digits) c) : False :=
    absurd (h.isSome_hexValue? List.mem_cons_self) (by decide)
  cases signed <;> cases signed'
  · obtain rfl : digits = digits' := hinner
    exact ⟨rfl, h.unique h', rfl⟩
  · obtain rfl : digits = '+' :: digits' := hinner
    exact (hplus h).elim
  · obtain rfl : '+' :: digits = digits' := hinner
    exact (hplus h').elim
  · obtain rfl : digits = digits' := (List.cons.inj hinner).2
    exact ⟨rfl, h.unique h', rfl⟩

theorem ne_code_of_mem_escapes {letter c : Char} (h : (letter, c) ∈ escapes) : letter ≠ 'u' := by
  rintro rfl
  simp [escapes] at h

theorem simpleEscape?_eq_some_iff {letter c : Char} :
    simpleEscape? letter = some c ↔ (letter, c) ∈ escapes := by
  constructor
  · intro h
    unfold simpleEscape? at h
    split at h <;> cases h <;> decide
  · intro h
    simp only [escapes, List.mem_cons, List.not_mem_nil, or_false, Prod.mk.injEq] at h
    rcases h with ⟨rfl, rfl⟩ | ⟨rfl, rfl⟩ | ⟨rfl, rfl⟩ | ⟨rfl, rfl⟩ | ⟨rfl, rfl⟩ | ⟨rfl, rfl⟩
    all_goals rfl

theorem escapes_unique {letter c c' : Char} (h : (letter, c) ∈ escapes)
    (h' : (letter, c') ∈ escapes) : c = c' :=
  Option.some.inj
    ((simpleEscape?_eq_some_iff.mpr h).symm.trans (simpleEscape?_eq_some_iff.mpr h'))

theorem Item.unique {signed signed' : Bool} {run run' rest rest' : List Char} {c c' : Char}
    (h : Item signed run c) (h' : Item signed' run' c') (heq : run ++ rest = run' ++ rest') :
    signed = signed' ∧ c = c' ∧ rest = rest' := by
  cases h with
  | plain hquote hslash =>
    cases h' with
    | plain =>
      obtain ⟨rfl, rfl⟩ := List.cons.inj heq
      exact ⟨rfl, rfl, rfl⟩
    | escape => exact absurd (List.cons.inj heq).1 hslash
    | code => exact absurd (List.cons.inj heq).1 hslash
  | escape hletter =>
    cases h' with
    | plain _ hslash => exact absurd (List.cons.inj heq).1.symm hslash
    | escape hletter' =>
      obtain ⟨rfl, rfl⟩ := List.cons.inj (List.cons.inj heq).2
      exact ⟨rfl, escapes_unique hletter hletter', rfl⟩
    | code =>
      exact absurd (List.cons.inj (List.cons.inj heq).2).1 (ne_code_of_mem_escapes hletter)
  | code _ hnames =>
    cases h' with
    | plain _ hslash => exact absurd (List.cons.inj heq).1.symm hslash
    | escape hletter' =>
      exact absurd (List.cons.inj (List.cons.inj heq).2).1.symm (ne_code_of_mem_escapes hletter')
    | code _ hnames' =>
      have hinner := (List.cons.inj (List.cons.inj (List.cons.inj heq).2).2).2
      exact unique_of_append hnames hnames' (by simpa using hinner)

/-- No item begins with a quote. -/
theorem Item.ne_quote {signed : Bool} {run rest rest' : List Char} {c : Char}
    (h : Item signed run c) : run ++ rest ≠ '"' :: rest' := by
  intro heq
  cases h with
  | plain hquote => exact hquote (List.cons.inj heq).1
  | escape => exact absurd (List.cons.inj heq).1 (by decide)
  | code => exact absurd (List.cons.inj heq).1 (by decide)

/-- A text begins with at most one literal. -/
theorem Items.unique {signed signed' : Bool} {run run' rest rest' text text' : List Char}
    (h : Items signed run text) (h' : Items signed' run' text')
    (heq : run ++ '"' :: rest = run' ++ '"' :: rest') :
    signed = signed' ∧ text = text' ∧ rest = rest' := by
  induction h generalizing signed' run' text' with
  | nil =>
    cases h' with
    | nil => exact ⟨rfl, rfl, (List.cons.inj heq).2⟩
    | cons hitem _ =>
      rw [List.append_assoc] at heq
      exact absurd heq.symm hitem.ne_quote
  | cons hitem _ ih =>
    cases h' with
    | nil =>
      rw [List.append_assoc] at heq
      exact absurd heq hitem.ne_quote
    | cons hitem' hitems' =>
      rw [List.append_assoc, List.append_assoc] at heq
      obtain ⟨rfl, rfl, hrest⟩ := hitem.unique hitem' heq
      obtain ⟨rfl, rfl, rfl⟩ := ih hitems' hrest
      exact ⟨rfl, rfl, rfl⟩

/-! ### Reading -/

/-- What has been read of the current item. -/
def pending : StringMode → List Char
  | .item => []
  | .escape => ['\\']
  | .brace => ['\\', 'u']
  | .code digits => '\\' :: 'u' :: '{' :: digits.reverse

/-- What is read as the rest of a string is a literal. -/
theorem scanString_sound {start p : Position} {mode : StringMode} {decoded cs : List Char}
    {kind : Token.Kind} {after : Cursor}
    (h : scanString start mode p decoded cs = .ok (kind, after)) :
    ∃ signed run text, pending mode ++ cs = run ++ '"' :: after.rest ∧ Items signed run text ∧
      kind = .string (String.ofList (decoded.reverse ++ text)) := by
  fun_induction scanString start mode p decoded cs with
  | case5 p decoded rest =>
    cases h
    exact ⟨false, [], [], rfl, .nil, by simp⟩
  | case6 p decoded rest _ ih => exact ih h
  | case7 p decoded d rest hquote hslash ih =>
    obtain ⟨signed, run, text, hrest, hitems, rfl⟩ := ih h
    replace hrest : rest = run ++ '"' :: after.rest := hrest
    refine ⟨_, d :: run, d :: text, by rw [hrest]; rfl, .cons (.plain hquote hslash) hitems, ?_⟩
    simp
  | case8 p decoded rest ih => exact ih h
  | case9 p decoded letter rest _ d hescape ih =>
    obtain ⟨signed, run, text, hrest, hitems, rfl⟩ := ih h
    replace hrest : rest = run ++ '"' :: after.rest := hrest
    have hitem : Item false ['\\', letter] d := .escape (simpleEscape?_eq_some_iff.mp hescape)
    exact ⟨_, _, d :: text, by rw [hrest]; rfl, .cons hitem hitems, by simp⟩
  | case11 p decoded rest ih => exact ih h
  | case13 digits p decoded rest d hcode ih =>
    obtain ⟨signed, run, text, hrest, hitems, rfl⟩ := ih h
    replace hrest : rest = run ++ '"' :: after.rest := hrest
    obtain ⟨signed', digits', hinner, hnames⟩ := codePoint?_eq_some_iff.mp hcode
    refine ⟨_, _, d :: text, ?_, .cons (.code signed' hnames) hitems, by simp⟩
    simp [pending, hinner, hrest]
  | case15 digits p decoded d rest _ ih =>
    obtain ⟨signed, run, text, hrest, hitems, rfl⟩ := ih h
    refine ⟨signed, run, text, ?_, hitems, rfl⟩
    rw [← hrest]
    simp [pending]
  | _ => cases h

/-- An item is read as the character it stands for. -/
theorem Item.scanString {signed : Bool} {run : List Char} {c : Char} (h : Item signed run c)
    (start p : Position) (decoded rest : List Char) :
    ∃ p', scanString start .item p decoded (run ++ rest) =
      scanString start .item p' (c :: decoded) rest := by
  cases h with
  | plain hquote hslash => exact ⟨p.advance c, by simp [Lexer.scanString, hquote, hslash]⟩
  | @escape letter _ hletter =>
    refine ⟨(p.advance '\\').advance letter, ?_⟩
    simp [Lexer.scanString, ne_code_of_mem_escapes hletter, simpleEscape?_eq_some_iff.mpr hletter]
  | @code digits _ _ hnames =>
    have hbrace : '}' ∉ sign signed ++ digits := notMem_inner hnames
    have hcode := codePoint?_eq_some_iff.mpr ⟨signed, digits, rfl, hnames⟩
    obtain ⟨p', hp'⟩ := scanString_code start decoded [] ('}' :: rest) hbrace
      (((p.advance '\\').advance 'u').advance '{')
    refine ⟨p'.advance '}', ?_⟩
    simp only [List.append_assoc] at hp' hcode
    simp [Lexer.scanString, hp', hcode]

/-- A literal is read as the text it stands for. -/
theorem Items.scanString {signed : Bool} {run text : List Char} (h : Items signed run text)
    (start p : Position) (decoded rest : List Char) :
    ∃ p', scanString start .item p decoded (run ++ '"' :: rest) =
      .ok (.string (String.ofList (decoded.reverse ++ text)), ⟨p', rest⟩) := by
  induction h generalizing p decoded with
  | nil => exact ⟨p.advance '"', by simp [Lexer.scanString]⟩
  | @cons signed signed' run runs c text hitem _ ih =>
    obtain ⟨p₁, hp₁⟩ := hitem.scanString start p decoded (runs ++ '"' :: rest)
    obtain ⟨p', hp'⟩ := ih p₁ (c :: decoded)
    refine ⟨p', ?_⟩
    rw [List.append_assoc, hp₁, hp']
    simp

/-! ### First tokens -/

theorem scanKind_quote (p : Position) (cs : List Char) :
    scanKind ⟨p, '"' :: cs⟩ = scanString p .item (p.advance '"') [] cs := by
  have hclass : Text.isDigit '"' = false ∧ startsWord '"' = false := by decide
  simp [scanKind, hclass]

theorem solid_quote (cs : List Char) : Solid ('"' :: cs) :=
  ⟨'"', cs, rfl, by decide, by decide, by decide⟩

/-- The first token of a text that begins with a quote is a string exactly if the text begins with
a literal for it, with signed code points or without. -/
theorem firstToken_iff {source : String} (h : source.toList.head? = some '"') (text : String) :
    FirstToken source (.string text) ↔ ∃ signed, Opens source signed text := by
  obtain ⟨cs, hcs⟩ := List.head?_eq_some_iff.mp h
  constructor
  · rintro ⟨t, c, hnext, hkind⟩
    have hscan := (nextToken_ok hnext).1
    rw [hcs, skipTrivia_solid (solid_quote cs), scanKind_quote, hkind] at hscan
    obtain ⟨signed, run, decoded, hsplit, hitems, htext⟩ := scanString_sound hscan
    obtain rfl : text = String.ofList decoded := by simpa using htext
    replace hsplit : cs = run ++ '"' :: c.rest := hsplit
    exact ⟨signed, run, c.rest, by rw [hcs, hsplit], by simpa using hitems⟩
  · rintro ⟨signed, run, rest, hsplit, hitems⟩
    obtain ⟨p', hp'⟩ := hitems.scanString .start (.advance .start '"') [] rest
    have hscan : scanKind ⟨.start, source.toList⟩ = .ok (.string text, ⟨p', rest⟩) := by
      rw [hsplit, scanKind_quote, hp']
      simp
    have hsolid : Solid source.toList := hcs ▸ solid_quote cs
    exact ⟨_, _, nextToken_solid hsolid hscan, rfl⟩

/-- A text that begins with a quote and with no literal cannot be read. -/
theorem exists_error {source : String} (h : source.toList.head? = some '"')
    (hopens : ∀ signed text, ¬Opens source signed text) (name : String) :
    ∃ e, tokenize name source = .error e := by
  rcases hnext : nextToken ⟨.start, source.toList⟩ with e | ⟨t, c⟩
  · refine ⟨⟨.point name e.position, e.fault⟩, ?_⟩
    simp [tokenize, tokens, tokensFrom, hnext, bind, Except.bind]
  · obtain ⟨cs, hcs⟩ := List.head?_eq_some_iff.mp h
    have hscan := (nextToken_ok hnext).1
    rw [hcs, skipTrivia_solid (solid_quote cs), scanKind_quote] at hscan
    obtain ⟨text, htext⟩ := exists_string_of_scanString hscan
    obtain ⟨signed, hliteral⟩ := (firstToken_iff h text).mp ⟨t, c, hnext, htext⟩
    exact absurd hliteral (hopens signed text)

/-! ### Documented literals -/

theorem documented_of_unsigned {name source : String} (h : source.toList.head? = some '"')
    (hunsigned : ∀ text, ¬Opens source true text) : Documented name source := by
  have hfirst (text : String) :
      FirstToken source (.string text) ↔ Opens source false text := by
    rw [firstToken_iff h]
    refine ⟨?_, fun hopens => ⟨false, hopens⟩⟩
    rintro ⟨_ | _, hopens⟩
    · exact hopens
    · exact absurd hopens (hunsigned text)
  refine ⟨hfirst, fun hnone => exists_error h (fun signed text => ?_) name⟩
  cases signed with
  | false => exact hnone text
  | true => exact hunsigned text

theorem not_documented_of_signed {name source text : String} (h : Opens source true text) :
    ¬Documented name source := by
  obtain ⟨run, rest, hsplit, hitems⟩ := h
  have hhead : source.toList.head? = some '"' := by rw [hsplit]; rfl
  rintro ⟨hfirst, -⟩
  obtain ⟨run', rest', hsplit', hitems'⟩ :=
    (hfirst text).mp ((firstToken_iff hhead text).mpr ⟨true, run, rest, hsplit, hitems⟩)
  have heq := (List.cons.inj (hsplit.symm.trans hsplit')).2
  exact absurd (hitems.unique hitems' heq).1 (by decide)

/-- A text that begins with a quote is read as documented exactly if it does not begin with a
literal that has a plus sign in front of the digits of a code point. -/
theorem documented_iff (name : String) {source : String} (h : source.toList.head? = some '"') :
    Documented name source ↔ ∀ text, ¬Opens source true text :=
  ⟨fun hdocumented _ hopens => not_documented_of_signed hopens hdocumented,
    documented_of_unsigned h⟩

/-- An accent in a literal. -/
theorem documented_iff_accent : "\"\\u\x7be9\x7d\"".toList.head? = some '"' ∧
    (Documented "text" "\"\\u\x7be9\x7d\"" ↔
      ∀ text, ¬Opens "\"\\u\x7be9\x7d\"" true text) :=
  ⟨by decide, documented_iff "text" (by decide)⟩

/-- The code point of a letter with a plus sign is read, and it is not documented. -/
theorem not_documented_plus : ¬Documented "text" "\"\\u\x7b+41\x7d\"" := by
  have hnames : Names ['4', '1'] 'A' := ⟨by simp, [4, 1], .cons rfl (.cons rfl .nil), by decide⟩
  have hopens : Opens "\"\\u\x7b+41\x7d\"" true "A" :=
    ⟨_, [], rfl, .cons (.code true hnames) .nil⟩
  exact not_documented_of_signed hopens

end StringLiteral

end Covenant
