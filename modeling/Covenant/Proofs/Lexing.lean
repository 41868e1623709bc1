import Covenant.Proofs.Computation
import Covenant.Proofs.Decimals
import Covenant.Proofs.Values
import Covenant.Token.Lexer
import Covenant.Value.Render

/-!
# The tokens of a rendered value

Reading is split where tokens end: `Lexes` reads some tokens and leaves the rest of the text, and a
text with its rest behind it `Spells` the kinds of its tokens. What stands behind a word or a number
must be `Detached` from it, since each token is the longest that starts where it starts.

The source form of every value spells the tokens that `Value.kinds` lists, whatever characters its
strings and keys have and whatever numbers it holds.

## Main definitions

* `Lexes`, `Lexed` : reading some tokens, and all tokens up to the end.
* `Spells` : a text whose tokens have given kinds.
* `Value.kinds` : the tokens of the source form of a value.

## Main results

* `Spells.tokens` : the tokens of a text that spells them.
* `Value.spells_render` : the source form of a value spells its tokens.
-/

namespace Covenant

namespace Lexer

/-! ### Reading token by token -/

/-- From the first cursor to the second, these tokens are read, none of which is the end. -/
inductive Lexes : Cursor → List Token → Cursor → Prop
  | nil {c} : Lexes c [] c
  | cons {c t c₁ ts c'} : nextToken c = .ok (t, c₁) → t.kind ≠ .finish → Lexes c₁ ts c' →
    Lexes c (t :: ts) c'

/-- From the cursor on, these are all tokens up to the end. -/
inductive Lexed : Cursor → List Token → Prop
  | finish {c t c₁} : nextToken c = .ok (t, c₁) → t.kind = .finish → Lexed c [t]
  | cons {c t c₁ ts} : nextToken c = .ok (t, c₁) → t.kind ≠ .finish → Lexed c₁ ts →
    Lexed c (t :: ts)

namespace Lexes

variable {c c₁ c' : Cursor} {ts ts' : List Token}

theorem append (h : Lexes c ts c₁) (h' : Lexes c₁ ts' c') : Lexes c (ts ++ ts') c' := by
  induction h with
  | nil => exact h'
  | cons hnext hkind _ ih => exact .cons hnext hkind (ih h')

/-- Cursors with the same next token read the same tokens. -/
theorem congr (h : Lexes c ts c') (hne : ts ≠ []) (hnext : nextToken c₁ = nextToken c) :
    Lexes c₁ ts c' := by
  induction h with
  | nil => exact absurd rfl hne
  | cons hc hkind hrest _ => exact .cons (hnext.trans hc) hkind hrest

theorem lexed (h : Lexes c ts c') (h' : Lexed c' ts') : Lexed c (ts ++ ts') := by
  induction h with
  | nil => exact h'
  | cons hnext hkind _ ih => exact .cons hnext hkind (ih h')

end Lexes

theorem Lexed.tokensFrom {c : Cursor} {ts : List Token} (h : Lexed c ts) {n : Nat}
    (hn : ts.length ≤ n) (read : List Token) :
    tokensFrom n c read = .ok (read.reverse ++ ts) := by
  induction h generalizing n read with
  | finish hnext hkind =>
    obtain ⟨n, rfl⟩ : ∃ k, n = k + 1 := ⟨n - 1, by simp at hn; omega⟩
    simp [Lexer.tokensFrom, hnext, hkind, bind, Except.bind, pure, Except.pure]
  | cons hnext hkind _ ih =>
    obtain ⟨n, rfl⟩ : ∃ k, n = k + 1 := ⟨n - 1, by simp at hn; omega⟩
    simp [Lexer.tokensFrom, hnext, hkind, bind, Except.bind, ih (n := n) (by simpa using hn)]

theorem lexed_of_tokensFrom {n : Nat} {c : Cursor} {read all : List Token}
    (h : tokensFrom n c read = .ok all) : ∃ ts, all = read.reverse ++ ts ∧ Lexed c ts := by
  induction n generalizing c read with
  | zero => cases h
  | succ n ih =>
    rw [tokensFrom] at h
    obtain ⟨⟨t, c₁⟩, hnext, h⟩ := bind_eq_ok_iff.mp h
    by_cases hkind : t.kind = .finish
    · simp only [hkind, if_true] at h
      cases h
      exact ⟨[t], by simp, .finish hnext hkind⟩
    · simp only [hkind, if_false] at h
      obtain ⟨ts, rfl, hts⟩ := ih h
      exact ⟨t :: ts, by simp, .cons hnext hkind hts⟩

/-! ### White space -/

/-- Characters that begin a token. -/
def Solid (cs : List Char) : Prop :=
  ∃ c rest, cs = c :: rest ∧ c ≠ '\n' ∧ Text.isBlank c = false ∧ c ≠ '/'

theorem skipTrivia_solid {cs : List Char} (h : Solid cs) (newline : Bool) (p : Position) :
    skipTrivia false newline p cs = (newline, ⟨p, cs⟩) := by
  obtain ⟨c, rest, rfl, hline, hblank, hslash⟩ := h
  simp [skipTrivia, hline, hblank, hslash]

theorem nextToken_space (p : Position) (cs : List Char) :
    nextToken ⟨p, ' ' :: cs⟩ = nextToken ⟨p.advance ' ', cs⟩ := rfl

theorem nextToken_solid {p : Position} {cs : List Char} {kind : Token.Kind} {c : Cursor}
    (h : Solid cs) (hscan : scanKind ⟨p, cs⟩ = .ok (kind, c)) :
    nextToken ⟨p, cs⟩ = .ok (⟨kind, p, c.position, false⟩, c) := by
  simp [nextToken, skipTrivia_solid h, hscan, bind, Except.bind, pure, Except.pure]

/-! ### Spelling -/

/-- With this rest behind it, a text is read as tokens of these kinds, on one line. -/
structure Spells (cs : List Char) (kinds : List Token.Kind) (rest : List Char) : Prop where
  short : kinds.length ≤ cs.length
  lexes (p : Position) : ∃ ts p', Lexes ⟨p, cs ++ rest⟩ ts ⟨p', rest⟩ ∧
    ts.map Token.kind = kinds ∧ ∀ t ∈ ts, t.newlineBefore = false

namespace Spells

variable {cs cs' rest : List Char} {kinds kinds' : List Token.Kind}

theorem nil (rest : List Char) : Spells [] [] rest :=
  ⟨Nat.le_refl _, fun p => ⟨[], p, .nil, rfl, fun _ h => nomatch h⟩⟩

theorem append (h : Spells cs kinds (cs' ++ rest)) (h' : Spells cs' kinds' rest) :
    Spells (cs ++ cs') (kinds ++ kinds') rest := by
  refine ⟨?_, fun p => ?_⟩
  · have hshort := h.short
    have hshort' := h'.short
    simp only [List.length_append]
    omega
  · obtain ⟨ts, p₁, hts, rfl, hline⟩ := h.lexes p
    obtain ⟨ts', p', hts', rfl, hline'⟩ := h'.lexes p₁
    refine ⟨ts ++ ts', p', ?_, List.map_append, List.forall_mem_append.mpr ⟨hline, hline'⟩⟩
    rw [List.append_assoc]
    exact hts.append hts'

theorem cons {kind : Token.Kind} (h : Spells cs [kind] (cs' ++ rest))
    (h' : Spells cs' kinds rest) : Spells (cs ++ cs') (kind :: kinds) rest :=
  h.append h'

theorem space (h : Spells cs kinds rest) (hne : kinds ≠ []) :
    Spells (' ' :: cs) kinds rest := by
  refine ⟨Nat.le_succ_of_le h.short, fun p => ?_⟩
  obtain ⟨ts, p', hts, rfl, hline⟩ := h.lexes (p.advance ' ')
  exact ⟨ts, p', hts.congr (by simpa using hne) (nextToken_space p _), rfl, hline⟩

/-- A text that begins no white space and is scanned as one token. -/
theorem single {kind : Token.Kind} (hne : cs ≠ []) (h : Solid (cs ++ rest))
    (hkind : kind ≠ .finish)
    (hscan : ∀ p, ∃ p', scanKind ⟨p, cs ++ rest⟩ = .ok (kind, ⟨p', rest⟩)) :
    Spells cs [kind] rest := by
  refine ⟨List.length_pos_iff.mpr hne, fun p => ?_⟩
  obtain ⟨p', hp'⟩ := hscan p
  refine ⟨[⟨kind, p, p', false⟩], p', ?_, rfl, by simp⟩
  exact .cons (nextToken_solid h hp') hkind .nil

/-- A text that spells tokens and nothing else has these and the end. -/
theorem tokens (h : Spells cs kinds []) :
    ∃ ts, tokens (String.ofList cs) = .ok ts ∧ ts.map Token.kind = kinds ++ [.finish] ∧
      ∀ t ∈ ts, t.newlineBefore = false := by
  obtain ⟨ts, p', hts, rfl, hline⟩ := h.lexes .start
  rw [List.append_nil] at hts
  have hall := hts.lexed (.finish (t := ⟨.finish, p', p', false⟩) rfl rfl)
  refine ⟨ts ++ [⟨.finish, p', p', false⟩], ?_, List.map_append, ?_⟩
  · have hshort := h.short
    rw [List.length_map] at hshort
    rw [Lexer.tokens, String.toList_ofList, hall.tokensFrom (by simpa using hshort)]
    rfl
  · exact List.forall_mem_append.mpr ⟨hline, by simp⟩

end Spells

/-! ### Symbols -/

/-- The symbols that no further character makes longer. -/
def isShort (c : Char) : Bool :=
  c ∈ ['(', ')', '[', ']', '\x7b', '\x7d', ',', ':', '-']

theorem doubleSymbol?_of_isShort {c : Char} (h : isShort c = true) (d : Char) :
    doubleSymbol? c d = none := by
  simp only [isShort, decide_eq_true_eq, List.mem_cons, List.not_mem_nil, or_false] at h
  rcases h with rfl | rfl | rfl | rfl | rfl | rfl | rfl | rfl | rfl <;> rfl

theorem Spells.symbol {c : Char} {s : Symbol} (h : isShort c = true)
    (hs : singleSymbol? c = some s) (rest : List Char) : Spells [c] [.symbol s] rest := by
  have hdouble : (rest.head?).bind (doubleSymbol? c) = none := by
    rcases rest with _ | ⟨d, rest⟩
    · rfl
    · exact doubleSymbol?_of_isShort h d
  have hclass : c ≠ '\n' ∧ Text.isBlank c = false ∧ c ≠ '/' ∧ Text.isDigit c = false ∧
      startsWord c = false ∧ c ≠ '"' := by
    simp only [isShort, decide_eq_true_eq, List.mem_cons, List.not_mem_nil, or_false] at h
    rcases h with rfl | rfl | rfl | rfl | rfl | rfl | rfl | rfl | rfl <;> decide
  obtain ⟨hline, hblank, hslash, hdigit, hword, hquote⟩ := hclass
  refine .single (by simp) ⟨c, rest, rfl, hline, hblank, hslash⟩ (by simp) fun p => ⟨p.shift 1, ?_⟩
  simp [scanKind, hdigit, hword, hquote, scanSymbol, hdouble, hs]

/-! ### Words -/

/-- What stands behind a word or a number without making it longer. -/
def Detached : List Char → Prop
  | [] => True
  | c :: rest => continuesWord c = false ∧ (c = '.' → digitAhead rest = false)

theorem Detached.cons {c : Char} (h : continuesWord c = false) (hc : c ≠ '.') (rest : List Char) :
    Detached (c :: rest) :=
  ⟨h, fun heq => absurd heq hc⟩

theorem isDigit_iff {c : Char} : Text.isDigit c = true ↔ 48 ≤ c.toNat ∧ c.toNat ≤ 57 := by
  simp only [Text.isDigit, Bool.and_eq_true, decide_eq_true_eq, Char.le_def,
    UInt32.le_iff_toNat_le]
  rfl

theorem isAsciiLetter_iff {c : Char} : Text.isAsciiLetter c = true ↔
    (97 ≤ c.toNat ∧ c.toNat ≤ 122) ∨ 65 ≤ c.toNat ∧ c.toNat ≤ 90 := by
  simp only [Text.isAsciiLetter, Bool.or_eq_true, Bool.and_eq_true, decide_eq_true_eq,
    Char.le_def, UInt32.le_iff_toNat_le]
  rfl

theorem toNat_lt_of_isDigit {c : Char} (h : Text.isDigit c = true) : c.toNat < 128 :=
  Nat.lt_of_le_of_lt (isDigit_iff.mp h).2 (by decide)

theorem continuesWord_of_isDigit {c : Char} (h : Text.isDigit c = true) :
    continuesWord c = true := by
  simp [continuesWord, Text.isNumeral, toNat_lt_of_isDigit h, h]

theorem Detached.continuesWord {rest : List Char} (h : Detached rest) :
    ∀ c ∈ rest.head?, continuesWord c = false := by
  rcases rest with _ | ⟨c, rest⟩
  · exact fun _ hc => nomatch hc
  · rintro _ ⟨⟩
    exact h.1

theorem span_word {word rest : List Char} (hword : ∀ c ∈ word, continuesWord c = true)
    (hrest : ∀ c ∈ rest.head?, continuesWord c = false) :
    (word ++ rest).span continuesWord = (word, rest) := by
  have htake : rest.takeWhile continuesWord = [] := by
    rcases rest with _ | ⟨c, rest⟩
    · rfl
    · simp [hrest c rfl]
  have hdrop : rest.dropWhile continuesWord = rest := by
    rcases rest with _ | ⟨c, rest⟩
    · rfl
    · simp [hrest c rfl]
  rw [List.span_eq_takeWhile_dropWhile, List.takeWhile_append_of_pos hword,
    List.dropWhile_append_of_pos hword, htake, hdrop, List.append_nil]

/-- The kind of a word. -/
def wordKind (word : List Char) : Token.Kind :=
  match Keyword.ofText? (String.ofList word) with
  | some k => .keyword k
  | none => .word (String.ofList word)

theorem wordKind_ne_finish (word : List Char) : wordKind word ≠ .finish := by
  unfold wordKind
  split <;> simp

theorem Spells.word {c : Char} {word rest : List Char} (hstart : startsWord c = true)
    (hdigit : Text.isDigit c = false) (hsolid : Solid (c :: (word ++ rest)))
    (hword : (c :: word).all continuesWord = true) (hrest : Detached rest) :
    Spells (c :: word) [wordKind (c :: word)] rest := by
  refine .single (by simp) hsolid (wordKind_ne_finish _) fun p => ⟨p.shift (c :: word).length, ?_⟩
  have hspan := span_word (List.all_eq_true.mp hword) hrest.continuesWord
  rw [List.cons_append] at hspan
  simp only [scanKind, List.cons_append, hdigit, hstart, Bool.false_eq_true, if_false, if_true,
    scanWord, hspan]
  rfl

/-! ### Numbers -/

/-- Digits are read up to the first character that is none. -/
theorem scanDigits_append {digits rest : List Char} (hdigits : ∀ c ∈ digits, Text.isDigit c = true)
    (hrest : ∀ c ∈ rest.head?, Text.isDigit c = false ∧ c ≠ '_') :
    scanDigits (digits ++ rest) = (digits, digits.length, rest) := by
  induction digits with
  | nil =>
    rcases rest with _ | ⟨c, rest⟩
    · rfl
    · obtain ⟨hdigit, hunderscore⟩ := hrest c rfl
      simp [scanDigits, hdigit, hunderscore]
  | cons d digits ih =>
    have hd : Text.isDigit d = true := hdigits d List.mem_cons_self
    have htail := ih fun c hc => hdigits c (List.mem_cons_of_mem _ hc)
    simp [scanDigits, hd, htail]

theorem digitAhead_append {digits : List Char} (hne : digits ≠ [])
    (hdigits : ∀ c ∈ digits, Text.isDigit c = true) (rest : List Char) :
    digitAhead (digits ++ rest) = true := by
  obtain ⟨d, digits, rfl⟩ := List.exists_cons_of_ne_nil hne
  simpa [digitAhead] using hdigits d List.mem_cons_self

/-- A character behind a number does not belong to it. -/
theorem Detached.head {rest : List Char} (h : Detached rest) :
    ∀ c ∈ rest.head?, (Text.isDigit c = false ∧ c ≠ '_') ∧ c ≠ 'e' ∧ c ≠ 'E' := by
  rcases rest with _ | ⟨c, rest⟩
  · exact fun _ hc => nomatch hc
  rintro _ ⟨⟩
  refine ⟨⟨?_, ?_⟩, ?_, ?_⟩
  · by_contra hdigit
    rw [Bool.not_eq_false] at hdigit
    exact absurd (continuesWord_of_isDigit hdigit) (by simp [h.1])
  all_goals
    rintro rfl
    exact absurd h.1 (by decide)

theorem Detached.scanFraction {rest : List Char} (h : Detached rest) :
    scanFraction rest = none := by
  rcases rest with _ | ⟨c, rest⟩
  · rfl
  by_cases hc : c = '.'
  · subst hc
    simp [Lexer.scanFraction, h.2 rfl]
  · unfold Lexer.scanFraction
    split
    · rename_i heq
      exact absurd (List.cons.inj heq).1 hc
    · rfl

theorem Detached.scanExponent {rest : List Char} (h : Detached rest) :
    scanExponent rest = none := by
  rcases rest with _ | ⟨c, rest⟩
  · rfl
  obtain ⟨-, hlower, hupper⟩ := h.head c rfl
  simp [Lexer.scanExponent, hlower, hupper]

/-- A run of digits with nothing that goes on with it is an integer. -/
theorem scanNumber_of_scanDigits {cs digits rest : List Char} {taken : Nat}
    (hscan : scanDigits (cs ++ rest) = (digits, taken, rest)) (hrest : Detached rest)
    (p : Position) : scanNumber p (cs ++ rest) = (do
      let kind ← integerLiteral p digits
      return (kind, ⟨p.shift taken, rest⟩)) := by
  simp [scanNumber, hscan, hrest.scanFraction, hrest.scanExponent]

/-- Digits of a number that fits in 64 bits. -/
theorem integerLiteral_of_lt {digits : List Char} (h : Number.ofDigits digits < 2 ^ 63)
    (p : Position) :
    integerLiteral p digits = .ok (.integer (Int64.ofInt (Number.ofDigits digits))) := by
  have hinteger : Number.integer? (Number.ofDigits digits) =
      some (Int64.ofInt (Number.ofDigits digits)) := by
    rw [Number.integer?, if_pos]
    constructor
    · exact Int.le_trans (by decide) (Int.natCast_nonneg _)
    · have hmax : Int64.maxValue.toInt = 2 ^ 63 - 1 := by decide
      omega
  rw [integerLiteral, hinteger]

section Numeral

variable {n : Number.Numeral} {rest : List Char}

/-- The exponent of a numeral is read whole. -/
theorem scanExponent_numeral (h : n.WellFormed) (hrest : Detached rest) :
    ∃ taken, scanExponent (n.exponentChars false ++ rest) =
      n.exponent.map fun e => (Number.exponentOf e.1 e.2, taken, rest) := by
  have hstop (c : Char) (hc : c ∈ rest.head?) := (hrest.head c hc).1
  unfold Number.Numeral.exponentChars
  rcases hexponent : n.exponent with _ | ⟨negative, digits⟩
  · exact ⟨0, hrest.scanExponent⟩
  obtain ⟨hne, hdigits⟩ := h.exponent _ hexponent
  have hahead : digitAhead (digits ++ rest) = true := digitAhead_append hne hdigits rest
  have hscan : scanDigits (digits ++ rest) = (digits, digits.length, rest) :=
    scanDigits_append hdigits hstop
  cases negative with
  | true =>
    refine ⟨digits.length + 2, ?_⟩
    simp [scanExponent, scanSigned, hahead, hscan]
  | false =>
    -- without a sign, the first digit is looked at to see that it is none
    obtain ⟨d, digits, rfl⟩ := List.exists_cons_of_ne_nil hne
    obtain ⟨hplus, hminus⟩ := Number.ne_sign_of_isDigit (hdigits d List.mem_cons_self)
    refine ⟨(d :: digits).length + 1, ?_⟩
    rw [List.cons_append] at hahead hscan
    simp [scanExponent, scanSigned, hahead, hscan, hplus, hminus]

theorem head_exponentChars (n : Number.Numeral) (hrest : Detached rest) :
    ∀ c ∈ (n.exponentChars false ++ rest).head?, Text.isDigit c = false ∧ c ≠ '_' := by
  unfold Number.Numeral.exponentChars
  rcases n.exponent with _ | ⟨negative, digits⟩
  · exact fun c hc => (hrest.head c hc).1
  · rintro _ ⟨⟩
    decide

/-- The fraction of a numeral is read whole. -/
theorem scanFraction_numeral (h : n.WellFormed) (hrest : Detached rest) :
    scanFraction ((if n.fraction.isEmpty then [] else '.' :: n.fraction) ++
        (n.exponentChars false ++ rest)) =
      if n.fraction.isEmpty then none
      else some (n.fraction, n.fraction.length + 1, n.exponentChars false ++ rest) := by
  by_cases hempty : n.fraction.isEmpty = true
  · rw [if_pos hempty, if_pos hempty, List.nil_append]
    have hsome : n.exponent.isSome = true := by
      rcases h.marked with hfraction | hexponent
      · exact absurd (List.isEmpty_iff.mp hempty) hfraction
      · exact hexponent
    obtain ⟨⟨negative, digits⟩, he⟩ := Option.isSome_iff_exists.mp hsome
    simp [Number.Numeral.exponentChars, he, scanFraction]
  · rw [if_neg hempty, if_neg hempty]
    have hne : n.fraction ≠ [] := fun hnil => hempty (List.isEmpty_iff.mpr hnil)
    have hahead := digitAhead_append hne h.fraction (n.exponentChars false ++ rest)
    have hscan := scanDigits_append h.fraction (head_exponentChars n hrest)
    simp [scanFraction, hahead, hscan]

/-- A numeral with a finite double is read as that. -/
theorem scanNumber_numeral (h : n.WellFormed) (hrest : Detached rest)
    (hfinite : n.decimal.toDouble.isFinite = true) (p : Position) :
    ∃ p', scanNumber p (n.chars false ++ rest) = .ok (.number n.decimal.toDouble, ⟨p', rest⟩) := by
  have hliteral : numberLiteral p n.decimal = .ok (.number n.decimal.toDouble) := by
    simp [numberLiteral, hfinite]
  have hhead : ∀ c ∈ ((if n.fraction.isEmpty then [] else '.' :: n.fraction) ++
      (n.exponentChars false ++ rest)).head?, Text.isDigit c = false ∧ c ≠ '_' := by
    split_ifs
    · exact head_exponentChars n hrest
    · rintro _ ⟨⟩
      decide
  have hwhole := scanDigits_append h.whole.2 hhead
  have hfraction := scanFraction_numeral h hrest
  obtain ⟨taken, hexponent⟩ := scanExponent_numeral h hrest
  have hchars : n.chars false ++ rest = n.whole ++
      ((if n.fraction.isEmpty then [] else '.' :: n.fraction) ++
        (n.exponentChars false ++ rest)) := by
    simp [Number.Numeral.chars]
  rw [hchars]
  simp only [scanNumber, hwhole, hfraction]
  rcases hparts : n.exponent with _ | ⟨negative, digits⟩
  · have hempty : n.fraction.isEmpty = false := by simpa [hparts] using h.marked
    have hnone : n.exponentChars false = [] := by simp [Number.Numeral.exponentChars, hparts]
    have hdecimal : n.decimal =
        ⟨Number.ofDigits (n.whole ++ n.fraction), -(n.fraction.length : Int)⟩ := by
      simp [Number.Numeral.decimal, Number.Numeral.power, hparts]
    rw [hdecimal] at hliteral ⊢
    refine ⟨p.shift (n.whole.length + (n.fraction.length + 1)), ?_⟩
    simp [hempty, hnone, hrest.scanExponent, hliteral, bind, Except.bind, pure, Except.pure]
  · rw [hparts] at hexponent
    have hdecimal : n.decimal = ⟨Number.ofDigits (n.whole ++ n.fraction),
        Number.exponentOf negative digits - n.fraction.length⟩ := by
      simp [Number.Numeral.decimal, Number.Numeral.power, hparts]
    rw [hdecimal] at hliteral ⊢
    by_cases hempty : n.fraction.isEmpty = true
    · rw [List.isEmpty_iff.mp hempty] at hliteral ⊢
      refine ⟨p.shift (n.whole.length + taken), ?_⟩
      simp only [List.append_nil, List.length_nil, Int.ofNat_zero, Int.sub_zero] at hliteral ⊢
      simp [hexponent, hliteral, bind, Except.bind, pure, Except.pure]
    · refine ⟨p.shift (n.whole.length + (n.fraction.length + 1) + taken), ?_⟩
      simp [hempty, hexponent, hliteral, bind, Except.bind, pure, Except.pure]

end Numeral

/-! ### Strings -/

/-- Every control character is read back from its code point. -/
theorem codePoint?_toDigits : ∀ n < 160, codePoint? (Nat.toDigits 16 n) = some (Char.ofNat n) ∧
    '\x7d' ∉ Nat.toDigits 16 n := by
  decide +kernel

theorem scanString_code (start : Position) (decoded read : List Char) {digits : List Char}
    (rest : List Char) (hdigits : '\x7d' ∉ digits) (p : Position) :
    ∃ p', scanString start (.code read) p decoded (digits ++ rest) =
      scanString start (.code (digits.reverse ++ read)) p' decoded rest := by
  induction digits generalizing p read with
  | nil => exact ⟨p, rfl⟩
  | cons d digits ih =>
    rw [List.mem_cons, not_or] at hdigits
    obtain ⟨p', hp'⟩ := ih (d :: read) hdigits.2 (p.advance d)
    refine ⟨p', ?_⟩
    rw [List.cons_append, scanString, if_neg (Ne.symm hdigits.1), hp', List.reverse_cons,
      List.append_assoc, List.singleton_append]

/-- A character is read back from its spelling in a string. -/
theorem scanString_escapeChar (start : Position) (c : Char) (decoded rest : List Char)
    (p : Position) : ∃ p', scanString start .item p decoded (Text.escapeChar c ++ rest) =
      scanString start .item p' (c :: decoded) rest := by
  unfold Text.escapeChar
  split
  case h_7 hquote hslash hline hreturn htab hzero =>
    by_cases hcontrol : Text.isControl c = true
    · have hlt : c.toNat < 160 := by
        simp only [Text.isControl, Bool.or_eq_true, Bool.and_eq_true, decide_eq_true_eq] at hcontrol
        omega
      obtain ⟨hcode, hbrace⟩ := codePoint?_toDigits c.toNat hlt
      rw [Char.ofNat_toNat] at hcode
      obtain ⟨p', hp'⟩ := scanString_code start decoded []
        ('\x7d' :: rest) hbrace (((p.advance '\\').advance 'u').advance '\x7b')
      refine ⟨p'.advance '\x7d', ?_⟩
      rw [if_pos hcontrol]
      simp [scanString, hp', hcode]
    · refine ⟨p.advance c, ?_⟩
      rw [if_neg hcontrol, List.singleton_append, scanString, if_neg hquote, if_neg hslash]
  all_goals exact ⟨_, rfl⟩

theorem scanString_quoted (start : Position) (text decoded rest : List Char) (p : Position) :
    ∃ p', scanString start .item p decoded (text.flatMap Text.escapeChar ++ '"' :: rest) =
      .ok (.string (String.ofList (decoded.reverse ++ text)), ⟨p', rest⟩) := by
  induction text generalizing decoded p with
  | nil => exact ⟨p.advance '"', by simp [scanString]⟩
  | cons c text ih =>
    obtain ⟨p₁, hp₁⟩ := scanString_escapeChar start c decoded
      (text.flatMap Text.escapeChar ++ '"' :: rest) p
    obtain ⟨p', hp'⟩ := ih (c :: decoded) p₁
    refine ⟨p', ?_⟩
    rw [List.flatMap_cons, List.append_assoc, hp₁, hp']
    simp

theorem Spells.quote (text : String) (rest : List Char) :
    Spells (Text.quote text) [.string text] rest := by
  refine .single (by simp [Text.quote]) ⟨'"', _, rfl, by decide, by decide, by decide⟩ (by simp)
    fun p => ?_
  obtain ⟨p', hp'⟩ := scanString_quoted p text.toList [] rest (p.advance '"')
  refine ⟨p', ?_⟩
  have hclass : Text.isDigit '"' = false ∧ startsWord '"' = false := by decide
  simpa [scanKind, Text.quote, hclass] using hp'

end Lexer

/-! ### Values -/

namespace Value

open Lexer

/-- The tokens of a sign. -/
def signKinds (negative : Bool) : List Token.Kind :=
  if negative then [.symbol .minus] else []

/-- The tokens of the source form of a double. -/
def numberKinds (x : Double) : List Token.Kind :=
  if x.isUndefined then [.word "NaN"]
  else signKinds x.negative ++ [if x.isFinite then .number x.abs else .word "inf"]

/-- The tokens of the source form of an integer. -/
def integerKinds (n : Int64) : List Token.Kind :=
  if n = Int64.minValue then
    [.symbol .openParen, .symbol .minus, .integer Int64.maxValue, .symbol .minus, .integer 1,
      .symbol .closeParen]
  else signKinds (n.toInt < 0) ++ [.integer (Int64.ofInt n.toInt.natAbs)]

mutual

/-- The tokens of the source form of a value. -/
def kinds : Value → List Token.Kind
  | .string text => [.string text]
  | .number x => numberKinds x
  | .integer n => integerKinds n
  | .boolean flag => [.keyword (if flag then .true_ else .false_)]
  | .null => [.keyword .null]
  | .array items => .symbol .openBracket :: (kindsItems items ++ [.symbol .closeBracket])
  | .object fields => .symbol .openBrace :: (kindsFields fields ++ [.symbol .closeBrace])

/-- The tokens of items, parted by commas. -/
def kindsItems : List Value → List Token.Kind
  | [] => []
  | [item] => item.kinds
  | item :: rest => item.kinds ++ .symbol .comma :: kindsItems rest

/-- The tokens of fields, parted by commas. -/
def kindsFields : List (String × Value) → List Token.Kind
  | [] => []
  | [(key, value)] => .string key :: .symbol .colon :: value.kinds
  | (key, value) :: rest =>
    .string key :: .symbol .colon :: (value.kinds ++ .symbol .comma :: kindsFields rest)

end

theorem kinds_ne_nil (v : Value) : v.kinds ≠ [] := by
  cases v with
  | number x => unfold kinds numberKinds; split_ifs <;> simp
  | integer n => unfold kinds integerKinds; split_ifs <;> simp
  | _ => simp [kinds]

theorem kindsItems_cons (item second : Value) (rest : List Value) :
    kindsItems (item :: second :: rest) =
      item.kinds ++ .symbol .comma :: kindsItems (second :: rest) := rfl

theorem kindsFields_cons (key : String) (value : Value) (second : String × Value)
    (rest : List (String × Value)) :
    kindsFields ((key, value) :: second :: rest) =
      .string key :: .symbol .colon ::
        (value.kinds ++ .symbol .comma :: kindsFields (second :: rest)) := rfl

theorem kindsItems_ne_nil (item : Value) (rest : List Value) : kindsItems (item :: rest) ≠ [] := by
  rcases rest with _ | ⟨next, rest⟩
  · simpa [kindsItems] using item.kinds_ne_nil
  · simp [kindsItems]

theorem kindsFields_ne_nil (field : String × Value) (rest : List (String × Value)) :
    kindsFields (field :: rest) ≠ [] := by
  rcases rest with _ | ⟨next, rest⟩ <;> simp [kindsFields]

end Value

namespace Lexer

theorem solid_of_isDigit {c : Char} (h : Text.isDigit c = true) (rest : List Char) :
    Solid (c :: rest) := by
  have hrange : 48 ≤ c.toNat ∧ c.toNat ≤ 57 := by
    simpa [Text.isDigit, Char.le_def, UInt32.le_iff_toNat_le] using h
  refine ⟨c, rest, rfl, ?_, ?_, ?_⟩
  · rintro rfl
    exact absurd h (by decide)
  · simp [Text.isBlank, Text.inRanges, Text.blankRanges]
    omega
  · rintro rfl
    exact absurd h (by decide)

namespace Spells

variable {rest : List Char}

/-- A text whose first character is a digit and which is read as a number. -/
theorem number {cs : List Char} {kind : Token.Kind} (hne : cs ≠ [])
    (hdigit : ∀ c ∈ cs.head?, Text.isDigit c = true) (hkind : kind ≠ .finish)
    (hscan : ∀ p, ∃ p', scanNumber p (cs ++ rest) = .ok (kind, ⟨p', rest⟩)) :
    Spells cs [kind] rest := by
  obtain ⟨d, cs, rfl⟩ := List.exists_cons_of_ne_nil hne
  have hd : Text.isDigit d = true := hdigit d rfl
  refine .single (by simp) (solid_of_isDigit hd _) hkind fun p => ?_
  obtain ⟨p', hp'⟩ := hscan p
  exact ⟨p', by simpa [scanKind, hd] using hp'⟩

theorem numeral {n : Number.Numeral} (h : n.WellFormed)
    (hfinite : n.decimal.toDouble.isFinite = true) (hrest : Detached rest) :
    Spells (n.chars false) [.number n.decimal.toDouble] rest := by
  obtain ⟨d, whole, hwhole⟩ := List.exists_cons_of_ne_nil h.whole.1
  refine number ?_ ?_ (by simp) (scanNumber_numeral h hrest hfinite)
  · simp [Number.Numeral.chars, hwhole]
  · rw [Number.Numeral.chars, hwhole]
    rintro _ ⟨⟩
    exact h.whole.2 d (by simp [hwhole])

/-- The digits of a natural number that fits in 64 bits. -/
theorem natural {n : Nat} (hn : n < 2 ^ 63) (hrest : Detached rest) :
    Spells (Nat.toDigits 10 n) [.integer (Int64.ofInt n)] rest := by
  have hdigits (c : Char) (hc : c ∈ Nat.toDigits 10 n) := Number.isDigit_toDigits hc
  have hscan := scanDigits_append hdigits fun c hc => (hrest.head c hc).1
  have hvalue : Number.ofDigits (Nat.toDigits 10 n) < 2 ^ 63 := by rwa [Number.ofDigits_toDigits]
  refine number Nat.toDigits_ne_nil (fun c hc => hdigits c (List.mem_of_mem_head? hc)) (by simp)
    fun p => ⟨p.shift (Nat.toDigits 10 n).length, ?_⟩
  rw [scanNumber_of_scanDigits hscan hrest, integerLiteral_of_lt hvalue, Number.ofDigits_toDigits]
  rfl

theorem sign (negative : Bool) (rest : List Char) :
    Spells (if negative then ['-'] else []) (Value.signKinds negative) rest := by
  cases negative with
  | true => exact symbol (by decide) rfl rest
  | false => exact nil rest

end Spells

end Lexer

namespace Value

open Lexer

theorem spells_number (x : Double) {rest : List Char} (hrest : Detached rest) :
    Spells (Number.Layout.literal.chars x) (numberKinds x) rest := by
  have hinf (negative : Bool) : Spells ((if negative then ['-'] else []) ++ ['i', 'n', 'f'])
      (signKinds negative ++ [.word "inf"]) rest :=
    (Spells.sign negative _).append (.word (by decide) (by decide)
      ⟨'i', _, rfl, by decide, by decide, by decide⟩ (by decide) hrest)
  unfold Number.Layout.chars numberKinds
  rcases he : x.exact? with _ | e
  · have hfinite : x.isFinite = false := by
      by_contra hfinite
      rw [Bool.not_eq_false] at hfinite
      unfold Double.exact? at he
      simp only [hfinite, Bool.not_true, Bool.false_eq_true, if_false] at he
      split_ifs at he
    by_cases hundefined : x.isUndefined = true
    · rw [if_pos hundefined]
      simp only [hundefined, if_true]
      exact .word (by decide) (by decide) ⟨'N', _, rfl, by decide, by decide, by decide⟩
        (by decide) hrest
    · simp only [hundefined, hfinite, if_false, Bool.false_eq_true]
      cases hsign : x.negative with
      | true => exact hinf true
      | false => exact hinf false
  · obtain ⟨hnegative, hlt, -⟩ := Double.exact_spec he
    have hfinite : x.isFinite = true := by simpa [Double.isFinite] using hlt
    obtain ⟨n, hwell, hchars, hdouble⟩ := Number.Layout.writeMagnitude_numeral .literal rfl he
    have hmagnitude : n.decimal.toDouble.isFinite = true := by
      rw [hdouble]
      exact Double.isFinite_ofParts _ hlt
    simp only [Double.isUndefined_of_isFinite hfinite, hfinite, hnegative, Bool.false_eq_true,
      if_false, if_true]
    rw [← hchars, Double.abs, ← hdouble]
    exact (Spells.sign x.negative _).append (.numeral hwell hmagnitude hrest)

theorem natAbs_lt {n : Int64} (hmin : n ≠ Int64.minValue) : n.toInt.natAbs < 2 ^ 63 := by
  have hlow := n.le_toInt
  have hhigh := n.toInt_lt
  have hne : n.toInt ≠ -2 ^ 63 := fun h => hmin (Int64.toInt.inj (h.trans (by decide)))
  omega

theorem spells_integer (n : Int64) {rest : List Char} (hrest : Detached rest) :
    Spells (integerChars n) (integerKinds n) rest := by
  unfold integerChars integerKinds
  by_cases hmin : n = Int64.minValue
  · rw [if_pos hmin, if_pos hmin]
    have hsplit : "(-9223372036854775807 - 1)".toList =
        ['('] ++ (['-'] ++ (Nat.toDigits 10 9223372036854775807 ++
          (' ' :: ['-'] ++ (' ' :: Nat.toDigits 10 1 ++ [')'])))) := by
      decide +kernel
    rw [hsplit]
    have hspace (cs : List Char) : Detached (' ' :: cs) := .cons (by decide) (by decide) cs
    have hparen (cs : List Char) : Detached (')' :: cs) := .cons (by decide) (by decide) cs
    refine .cons (.symbol (by decide) rfl _) (.cons (.symbol (by decide) rfl _) ?_)
    refine .cons (.natural (by decide) (hspace _)) ?_
    refine .cons (.space (.symbol (by decide) rfl _) (by simp)) ?_
    refine .cons (.space (.natural (by decide) (hparen _)) (by simp)) ?_
    exact .symbol (by decide) rfl _
  · have hbound := natAbs_lt hmin
    have hsign := Spells.sign (n.toInt < 0) (Nat.toDigits 10 n.toInt.natAbs ++ rest)
    rw [if_neg hmin, if_neg hmin, Number.integerChars]
    simp only [decide_eq_true_eq] at hsign
    exact hsign.append (.natural hbound hrest)

theorem spells_boolean (flag : Bool) {rest : List Char} (hrest : Detached rest) :
    Spells (boolean flag).renderChars (boolean flag).kinds rest := by
  cases flag with
  | true =>
    exact .word (by decide) (by decide) ⟨'t', _, rfl, by decide, by decide, by decide⟩
      (by decide) hrest
  | false =>
    exact .word (by decide) (by decide) ⟨'f', _, rfl, by decide, by decide, by decide⟩
      (by decide) hrest

theorem spells_null {rest : List Char} (hrest : Detached rest) :
    Spells null.renderChars null.kinds rest :=
  .word (by decide) (by decide) ⟨'n', _, rfl, by decide, by decide, by decide⟩ (by decide) hrest

/-- Items parted by commas. -/
theorem spells_items {items : List Value}
    (h : ∀ item ∈ items, ∀ rest, Detached rest → Spells item.renderChars item.kinds rest)
    {rest : List Char} (hrest : Detached rest) :
    Spells (renderItems items) (kindsItems items) rest := by
  induction items with
  | nil => exact .nil rest
  | cons item items ih =>
    rcases items with _ | ⟨next, items⟩
    · exact h item List.mem_cons_self rest hrest
    · have hmore := ih fun other hother => h other (List.mem_cons_of_mem _ hother)
      have hcomma (cs : List Char) : Detached (',' :: cs) := .cons (by decide) (by decide) cs
      refine (h item List.mem_cons_self _ (hcomma _)).append ?_
      exact .cons (.symbol (by decide) rfl _) (hmore.space (kindsItems_ne_nil next items))

/-- Quoted keys with their values, parted by commas. -/
theorem spells_fields {fields : List (String × Value)}
    (h : ∀ field ∈ fields, ∀ rest, Detached rest → Spells field.2.renderChars field.2.kinds rest)
    {rest : List Char} (hrest : Detached rest) :
    Spells (renderFields fields) (kindsFields fields) rest := by
  induction fields with
  | nil => exact .nil rest
  | cons field fields ih =>
    obtain ⟨key, value⟩ := field
    have hvalue := h (key, value) List.mem_cons_self
    rcases fields with _ | ⟨next, fields⟩
    · exact .cons (.quote key _) (.cons (.symbol (by decide) rfl _)
        ((hvalue rest hrest).space value.kinds_ne_nil))
    · have hmore := ih fun other hother => h other (List.mem_cons_of_mem _ hother)
      have hcomma (cs : List Char) : Detached (',' :: cs) := .cons (by decide) (by decide) cs
      refine .cons (.quote key _) (.cons (.symbol (by decide) rfl _) (.space ?_ (by simp)))
      refine (hvalue _ (hcomma _)).append ?_
      exact .cons (.symbol (by decide) rfl _) (hmore.space (kindsFields_ne_nil next fields))

/-- The source form of a value spells its tokens, whatever stands detached behind it. -/
theorem spells_render (v : Value) {rest : List Char} (hrest : Detached rest) :
    Spells v.renderChars v.kinds rest := by
  induction v generalizing rest with
  | string text => exact .quote text rest
  | number x => exact spells_number x hrest
  | integer n => exact spells_integer n hrest
  | boolean flag => exact spells_boolean flag hrest
  | null => exact spells_null hrest
  | array items ih =>
    have hclose (cs : List Char) : Detached (']' :: cs) := .cons (by decide) (by decide) cs
    refine .cons (.symbol (by decide) rfl _) ?_
    exact (spells_items (fun item hitem rest => ih item hitem) (hclose rest)).append
      (.symbol (by decide) rfl rest)
  | object fields ih =>
    have hclose (cs : List Char) : Detached ('\x7d' :: cs) := .cons (by decide) (by decide) cs
    refine .cons (.symbol (by decide) rfl _) ?_
    exact (spells_fields (fun field hfield rest => ih field hfield) (hclose rest)).append
      (.symbol (by decide) rfl rest)

end Value

end Covenant
